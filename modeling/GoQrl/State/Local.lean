import GoQrl.State.Revert

/-!
# GoQrl.State.Local

The part of the world that belongs to one address.

Go visits the entries of a map in an order that is not specified.  The loops over the changed
accounts depend at each address on the part of the world at this address only, so that the
world after such a loop is described by the set of addresses the loop went through
(`World.mapOn`) and not by their order; one more address is one more change
(`World.setPart_mapOn`).
-/

namespace GoQrl.State

open Rlp Mpt Mpt.Tree GoQrl.Types Function

/-! ## changes of some keys -/

section

open Classical in
/-- The values after a change at the keys in `P`. -/
noncomputable def onKeys {K α : Type} (P : K → Prop) (new old : K → α) (k : K) : α :=
  if P k then new k else old k

variable {K α : Type} {P : K → Prop} (new old : K → α) {k : K}

theorem onKeys_self (hP : P k) : onKeys P new old k = new k := if_pos hP

theorem onKeys_other (hP : ¬ P k) : onKeys P new old k = old k := if_neg hP

/-- One more key. -/
theorem onKeys_insert [DecidableEq K] :
    update (onKeys P new old) k (new k) = onKeys (fun k' => P k' ∨ k' = k) new old := by
  funext k'
  by_cases hk : k' = k
  · simp [hk, onKeys]
  · rw [update_of_ne hk, onKeys, onKeys, or_iff_left hk]

variable [Keccak] (key : K → Bytes) (oldHash : Hash → α)

open Classical in
/-- The values at the hashes after a change at the keys in `P`. -/
noncomputable def onHashes (P : K → Prop) (new : K → α) (old : Hash → α) (h : Hash) : α :=
  if hp : ∃ k, P k ∧ Keccak.hash (key k) = h then new hp.choose else old h

variable {key}

theorem onHashes_self (hkeys : KeysApart key) (hP : P k) :
    onHashes key P new oldHash (Keccak.hash (key k)) = new k := by
  have hp : ∃ k', P k' ∧ Keccak.hash (key k') = Keccak.hash (key k) := ⟨k, hP, rfl⟩
  rw [onHashes, dif_pos hp, hkeys _ _ hp.choose_spec.2]

theorem onHashes_other {h : Hash} (hP : ∀ k, P k → Keccak.hash (key k) ≠ h) :
    onHashes key P new oldHash h = oldHash h := by
  rw [onHashes, dif_neg]
  rintro ⟨k, hk, heq⟩
  exact hP k hk heq

/-- One more key. -/
theorem onHashes_insert (hkeys : KeysApart key) :
    update (onHashes key P new oldHash) (Keccak.hash (key k)) (new k) =
      onHashes key (fun k' => P k' ∨ k' = k) new oldHash := by
  funext h
  by_cases hh : h = Keccak.hash (key k)
  · subst hh
    rw [update_self, onHashes_self new oldHash hkeys (.inr rfl)]
  · rw [update_of_ne hh]
    by_cases hp : ∃ k', P k' ∧ Keccak.hash (key k') = h
    · obtain ⟨k', hk', rfl⟩ := hp
      rw [onHashes_self new oldHash hkeys hk', onHashes_self new oldHash hkeys (.inl hk')]
    · rw [onHashes_other new oldHash fun k' hk' heq => hp ⟨k', hk', heq⟩, onHashes_other]
      rintro k' (hk' | rfl) heq
      · exact hp ⟨k', hk', heq⟩
      · exact hh heq.symm

end

/-! ## the world at an address -/

/-- The part of the world that belongs to one address. -/
structure Local where
  account : Option View
  written : Option StateAccount
  destruct : Option (Option StateAccount)
  pending : Option Unit
  dirty : Option Unit
  accountDiff : Option Bytes
  storageDiff : Option (Hash → Option Bytes)
  accountOrigin : Option Bytes
  storageOrigin : Option (Hash → Option Bytes)

variable [Keccak]

/-- The hash keeps the addresses apart. -/
abbrev AddressesApart : Prop := KeysApart (Fixed.bytes : Address → Bytes)

namespace World

/-- The world at an address. -/
def part (w : World) (a : Address) : Local where
  account := w.accounts a
  written := w.written a
  destruct := w.destruct a
  pending := w.pending a
  dirty := w.dirty a
  accountDiff := w.accountDiffs (Keccak.hash a.bytes)
  storageDiff := w.storageDiffs (Keccak.hash a.bytes)
  accountOrigin := w.accountOrigins a
  storageOrigin := w.storageOrigins a

/-- The world with another part at an address. -/
def setPart (w : World) (a : Address) (l : Local) : World :=
  { w with
    accounts := Function.update w.accounts a l.account
    written := Function.update w.written a l.written
    destruct := Function.update w.destruct a l.destruct
    pending := Function.update w.pending a l.pending
    dirty := Function.update w.dirty a l.dirty
    accountDiffs := Function.update w.accountDiffs (Keccak.hash a.bytes) l.accountDiff
    storageDiffs := Function.update w.storageDiffs (Keccak.hash a.bytes) l.storageDiff
    accountOrigins := Function.update w.accountOrigins a l.accountOrigin
    storageOrigins := Function.update w.storageOrigins a l.storageOrigin }

/-- The world after a change of the addresses in `P`. -/
noncomputable def mapOn (w : World) (P : Address → Prop) (f : Local → Local) : World :=
  { w with
    accounts := onKeys P (fun a => (f (w.part a)).account) w.accounts
    written := onKeys P (fun a => (f (w.part a)).written) w.written
    destruct := onKeys P (fun a => (f (w.part a)).destruct) w.destruct
    pending := onKeys P (fun a => (f (w.part a)).pending) w.pending
    dirty := onKeys P (fun a => (f (w.part a)).dirty) w.dirty
    accountDiffs := onHashes Fixed.bytes P (fun a => (f (w.part a)).accountDiff) w.accountDiffs
    storageDiffs := onHashes Fixed.bytes P (fun a => (f (w.part a)).storageDiff) w.storageDiffs
    accountOrigins := onKeys P (fun a => (f (w.part a)).accountOrigin) w.accountOrigins
    storageOrigins := onKeys P (fun a => (f (w.part a)).storageOrigin) w.storageOrigins }

variable {w : World} {P : Address → Prop} {f : Local → Local} {a : Address}

/-- At an address that was not reached the world is the old one. -/
theorem mapOn_part (hkeys : AddressesApart) (hP : ¬ P a) : (w.mapOn P f).part a = w.part a := by
  have hhash : ∀ b, P b → Keccak.hash b.bytes ≠ Keccak.hash a.bytes := fun b hb heq =>
    hP (hkeys _ _ heq ▸ hb)
  simp [part, mapOn, onKeys_other _ _ hP, onHashes_other _ _ hhash]

/-- **One more address** of a loop. -/
theorem setPart_mapOn (hkeys : AddressesApart) (hP : ¬ P a) :
    (w.mapOn P f).setPart a (f ((w.mapOn P f).part a)) = w.mapOn (fun b => P b ∨ b = a) f := by
  rw [mapOn_part hkeys hP]
  simp only [setPart, mapOn]
  rw [onKeys_insert fun b => (f (w.part b)).account, onKeys_insert fun b => (f (w.part b)).written,
    onKeys_insert fun b => (f (w.part b)).destruct, onKeys_insert fun b => (f (w.part b)).pending,
    onKeys_insert fun b => (f (w.part b)).dirty,
    onHashes_insert (fun b => (f (w.part b)).accountDiff) _ hkeys,
    onHashes_insert (fun b => (f (w.part b)).storageDiff) _ hkeys,
    onKeys_insert fun b => (f (w.part b)).accountOrigin,
    onKeys_insert fun b => (f (w.part b)).storageOrigin]

theorem setPart_part (w : World) (a : Address) : w.setPart a (w.part a) = w := by
  simp [setPart, part]

/-- A loop over no address. -/
theorem mapOn_none : w.mapOn (fun _ => False) f = w := by
  have haddress : ∀ {α : Type} (new old : Address → α), onKeys (fun _ => False) new old = old :=
    fun new old => funext fun _ => onKeys_other new old id
  have hhash : ∀ {α : Type} (new : Address → α) (old : Hash → α),
      onHashes Fixed.bytes (fun _ => False) new old = old :=
    fun new old => funext fun _ => onHashes_other new old fun _ hb => hb.elim
  simp [mapOn, haddress, hhash]

end World

end GoQrl.State
