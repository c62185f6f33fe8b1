import GoQrl.Snapshot.Diff

/-!
# GoQrl.Snapshot.Disk

The disk layer of the snapshots: the key-value store with the cache, up to the marker of the
generator.

`DiskOK` says that every key the marker covers has its value of a state, on disk and in the cache.
It is what a read needs (`diskRead_spec`), and `diffToDisk` leads from the state of the disk layer
to that of the layer it writes (`writeDiff_ok`).
-/

namespace GoQrl.Snapshot

open Overlay Function List Option Key DiffData
open State (GoMap foldl_entries foldl_keyed lookup_copy mem_entries nodup_entries)

/-! ## coverage -/

/-- Comparing with two strings put together. -/
theorem lt_append_iff (m a s : Bytes) :
    m < a ++ s ↔ m < a ∨ (m.take a.length = a ∧ m.drop a.length < s) := by
  induction a generalizing m with
  | nil => simp
  | cons x a ih =>
    cases m with
    | nil => simp
    | cons y m =>
      simp only [cons_append, cons_lt_cons_iff, ih, length_cons, take_succ_cons, drop_succ_cons,
        List.cons.injEq]
      tauto

/-- The slots of an account are covered as far as the marker inside of the account says. -/
theorem covered_slot (marker : Option Bytes) (a s : Hash) : covered marker (slot a s).bytes =
      (covered marker a.bytes && covered (Tree.midAccount marker a) s.bytes) := by
  cases marker with
  | none => rfl
  | some m =>
    have hlt := lt_append_iff m a.bytes s.bytes
    by_cases hmid : m.take 32 = a.bytes
    · simp [covered, Tree.midAccount, bytes, hlt, hmid]
    · simp [covered, Tree.midAccount, bytes, hlt, hmid]

/-- The account of a covered key is covered. -/
theorem covered_owner {marker : Option Bytes} {key : Key} (h : covered marker key.bytes = true) :
    covered marker key.owner.bytes = true := by
  cases key with
  | account hash => exact h
  | slot a s =>
    rw [covered_slot, Bool.and_eq_true] at h
    exact h.1

/-! ## reading -/

namespace Tree

variable {F : Type} {marker : Option Bytes} {t : Tree F} {s : State}

/-- Every covered key has its value, on disk and in the cache. -/
structure DiskOK (marker : Option Bytes) (t : Tree F) (s : State) : Prop where
  disk : ∀ key, covered marker key.bytes = true → (t.diskdb key).getD [] = s key
  cache : ∀ key, covered marker key.bytes = true → ∀ blob, t.cache key.bytes = some blob →
    blob = s key

/-- Different keys have different database keys. -/
theorem key_bytes_inj {key key' : Key} (h : key.bytes = key'.bytes) : key = key' := by
  have hlen := congrArg List.length h
  cases key <;> cases key' <;>
    simp only [bytes, length_append, Hash.length_bytes] at h hlen <;> try omega
  · rw [Hash.ext h]
  · obtain ⟨ha, hs⟩ := append_inj h (by rw [Hash.length_bytes, Hash.length_bytes])
    rw [Hash.ext ha, Hash.ext hs]

/-- **Reading the disk layer** gives the value, if the key is covered. -/
theorem diskRead_spec (h : DiskOK marker t s) {dl : DiskLayer} (hlive : dl.stale = false)
    (hmarker : dl.genMarker = marker) (key : Key) :
    (t.diskRead dl key).1 = (if covered marker key.bytes then .ok (s key) else .error .notCovered) ∧
      ∃ cache, (t.diskRead dl key).2 = { t with cache := cache } ∧
        DiskOK marker { t with cache := cache } s := by
  unfold diskRead
  rw [hlive, hmarker]
  cases hcov : covered marker key.bytes with
  | false => exact ⟨rfl, t.cache, rfl, h⟩
  | true =>
    cases hcache : t.cache key.bytes with
    | some blob =>
      exact ⟨congrArg Except.ok (h.cache key hcov blob hcache), t.cache, rfl, h⟩
    | none =>
      refine ⟨congrArg Except.ok (h.disk key hcov), _, rfl, h.disk, fun key' hcov' blob hblob => ?_⟩
      change Function.update t.cache key.bytes _ key'.bytes = some blob at hblob
      by_cases hkey : key' = key
      · subst hkey
        rw [update_self] at hblob
        cases hblob
        exact h.disk key' hcov
      · rw [update_of_ne fun heq => hkey (key_bytes_inj heq)] at hblob
        exact h.cache key' hcov' blob hblob

/-! ## writing -/

/-- Only the database and the cache were changed. -/
def OnDisk (t t' : Tree F) :
    Prop := ∃ diskdb cache, t' = { t with diskdb := diskdb, cache := cache }

theorem OnDisk.trans {t t' t'' : Tree F} (h : OnDisk t t') (h' : OnDisk t' t'') : OnDisk t t'' := by
  obtain ⟨_, _, rfl⟩ := h
  obtain ⟨db, c, rfl⟩ := h'
  exact ⟨db, c, rfl⟩

/-- A loop of writes only changes the disk. -/
theorem OnDisk.foldl {A : Type} {f : Tree F → A → Tree F} (h : ∀ t a, OnDisk t (f t a)) (l : List A)
    (t : Tree F) :
    OnDisk t (l.foldl f t) :=
  foldlRecOn l f ⟨_, _, rfl⟩ fun t' ht a _ => ht.trans (h t' a)

/-- Writes to disk leave the maps of slots alone. -/
theorem OnDisk.slots {t t' : Tree F} (h : OnDisk t t') : t'.slots = t.slots := by
  obtain ⟨_, _, rfl⟩ := h
  rfl

section

variable (marker : Option Bytes)

theorem onDisk_destructAccount (t : Tree F) (hash : Hash) :
    OnDisk t (t.destructAccount marker hash) := by
  unfold Tree.destructAccount
  split <;> exact ⟨_, _, rfl⟩

theorem onDisk_writeAccount (t : Tree F) (e : Hash × Bytes) :
    OnDisk t (t.writeAccount marker e) := by
  unfold Tree.writeAccount
  split <;> exact ⟨_, _, rfl⟩

theorem onDisk_writeSlot (a : Hash) (t : Tree F) (e : Hash × Bytes) :
    OnDisk t (t.writeSlot marker a e) := by
  unfold Tree.writeSlot
  split
  · exact ⟨_, _, rfl⟩
  · split <;> exact ⟨_, _, rfl⟩

theorem onDisk_writeStorage (t : Tree F) (e : Hash × Nat) : OnDisk t (t.writeStorage marker e) := by
  unfold Tree.writeStorage
  split
  · exact ⟨_, _, rfl⟩
  · exact .foldl (onDisk_writeSlot _ e.1) _ t

theorem onDisk_writeDiff (t : Tree F) (d : DiffData) : OnDisk t (t.writeDiff marker d) := by
  refine ((OnDisk.foldl (onDisk_destructAccount marker) (d.destructSet.entries.map fun e =>
    e.1) t).trans
    (OnDisk.foldl (onDisk_writeAccount marker) (d.accountData.entries.map fun e =>
      (e.1, e.2)) _)).trans ?_
  exact OnDisk.foldl (onDisk_writeStorage marker) (d.storageData.entries.map fun e => (e.1, e.2)) _

end

/-- The state without an account. -/
def destructed (s : State) (hash : Hash) :
    State := fun key => if key.owner = hash then [] else s key

/-- The state after the slots of an account were written. -/
def wroteSlots (s : State) (a : Hash) (l : List (Hash × Bytes)) : State :=
  l.foldl (fun s e => Function.update s (.slot a e.1) e.2) s

/-- Slots of other accounts are not written. -/
theorem wroteSlots_of_ne {s : State} {a : Hash} (key : Key) (hne : key.owner ≠ a)
    (l : List (Hash × Bytes)) :
    wroteSlots s a l key = s key := by
  induction l generalizing s with
  | nil => rfl
  | cons e l ih =>
    show wroteSlots (Function.update s _ _) a l key = _
    rw [ih, update_of_ne]
    rintro rfl
    exact hne rfl

namespace DiskOK

variable (h : DiskOK marker t s)
include h

/-- A write to one key. -/
theorem write (key : Key) {value : Option Bytes} {blob : Bytes} (hvalue : value.getD [] = blob) :
    DiskOK marker
      { t with
        diskdb := Function.update t.diskdb key value
        cache := Function.update t.cache key.bytes (some blob) }
      (Function.update s key blob) := by
  constructor
  · intro key' hcov
    show (Function.update t.diskdb key value key').getD [] = _
    by_cases hkey : key' = key
    · subst hkey
      rw [update_self, update_self, hvalue]
    · rw [update_of_ne hkey, update_of_ne hkey]
      exact h.disk key' hcov
  · intro key' hcov b hb
    change Function.update t.cache key.bytes (some blob) key'.bytes = some b at hb
    by_cases hkey : key' = key
    · subst hkey
      rw [update_self] at hb ⊢
      exact (some.inj hb).symm
    · rw [update_of_ne fun heq => hkey (key_bytes_inj heq)] at hb
      rw [update_of_ne hkey]
      exact h.cache key' hcov b hb

/-- What is not covered does not matter. -/
theorem congr {s' : State} (hs : ∀ key, covered marker key.bytes = true → s' key = s key) :
    DiskOK marker t s' :=
  ⟨fun key hcov => (h.disk key hcov).trans (hs key hcov).symm,
    fun key hcov blob hblob => (h.cache key hcov blob hblob).trans (hs key hcov).symm⟩

/-- A key that the generator has not reached may change. -/
theorem update (key : Key) (hcov : covered marker key.bytes = false) (blob : Bytes) :
    DiskOK marker t (Function.update s key blob) := by
  refine h.congr fun key' hcov' => update_of_ne ?_ ..
  rintro rfl
  simp [hcov] at hcov'

/-- A destructed account is gone from disk, with its slots. -/
theorem destructAccount (hash : Hash) :
    DiskOK marker (t.destructAccount marker hash) (destructed s hash) := by
  unfold Tree.destructAccount
  cases hcov : covered marker hash.bytes with
  | false =>
    refine h.congr fun key hkey => if_neg ?_
    rintro rfl
    simp [covered_owner hkey] at hcov
  | true =>
    refine ⟨fun key hkey => ?_, fun key hkey blob hblob => ?_⟩
    · simp only [Bool.not_true, Bool.false_eq_true, if_false, destructed]
      split
      · rfl
      · exact h.disk key hkey
    · simp only [Bool.not_true, Bool.false_eq_true, if_false] at hblob
      unfold destructed
      cases key with
      | account hash' =>
        by_cases hh : hash' = hash
        · subst hh
          simp only [bytes, if_true] at hblob
          simp only [owner, if_true]
          exact (some.inj hblob).symm
        · have hne : hash'.bytes ≠ hash.bytes := fun heq => hh (Hash.ext heq)
          simp only [bytes, hne, if_false, Hash.length_bytes] at hblob
          rw [if_neg (show ¬ (account hash').owner = hash from hh)]
          exact h.cache _ hkey blob (by simpa [bytes] using hblob)
      | slot a sl =>
        have hne : (slot a sl).bytes ≠ hash.bytes := by
          intro heq
          have hlen := congrArg List.length heq
          simp [bytes] at hlen
        have htake : (slot a sl).bytes.take 32 = a.bytes := take_append_of_length a.length_bytes
        have hdrop : (slot a sl).bytes.drop 32 = sl.bytes := drop_append_of_length a.length_bytes
        simp only [hne, if_false, htake, hdrop, Hash.ofBytes_bytes] at hblob
        by_cases hh : a = hash
        · subst hh
          rw [if_pos (show (slot a sl).owner = a from rfl)]
          have hlen : (slot a sl).bytes.length = 64 := by simp [bytes]
          -- a slot that is in the cache but not on disk is empty
          cases hdisk : t.diskdb (.slot a sl) with
          | some v => simp [hdisk, hlen] at hblob
          | none =>
            simp only [hdisk, isSome_none, Bool.false_eq_true, and_false, if_false] at hblob
            rw [h.cache _ hkey blob hblob, ← h.disk _ hkey, hdisk]
            rfl
        · have hne' : a.bytes ≠ hash.bytes := fun heq => hh (Hash.ext heq)
          rw [if_neg (show ¬ (slot a sl).owner = hash from hh)]
          exact h.cache _ hkey blob (by simpa [hne'] using hblob)

/-- An account is written if the generator has passed it. -/
theorem writeAccount (e : Hash × Bytes) :
    DiskOK marker (t.writeAccount marker e) (Function.update s (.account e.1) e.2) := by
  unfold Tree.writeAccount
  cases hcov : covered marker e.1.bytes with
  | false => exact h.update (.account e.1) hcov e.2
  | true => exact h.write (.account e.1) rfl

/-- A slot is written if the generator has passed it. -/
theorem writeSlot {a : Hash} (hcov : covered marker a.bytes = true) (e : Hash × Bytes) :
    DiskOK marker (Tree.writeSlot (midAccount marker a) a t e)
      (Function.update s (.slot a e.1) e.2) := by
  have hslot := covered_slot marker a e.1
  rw [hcov] at hslot
  unfold Tree.writeSlot
  cases hmid : covered (midAccount marker a) e.1.bytes with
  | false => exact h.update (.slot a e.1) (hslot.trans hmid) e.2
  | true =>
    split
    · contradiction
    · split
      · exact h.write (.slot a e.1) rfl
      next hlen =>
        have hnil : e.2 = [] := length_eq_zero_iff.mp (by omega)
        rw [hnil]
        exact h.write (.slot a e.1) rfl

/-- The slots of an account, with a frame for what the loop does not change. -/
theorem writeStorage (e : Hash × Nat) : DiskOK marker (t.writeStorage marker e)
      (wroteSlots s e.1 ((t.slots[e.2]?.getD ∅).entries.map fun s => (s.1, s.2))) := by
  unfold Tree.writeStorage
  cases hcov : covered marker e.1.bytes with
  | false =>
    refine h.congr fun key hkey => wroteSlots_of_ne key ?_ _
    rintro heq
    simp [← heq, covered_owner hkey] at hcov
  | true => exact foldl_rel h fun e _ _ _ h => h.writeSlot hcov e

end DiskOK

/-! ## writing a layer -/

/-- All destructed accounts are empty afterwards. -/
theorem foldl_destructed (l : List Hash) (s : State) (key : Key) :
    l.foldl destructed s key = if key.owner ∈ l then [] else s key := by
  induction l generalizing s with
  | nil => simp
  | cons hash l ih =>
    rw [foldl_cons, ih]
    unfold destructed
    by_cases hl : key.owner ∈ l <;> by_cases hh : key.owner = hash <;> simp [hl, hh]

/-- The accounts of the layer are written over the state. -/
theorem foldl_accounts (accounts : GoMap Hash Bytes) (s : State) (key : Key) :
    (accounts.entries.map fun e => (e.1, e.2)).foldl
    (fun s e => Function.update s (.account e.1) e.2) s key =
      match key with
      | .account h => (accounts.lookup h).getD (s key)
      | .slot _ _ => s key := by
  cases key with
  | account h =>
    rw [foldl_entries (fun s : State => s (.account h)) h fun data _ => data]
    · dsimp only
      cases accounts.lookup h <;> rfl
    · exact fun s data => update_self ..
    · exact fun s h' data hne => update_of_ne (by simpa using Ne.symm hne) ..
  | slot a sl =>
    rw [foldl_entries (fun s : State => s (.slot a sl)) a fun _ old => old]
    · cases accounts.lookup a <;> rfl
    · exact fun s data => update_of_ne (by simp) ..
    · exact fun s h' data _ => update_of_ne (by simp) ..

theorem wroteSlots_slot (storage : GoMap Hash Bytes) (s : State) (a sl : Hash) :
    wroteSlots s a (storage.entries.map fun e => (e.1, e.2)) (.slot a sl) = (storage.lookup sl).getD
      (s (.slot a sl)) := by
  rw [wroteSlots, foldl_entries (fun s : State => s (.slot a sl)) sl fun data _ => data]
  · cases storage.lookup sl <;> rfl
  · exact fun s data => update_self ..
  · exact fun s sl' data hne => update_of_ne (by simpa using Ne.symm hne) ..

theorem wroteSlots_account (s : State) (a h : Hash) (l : List (Hash × Bytes)) :
    wroteSlots s a l (.account h) = s (.account h) := by
  induction l generalizing s with
  | nil => rfl
  | cons e l ih =>
    show wroteSlots (Function.update s _ _) a l _ = _
    rw [ih, update_of_ne (by simp)]

/-- The slots of the layer are written over the state. -/
theorem foldl_storage (slots : List (GoMap Hash Bytes)) (storage : GoMap Hash Nat) (s : State)
    (key : Key) :
    (storage.entries.map fun e => (e.1, e.2)).foldl
        (fun s e => wroteSlots s e.1 ((slots[e.2]?.getD ∅).entries.map fun s => (s.1, s.2))) s key =
      match key with
      | .account _ => s key
      | .slot a sl => ((storage.lookup a).bind fun ref => slots[ref]?.bind fun m =>
        m.lookup sl).getD (s key) := by
  cases key with
  | account h =>
    rw [foldl_entries (fun s : State => s (.account h)) h fun _ old => old]
    · cases storage.lookup h <;> rfl
    · exact fun s ref => wroteSlots_account ..
    · exact fun s a ref _ => wroteSlots_account ..
  | slot a sl =>
    rw [foldl_entries (fun s : State => s (.slot a sl)) a fun ref old =>
      ((slots[ref]?.getD ∅).lookup sl).getD old]
    · dsimp only
      cases storage.lookup a with
      | none => rfl
      | some ref =>
        rw [map_some, bind_some]
        cases slots[ref]? <;> rfl
    · exact fun s ref => wroteSlots_slot ..
    · exact fun s a' ref hne => wroteSlots_of_ne (.slot a sl) (Ne.symm hne) _

/-- **Writing a layer** leads to its state. -/
theorem writeDiff_ok (h : DiskOK marker t s) (d : DiffData) :
    DiskOK marker (t.writeDiff marker d) (apply (d.change t.slots) s) := by
  have hslots : ((d.accountData.entries.map fun e => (e.1, e.2)).foldl (Tree.writeAccount marker)
      ((d.destructSet.entries.map fun e => e.1).foldl (Tree.destructAccount marker) t)).slots =
        t.slots := by
    rw [(OnDisk.foldl (onDisk_writeAccount marker) _ _).slots,
      (OnDisk.foldl (onDisk_destructAccount marker) _ _).slots]
  have hdestructs := foldl_rel h (l := d.destructSet.entries.map fun e => e.1) fun hash _ _ _ h =>
      h.destructAccount hash
  have haccounts := foldl_rel hdestructs (l := d.accountData.entries.map fun e => (e.1, e.2))
      fun e _ _ _ h => h.writeAccount e
  -- writing slots reads the maps of slots, which no write changes
  have hall := foldl_rel (r := fun t' s => DiskOK marker t' s ∧ t'.slots = t.slots)
    (l := d.storageData.entries.map fun e => (e.1, e.2)) ⟨haccounts, hslots⟩ fun e _ t' _ h =>
      ⟨h.2 ▸ h.1.writeStorage e, (onDisk_writeStorage marker t' e).slots.trans h.2⟩
  refine hall.1.congr fun key _ => ?_
  rw [foldl_storage]
  have hmem : key.owner ∈ (d.destructSet.entries.map fun e => e.1) ↔
      d.destructs key.owner = true := by
    rw [destructs, AList.lookup_isSome]
    rfl
  cases key with
  | account hash =>
    rw [foldl_accounts, foldl_destructed]
    simp only [hmem, apply, change, value]
    cases d.accountData.lookup hash <;> cases d.destructs (account hash).owner <;> rfl
  | slot a sl =>
    rw [foldl_accounts, foldl_destructed]
    simp only [hmem, apply, change, value]
    cases ((d.storageData.lookup a).bind fun ref => t.slots[ref]?.bind fun m => m.lookup sl) <;>
      cases d.destructs (slot a sl).owner <;> rfl

end Tree

end GoQrl.Snapshot
