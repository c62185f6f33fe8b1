import GoQrl.Types.Account
import GoQrl.Trie.Commit

/-!
# GoQrl.State.StateTrie

The tries of the state, `trie/secure_trie.go`: tries whose keys are hashed.

`Keyed key t m` says that a tree holds the entries `m` under the hashes of the keys, and
nothing else.  A storage trie holds the values of the slots without leading zeros, and no
entry for a zero (`encodeSlot`); the account trie holds the encodings of the accounts.
-/

namespace GoQrl.State

open Rlp Mpt Mpt.Tree GoQrl.Types List Function Content

/-- What a database access can fail with. -/
inductive DbError
  | trie (e : TrieError)
  | rlp (e : RlpError)
  /-- "not found" -/
  | codeNotFound
  /-- An iterator of the snapshot cannot be opened, or it fails. -/
  | snapshot
  /-- "snapshot is not matched" -/
  | mismatched (exp got : Hash)
  /-- An error with the text and the bytes that are put before it. -/
  | context (msg : String) (arg : Bytes) (err : DbError)

/-- `common.TrimLeftZeroes`. -/
def trimLeftZeroes (b : Bytes) : Bytes := b.dropWhile (· = 0)

section

variable [Keccak]

/-- `hashKey`. -/
def hashKey (key : Bytes) : Slice := ⟨(Keccak.hash key).bytes, by simp⟩

/-- `GetStorage`. -/
def getStorage (t : Trie) (key : Hash) : Except DbError Bytes × Trie :=
  match t.get (hashKey key.bytes).bytes with
  | (.error e, t) => (.error (.trie e), t)
  | (.ok none, t) => (.ok [], t)
  | (.ok (some enc), t) =>
    if enc.length = 0 then (.ok [], t)
    else
      match split enc with
      | .error e => (.error (.rlp e), t)
      | .ok (_, content, _) => (.ok content, t)

/-- `GetAccount`. -/
def getAccount (t : Trie) (address : Address) : Except DbError (Option StateAccount) × Trie :=
  match t.get (hashKey address.bytes).bytes with
  | (.error e, t) => (.error (.trie e), t)
  | (.ok none, t) => (.ok none, t)
  | (.ok (some res), t) =>
    match StateAccount.decode res with
    | .error e => (.error (.rlp e), t)
    | .ok acc => (.ok (some acc), t)

/-- A call that only returns an error. -/
def liftTrie (res : Except TrieError Unit × Trie) : Except DbError Unit × Trie :=
  match res with
  | (.error e, t) => (.error (.trie e), t)
  | (.ok (), t) => (.ok (), t)

/-- `UpdateStorage`. -/
def updateStorage (t : Trie) (key : Hash) (value : Bytes) : Except DbError Unit × Trie :=
  liftTrie (t.update (hashKey key.bytes).bytes (encodeString value))

/-- `DeleteStorage`. -/
def deleteStorage (t : Trie) (key : Hash) : Except DbError Unit × Trie :=
  liftTrie (t.delete (hashKey key.bytes).bytes)

/-- `UpdateAccount`. -/
def updateAccount (t : Trie) (address : Address) (acc : StateAccount) :
    Except DbError Unit × Trie :=
  match acc.encode with
  | .error e => (.error (.rlp e), t)
  | .ok data => liftTrie (t.update (hashKey address.bytes).bytes data)

/-- `DeleteAccount`. -/
def deleteAccount (t : Trie) (address : Address) : Except DbError Unit × Trie :=
  liftTrie (t.delete (hashKey address.bytes).bytes)

end

/-! ## slots -/

/-- The entry of a slot. -/
def encodeSlot (v : Hash) : Option Bytes :=
  if v = Hash.zero then none else some (encodeString (trimLeftZeroes v.bytes))

theorem length_trimLeftZeroes_le (b : Bytes) : (trimLeftZeroes b).length ≤ b.length :=
  (dropWhile_sublist _).length_le

/-- Only zeroes are trimmed. -/
theorem trimLeftZeroes_eq (b : Bytes) :
    b = replicate (b.length - (trimLeftZeroes b).length) 0 ++ trimLeftZeroes b := by
  induction b with
  | nil => rfl
  | cons c cs ih =>
    by_cases hc : c = 0
    · have htrim : trimLeftZeroes (c :: cs) = trimLeftZeroes cs := by simp [trimLeftZeroes, hc]
      rw [htrim, length_cons, Nat.succ_sub (length_trimLeftZeroes_le cs), replicate_succ,
        cons_append, ← ih, hc]
    · simp [trimLeftZeroes, hc]

/-- Padding brings the leading zeros back. -/
theorem ofBytes_trimLeftZeroes (v : Hash) : Hash.ofBytes (trimLeftZeroes v.bytes) = v := by
  have hle := length_trimLeftZeroes_le v.bytes
  have heq := trimLeftZeroes_eq v.bytes
  rw [v.length_bytes] at hle heq
  apply Hash.ext
  show replicate (32 - _) 0 ++ List.drop (_ - 32) _ = v.bytes
  rw [Nat.sub_eq_zero_of_le hle]
  exact heq.symm

/-- The entry of a slot is split into its value. -/
theorem split_slot (v : Hash) :
    ∃ k, split (encodeString (trimLeftZeroes v.bytes)) = .ok (k, trimLeftZeroes v.bytes, []) := by
  have hlen := length_trimLeftZeroes_le v.bytes
  rw [v.length_bytes] at hlen
  have hsplit := split_encodeString (b := trimLeftZeroes v.bytes) (by omega) []
  rw [append_nil] at hsplit
  exact ⟨_, hsplit⟩

theorem valueOK_encodeString {b : Bytes} (h : b.length ≤ 32) : ValueOK (encodeString b) := by
  refine ⟨encodeString_ne_nil b, ?_⟩
  have := length_encodeString_le b (by omega)
  omega

/-- The encoding of a slot can be stored. -/
theorem valueOK_slot (v : Hash) : ValueOK (encodeString (trimLeftZeroes v.bytes)) :=
  valueOK_encodeString (by
    have := length_trimLeftZeroes_le v.bytes
    rwa [v.length_bytes] at this)

/-! ## trees with hashed keys -/

variable [Keccak]

/-- The tree holds the entries `m` under the hashes of the keys. -/
structure Keyed {K : Type} (key : K → Bytes) (t : Tree) (m : K → Option Bytes) : Prop where
  get : ∀ k, Content.ofTree t (hashKey (key k)) = m k
  only : ∀ s, Content.ofTree t s ≠ none → ∃ k, s = hashKey (key k)

/-- The hash keeps the keys apart. -/
def KeysApart {K : Type} (key : K → Bytes) :
    Prop := ∀ k k', Keccak.hash (key k) = Keccak.hash (key k') → k = k'

variable {K : Type} {key : K → Bytes} {o t u : Tree} {tr : Trie} {m : K → Option Bytes}
    {f : Hash → Hash}

/-- Keys meet if their hashes do. -/
theorem hashKey_eq_iff {a b : Bytes} : hashKey a = hashKey b ↔ Keccak.hash a = Keccak.hash b := by
  constructor
  · exact fun h => Hash.ext (congrArg Slice.bytes h)
  · exact fun h => Slice.ext (congrArg Hash.bytes h)

/-- The entries determine the tree. -/
theorem Keyed.ext (ht : Valid t) (hu : Valid u) (h : Keyed key t m) (h' : Keyed key u m) :
    t = u := by
  refine ht.ext hu fun s => ?_
  show ofTree t s = ofTree u s
  by_cases hs : ∃ k, s = hashKey (key k)
  · obtain ⟨k, rfl⟩ := hs
    rw [h.get, h'.get]
  · rw [not_not.mp (mt (h.only s) hs), not_not.mp (mt (h'.only s) hs)]

theorem keyed_nil (key : K → Bytes) : Keyed key .nil fun _ => none :=
  ⟨fun _ => rfl, fun _ h => absurd rfl h⟩

/-- One entry changes. -/
theorem Keyed.update [DecidableEq K] (h : Keyed key t m) (hkey : KeysApart key) (k : K)
    {v : Option Bytes} (hu : ofTree u = update (ofTree t) (hashKey (key k)) v) :
    Keyed key u (update m k v) where
  get k' := by
    rw [hu]
    by_cases hk : k' = k
    · subst hk
      simp
    · have hne : hashKey (key k') ≠ hashKey (key k) :=
        fun heq => hk (hkey _ _ (hashKey_eq_iff.mp heq))
      rw [update_of_ne hne, update_of_ne hk, h.get]
  only s hs := by
    by_cases hk : s = hashKey (key k)
    · exact ⟨k, hk⟩
    · rw [hu, update_of_ne hk] at hs
      exact h.only s hs

/-! ## calls of a trie -/

/-- A lookup returns what the tree has. -/
theorem get_of_inv (h : Inv o tr t) (key : Slice) :
    ∃ tr', tr.get key.bytes = (.ok (ofTree t key), tr') ∧ Inv o tr' t := by
  obtain ⟨hres, hinv⟩ := h.get key
  exact ⟨(tr.get key.bytes).2, Prod.ext hres rfl, hinv⟩

omit [Keccak] in
/-- A call without an error. -/
theorem ok_of_map {r : Except TrieError Unit × Trie} {tr' : Trie}
    (h : r.1.map (fun _ => r.2) = .ok tr') :
    r = (.ok (), tr') := by
  obtain ⟨res, tr⟩ := r
  cases res <;> cases h
  rfl

/-- An update changes one entry. -/
theorem update_of_inv (h : Inv o tr t) (key : Slice) {v : Bytes} (hv : ValueOK v) :
    ∃ tr' t', tr.update key.bytes v = (.ok (), tr') ∧ Inv o tr' t' ∧
      ofTree t' = update (ofTree t) key (some v) := by
  obtain ⟨tr', t', hstep, hinv, hcontent⟩ := step_spec h (.update key ⟨v, hv.2⟩)
  simp only [apply, if_neg hv.1] at hcontent
  exact ⟨tr', t', ok_of_map hstep, hinv, hcontent⟩

/-- A deletion removes one entry. -/
theorem delete_of_inv (h : Inv o tr t) (key : Slice) :
    ∃ tr' t', tr.delete key.bytes = (.ok (), tr') ∧ Inv o tr' t' ∧
      ofTree t' = update (ofTree t) key none := by
  obtain ⟨tr', t', hstep, hinv, hcontent⟩ := step_spec h (.delete key)
  exact ⟨tr', t', ok_of_map hstep, hinv, hcontent⟩

/-! ### storage tries -/

/-- The tree holds the values of the slots. -/
def Slots (t : Tree) (f : Hash → Hash) : Prop := Keyed Hash.bytes t fun k => encodeSlot (f k)

omit [Keccak] in
theorem encodeSlot_update (f : Hash → Hash) (k v : Hash) :
    update (fun k => encodeSlot (f k)) k (encodeSlot v) =
      fun k' => encodeSlot (update f k v k') :=
  (comp_update encodeSlot f k v).symm

/-- A slot is read back from the storage trie. -/
theorem getStorage_spec (h : Inv o tr t) (hs : Slots t f) (k : Hash) :
    ∃ b tr', getStorage tr k = (.ok b, tr') ∧ Hash.ofBytes b = f k ∧ Inv o tr' t := by
  obtain ⟨tr', hget, hinv⟩ := get_of_inv h (hashKey k.bytes)
  have hcontent : ofTree t (hashKey k.bytes) = encodeSlot (f k) := hs.get k
  rw [hcontent] at hget
  unfold getStorage
  rw [hget]
  by_cases hz : f k = Hash.zero
  · rw [hz]
    exact ⟨[], tr', rfl, rfl, hinv⟩
  · have hlen : (encodeString (trimLeftZeroes (f k).bytes)).length ≠ 0 := fun h0 =>
      encodeString_ne_nil _ (length_eq_zero_iff.mp h0)
    obtain ⟨_, hsplit⟩ := split_slot (f k)
    simp only [encodeSlot, if_neg hz, if_neg hlen, hsplit]
    exact ⟨_, tr', rfl, ofBytes_trimLeftZeroes _, hinv⟩

/-- Writing a slot changes this slot only. -/
theorem updateStorage_spec (h : Inv o tr t) (hs : Slots t f)
    (hkey : KeysApart Hash.bytes) (k : Hash) {v : Hash} (hv : v ≠ Hash.zero) :
    ∃ tr' t', updateStorage tr k (trimLeftZeroes v.bytes) = (.ok (), tr') ∧ Inv o tr' t' ∧
      Slots t' (update f k v) := by
  obtain ⟨tr', t', hupd, hinv, hcontent⟩ := update_of_inv h (hashKey k.bytes) (valueOK_slot v)
  refine ⟨tr', t', by rw [updateStorage, hupd]; rfl, hinv, ?_⟩
  have hslots := hs.update hkey k hcontent
  have henc : some (encodeString (trimLeftZeroes v.bytes)) = encodeSlot v := by
    rw [encodeSlot, if_neg hv]
  rwa [henc, encodeSlot_update] at hslots

/-- Deleting a slot makes it zero. -/
theorem deleteStorage_spec (h : Inv o tr t) (hs : Slots t f)
    (hkey : KeysApart Hash.bytes) (k : Hash) :
    ∃ tr' t', deleteStorage tr k = (.ok (), tr') ∧ Inv o tr' t' ∧
      Slots t' (update f k Hash.zero) := by
  obtain ⟨tr', t', hdel, hinv, hcontent⟩ := delete_of_inv h (hashKey k.bytes)
  refine ⟨tr', t', by rw [deleteStorage, hdel]; rfl, hinv, ?_⟩
  have hslots := hs.update hkey k hcontent
  have henc : none = encodeSlot Hash.zero := rfl
  rwa [henc, encodeSlot_update] at hslots

/-! ### the account trie -/

/-- The tree holds the encodings of accounts. -/
def Accounts (t : Tree) (m : Address → Option StateAccount) : Prop :=
  Keyed (Fixed.bytes : Address → Bytes) t fun a => (m a).map StateAccount.enc

/-- An account is read back from the account trie. -/
theorem getAccount_spec {m : Address → Option StateAccount} (h : Inv o tr t) (hm : Accounts t m)
    (a : Address) (henc : ∀ acc, m a = some acc → acc.Encodable) :
    ∃ tr', getAccount tr a = (.ok (m a), tr') ∧ Inv o tr' t := by
  obtain ⟨tr', hget, hinv⟩ := get_of_inv h (hashKey a.bytes)
  have hcontent : ofTree t (hashKey a.bytes) = (m a).map StateAccount.enc := hm.get a
  rw [hcontent] at hget
  unfold getAccount
  rw [hget]
  cases hacc : m a with
  | none => exact ⟨tr', rfl, hinv⟩
  | some acc =>
    simp only [Option.map_some, StateAccount.decode_enc (henc acc hacc)]
    exact ⟨tr', rfl, hinv⟩

omit [Keccak] in
theorem accounts_update (m : Address → Option StateAccount) (a : Address)
    (acc : Option StateAccount) :
    update (fun a => (m a).map StateAccount.enc) a (acc.map StateAccount.enc) =
      fun a' => (update m a acc a').map StateAccount.enc :=
  (comp_update (Option.map StateAccount.enc) m a acc).symm

/-- Writing an account changes this account only. -/
theorem updateAccount_spec {m : Address → Option StateAccount} (h : Inv o tr t) (hm : Accounts t m)
    (hkey : KeysApart (Fixed.bytes : Address → Bytes)) (a : Address) {acc : StateAccount}
    (henc : acc.Encodable) :
    ∃ tr' t', updateAccount tr a acc = (.ok (), tr') ∧ Inv o tr' t' ∧
      Accounts t' (update m a (some acc)) := by
  obtain ⟨tr', t', hupd, hinv, hcontent⟩ :=
    update_of_inv h (hashKey a.bytes) ⟨acc.enc_ne_nil, henc.fits⟩
  refine ⟨tr', t', ?_, hinv, ?_⟩
  · rw [updateAccount, StateAccount.encode_eq henc]
    simp only [hupd]
    rfl
  · have haccs := hm.update hkey a hcontent
    rwa [show some acc.enc = (some acc).map StateAccount.enc from rfl, accounts_update] at haccs

/-- Deleting an account removes this account only. -/
theorem deleteAccount_spec {m : Address → Option StateAccount} (h : Inv o tr t) (hm : Accounts t m)
    (hkey : KeysApart (Fixed.bytes : Address → Bytes)) (a : Address) :
    ∃ tr' t', deleteAccount tr a = (.ok (), tr') ∧ Inv o tr' t' ∧
      Accounts t' (update m a none) := by
  obtain ⟨tr', t', hdel, hinv, hcontent⟩ := delete_of_inv h (hashKey a.bytes)
  refine ⟨tr', t', by rw [deleteAccount, hdel]; rfl, hinv, ?_⟩
  have haccs := hm.update hkey a hcontent
  rwa [show (none : Option Bytes) = (none : Option StateAccount).map StateAccount.enc from rfl,
    accounts_update] at haccs

end GoQrl.State
