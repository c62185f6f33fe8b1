import GoQrl.State.Base

/-!
# GoQrl.State.Storage

The storage and the code of an object.

The storage trie of an object holds the slots `cur`; the values that were read are cached
in `originStorage`, and the slots that were never read are those of the base, or zero once
the account was destructed (`ObjectOn`).  On this the reads of a slot return the newest of the
dirty, the pending and the trie's value (`objectState_spec`), whichever way the slot is read.
The code of an object is the one that was set, or else the one in the database
(`objectCode_spec`).
-/

namespace GoQrl.State

open Rlp Mpt Mpt.Tree GoQrl.Types Option AList

/-- The committed value of a slot over the slots of the trie. -/
def StateObject.committed (obj : StateObject) (cur : Hash → Hash) (key : Hash) : Hash :=
  (obj.pendingStorage.lookup key).getD (cur key)

/-- The value of a slot over the slots of the trie. -/
def StateObject.value (obj : StateObject) (cur : Hash → Hash) (key : Hash) : Hash :=
  (obj.dirtyStorage.lookup key).getD (obj.committed cur key)

variable [Keccak]

namespace StateDB

variable {base : Base} {s : StateDB} {obj : StateObject} {cur : Hash → Hash}

/-- The storage trie of the object, loaded or not, holds the slots `cur`. -/
def HoldsSlots (base : Base) (db : Database) (obj : StateObject) (cur : Hash → Hash) : Prop :=
  match obj.trie with
  | some tr => ∃ o t, Inv o tr t ∧ Slots t cur
  | none => ∃ t, Opens db.reader ⟨base.root, obj.addrHash, obj.data.root⟩ t ∧ Slots t cur

/-- The root is the one of a storage trie with these slots. -/
def SlotsRoot (cur : Hash → Hash) (root : Hash) :
    Prop := ∃ t, Valid t ∧ Slots t cur ∧ root = rootHash t

/-- Slots have one root. -/
theorem SlotsRoot.unique {root root' : Hash} (h : SlotsRoot cur root) (h' : SlotsRoot cur root') :
    root = root' := by
  obtain ⟨t, hvalid, hslots, rfl⟩ := h
  obtain ⟨t', hvalid', hslots', rfl⟩ := h'
  rw [Keyed.ext hvalid hvalid' hslots hslots']

/-- The caches of an object agree with the slots `cur` of its storage trie. -/
structure ObjectOn (base : Base) (db : Database) (destructed : Bool) (obj : StateObject)
    (cur : Hash → Hash) : Prop where
  holds : HoldsSlots base db obj cur
  root : SlotsRoot cur obj.data.root
  cached : ∀ k v, obj.originStorage.lookup k = some v → v = cur k
  /-- An object that was deleted is not read any more. -/
  unread : obj.deleted = false → ∀ k, obj.originStorage.lookup k = none →
    cur k = if destructed then Hash.zero else base.slots obj.address k
  /-- Slots are read before they are written, except in a destructed account. -/
  read : ∀ k, obj.dirtyStorage.lookup k ≠ none ∨ obj.pendingStorage.lookup k ≠ none →
    obj.originStorage.lookup k ≠ none ∨ destructed = true
  origin : obj.deleted = false → obj.origin = if destructed then none else base.accounts obj.address
  marked : obj.deleted = true → destructed = true

/-- The trie of an object can be opened. -/
theorem getTrie_spec (hroot : s.originalRoot = base.root) (h : HoldsSlots base s.db obj cur) :
    ∃ o t tr, s.getTrie obj = .ok tr ∧ Inv o tr t ∧ Slots t cur := by
  unfold HoldsSlots at h
  unfold getTrie
  cases htrie : obj.trie with
  | some tr =>
    rw [htrie] at h
    obtain ⟨o, t, hinv, hslots⟩ := h
    exact ⟨o, t, tr, rfl, hinv, hslots⟩
  | none =>
    rw [htrie] at h
    obtain ⟨t, hopens, hslots⟩ := h
    rw [← hroot] at hopens
    obtain ⟨tr, hnew, hinv⟩ := new_spec hopens
    exact ⟨t, t, tr, by simp [hnew], hinv, hslots⟩

/-- A snapshot that answers gives the slot of the base. -/
theorem snapStorage_spec (h : base.Backs s.db s.snap) {key value : Hash} {s' : StateDB}
    (hread : s.snapStorage obj key = some (value, s')) :
    value = base.slots obj.address key ∧ s' = s := by
  unfold snapStorage at hread
  split at hread
  · contradiction
  next sn hsnap =>
    split at hread
    · contradiction
    next enc henc =>
      have hbytes := h.snapStorage sn hsnap obj.address key enc henc
      unfold slotBytes at hbytes
      split at hbytes
      next hz =>
        simp only [hbytes, List.length_nil, gt_iff_lt, lt_irrefl, if_false, some.injEq,
          Prod.mk.injEq] at hread
        exact ⟨by rw [hz, hread.1], hread.2.symm⟩
      next hz =>
        obtain ⟨k, hsplit⟩ := split_slot (base.slots obj.address key)
        have hpos : enc.length > 0 := by
          rw [hbytes]
          exact List.length_pos_iff.mpr (encodeString_ne_nil _)
        rw [if_pos hpos, hbytes] at hread
        simp only [hsplit, some.injEq, Prod.mk.injEq] at hread
        exact ⟨by rw [← hread.1, ofBytes_trimLeftZeroes], hread.2.symm⟩

/-- Caching a value that was read, with the trie it was read from. -/
theorem ObjectOn.cache {destructed : Bool} (h : ObjectOn base s.db destructed obj cur) (key : Hash)
    {tr : Option Trie} (hholds : HoldsSlots base s.db { obj with trie := tr } cur) :
    ObjectOn base s.db destructed
      { obj with trie := tr, originStorage := obj.originStorage.insert key (cur key) } cur where
  holds := hholds
  root := h.root
  cached k v hk := by
    obtain ⟨rfl, rfl⟩ | hk := lookup_insert_cases hk
    · rfl
    · exact h.cached k v hk
  unread hdel k hk := h.unread hdel k (lookup_insert_eq_none.mp hk).2
  read k hk := (h.read k hk).imp_left fun hne hnone => hne (lookup_insert_eq_none.mp hnone).2
  origin := h.origin
  marked := h.marked

/-- What a read of a slot may change of an object: its trie and the values that were read,
of which none is dropped. -/
def SameObject (obj obj' : StateObject) : Prop :=
  ∃ tr origin, obj' = { obj with trie := tr, originStorage := origin } ∧
    ∀ k, obj.originStorage.lookup k ≠ none → origin.lookup k ≠ none

omit [Keccak] in
theorem SameObject.cache (obj : StateObject) (tr : Option Trie) (key value : Hash) :
    SameObject obj { obj with trie := tr, originStorage := obj.originStorage.insert key value } :=
  ⟨tr, _, rfl, fun _ hk hnone => hk (lookup_insert_eq_none.mp hnone).2⟩

/-- The slot of the object is cached, or the account is destructed. -/
def WasRead (s : StateDB) (obj : StateObject) (key : Hash) : Prop :=
  obj.originStorage.lookup key ≠ none ∨ (s.stateObjectsDestruct.lookup obj.address).isSome = true

/-- The state after a read of a slot of the object, which may be written from then on. -/
def AfterRead (base : Base) (s : StateDB) (obj : StateObject) (cur : Hash → Hash) (key : Hash)
    (s' : StateDB) : Prop :=
  (s' = s ∧ WasRead s obj key) ∨ ∃ obj', SameObject obj obj' ∧ WasRead s obj' key ∧
    ObjectOn base s.db (s.stateObjectsDestruct.lookup obj.address).isSome obj' cur ∧
    s' = s.setStateObject obj'

section

variable (hbacks : base.Backs s.db s.snap) (hroot : s.originalRoot = base.root)
    (hlive : obj.deleted = false)
  (h : ObjectOn base s.db (s.stateObjectsDestruct.lookup obj.address).isSome obj cur) (key : Hash)
include hbacks hroot hlive h

/-- **Committed values** are read from the pending storage or from the trie, whether they
are cached, in the snapshot, in the trie or gone with a destructed account. -/
theorem objectCommittedState_spec :
    ∃ s', s.objectCommittedState obj key = (obj.committed cur key, s') ∧
      AfterRead base s obj cur key s' := by
  unfold objectCommittedState StateObject.committed
  cases hpending : obj.pendingStorage.lookup key with
  | some value => exact ⟨s, rfl, .inl ⟨rfl, h.read key (.inr (by simp [hpending]))⟩⟩
  | none =>
    cases horigin : obj.originStorage.lookup key with
    | some value =>
      rw [← h.cached key value horigin]
      exact ⟨s, rfl, .inl ⟨rfl, .inl (by simp [horigin])⟩⟩
    | none =>
      have hunread := h.unread hlive key horigin
      by_cases hd : (s.stateObjectsDestruct.lookup obj.address).isSome = true
      · rw [hunread]
        exact ⟨s, by simp [if_pos hd], .inl ⟨rfl, .inr hd⟩⟩
      · rw [if_neg hd] at hunread
        simp only [if_neg hd, getD_none]
        cases hsnap : s.snapStorage obj key with
        | some res =>
          obtain ⟨value, s1⟩ := res
          obtain ⟨hvalue, rfl⟩ := snapStorage_spec hbacks hsnap
          rw [← hunread] at hvalue
          subst hvalue
          exact ⟨_, rfl,
            .inr ⟨_, .cache obj obj.trie key _, .inl (by simp), h.cache key h.holds, rfl⟩⟩
        | none =>
          obtain ⟨o, t, tr, htrie, hinv, hslots⟩ := getTrie_spec hroot h.holds
          obtain ⟨b, tr', hget, hb, hinv'⟩ := getStorage_spec hinv hslots key
          simp only [htrie, hget, hb]
          have hholds : HoldsSlots base s.db { obj with trie := some tr' } cur :=
            ⟨o, t, hinv', hslots⟩
          exact ⟨_, rfl,
            .inr ⟨_, .cache obj (some tr') key _, .inl (by simp), h.cache key hholds, rfl⟩⟩

/-- **Values** are read from the dirty storage, or are the committed ones. -/
theorem objectState_spec :
    ∃ s', s.objectState obj key = (obj.value cur key, s') ∧ AfterRead base s obj cur key s' := by
  unfold objectState StateObject.value
  cases hdirty : obj.dirtyStorage.lookup key with
  | some value => exact ⟨s, rfl, .inl ⟨rfl, h.read key (.inl (by simp [hdirty]))⟩⟩
  | none => exact objectCommittedState_spec hbacks hroot hlive h key

end

/-! ## code -/

/-- The code of an object. -/
def codeOf (db : Database) (obj : StateObject) : Option Bytes :=
  match obj.code with
  | some code => some code
  | none =>
    if obj.data.codeHash = emptyCodeHash.bytes then none
    else (db.contractCode (Hash.ofBytes obj.data.codeHash)).toOption

/-- The code that a read keeps is the code of the object. -/
theorem codeOf_keep {code : Bytes} (h : codeOf s.db obj = some code) :
    codeOf s.db { obj with code := some code } = codeOf s.db obj := by
  rw [h]
  rfl

/-- **Code** is read as it was set, or from the database.  A code that is missing there is
nil, and the error is kept. -/
theorem objectCode_spec (s : StateDB) (obj : StateObject) :
    ∃ s', s.objectCode obj = (codeOf s.db obj, s') ∧
      (s' = s ∨ (∃ e, s' = s.setError e ∧ codeOf s.db obj = none) ∨
        ∃ code, codeOf s.db obj = some code ∧
          s' = s.setStateObject { obj with code := some code }) := by
  unfold objectCode codeOf
  cases obj.code with
  | some code => exact ⟨s, rfl, .inl rfl⟩
  | none =>
    dsimp only
    split
    · exact ⟨s, rfl, .inl rfl⟩
    · cases s.db.contractCode (Hash.ofBytes obj.data.codeHash) with
      | error e => exact ⟨_, rfl, .inr (.inl ⟨_, rfl, rfl⟩)⟩
      | ok code => exact ⟨_, rfl, .inr (.inr ⟨code, rfl, rfl⟩)⟩

/-- The size of the code agrees with the code. -/
theorem objectCodeSize_spec (s : StateDB) (obj : StateObject) :
    ∃ s', s.objectCodeSize obj = (((codeOf s.db obj).getD []).length, s') ∧
      (s' = s ∨ ∃ e, s' = s.setError e ∧ codeOf s.db obj = none) := by
  unfold objectCodeSize codeOf
  cases obj.code with
  | some code => exact ⟨s, rfl, .inl rfl⟩
  | none =>
    dsimp only
    split
    · exact ⟨s, rfl, .inl rfl⟩
    · cases s.db.contractCode (Hash.ofBytes obj.data.codeHash) with
      | error e => exact ⟨_, rfl, .inr ⟨_, rfl, rfl⟩⟩
      | ok code => exact ⟨s, rfl, .inl rfl⟩

end StateDB

end GoQrl.State
