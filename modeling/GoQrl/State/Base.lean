import GoQrl.State.Finalise
import GoQrl.State.AccessList

/-!
# GoQrl.State.Base

The state that a `StateDB` was opened on.

`Base` is a world state with its tries, and `Base.Backs` says that a database holds it, with
or without a snapshot.  A snapshot may fail to answer, but what it answers is right.  Objects
that are not live are then loaded with the data of the base (`getDeletedStateObject_spec`),
whichever way they are read.
-/

namespace GoQrl.State

open Rlp Mpt Mpt.Tree GoQrl.Types AList

/-- A world state with its tries, and the database it is in. -/
structure Base where
  db : Database
  root : Hash
  accounts : Address → Option StateAccount
  slots : Address → Hash → Hash
  accountTree : Tree
  storageTree : Address → Tree

variable [Keccak]

/-- The database holds the state, and the snapshot, if there is one, agrees with it. -/
structure Base.Backs (base : Base) (db : Database) (snap : Option Snapshot) : Prop where
  accounts : Accounts base.accountTree base.accounts
  opens : Opens db.reader ⟨base.root, Hash.zero, base.root⟩ base.accountTree
  encodable : ∀ a acc, base.accounts a = some acc → acc.Encodable
  slots : ∀ a acc, base.accounts a = some acc → Slots (base.storageTree a) (base.slots a)
  opensStorage : ∀ a acc, base.accounts a = some acc →
    Opens db.reader ⟨base.root, Keccak.hash a.bytes, acc.root⟩ (base.storageTree a)
  root : ∀ a acc, base.accounts a = some acc → acc.root = rootHash (base.storageTree a)
  snapAccount : ∀ sn, snap = some sn → ∀ a acc,
    sn.account (Keccak.hash a.bytes) = some acc → acc.map StateDB.ofSlim = base.accounts a
  snapStorage : ∀ sn, snap = some sn → ∀ a k enc,
    sn.storage (Keccak.hash a.bytes) (Keccak.hash k.bytes) = some enc →
      enc = StateDB.slotBytes (base.slots a k)
  absent : ∀ a, base.accounts a = none → ∀ k, base.slots a k = Hash.zero
  /-- Accounts are written with a hash as their code hash; a decoder does not check it. -/
  codeHash : ∀ a acc, base.accounts a = some acc → acc.codeHash.length = 32

/-- An empty trie can be opened wherever there is a reader. -/
theorem opens_nil {db : Hash → Option Reader} {id : ID} {r : TrieReader}
    (hr : newTrieReader id.stateRoot id.owner db = .ok r) (hroot : id.root = emptyRootHash) :
    Opens db id .nil := by
  refine ⟨valid_nil, ⟨r, hr, fun p u hu hstand => ?_⟩, .inl hroot, fun hne => absurd rfl hne⟩
  cases p with
  | nil =>
    simp only [locate, Option.some.injEq] at hu
    subst hu
    exact absurd hstand.1 (by decide)
  | cons x p => simp [locate] at hu

/-- An empty storage trie can be opened at every address: the reader depends on the root of
the state only. -/
theorem Base.Backs.opensEmpty {base : Base} {db : Database} {snap : Option Snapshot}
    (h : base.Backs db snap) (owner : Hash) :
    Opens db.reader ⟨base.root, owner, emptyRootHash⟩ .nil := by
  obtain ⟨r, hr, -⟩ := h.opens.reader
  have hreader : ∃ r', newTrieReader base.root owner db.reader = .ok r' := by
    unfold newTrieReader at hr ⊢
    by_cases hroot : base.root = Hash.zero ∨ base.root = emptyRootHash
    · exact ⟨_, if_pos hroot⟩
    · rw [if_neg hroot] at hr ⊢
      cases hdb : db.reader base.root with
      | none => simp only [hdb] at hr; contradiction
      | some reader => exact ⟨_, rfl⟩
  obtain ⟨r', hr'⟩ := hreader
  exact opens_nil hr' rfl

namespace StateDB

variable {base : Base} {s : StateDB} {addr : Address}

/-- The account trie holds the accounts `written`, and those of objects that are not live
are still those of the base. -/
structure OnBase (base : Base) (s : StateDB) (written : Address → Option StateAccount) : Prop where
  backs : base.Backs s.db s.snap
  db : s.db = base.db
  root : s.originalRoot = base.root
  trie : ∃ t, Inv base.accountTree s.trie t ∧ Accounts t written
  encodable : ∀ a acc, written a = some acc → acc.Encodable
  fresh : ∀ a, s.stateObjects.lookup a = none → written a = base.accounts a
  address : ∀ a obj, s.stateObjects.lookup a = some obj → obj.address = a

/-- The object at an address: the live one, or the one that would be loaded. -/
def peek (base : Base) (s : StateDB) (addr : Address) : Option StateObject :=
  match s.stateObjects.lookup addr with
  | some obj => some obj
  | none => (base.accounts addr).map fun data => newObject addr (some data)

theorem peek_of_live {obj : StateObject} (h : s.stateObjects.lookup addr = some obj) :
    s.peek base addr = some obj := by
  rw [peek, h]

variable {written : Address → Option StateAccount}

/-- A snapshot that answers gives the account of the base. -/
theorem snapAccount_spec (h : OnBase base s written)
    {acc : Option StateAccount} (hacc : s.snapAccount addr = some acc) :
    acc = base.accounts addr := by
  unfold snapAccount at hacc
  split at hacc
  · contradiction
  next sn hsnap =>
    obtain ⟨slim, hslim, rfl⟩ := Option.map_eq_some_iff.mp hacc
    exact h.backs.snapAccount sn hsnap addr slim hslim

/-- A new object that is put at the address it is looked up at. -/
theorem peek_setStateObject (obj : StateObject) (a : Address) :
    (s.setStateObject obj).peek base a = if a = obj.address then some obj else s.peek base a := by
  by_cases ha : a = obj.address
  · subst ha
    rw [if_pos rfl]
    exact peek_of_live (lookup_insert _)
  · rw [if_neg ha]
    simp [peek, setStateObject, lookup_insert_ne ha]

/-- Loading an object changes nothing that can be looked up. -/
theorem peek_load {data : StateAccount} (hlive : s.stateObjects.lookup addr = none)
    (hdata : base.accounts addr = some data) (a : Address) :
    (s.setStateObject (newObject addr (some data))).peek base a = s.peek base a := by
  rw [peek_setStateObject]
  by_cases ha : a = addr
  · subst ha
    simp [newObject, peek, hlive, hdata]
  · exact if_neg ha

/-- An object may be put at its address. -/
theorem OnBase.setStateObject (h : OnBase base s written)
    (obj : StateObject) : OnBase base (s.setStateObject obj) written := by
  refine { h with
    fresh := fun a ha => h.fresh a (lookup_insert_eq_none.mp ha).2
    address := fun a o ha => ?_ }
  obtain ⟨rfl, rfl⟩ | ha := lookup_insert_cases ha
  · rfl
  · exact h.address a o ha

/-- What a read leaves as it was: all but the live objects and the nodes that are loaded. -/
structure Loads (s s' : StateDB) : Prop where
  rest : ∃ objs tr, s' = { s with stateObjects := objs, trie := tr }
  live : ∀ a obj, s.stateObjects.lookup a = some obj → s'.stateObjects.lookup a = some obj

omit [Keccak] in
theorem Loads.refl (s : StateDB) : Loads s s := ⟨⟨s.stateObjects, s.trie, rfl⟩, fun _ _ h => h⟩

/-- **Objects** are found with the data of the base unless they are live, whether they are
read from the snapshot or from the trie. -/
theorem getDeletedStateObject_spec (h : OnBase base s written) (addr : Address) :
    ∃ s', s.getDeletedStateObject addr = (s.peek base addr, s') ∧ OnBase base s' written ∧
      Loads s s' ∧ (∀ a, s'.peek base a = s.peek base a) ∧
      s'.stateObjects.lookup addr = s.peek base addr := by
  unfold getDeletedStateObject
  cases hlive : s.stateObjects.lookup addr with
  | some obj =>
    rw [peek_of_live hlive]
    exact ⟨s, rfl, h, .refl s, fun _ => rfl, hlive⟩
  | none =>
    have hpeek : s.peek base addr = (base.accounts addr).map fun data =>
        newObject addr (some data) := by
      rw [peek, hlive]
    -- loading keeps the live objects: the address had none
    have hkeep : ∀ (tr : Trie) (data : StateAccount),
        Loads s ({ s with trie := tr }.setStateObject (newObject addr (some data))) := by
      refine fun tr data => ⟨⟨_, tr, rfl⟩, fun a obj ha => ?_⟩
      have hne : a ≠ addr := by
        rintro rfl
        simp [hlive] at ha
      exact (lookup_insert_ne hne).trans ha
    cases hsnap : s.snapAccount addr with
    | some acc =>
      have hacc := snapAccount_spec h hsnap
      cases acc with
      | none =>
        rw [hpeek, ← hacc]
        exact ⟨s, rfl, h, .refl s, fun _ => rfl, hlive⟩
      | some data =>
        rw [hpeek, ← hacc]
        exact ⟨_, rfl, h.setStateObject _, hkeep s.trie data, peek_load hlive hacc.symm,
          lookup_insert _⟩
    | none =>
      obtain ⟨t, hinv, ht⟩ := h.trie
      obtain ⟨tr, hget, hinv'⟩ := getAccount_spec hinv ht addr (h.encodable addr)
      rw [h.fresh addr hlive] at hget
      rw [hget]
      have hbase : OnBase base { s with trie := tr } written := { h with trie := ⟨t, hinv', ht⟩ }
      cases hacc : base.accounts addr with
      | none =>
        rw [hpeek, hacc]
        exact ⟨_, rfl, hbase, ⟨⟨_, tr, rfl⟩, fun _ _ h => h⟩, fun _ => rfl, hlive⟩
      | some data =>
        rw [hpeek, hacc]
        exact ⟨_, rfl, hbase.setStateObject _, hkeep tr data, fun a => peek_load hlive hacc a,
          lookup_insert _⟩

end StateDB

end GoQrl.State
