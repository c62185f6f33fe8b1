import GoQrl.State.Operations

/-!
# GoQrl.State.Revert

Runs of a transaction with nested snapshots.

`Journalled` is what holds of every state: it stands for a world, and the newest entries of
its journal lead back through the worlds before.  Every change only adds worlds in front
(`Journalled.set`), so that a revert finds the world of its snapshot again
(`Journalled.revertN`).

* **objects** — new objects (`Journalled.create`), and objects that are written to
  (`Journalled.getOrNew`).
* **changes** — one lemma each, for accounts and for the rest.
* **snapshots** — the revert of the newest entries.
-/

namespace GoQrl.State

open Rlp Mpt Mpt.Tree GoQrl.Types List Option Bool World
open Function (update update_of_ne update_self)

variable [Keccak]

namespace StateDB

variable {base : Base} {seen : Log → Log} {below : List JournalEntry} {s : StateDB} {w : World}
  {ws : List World} {addr : Address}

/-- The state stands for the first world, and the entries of its journal above `below` lead
back through the others.  An empty journal has counted nothing. -/
structure Journalled (base : Base) (seen : Log → Log) (below : List JournalEntry)
    (s : StateDB) (w : World) (ws : List World) : Prop where
  rel : Rel base seen s w
  chain : ∃ es, s.journal.entries = es ++ below ∧
    UndoLog.Chain (Rel base seen) undoEntry es (w :: ws)
  bottom : below = [] → ∀ w₀, (w :: ws).getLast? = some w₀ → w₀.refund = 0 ∧
    ∀ a, w₀.dirties a = none

variable {s' : StateDB} {e : JournalEntry} {w' : World} {v : View} {obj : StateObject}
    {prev : StateObject}
  {al : AccessList} {written : Address → Option StateAccount}

/-- A change that is not journalled: the world is the same. -/
theorem Journalled.keep (h : Journalled base seen below s w ws) (hrel : Rel base seen s' w)
    (hquiet : Quiet s s') : Journalled base seen below s' w ws :=
  ⟨hrel, by rw [hquiet.journal]; exact h.chain, h.bottom⟩

/-- A change that is journalled leads to another world. -/
theorem Journalled.push (h : Journalled base seen below s w ws)
    (hrel : Rel base seen s' w') (hj : s'.journal.entries = e :: s.journal.entries)
    (hundo : Undoes base seen e w' w) :
    Journalled base seen below s' w' (w :: ws) := by
  obtain ⟨es, hes, hchain⟩ := h.chain
  exact ⟨hrel, ⟨e :: es, by rw [hj, hes]; rfl, .step hundo hchain⟩, h.bottom⟩

/-- The state and the world are reached by changes that were journalled. -/
def Moves (base : Base) (seen : Log → Log) (below : List JournalEntry) (s : StateDB) (w : World)
    (ws : List World) (s' : StateDB) (w' : World) : Prop :=
  ∃ ws', Journalled base seen below s' w' ws' ∧ (w :: ws) <:+ (w' :: ws') ∧ SameRevisions s s'

theorem Journalled.stays (h : Journalled base seen below s w ws) (hrel : Rel base seen s' w)
    (hquiet : Quiet s s') : Moves base seen below s w ws s' w :=
  ⟨ws, h.keep hrel hquiet, suffix_refl _, hquiet.toSameRevisions⟩

/-- Changes one after the other. -/
theorem Moves.trans {s1 s2 s3 : StateDB} {w1 w2 w3 : World}
    (h : Moves base seen below s1 w1 ws s2 w2)
    (h' : ∀ ws2, Journalled base seen below s2 w2 ws2 → Moves base seen below s2 w2 ws2 s3 w3) :
    Moves base seen below s1 w1 ws s3 w3 := by
  obtain ⟨ws2, hj, hsuffix, hrevs⟩ := h
  obtain ⟨ws3, hj', hsuffix', hrevs'⟩ := h' ws2 hj
  exact ⟨ws3, hj', hsuffix.trans hsuffix', hrevs.trans hrevs'⟩

/-- A change with one entry. -/
theorem Journalled.moves (h : Journalled base seen below s w ws)
    (hrel : Rel base seen s' w') (hj : s'.journal.entries = e :: s.journal.entries)
    (hundo : Undoes base seen e w' w) (hrevs : SameRevisions s s') :
    Moves base seen below s w ws s' w' :=
  ⟨w :: ws, h.push hrel hj hundo, suffix_cons _ _, hrevs⟩

/-- A change leads to the world that it means. -/
def Follows (base : Base) (seen : Log → Log) (below : List JournalEntry) (s : StateDB) (w : World)
    (ws : List World) (op : Setter) (s' : StateDB) : Prop :=
  ∃ w', w.set seen op = some w' ∧ Moves base seen below s w ws s' w'

/-! ## objects -/

omit [Keccak] in
/-- An account that exists is not deleted. -/
theorem live_some (h : w.live addr = some v) : v.deleted = false := by
  unfold live at h
  split at h
  · contradiction
  · split at h
    · contradiction
    next hd =>
      cases h
      simpa using hd

/-- The new object, with the balance that is carried over. -/
def createdObject (addr : Address) (balance : Int) : StateObject :=
  { newObject addr none with
    created := true
    data := { newEmptyStateAccount with balance := balance } }

theorem sees_created (hbase : OnBase base s written)
    (hnew : (s.stateObjectsDestruct.lookup addr).isSome = true ∨ base.accounts addr = none)
    (balance : Int) : Sees base s addr (createdObject addr balance) (createdView balance) :=
  (sees_new hbase hnew).setData { newEmptyStateAccount with balance := balance } rfl rfl

/-- A live object is seen as the account of its address. -/
theorem Rel.sees (h : Rel base seen s w) (hobj : s.stateObjects.lookup addr = some obj)
    (hv : w.accounts addr = some v) : Sees base s addr obj v := by
  obtain ⟨v', hv', hsees⟩ := h.present (peek_of_live hobj)
  rw [hv, some.injEq] at hv'
  rwa [hv']

/-- What is cleared when an object is replaced or deleted: it is marked as destructed, unless
it was before, and what was collected about it in the block is dropped. -/
def clear (s : StateDB) (prev : StateObject) : StateDB :=
  { s with
    stateObjectsDestruct :=
      if (s.stateObjectsDestruct.lookup prev.address).isSome then s.stateObjectsDestruct
      else s.stateObjectsDestruct.insert prev.address prev.origin
    accounts := s.accounts.erase prev.addrHash
    storages := s.storages.erase prev.addrHash
    accountsOrigin := s.accountsOrigin.erase prev.address
    storagesOrigin := s.storagesOrigin.erase prev.address }

/-- The markers after an object is cleared. -/
theorem lookup_destruct_clear (h : Rel base seen s w) (haddr : prev.address = addr) (a : Address) :
    (s.clear prev).stateObjectsDestruct.lookup a = (if (w.destruct addr).isSome then w.destruct
        else update w.destruct addr (some prev.origin)) a := by
  subst haddr
  have hdestruct := h.destruct prev.address
  by_cases hd : (s.stateObjectsDestruct.lookup prev.address).isSome = true
  · have hkeep : (s.clear prev).stateObjectsDestruct = s.stateObjectsDestruct := if_pos hd
    rw [hkeep, if_pos (by rwa [← hdestruct])]
    exact h.destruct a
  · have hmark : (s.clear prev).stateObjectsDestruct =
        s.stateObjectsDestruct.insert prev.address prev.origin := if_neg hd
    rw [hmark, if_neg (by rwa [← hdestruct])]
    exact lookup_insert_update h.destruct _ _ a

/-- An object that is cleared is marked. -/
theorem marked_clear (h : Rel base seen s w) (haddr : prev.address = addr) :
    ((s.clear prev).stateObjectsDestruct.lookup addr).isSome = true := by
  rw [lookup_destruct_clear h haddr addr]
  split
  · next hd => exact hd
  · simp

theorem OnBase.clear (h : OnBase base s written)
    (prev : StateObject) : OnBase base (s.clear prev) written :=
  { h with }

/-- **An object is replaced** by another one, and the old one is cleared. -/
theorem Rel.clear (h : Rel base seen s w) {prev obj : StateObject} {v v' : View}
    (hprev : Sees base s addr prev v) (hsees : Sees base (s.clear prev) addr obj v') :
    Rel base seen ((s.clear prev).setStateObject obj) (reset w addr prev.origin v') := by
  have haddr := hprev.address
  have hdestruct := lookup_destruct_clear h haddr
  have haccounts : ∀ a, SeesAt base ((s.clear prev).setStateObject obj) a
      (((s.clear prev).setStateObject obj).peek base a) (update w.accounts addr (some v') a) := by
    intro a
    rw [peek_setStateObject, hsees.address]
    by_cases hne : a = addr
    · rw [hne, if_pos rfl, update_self]
      exact hsees.transfer rfl rfl
    · rw [if_neg hne, update_of_ne hne]
      have hother : (s.clear prev).stateObjectsDestruct.lookup a =
          s.stateObjectsDestruct.lookup a := by
        rw [hdestruct a, h.destruct a]
        split
        · rfl
        · exact update_of_ne hne _ _
      exact SeesAt.transfer (h.accounts a) rfl hother
  subst haddr
  have hmarkers : ∀ a o, (if (w.destruct prev.address).isSome then w.destruct
      else update w.destruct prev.address (some prev.origin)) a = some o → o = base.accounts a := by
    intro a o ho
    split at ho
    · exact h.markers a o ho
    · next hd =>
        by_cases hne : a = prev.address
        · -- an object without a marker is not deleted, and its origin is the account of the base
          rw [← h.destruct] at hd
          have hlive : prev.deleted = false := by
            by_contra hdel
            exact hd (hprev.on.marked (by simpa using hdel))
          rw [hne, update_self, some.injEq] at ho
          rw [← ho, hprev.on.origin hlive, if_neg hd, hne]
        · rw [update_of_ne hne] at ho
          exact h.markers a o ho
  exact { h with
      onBase := (h.onBase.clear prev).setStateObject obj
      accounts := haccounts
      destruct := hdestruct
      accountDiffs := lookup_erase_update h.accountDiffs prev.addrHash
      storageDiffs := lookups_erase_update h.storageDiffs prev.addrHash
      accountOrigins := lookup_erase_update h.accountOrigins prev.address
      storageOrigins := lookups_erase_update h.storageOrigins prev.address
      live := fun a ha => lookup_setStateObject_ne (h.live a ha) obj
      markers := hmarkers }

/-- The account that is written to, and its object. -/
structure Writable (base : Base) (s : StateDB) (w : World) (addr : Address) (obj : StateObject)
    (v : View) : Prop where
  account : w.accounts addr = some v
  deleted : v.deleted = false
  sees : Sees base s addr obj v
  object : s.stateObjects.lookup addr = some obj

theorem object_of_live (h : s.stateObjects.lookup addr = some obj) : s.object addr = obj := by
  rw [object, h]
  rfl

/-- The access list may be replaced by another that is well formed. -/
theorem Rel.setAccessList (h : Rel base seen s w) (hal : al.WF) :
    Rel base seen { s with accessList := al } { w with accessList := al } :=
  { h with
    onBase := { h.onBase with }
    accounts := fun a => (h.accounts a).transfer rfl rfl
    accessList := rfl
    indices := hal }

omit [Keccak] in
/-- A first slot of a new address is added in two steps. -/
theorem addSlot_addAddress (hnone : al.addresses addr = none) (slot : Hash) :
    (al.addAddress addr).1 = true ∧
      (al.addAddress addr).2.addSlot addr slot =
        some ((false, true), al.addFirstSlot addr slot) := by
  have hadd : al.addAddress addr =
      (true, { al with addresses := update al.addresses addr (some (-1)) }) := by
    simp [AccessList.addAddress, hnone]
  rw [hadd]
  simp [AccessList.addSlot, AccessList.addFirstSlot]

namespace Journalled

variable (h : Journalled base seen below s w ws)
include h

/-- A new object where there was none. -/
theorem createNew (hpeek : s.peek base addr = none) (balance : Int) :
    Moves base seen below s w ws
      ((s.append (.createObject addr)).setStateObject (createdObject addr balance))
      (w.create addr balance) := by
  obtain ⟨hlive, hbase, hnone⟩ := h.rel.absent hpeek
  have hwritten : w.written addr = none := (h.rel.onBase.fresh addr hlive).trans hbase
  have huntouched : ¬ w.Touched addr := fun ht => h.rel.live addr ht hlive
  have hsees := sees_created h.rel.onBase (.inr hbase) balance
  simp only [create, hnone]
  exact h.moves (h.rel.change hsees rfl) rfl
    (undoes_createObject h.rel.counts hnone hbase hwritten huntouched _) ⟨rfl, rfl⟩

/-- A new object over an old one. -/
theorem createOver (hpeek : s.peek base addr = some prev) (balance : Int) :
    Moves base seen below s w ws ((s.resetObject prev).setStateObject (createdObject addr balance))
      (w.create addr balance) := by
  obtain ⟨v, hv, hprev⟩ := h.rel.present hpeek
  have haddr := hprev.address
  have hhash : prev.addrHash = Keccak.hash addr.bytes := by rw [StateObject.addrHash, haddr]
  have hsees := sees_created (h.rel.onBase.clear prev) (.inl (marked_clear h.rel haddr)) balance
  have hput : ((s.clear prev).setStateObject (createdObject addr balance)).stateObjects.lookup
      addr ≠ none :=
    ne_of_eq_of_ne (AList.lookup_insert _) (Option.some_ne_none _)
  simp only [create, hv, hprev.origin]
  refine h.moves ((h.rel.clear hprev hsees).append
    (by rw [← haddr]; rfl) hput) ?_ (undoes_resetObject h.rel.counts h.rel hv hprev _) ⟨rfl, rfl⟩
  simp only [setStateObject, StateDB.resetObject, StateDB.append, Journal.append, h.rel.destruct,
    h.rel.accountDiffs, h.rel.accountOrigins]
  rw [hhash, haddr]

/-- **New objects**, over an old one or not, and with any balance. -/
theorem createObject (addr : Address) :
    ∃ (prev : Option StateObject) (s' : StateDB),
      s.createObject addr =
        ((createdObject addr 0, prev), s'.setStateObject (createdObject addr 0)) ∧
      prev.elim 0 (·.data.balance) = (w.live addr).elim 0 (·.data.balance) ∧
      ∀ balance, Moves base seen below s w ws (s'.setStateObject (createdObject addr balance))
        (w.create addr balance) := by
  obtain ⟨s', hget, hrel, -, hpeek⟩ := getDeletedStateObject_rel h.rel addr
  have hquiet := getDeletedStateObject_quiet s addr
  rw [hget] at hquiet
  have hstays := h.stays hrel hquiet
  cases hp : s.peek base addr with
  | none =>
    rw [hp] at hget hpeek
    obtain ⟨-, -, hnone⟩ := hrel.absent hpeek
    refine ⟨none, s'.append (.createObject addr), by simp only [StateDB.createObject, hget]; rfl,
      ?_, fun balance => hstays.trans fun _ hj => hj.createNew hpeek balance⟩
    simp [live, hnone]
  | some prev =>
    rw [hp] at hget hpeek
    obtain ⟨v, hv, hsees⟩ := hrel.present hpeek
    refine ⟨if prev.deleted then none else some prev, s'.resetObject prev,
      by simp only [StateDB.createObject, hget]; rfl, ?_,
      fun balance => hstays.trans fun _ hj => hj.createOver hpeek balance⟩
    have hdel := hsees.deleted
    have hdata := hsees.data
    cases hd : prev.deleted <;> simp [live, hv, hdel, hd, hdata]

/-- **Objects that are written to** are live and seen as accounts that exist. -/
theorem getOrNew (addr : Address) :
    ∃ obj s', s.getOrNewStateObject addr = (obj, s') ∧
      Moves base seen below s w ws s' (w.getOrNew addr).2 ∧
      Writable base s' (w.getOrNew addr).2 addr obj (w.getOrNew addr).1 := by
  obtain ⟨s', hrel, hquiet, ⟨hlive, hget⟩ | ⟨obj, v, hlive, hv, hget, hsees, -, hobj⟩⟩ :=
    getStateObject_rel h.rel addr
  · -- there is none, or only a deleted one
    obtain ⟨prev, s1, hcreate, -, hmoves⟩ := (h.keep hrel hquiet).createObject addr
    have hmoves : Moves base seen below s w ws (s1.setStateObject (createdObject addr 0))
        (w.create addr 0) := by
      obtain ⟨ws', hj, hsuffix, hrevs⟩ := hmoves 0
      exact ⟨ws', hj, hsuffix, hquiet.toSameRevisions.trans hrevs⟩
    have hnew : w.getOrNew addr = (createdView 0, w.create addr 0) := by rw [World.getOrNew, hlive]
    rw [hnew]
    have hobj : (s1.setStateObject (createdObject addr 0)).stateObjects.lookup addr =
        some (createdObject addr 0) := AList.lookup_insert _
    have hv : (w.create addr 0).accounts addr = some (createdView 0) := by
      unfold create
      split <;> exact update_self _ _ _
    obtain ⟨ws', hj, -⟩ := id hmoves
    exact ⟨_, _, by simp [getOrNewStateObject, hget, hcreate], hmoves,
      ⟨hv, rfl, hj.rel.sees hobj hv, hobj⟩⟩
  · have hold : w.getOrNew addr = (v, w) := by rw [World.getOrNew, hlive]
    rw [hold]
    exact ⟨obj, s', by simp [getOrNewStateObject, hget], h.stays hrel hquiet,
      ⟨hv, live_some hlive, hsees, hobj⟩⟩

/-- A change of an object that is written to. -/
theorem follows {op : Setter} {f : View → World → World}
    (hop : w.set seen op = some (w.write addr f))
    (hwrite : ∀ obj v s1 w1 ws1, s.getOrNewStateObject addr = (obj, s1) →
      Journalled base seen below s1 w1 ws1 →
      Writable base s1 w1 addr obj v → Moves base seen below s1 w1 ws1 s' (f v w1)) :
    Follows base seen below s w ws op s' := by
  obtain ⟨obj, s1, hget, hmoves, hw⟩ := h.getOrNew addr
  exact ⟨_, hop, hmoves.trans fun ws1 hj => hwrite obj _ s1 _ ws1 hget hj hw⟩

/-! ## changes of an account -/

/-- A journalled change of an account. -/
theorem change (hsees : Sees base s addr obj v) (he : e.dirtied = some addr)
    (hundo : Undoes base seen e (w.put addr v) w) :
    Moves base seen below s w ws ((s.append e).setStateObject obj) (w.put addr v) :=
  h.moves (h.rel.change hsees he) rfl hundo ⟨rfl, rfl⟩

/-- `SetBalance` of a live object. -/
theorem objectSetBalance (hw : Writable base s w addr obj v) (amount : Int) :
    Moves base seen below s w ws (s.objectSetBalance obj amount)
      (w.put addr { v with data := { v.data with balance := amount } }) := by
  have hdata := hw.sees.data
  have hset := hw.sees.setData { v.data with balance := amount } (by rw [hdata]) (by rw [hdata])
  have hstate : s.objectSetBalance obj amount =
      (s.append (.balance addr v.data.balance)).setStateObject
      { obj with data := { v.data with balance := amount } } := by
    rw [StateDB.objectSetBalance, hw.sees.address, hdata]
  rw [hstate]
  exact h.change hset rfl (undoes_balance h.rel.counts hw.account hw.deleted amount)

/-- `AddBalance`. -/
theorem addBalance (addr : Address) (amount : Int) :
    Follows base seen below s w ws (.addBalance addr amount) (s.addBalance addr amount) := by
  refine h.follows rfl fun obj v s' w' ws' hget hj hw => ?_
  have hdata := hw.sees.data
  have hempty : v.empty = obj.empty := by rw [View.empty, StateObject.empty, hdata]
  simp only [StateDB.addBalance, hget, hempty, hdata]
  by_cases hzero : amount = 0
  · simp only [if_pos hzero]
    split
    · simp only [hw.sees.address]
      have hlive : s'.stateObjects.lookup addr ≠ none := by simp [hw.object]
      exact hj.moves (hj.rel.append rfl hlive) rfl (undoes_touch hj.rel.counts addr) ⟨rfl, rfl⟩
    · exact hj.stays hj.rel (.refl s')
  · simp only [if_neg hzero]
    have hset := hj.objectSetBalance hw (obj.data.balance + amount)
    rwa [hdata] at hset

/-- `SubBalance`. -/
theorem subBalance (addr : Address) (amount : Int) :
    Follows base seen below s w ws (.subBalance addr amount) (s.subBalance addr amount) := by
  refine h.follows rfl fun obj v s' w' ws' hget hj hw => ?_
  have hdata := hw.sees.data
  simp only [StateDB.subBalance, hget, hdata]
  split
  · exact hj.stays hj.rel (.refl s')
  · have hset := hj.objectSetBalance hw (obj.data.balance - amount)
    rwa [hdata] at hset

/-- `SetBalance`. -/
theorem setBalance (addr : Address) (amount : Int) :
    Follows base seen below s w ws (.setBalance addr amount) (s.setBalance addr amount) := by
  refine h.follows rfl fun obj v s' w' ws' hget hj hw => ?_
  simp only [StateDB.setBalance, hget]
  exact hj.objectSetBalance hw amount

/-- `SetNonce`. -/
theorem setNonce (addr : Address) (nonce : UInt64) :
    Follows base seen below s w ws (.setNonce addr nonce) (s.setNonce addr nonce) := by
  refine h.follows rfl fun obj v s' w' ws' hget hj hw => ?_
  have hdata := hw.sees.data
  have hset := hw.sees.setData { v.data with nonce := nonce } (by rw [hdata]) (by rw [hdata])
  have hstate : s.setNonce addr nonce =
      (s'.append (.nonce addr v.data.nonce)).setStateObject
        { obj with data := { v.data with nonce := nonce } } := by
    simp [StateDB.setNonce, hget, hw.sees.address, hdata]
  rw [hstate]
  exact hj.change hset rfl (undoes_nonce hj.rel.counts hw.account hw.deleted nonce)

/-- `SetState`: the slot is read first, and then written. -/
theorem setState (addr : Address) (key value : Hash) :
    Follows base seen below s w ws (.setState addr key value) (s.setState addr key value) := by
  refine h.follows rfl fun obj v s' w' ws' hget hj hw => ?_
  have hlive : obj.deleted = false := hw.sees.deleted.symm.trans hw.deleted
  have hon : ObjectOn base s'.db (s'.stateObjectsDestruct.lookup obj.address).isSome obj v.cur := by
    rw [hw.sees.address]
    exact hw.sees.on
  obtain ⟨s'', hread, hafter⟩ :=
    objectState_spec hj.rel.onBase.backs hj.rel.onBase.root hlive hon key
  have hvalue : obj.value v.cur key = v.value key :=
    (congrFun (congrArg View.value hw.sees.view) key).symm
  rw [hvalue] at hread
  obtain ⟨hrel, hquiet, obj', hobj', hsees'⟩ := hj.rel.afterRead hw.account hw.object hw.sees hafter
  simp only [StateDB.setState, hget, hread, hw.sees.address, object_of_live hobj']
  split
  · exact hj.stays hrel hquiet
  · simp only [hsees'.address]
    refine (hj.stays hrel hquiet).trans fun ws'' hj' => ?_
    have hset := hsees'.setState (.inr rfl) value
    exact hj'.change hset rfl (undoes_storage hj'.rel.counts hw.account hw.deleted key value)

/-- `SetCode`. -/
theorem setCode (addr : Address) (code : Option Bytes) :
    Follows base seen below s w ws (.setCode addr code) (s.setCode addr code) := by
  refine h.follows rfl fun obj v s' w' ws' hget hj hw => ?_
  obtain ⟨s'', obj', hread, hrel, hquiet, hobj', hsees'⟩ :=
    objectCode_rel hj.rel hw.account hw.object hw.sees
  refine (hj.stays hrel hquiet).trans fun ws'' hj' => ?_
  have hdata := hsees'.data
  have hlen : v.data.codeHash.length = 32 := by rw [hdata]; exact hsees'.codeHash
  have hnone : v.code = none → storedCode base.db v.data.codeHash = none := by
    rw [← hj'.rel.onBase.db]
    exact hsees'.storedCode_none
  have hset := hsees'.setCode code
      { obj'.data with codeHash := (Keccak.hash (code.getD [])).bytes } rfl
    (Hash.length_bytes _) fun hnone => if_pos (by rw [hnone]; rfl)
  rw [← hdata] at hset
  have hundo := @undoes_code _ base seen _ _ _ hj'.rel.counts hw.account hw.deleted hlen hnone code
    (Keccak.hash (code.getD [])).bytes
  have hstate : s.setCode addr code =
      (s''.append (.code addr v.code v.data.codeHash)).setStateObject { obj' with
          code := code
          data := { v.data with codeHash := (Keccak.hash (code.getD [])).bytes }
          dirtyCode := true } := by
    simp [StateDB.setCode, hget, hread, hw.sees.address, object_of_live hobj', hsees'.address,
      StateDB.objectSetCode, hdata]
  rw [hstate]
  exact hj'.change hset rfl hundo

/-- `CreateAccount`: the balance is carried over. -/
theorem createAccount (addr : Address) :
    Follows base seen below s w ws (.createAccount addr) (s.createAccount addr) := by
  refine ⟨_, rfl, ?_⟩
  obtain ⟨prev, s', hcreate, hbalance, hmoves⟩ := h.createObject addr
  have hstate : s.createAccount addr = s'.setStateObject
      (createdObject addr (prev.elim 0 (·.data.balance))) := by
    cases prev with
    | none => simp [StateDB.createAccount, hcreate, Option.elim]
    | some prev =>
      -- the object is put twice, the second time with the balance
      simp only [StateDB.createAccount, hcreate, setStateObject, Option.elim]
      congr 1
      exact AList.insert_insert _
  rw [hstate, hbalance]
  exact hmoves _

/-! ## changes outside the accounts -/

/-- A journalled change that the accounts do not depend on. -/
theorem other (hj : s'.journal = s.journal.append e) (he : e.dirtied = none)
    (hrel : Rel base seen { s' with journal := s.journal } w')
    (hundo : Undoes base seen e w' w) (hrevs : SameRevisions s s') :
    Moves base seen below s w ws s' w' := by
  have hsame : SameAccounts { s' with journal := s.journal } s' := ⟨rfl, rfl, rfl, rfl, rfl, rfl⟩
  have hrel' : Rel base seen s' w' :=
    { hrel with
      onBase := hsame.onBase hrel.onBase
      accounts := fun a => (hrel.accounts a).transfer rfl rfl
      dirties := fun a => by
        rw [hj]
        simp only [Journal.append, he, State.addDirty]
        exact hrel.dirties a }
  exact h.moves hrel' (by rw [hj]; rfl) hundo hrevs

/-- `AddLog`. -/
theorem addLog (log : Log) : Follows base seen below s w ws (.addLog log) (s.addLog log) := by
  refine ⟨_, rfl, ?_⟩
  have hrel : Rel base seen { s.addLog log with journal := s.journal } { w with
        logs := update w.logs w.thash (w.logs w.thash ++
          [seen { log with txHash := w.thash, txIndex := w.txIndex, index := w.logSize }])
        logSize := w.logSize + 1 } := by
    refine { h.rel with
      onBase := { h.rel.onBase with }
      accounts := fun a => (h.rel.accounts a).transfer rfl rfl
      logs := fun k => ?_
      logSize := by simp [StateDB.addLog, StateDB.append, h.rel.logSize] }
    simp only [StateDB.addLog, StateDB.append, h.rel.thash, h.rel.txIndex, h.rel.logSize]
    by_cases hk : k = w.thash
    · subst hk
      rw [update_self, update_self, map_append, h.rel.logs]
      rfl
    · rw [update_of_ne hk, update_of_ne hk]
      exact h.rel.logs k
  have hundo := @undoes_addLog _ base seen w w.thash
    (seen { log with txHash := w.thash, txIndex := w.txIndex, index := w.logSize })
  exact h.other (by rw [← h.rel.thash]; rfl) rfl hrel hundo ⟨rfl, rfl⟩

/-- A journalled change of the refund counter. -/
theorem setRefund (refund : UInt64) :
    Moves base seen below s w ws { s.append (.refund s.refund) with refund := refund }
      { w with refund := refund } := by
  have hrel : Rel base seen { s with refund := refund } { w with refund := refund } :=
    { h.rel with
      onBase := { h.rel.onBase with }
      accounts := fun a => (h.rel.accounts a).transfer rfl rfl
      refund := rfl }
  rw [h.rel.refund]
  exact h.other rfl rfl hrel (undoes_refund w refund) ⟨rfl, rfl⟩

/-- `AddPreimage`. -/
theorem addPreimage (hash : Hash) (preimage : Bytes) :
    Follows base seen below s w ws (.addPreimage hash preimage) (s.addPreimage hash preimage) := by
  unfold Follows StateDB.addPreimage World.set
  cases hpre : s.preimages hash with
  | some _ =>
    rw [h.rel.preimages] at hpre
    simp only [hpre]
    exact ⟨w, rfl, h.stays h.rel (.refl s)⟩
  | none =>
    have hnone : w.preimages hash = none := by rw [← h.rel.preimages]; exact hpre
    have hrel : Rel base seen { s with preimages := update s.preimages hash (some preimage) }
        { w with preimages := update w.preimages hash (some preimage) } :=
      { h.rel with
        onBase := { h.rel.onBase with }
        accounts := fun a => (h.rel.accounts a).transfer rfl rfl
        preimages := by rw [← h.rel.preimages] }
    simp only [hnone]
    exact ⟨_, rfl, h.other rfl rfl hrel (undoes_addPreimage hnone preimage) ⟨rfl, rfl⟩⟩

/-- An address that is not in the list. -/
theorem addNewAddress (hadd : (w.accessList.addAddress addr).1 = true) :
    Moves base seen below s w ws
      (({ s with accessList := (w.accessList.addAddress addr).2 } : StateDB).append
        (.accessListAddAccount addr))
      { w with accessList := (w.accessList.addAddress addr).2 } :=
  h.other rfl rfl (h.rel.setAccessList (h.rel.indices.addAddress addr))
    (undoes_addAddress h.rel.indices hadd) ⟨rfl, rfl⟩

/-- `AddAddressToAccessList`. -/
theorem addAddress (addr : Address) :
    Follows base seen below s w ws (.addAddressToAccessList addr)
      (s.addAddressToAccessList addr) := by
  refine ⟨_, rfl, ?_⟩
  simp only [StateDB.addAddressToAccessList, h.rel.accessList]
  cases hadd : (w.accessList.addAddress addr).1 with
  | false =>
    have hkeep : (w.accessList.addAddress addr).2 = w.accessList := by
      unfold AccessList.addAddress at hadd ⊢
      split at hadd
      · next hsome => rw [if_pos hsome]
      · contradiction
    simp only [false_eq_true, if_false, hkeep]
    have hstate : ({ s with accessList := w.accessList } : StateDB) = s := by
      rw [← h.rel.accessList]
    rw [hstate]
    exact h.stays h.rel (.refl s)
  | true =>
    exact h.addNewAddress hadd

/-- A new slot of an address that is in the list. -/
theorem addSlotOf {slot : Hash} (hadd : w.accessList.addSlot addr slot = some ((false, true), al)) :
    Moves base seen below s w ws
      (({ s with accessList := al } : StateDB).append (.accessListAddSlot addr slot))
      { w with accessList := al } := by
  obtain ⟨mods, al', hadd', hwf⟩ := h.rel.indices.addSlot addr slot
  rw [hadd] at hadd'
  cases hadd'
  exact h.other rfl rfl (h.rel.setAccessList hwf) (undoes_addSlot h.rel.indices hadd) ⟨rfl, rfl⟩

/-- `AddSlotToAccessList` does not panic. -/
theorem addSlot (addr : Address) (slot : Hash) :
    ∃ s' w', s.addSlotToAccessList addr slot = some s' ∧
      w.set seen (.addSlotToAccessList addr slot) = some w' ∧
        Moves base seen below s w ws s' w' := by
  have hlist := h.rel.accessList
  unfold addSlotToAccessList World.set
  rw [hlist]
  obtain ⟨haddr, heq⟩ | ⟨n, slotmap, -, -, -, -, heq⟩ | ⟨n, slotmap, -, -, -, -, heq⟩ :=
    AccessList.addSlot_cases h.rel.indices addr slot
  · simp only [heq, map_some]
    refine ⟨_, _, rfl, rfl, ?_⟩
    cases haddr with
    | inl hnone =>
      -- the address first, and then the slot
      obtain ⟨hnew, hslot⟩ := addSlot_addAddress hnone slot
      simp only [hnone, isNone_none, if_true]
      exact (h.addNewAddress hnew).trans fun _ hj => hj.addSlotOf hslot
    | inr hsome =>
      simp only [hsome, isNone_some, false_eq_true, if_false, if_true]
      rw [hsome] at heq
      exact h.addSlotOf heq
  · simp only [heq, map_some, false_eq_true, if_false]
    refine ⟨_, _, rfl, rfl, ?_⟩
    have hstate : ({ s with accessList := w.accessList } : StateDB) = s := by rw [← hlist]
    rw [hstate]
    exact h.stays h.rel (.refl s)
  · simp only [heq, map_some, false_eq_true, if_false, if_true]
    exact ⟨_, _, rfl, rfl, h.addSlotOf heq⟩

/-- **Changes** lead to the world they mean, or panic if they do there. -/
theorem set (op : Setter) :
    (∃ s' w', s.set op = some s' ∧ w.set seen op = some w' ∧ Moves base seen below s w ws s' w') ∨
      (s.set op = none ∧ w.set seen op = none) := by
  have hmoves : ∀ {s' : StateDB}, Follows base seen below s w ws op s' → s.set op = some s' →
      ∃ s' w', s.set op = some s' ∧ w.set seen op = some w' ∧ Moves base seen below s w ws s' w' :=
    fun ⟨w', hw', hm⟩ hs' => ⟨_, w', hs', hw', hm⟩
  cases op with
  | addBalance addr amount => exact .inl (hmoves (h.addBalance addr amount) rfl)
  | subBalance addr amount => exact .inl (hmoves (h.subBalance addr amount) rfl)
  | setBalance addr amount => exact .inl (hmoves (h.setBalance addr amount) rfl)
  | setNonce addr nonce => exact .inl (hmoves (h.setNonce addr nonce) rfl)
  | setCode addr code => exact .inl (hmoves (h.setCode addr code) rfl)
  | setState addr key value => exact .inl (hmoves (h.setState addr key value) rfl)
  | createAccount addr => exact .inl (hmoves (h.createAccount addr) rfl)
  | addLog log => exact .inl (hmoves (h.addLog log) rfl)
  | addRefund gas =>
    have hset := h.setRefund (s.refund + gas)
    refine .inl ⟨_, _, rfl, rfl, ?_⟩
    rwa [← h.rel.refund]
  | subRefund gas =>
    simp only [StateDB.set, StateDB.subRefund, World.set, ← h.rel.refund]
    by_cases hlt : gas > s.refund
    · exact .inr ⟨if_pos hlt, if_pos hlt⟩
    · exact .inl ⟨_, _, if_neg hlt, if_neg hlt, h.setRefund _⟩
  | addPreimage hash preimage => exact .inl (hmoves (h.addPreimage hash preimage) rfl)
  | addAddressToAccessList addr => exact .inl (hmoves (h.addAddress addr) rfl)
  | addSlotToAccessList addr slot => exact .inl (h.addSlot addr slot)

end Journalled

/-! ## snapshots -/

/-- A step of `journal.revert` undoes the newest entry. -/
theorem revertNewest_eq {es : List JournalEntry} (hj : s.journal.entries = e :: es) :
    s.revertNewest = undoEntry e s := by
  rw [revertNewest, hj]
  rfl

/-- A revert leaves the journal to its caller. -/
theorem revertEntry_quiet (h : s.revertEntry e = some s') : Quiet s s' := by
  have hobject : ∀ (addr : Address) (f : StateObject → StateObject),
      (s.revertObject addr fun s obj => s.setStateObject (f obj)) = some s' → Quiet s s' := by
    intro addr f hrev
    have hquiet := getStateObject_quiet s addr
    unfold revertObject at hrev
    split at hrev
    · contradiction
    next hget =>
      rw [hget] at hquiet
      cases hrev
      exact hquiet.trans ⟨⟨rfl, rfl⟩, rfl⟩
  cases e with
  | createObject | resetObject | refund | addPreimage | accessListAddAccount =>
    cases h; exact ⟨⟨rfl, rfl⟩, rfl⟩
  | balance a | nonce a | storage a | code a => exact hobject a _ h
  | addLog | accessListAddSlot =>
    simp only [revertEntry] at h
    split at h
    · contradiction
    · cases h; exact ⟨⟨rfl, rfl⟩, rfl⟩
  | touch => cases h; exact .refl _

theorem undoEntry_frame (h : undoEntry e s = some s') :
    s'.journal.entries = s.journal.entries.tail ∧ SameRevisions s s' := by
  unfold undoEntry at h
  cases hrev : s.revertEntry e with
  | none => simp [hrev] at h
  | some s1 =>
    have hquiet := revertEntry_quiet hrev
    simp only [hrev, some.injEq] at h
    rw [← h]
    exact ⟨by rw [hquiet.journal], hquiet.valid, hquiet.next⟩

/-- `journal.revert` undoes the newest entries, one after the other. -/
theorem revertN_eq (n : Nat) {es rest : List JournalEntry} (hes : s.journal.entries = es ++ rest)
    (hn : n ≤ es.length) (h : UndoLog.undoN undoEntry n es s = some s') :
    StateDB.revertN n s = some s' ∧ s'.journal.entries = es.drop n ++ rest ∧
      SameRevisions s s' := by
  induction n generalizing s es with
  | zero =>
    have hs : s = s' := by cases es <;> exact some.inj h
    subst hs
    exact ⟨rfl, hes, rfl, rfl⟩
  | succ n ih =>
    cases es with
    | nil => simp at hn
    | cons e es =>
      have hundo := revertNewest_eq hes
      simp only [UndoLog.undoN] at h
      cases hs1 : undoEntry e s with
      | none => simp [hs1] at h
      | some s1 =>
        obtain ⟨hentries, hrevs⟩ := undoEntry_frame hs1
        simp only [hs1] at h
        rw [hes] at hentries
        obtain ⟨hrun, hrest, hrevs'⟩ := ih hentries (by simpa using hn) h
        refine ⟨?_, hrest, hrevs.trans hrevs'⟩
        simp [StateDB.revertN, hundo, hs1, hrun]

/-- **`journal.revert`** leads back to the world before the entries it undoes. -/
theorem Journalled.revertN (h : Journalled base seen below s w ws) {ws' : List World}
    (hsuffix : (w' :: ws') <:+ (w :: ws)) :
    ∃ s', StateDB.revertN (ws.length - ws'.length) s = some s' ∧
      Journalled base seen below s' w' ws' ∧ SameRevisions s s' := by
  obtain ⟨es, hes, hchain⟩ := h.chain
  obtain ⟨pre, hpre⟩ := hsuffix
  have hlen := hchain.length
  have hcount := congrArg List.length hpre
  simp only [length_append, length_cons] at hlen hcount
  have hn : ws.length - ws'.length ≤ es.length := by omega
  have hdrop : (w :: ws).drop (ws.length - ws'.length) = w' :: ws' := by
    rw [← hpre, show ws.length - ws'.length = pre.length by omega, drop_left]
  obtain ⟨s', w1, hundo, hget, hrel⟩ := hchain.undoN h.rel _ hn
  have hworld : w1 = w' := by
    have hhead := congrArg head? hdrop
    rw [head?_drop, hget] at hhead
    exact some.inj hhead
  subst hworld
  obtain ⟨hrun, hentries, hrevs⟩ := revertN_eq _ hes hn hundo
  have hchain' := hchain.drop _ hn
  rw [hdrop] at hchain'
  refine ⟨s', hrun, ⟨hrel, ⟨_, hentries, hchain'⟩, fun hbelow w0 hw0 => ?_⟩, hrevs⟩
  refine h.bottom hbelow w0 ?_
  rw [← hpre, getLast?_append, hw0]
  rfl

end StateDB

end GoQrl.State
