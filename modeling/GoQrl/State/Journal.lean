import GoQrl.State.World
import GoQrl.Lib.UndoLog

/-!
# GoQrl.State.Journal

The journal: every change of the running transaction moves to another world, and its entry
takes every state of that world back (`Undoes`).

* **entries** — `undoEntry` is one step of `journal.revert`, and the count of changes is
  part of it (`Rel.append`, `Rel.drop`).
* **changes of an account** — one lemma for all of them (`undoes_account`); balance, nonce,
  slots and code are its instances.
-/

namespace GoQrl.State

open Rlp Mpt Mpt.Tree GoQrl.Types Option AList State GoMap
open Function (update update_eq_self update_idem update_of_ne update_self)

/-! ## counts of changes -/

/-- One more change of the address. -/
def World.addDirty (w : World) (addr : Address) : World :=
  { w with dirties := Function.update w.dirties addr (some ((w.dirties addr).getD 0 + 1)) }

/-- One change less of the address. -/
def World.dropDirty (w : World) (addr : Address) : World :=
  let n := (w.dirties addr).getD 0 - 1
  { w with dirties := Function.update w.dirties addr (if n = 0 then none else some n) }

variable {w : World}

theorem World.dropDirty_addDirty (h : ∀ a n, w.dirties a = some n → 0 < n) (addr : Address) :
    (w.addDirty addr).dropDirty addr = w := by
  have hself : (if (w.dirties addr).getD 0 + 1 - 1 = 0 then none
      else some ((w.dirties addr).getD 0 + 1 - 1)) = w.dirties addr := by
    cases hd : w.dirties addr with
    | none => rfl
    | some n => simp [(h addr n hd).ne']
  simp only [World.addDirty, World.dropDirty, update_self, getD_some, update_idem, hself,
    update_eq_self]

theorem World.Touched.addDirty {a : Address} (h : w.Touched a) (addr : Address) :
    (w.addDirty addr).Touched a := by
  obtain hd | hp := h
  · refine .inl ?_
    by_cases ha : a = addr
    · simp [World.addDirty, ha]
    · simpa [World.addDirty, update_of_ne ha] using hd
  · exact .inr hp

theorem World.Touched.of_addDirty {a addr : Address} (h : (w.addDirty addr).Touched a)
    (ha : a ≠ addr) :
    w.Touched a := by
  obtain hd | hp := h
  · exact .inl (by simpa [World.addDirty, update_of_ne ha] using hd)
  · exact .inr hp

variable [Keccak]

namespace StateDB

variable {base : Base} {seen : Log → Log} {s : StateDB} {w : World} {addr : Address}
    {e : JournalEntry}
  {obj : StateObject} {v : View}

/-- One step of `journal.revert`. -/
def undoEntry (e : JournalEntry) (s : StateDB) : Option StateDB :=
  match s.revertEntry e with
  | none => none
  | some s => some
    { s with journal := ⟨s.journal.entries.tail, State.dropDirty s.journal.dirties e.dirtied⟩ }

/-- The entry leads from the first world back to the second. -/
abbrev Undoes (base : Base) (seen : Log → Log) (e : JournalEntry) (w w' : World) : Prop :=
  UndoLog.Undoes (Rel base seen) undoEntry e w w'

theorem undoEntry_of_revert {s' : StateDB} (h : s.revertEntry e = some s') :
    undoEntry e s = some { s' with
      journal := ⟨s'.journal.entries.tail, dropDirty s'.journal.dirties e.dirtied⟩ } := by
  simp [undoEntry, h]

/-- A change of an account is counted; it has a live object. -/
theorem Rel.append (h : Rel base seen s w) (he : e.dirtied = some addr)
    (hlive : s.stateObjects.lookup addr ≠ none) : Rel base seen (s.append e) (w.addDirty addr) := by
  have hlive' : ∀ a, (w.addDirty addr).Touched a → (s.append e).stateObjects.lookup a ≠ none := by
    intro a ha
    by_cases hne : a = addr
    · rwa [hne]
    · exact h.live a (ha.of_addDirty hne)
  refine { h with
    onBase := { h.onBase with }
    accounts := fun a => (h.accounts a).transfer rfl rfl
    dirties := fun a => ?_
    counts := fun a n ha => ?_
    live := hlive' }
  · simp only [StateDB.append, Journal.append, he, addDirty, World.addDirty, h.dirties addr]
    exact lookup_insert_update h.dirties addr _ a
  · simp only [World.addDirty] at ha
    by_cases hne : a = addr
    · subst hne
      rw [update_self, some.injEq] at ha
      cases hd : w.dirties a with
      | none => simp [hd] at ha; omega
      | some m =>
        have := h.counts a m hd
        rw [hd, getD_some] at ha
        omega
    · rw [update_of_ne hne] at ha
      exact h.counts a n ha

/-- A changed object is put at its address, and the change is counted. -/
theorem Rel.change (h : Rel base seen s w) (hsees : Sees base s addr obj v)
    (he : e.dirtied = some addr) :
    Rel base seen ((s.append e).setStateObject obj) ((w.setAccount addr v).addDirty addr) := by
  have hput : (s.setStateObject obj).stateObjects.lookup addr = some obj := by
    rw [← hsees.address]
    exact lookup_insert _
  exact (h.setObject hsees).append he (by simp [hput])

/-- The count goes back with the change. -/
theorem Rel.drop (h : Rel base seen s (w.addDirty addr)) (hc : ∀ a n, w.dirties a = some n → 0 < n)
    (he : e.dirtied = some addr) :
    Rel base seen { s with journal := ⟨s.journal.entries.tail,
      dropDirty s.journal.dirties e.dirtied⟩ } w := by
  have hw := World.dropDirty_addDirty hc addr
  have hdirties : ∀ a, (dropDirty s.journal.dirties e.dirtied).lookup a = w.dirties a := by
    intro a
    rw [← congrFun (congrArg World.dirties hw) a]
    simp only [he, dropDirty, World.dropDirty, h.dirties addr]
    split
    · exact lookup_erase_update h.dirties addr a
    · exact lookup_insert_update h.dirties addr _ a
  exact { h with
    onBase := { h.onBase with }
    accounts := fun a => (h.accounts a).transfer rfl rfl
    dirties := hdirties
    counts := hc
    live := fun a ha => h.live a (ha.addDirty addr) }

/-! ## changes of an account -/

/-- The slots do not depend on the code, and on the data only by the root. -/
theorem ObjectOn.setData {db : Database} {d : Bool} {cur : Hash → Hash}
    (h : ObjectOn base db d obj cur)
    {code : Option Bytes} {data : StateAccount} {dirty : Bool} (hroot : data.root = obj.data.root) :
    ObjectOn base db d { obj with code := code, data := data, dirtyCode := dirty } cur := by
  have hholds := h.holds
  unfold HoldsSlots at hholds
  rw [← hroot] at hholds
  exact { h with holds := hholds, root := hroot ▸ h.root }

/-- A change of the data of an object that leaves its caches and its code alone. -/
theorem Sees.setData (h : Sees base s addr obj v) (data : StateAccount)
    (hcode : data.codeHash = obj.data.codeHash) (hroot : data.root = obj.data.root) :
    Sees base s addr { obj with data := data } { v with data := data } := by
  refine ⟨h.on.setData hroot, ?_, h.address, by rw [hcode]; exact h.codeHash, h.reads⟩
  have hcodeOf : codeOf s.db { obj with data := data } = codeOf s.db obj := by simp [codeOf, hcode]
  rw [StateObject.view, hcodeOf]
  exact congrArg (fun u : View => { u with data := data }) h.view

omit [Keccak] in
/-- One slot of an object is written. -/
theorem value_setState (obj : StateObject) (cur : Hash → Hash) (key value : Hash) :
    ({ obj with dirtyStorage := obj.dirtyStorage.insert key value } : StateObject).value cur =
      update (obj.value cur) key value := by
  funext k
  by_cases hk : k = key
  · subst hk
    simp [StateObject.value]
  · simp only [StateObject.value, lookup_insert_ne hk, update_of_ne hk]
    rfl

/-- A slot that was read before may be written. -/
theorem Sees.setState (h : Sees base s addr obj v) {key : Hash} (hread : v.reads key)
    (value : Hash) :
    Sees base s addr { obj with dirtyStorage := obj.dirtyStorage.insert key value }
      { v with value := update v.value key value } := by
  refine ⟨{ h.on with read := fun k hk => ?_ }, ?_, h.address, h.codeHash, h.reads⟩
  · by_cases hkey : k = key
    · subst hkey
      exact h.reads k hread
    · rw [lookup_insert_ne hkey] at hk
      exact h.on.read k hk
  · rw [h.value, ← value_setState, h.view]
    rfl

/-- What was read may be forgotten. -/
theorem Sees.forget (h : Sees base s addr obj v) {reads : Hash → Prop} (hreads : ∀ k, reads k →
    v.reads k) :
    Sees base s addr obj { v with reads := reads } :=
  ⟨h.on, congrArg (fun u : View => { u with reads := reads }) h.view, h.address, h.codeHash,
    fun k hk => h.reads k (hreads k hk)⟩

/-- The code of an object without a code of its own. -/
def storedCode (db : Database) (codeHash : Bytes) : Option Bytes :=
  if codeHash = emptyCodeHash.bytes then none
    else (db.contractCode (Hash.ofBytes codeHash)).toOption

/-- An account without code has none in the database either. -/
theorem Sees.storedCode_none (h : Sees base s addr obj v) (hcode : v.code = none) :
    storedCode s.db v.data.codeHash = none := by
  have hcodeOf : codeOf s.db obj = none := by
    rw [← hcode]
    exact h.code.symm
  rw [h.data]
  cases hobj : obj.code with
  | some code => simp [codeOf, hobj] at hcodeOf
  | none =>
    simp only [codeOf, hobj] at hcodeOf
    exact hcodeOf

/-- An object whose code is set. -/
theorem Sees.setCode (h : Sees base s addr obj v) (code : Option Bytes) (data : StateAccount)
    (hroot : data.root = obj.data.root) (hlen : data.codeHash.length = 32)
    (hnone : code = none → storedCode s.db data.codeHash = none) :
    Sees base s addr { obj with code := code, data := data, dirtyCode := true }
      { v with code := code, data := data } := by
  have hcode : codeOf s.db { obj with code := code, data := data, dirtyCode := true } = code := by
    cases code with
    | some c => rfl
    | none => exact hnone rfl
  refine ⟨h.on.setData hroot, ?_, h.address, hlen, h.reads⟩
  rw [StateObject.view, hcode]
  exact congrArg (fun u : View => { u with code := code, data := data }) h.view

section

variable (hc : ∀ a n, w.dirties a = some n → 0 < n) (hv : w.accounts addr = some v)
include hc hv

/-- **A change of an account** is undone by an entry that turns every object seen as the
changed account into one that is seen as the account before. -/
theorem undoes_account {v' : View} (hdel : v'.deleted = false) (he : e.dirtied = some addr)
    (f : StateDB → StateObject → StateObject)
    (hrev : ∀ s : StateDB, s.revertEntry e = s.revertObject addr fun s obj =>
      s.setStateObject (f s obj))
    (hf : ∀ s obj, s.db = base.db → Sees base s addr obj v' → Sees base s addr (f s obj) v) :
    Undoes base seen e ((w.setAccount addr v').addDirty addr) w := by
  intro s hs
  obtain ⟨s', hrel, -, ⟨hlive, -⟩ | ⟨obj, v1, hlive, hv1, hget, hsees, -⟩⟩ :=
    getStateObject_rel hs addr
  · simp [World.live, World.addDirty, World.setAccount, hdel] at hlive
  · have hsame : v1 = v' := by simpa [World.addDirty, World.setAccount] using hv1.symm
    subst hsame
    have hback := hrel.setObject (hf s' obj hrel.onBase.db hsees)
    have hworld : ((w.setAccount addr v1).addDirty addr).setAccount addr v = w.addDirty addr := by
      simp only [World.addDirty, World.setAccount, update_idem]
      rw [← hv, update_eq_self]
    rw [hworld] at hback
    exact ⟨_, by simp [undoEntry, hrev, revertObject, hget], hback.drop hc he⟩

variable (hdel : v.deleted = false)
include hdel

/-- A change of the data that leaves its root and the code alone. -/
theorem undoes_data {data : StateAccount} (he : e.dirtied = some addr) (back : StateAccount →
    StateAccount)
    (hrev : ∀ s : StateDB, s.revertEntry e =
      s.revertObject addr fun s obj => s.setStateObject { obj with data := back obj.data })
    (hback : back data = v.data) (hcode : v.data.codeHash = data.codeHash)
    (hroot : v.data.root = data.root) :
    Undoes base seen e ((w.setAccount addr { v with data := data }).addDirty addr) w := by
  refine undoes_account hc hv hdel he (fun _ obj => { obj with data := back obj.data }) hrev ?_
  intro s obj _ hsees
  have hdata : obj.data = data := hsees.data.symm
  have hset := hsees.setData v.data (by rw [hdata, hcode]) (by rw [hdata, hroot])
  rwa [hdata, hback]

/-- `balanceChange`. -/
theorem undoes_balance (amount : Int) : Undoes base seen (.balance addr v.data.balance)
      ((w.setAccount addr { v with data := { v.data with balance := amount } }).addDirty addr) w :=
  undoes_data hc hv hdel rfl (fun data => { data with balance := v.data.balance })
    (fun _ => rfl) rfl rfl rfl

/-- `nonceChange`. -/
theorem undoes_nonce (nonce : UInt64) : Undoes base seen (.nonce addr v.data.nonce)
      ((w.setAccount addr { v with data := { v.data with nonce := nonce } }).addDirty addr) w :=
  undoes_data hc hv hdel rfl (fun data => { data with nonce := v.data.nonce })
    (fun _ => rfl) rfl rfl rfl

/-! ## slots -/

/-- `storageChange`: the slot was read, and is from then on. -/
theorem undoes_storage (key value : Hash) :
    Undoes base seen (.storage addr key (v.value key)) ((w.setAccount addr { v with
        value := update v.value key value
        reads := fun k => v.reads k ∨ k = key }).addDirty addr) w := by
  refine undoes_account hc hv hdel rfl
    (fun _ obj => { obj with dirtyStorage := obj.dirtyStorage.insert key (v.value key) })
      (fun _ => rfl) ?_
  intro s obj _ hsees
  have hback := (Sees.setState hsees (.inr (rfl : key = key)) (v.value key)).forget
    fun (_ : Hash) (hk : v.reads _) => .inl hk
  simpa using hback

/-! ## code -/

/-- `codeChange`: the hash that is restored has the length of one. -/
theorem undoes_code (hlen : v.data.codeHash.length = 32)
    (hnone : v.code = none → storedCode base.db v.data.codeHash = none) (code : Option Bytes)
    (codeHash : Bytes) :
    Undoes base seen (.code addr v.code v.data.codeHash) ((w.setAccount addr { v with
        code := code
        data := { v.data with codeHash := codeHash } }).addDirty addr) w := by
  have hhash : (Hash.ofBytes v.data.codeHash).bytes = v.data.codeHash := by
    show List.replicate (32 - _) 0 ++ List.drop (_ - 32) _ = _
    simp [hlen]
  refine undoes_account hc hv hdel rfl (fun _ obj => { obj with
    code := v.code
    data := { obj.data with codeHash := (Hash.ofBytes v.data.codeHash).bytes }
    dirtyCode := true }) (fun _ => rfl) ?_
  intro s obj hdb hsees
  have hdata : obj.data = { v.data with codeHash := codeHash } := hsees.data.symm
  have hback : ({ obj.data with codeHash := (Hash.ofBytes v.data.codeHash).bytes } : StateAccount) =
      v.data := by
    rw [hdata, hhash]
  rw [hback]
  exact hsees.setCode v.code v.data (by rw [hdata]) hlen (hdb ▸ hnone)

end

/-! ## changes outside the accounts -/

/-- A change that no account is counted for, and that the accounts do not depend on. -/
theorem undoes_other {w' : World} (he : e.dirtied = none)
    (undo : ∀ s, Rel base seen s w' → ∃ s', s.revertEntry e = some s' ∧ Rel base seen s' w) :
    Undoes base seen e w' w := by
  intro s hs
  obtain ⟨s', hrev, hrel⟩ := undo s hs
  refine ⟨_, undoEntry_of_revert hrev, ?_⟩
  refine { hrel with
    onBase := { hrel.onBase with }
    accounts := fun a => (hrel.accounts a).transfer rfl rfl
    dirties := fun a => ?_ }
  simp only [he, dropDirty]
  exact hrel.dirties a

/-- `refundChange`. -/
theorem undoes_refund (w : World) (refund : UInt64) :
    Undoes base seen (.refund w.refund) { w with refund := refund } w := by
  refine undoes_other rfl fun s hs => ⟨{ s with refund := w.refund }, rfl, ?_⟩
  exact { hs with
    onBase := { hs.onBase with }
    accounts := fun a => (hs.accounts a).transfer rfl rfl
    refund := rfl }

/-- `addLogChange`. -/
theorem undoes_addLog (w : World) (txhash : Hash) (log : Log) :
    Undoes base seen (.addLog txhash) { w with
        logs := update w.logs txhash (w.logs txhash ++ [log])
        logSize := w.logSize + 1 } w := by
  refine undoes_other rfl fun s hs => ?_
  have hlogs : (s.logs txhash).map seen = w.logs txhash ++ [log] := by
    rw [hs.logs]
    simp
  have hne : s.logs txhash ≠ [] := by
    intro hnil
    simp [hnil] at hlogs
  refine ⟨_, by simp only [revertEntry, if_neg hne]; rfl, ?_⟩
  refine { hs with
    onBase := { hs.onBase with }
    accounts := fun a => (hs.accounts a).transfer rfl rfl
    logs := fun k => ?_
    logSize := by simp [hs.logSize] }
  by_cases hk : k = txhash
  · subst hk
    simp only [update_self]
    rw [List.map_dropLast, hlogs, List.dropLast_concat]
  · simp only [update_of_ne hk]
    rw [hs.logs k]
    exact update_of_ne hk _ _

/-- `addPreimageChange`. -/
theorem undoes_addPreimage {w : World} {hash : Hash} (hnone : w.preimages hash = none)
    (preimage : Bytes) :
    Undoes base seen (.addPreimage hash)
      { w with preimages := update w.preimages hash (some preimage) } w := by
  refine undoes_other rfl fun s hs => ⟨_, rfl, ?_⟩
  refine { hs with
    onBase := { hs.onBase with }
    accounts := fun a => (hs.accounts a).transfer rfl rfl
    preimages := ?_ }
  rw [hs.preimages, update_idem, ← hnone, update_eq_self]

/-- An entry that changes the access list only. -/
theorem undoes_accessList (he : e.dirtied = none) {al al' : AccessList} (hwf : al.WF)
    (hal : w.accessList = al) (hrev : ∀ s : StateDB, s.accessList = al' →
      s.revertEntry e = some { s with accessList := al }) :
    Undoes base seen e { w with accessList := al' } w := by
  refine undoes_other he fun s hs => ⟨_, hrev s hs.accessList, ?_⟩
  exact { hs with
    onBase := { hs.onBase with }
    accounts := fun a => (hs.accounts a).transfer rfl rfl
    accessList := hal.symm
    indices := by rw [hal]; exact hwf }

/-- `accessListAddAccountChange`. -/
theorem undoes_addAddress (hwf : w.accessList.WF) (hadd : (w.accessList.addAddress addr).1 = true) :
    Undoes base seen (.accessListAddAccount addr)
      { w with accessList := (w.accessList.addAddress addr).2 } w := by
  refine undoes_accessList rfl hwf rfl fun s hs => ?_
  simp [revertEntry, hs, AccessList.deleteAddress_addAddress hadd]

/-- `accessListAddSlotChange` of an address that was in the list. -/
theorem undoes_addSlot (hwf : w.accessList.WF) {slot : Hash} {al : AccessList}
    (hadd : w.accessList.addSlot addr slot = some ((false, true), al)) :
    Undoes base seen (.accessListAddSlot addr slot) { w with accessList := al } w := by
  refine undoes_accessList rfl hwf rfl fun s hs => ?_
  obtain ⟨hfalse, -⟩ | ⟨-, al1, hdel, hback⟩ := AccessList.deleteSlot_addSlot hwf hadd
  · cases hfalse
  · subst hback
    simp [revertEntry, hs, hdel]

/-- `touchChange`: only the count changes. -/
theorem undoes_touch (hc : ∀ a n, w.dirties a = some n → 0 < n) (addr : Address) :
    Undoes base seen (.touch addr) (w.addDirty addr) w :=
  fun _ hs => ⟨_, rfl, hs.drop hc rfl⟩

/-! ## new objects -/

/-- The account of a new object. -/
def freshView (data : StateAccount) : View where
  data := data
  origin := none
  deleted := false
  code := none
  cur := fun _ => Hash.zero
  committed := fun _ => Hash.zero
  value := fun _ => Hash.zero
  reads := fun _ => False

/-- A new object is seen as a new account, if there is no account to be read at its address. -/
theorem sees_new {written : Address → Option StateAccount} (hbase : OnBase base s written)
    (hnew : (s.stateObjectsDestruct.lookup addr).isSome = true ∨ base.accounts addr = none) :
    Sees base s addr { newObject addr none with created := true }
      (freshView newEmptyStateAccount) where
  on := by
    have hslots : Slots .nil fun _ => Hash.zero := keyed_nil _
    refine ⟨⟨.nil, hbase.backs.opensEmpty _, hslots⟩, ⟨.nil, valid_nil, hslots, rfl⟩,
      fun k v hk => ?_, fun _ k _ => ?_, fun k hk => ?_, fun _ => ?_, fun hdel => ?_⟩
    · simp [newObject] at hk
    · show Hash.zero = if _ then Hash.zero else base.slots addr k
      cases hnew with
      | inl hd => rw [if_pos hd]
      | inr hnone => rw [hbase.backs.absent addr hnone k, ite_self]
    · simp [newObject] at hk
    · show none = if _ then none else base.accounts addr
      cases hnew with
      | inl hd => rw [if_pos hd]
      | inr hnone => rw [hnone, ite_self]
    · simp [newObject] at hdel
  view := by
    have hcode : codeOf s.db { newObject addr none with created := true } = none := by
      simp [codeOf, newObject, newEmptyStateAccount]
    simp only [StateObject.view, hcode]
    rfl
  address := rfl
  codeHash := (emptyCodeHash).length_bytes
  reads _ hk := hk.elim

/-- An object that no change is counted for may be dropped, if there is none in the base. -/
theorem Rel.erase (h : Rel base seen s (w.setAccount addr v)) (hnone : w.accounts addr = none)
    (hbase : base.accounts addr = none) (hwritten : w.written addr = none)
    (huntouched : ¬ w.Touched addr) :
    Rel base seen { s with
      stateObjects := s.stateObjects.erase addr
      stateObjectsDirty := s.stateObjectsDirty.erase addr } w := by
  have hdirty : w.dirty addr = none := not_not.mp fun hd => huntouched (.inr (.inr hd))
  have honBase : OnBase base { s with
      stateObjects := s.stateObjects.erase addr
      stateObjectsDirty := s.stateObjectsDirty.erase addr } w.written := by
    refine { h.onBase with fresh := fun a ha => ?_, address := fun a obj ha => ?_ }
    · by_cases hne : a = addr
      · subst hne
        exact hwritten.trans hbase.symm
      · exact h.onBase.fresh a ((lookup_erase_ne hne).symm.trans ha)
    · by_cases hne : a = addr
      · subst hne
        simp at ha
      · exact h.onBase.address a obj ((lookup_erase_ne hne).symm.trans ha)
  refine { h with
    onBase := honBase
    accounts := fun a => ?_
    dirty := fun a => ?_
    live := fun a ha => ?_ }
  · by_cases hne : a = addr
    · subst hne
      simp only [peek, lookup_erase, hbase, map_none, hnone]
      trivial
    · have hother := h.accounts a
      rw [World.setAccount_accounts, update_of_ne hne] at hother
      simp only [peek, lookup_erase_ne hne] at hother ⊢
      exact hother.transfer rfl rfl
  · rw [lookup_erase_update h.dirty addr a, ← hdirty]
    exact congrFun (update_eq_self addr w.dirty) a
  · have hne : a ≠ addr := fun heq => huntouched (heq ▸ ha)
    rw [lookup_erase_ne hne]
    exact h.live a ha

/-- `createObjectChange`: the object is dropped again. -/
theorem undoes_createObject (hc : ∀ a n, w.dirties a = some n → 0 < n)
    (hnone : w.accounts addr = none)
    (hbase : base.accounts addr = none) (hwritten : w.written addr = none)
    (huntouched : ¬ w.Touched addr) (v : View) :
    Undoes base seen (.createObject addr) ((w.setAccount addr v).addDirty addr) w := by
  intro s hs
  have hdrop := @Rel.drop _ base seen s (w.setAccount addr v) addr (.createObject addr) hs hc rfl
  exact ⟨_, rfl, hdrop.erase hnone hbase hwritten huntouched⟩

/-- The world with a new account in the place of an old one: the old one is marked as
destructed, unless it was before, and what was collected about it in the block is dropped. -/
def reset (w : World) (addr : Address) (origin : Option StateAccount) (v : View) : World :=
  { w with
    accounts := Function.update w.accounts addr (some v)
    destruct := if (w.destruct addr).isSome then w.destruct
      else Function.update w.destruct addr (some origin)
    accountDiffs := Function.update w.accountDiffs (Keccak.hash addr.bytes) none
    storageDiffs := Function.update w.storageDiffs (Keccak.hash addr.bytes) none
    accountOrigins := Function.update w.accountOrigins addr none
    storageOrigins := Function.update w.storageOrigins addr none }

section

omit [Keccak]

variable {K K' V : Type} [DecidableEq K] [DecidableEq K'] {k : K}

/-- An entry of a map that was dropped is restored. -/
theorem lookup_restore {m : GoMap K V} {f : K → Option V}
    (h : ∀ k', m.lookup k' = update f k none k') (k' : K) :
    (restore m k (f k)).lookup k' = f k' := by
  cases hf : f k with
  | none => rw [restore, h, ← hf, update_eq_self]
  | some v => rw [restore, lookup_insert_update h, update_idem, ← hf, update_eq_self]

/-- An entry of a map of maps that was dropped is restored. -/
theorem lookups_restore {m m0 : GoMap K (GoMap K' V)} {f : K → Option (K' → Option V)}
    (hm : ∀ k', lookups m k' = update f k none k') (hm0 : lookups m0 k = f k) (k' : K) :
    lookups (restore m k (m0.lookup k)) k' = f k' := by
  rw [lookups] at hm0
  cases hlookup : m0.lookup k with
  | none =>
    rw [hlookup] at hm0
    rw [restore, hm, show none = f k from hm0, update_eq_self]
  | some v =>
    rw [hlookup] at hm0
    rw [restore, lookups_insert_update hm, update_idem, show some _ = f k from hm0, update_eq_self]

/-- The marker after the revert of a reset. -/
theorem lookup_destruct_back {m : GoMap Address (Option StateAccount)}
    {d : Address → Option (Option StateAccount)} (addr : Address) (origin : Option StateAccount)
    (h : ∀ a, m.lookup a = (if (d addr).isSome then d else update d addr (some origin)) a)
    (a : Address) : (if (d addr).isSome then m else m.erase addr).lookup a = d a := by
  cases hd : d addr with
  | some o =>
    rw [hd] at h
    exact h a
  | none =>
    rw [hd] at h
    refine (lookup_erase_update h addr a).trans ?_
    rw [if_neg (by simp), update_idem, ← hd, update_eq_self]

end

/-- **`resetObjectChange`**: the old object, its marker and everything that was collected
about it in the block come back. -/
theorem undoes_resetObject {prev : StateObject} {s0 : StateDB}
    (hc : ∀ a n, w.dirties a = some n → 0 < n)
    (hrel : Rel base seen s0 w) (hv : w.accounts addr = some v) (hprev : Sees base s0 addr prev v)
    (v' : View) :
    Undoes base seen
      (.resetObject addr prev (w.destruct addr).isSome (w.accountDiffs (Keccak.hash addr.bytes))
        (s0.storages.lookup (Keccak.hash addr.bytes)) (w.accountOrigins addr)
        (s0.storagesOrigin.lookup addr))
      ((reset w addr prev.origin v').addDirty addr) w := by
  have haddr := hprev.address
  have hhash : prev.addrHash = Keccak.hash addr.bytes := by rw [StateObject.addrHash, haddr]
  intro s hs
  -- the state after the entry is reverted, before the count goes back
  obtain ⟨s', hs'⟩ : ∃ s', s.revertEntry (.resetObject addr prev (w.destruct addr).isSome
      (w.accountDiffs (Keccak.hash addr.bytes)) (s0.storages.lookup (Keccak.hash addr.bytes))
      (w.accountOrigins addr) (s0.storagesOrigin.lookup addr)) = some s' := ⟨_, rfl⟩
  have hback : Rel base seen s' (w.addDirty addr) := by
    simp only [revertEntry, some.injEq, setStateObject, haddr, hhash] at hs'
    subst hs'
    have hdestruct := lookup_destruct_back addr prev.origin hs.destruct
    have hmark : ∀ a, (if (w.destruct addr).isSome then s.stateObjectsDestruct
        else s.stateObjectsDestruct.erase addr).lookup a = s0.stateObjectsDestruct.lookup a :=
          fun a =>
      (hdestruct a).trans (hrel.destruct a).symm
    refine { hs with
      onBase := ?_
      accounts := fun a => ?_
      destruct := hdestruct
      accountDiffs := lookup_restore hs.accountDiffs
      storageDiffs := lookups_restore hs.storageDiffs (hrel.storageDiffs _)
      accountOrigins := lookup_restore hs.accountOrigins
      storageOrigins := lookups_restore hs.storageOrigins (hrel.storageOrigins _)
      live := fun a ha hnone => hs.live a ha (lookup_insert_eq_none.mp hnone).2
      markers := hrel.markers }
    · refine { hs.onBase with
        fresh := fun a ha => hs.onBase.fresh a (lookup_insert_eq_none.mp ha).2
        address := fun a obj ha => ?_ }
      obtain ⟨rfl, rfl⟩ | ha := lookup_insert_cases ha
      · exact haddr
      · exact hs.onBase.address a obj ha
    · by_cases hne : a = addr
      · subst hne
        rw [peek_of_live (lookup_insert _), show (w.addDirty a).accounts a = some v from hv]
        exact hprev.transfer (hs.onBase.db.trans hrel.onBase.db.symm) (hmark a)
      · have hother := hs.accounts a
        rw [show ((reset w addr prev.origin v').addDirty addr).accounts a = w.accounts a from
          update_of_ne hne _ _] at hother
        have hkeep : (if (w.destruct addr).isSome then s.stateObjectsDestruct
            else s.stateObjectsDestruct.erase addr).lookup a = s.stateObjectsDestruct.lookup a := by
          split
          · rfl
          · exact lookup_erase_ne hne
        simp only [peek, lookup_insert_ne hne] at hother ⊢
        exact hother.transfer rfl hkeep
  exact ⟨_, undoEntry_of_revert hs', hback.drop hc rfl⟩

end StateDB

end GoQrl.State
