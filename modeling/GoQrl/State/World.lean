import GoQrl.State.Storage

/-!
# GoQrl.State.World

The state that a `StateDB` stands for.

`World` says of every address what can be seen of it and what its future depends on, with
maps as functions: the order of their entries and the values that are merely cached do not
matter.  `Rel` relates a `StateDB` to its world; the getters return what the world says and
keep it (`getBalance_spec` and the others).  `GetLogs` writes the block into the logs it
returns, so it keeps the world only if the block of a log is not seen (`getLogs_spec`).
-/

namespace GoQrl.State

open Rlp Mpt Mpt.Tree GoQrl.Types AList GoMap Option

/-- An account of the world: `cur` are the slots in its storage trie, and `reads` slots that
were read.  An update of the trie takes a slot that was never read for a zero, so that only
the others may be written. -/
structure View where
  data : StateAccount
  origin : Option StateAccount
  deleted : Bool
  code : Option Bytes
  cur : Hash → Hash
  committed : Hash → Hash
  value : Hash → Hash
  reads : Hash → Prop

/-- The state without its caches. -/
@[ext] structure World where
  accounts : Address → Option View
  written : Address → Option StateAccount
  destruct : Address → Option (Option StateAccount)
  dirties : Address → Option Int
  pending : Address → Option Unit
  dirty : Address → Option Unit
  accountDiffs : Hash → Option Bytes
  storageDiffs : Hash → Option (Hash → Option Bytes)
  accountOrigins : Address → Option Bytes
  storageOrigins : Address → Option (Hash → Option Bytes)
  refund : UInt64
  thash : Hash
  txIndex : Nat
  logs : Hash → List Log
  logSize : Nat
  preimages : Hash → Option Bytes
  accessList : AccessList

/-- The address was changed in the transaction or in the block. -/
def World.Touched (w : World) (a : Address) :
    Prop := w.dirties a ≠ none ∨ w.pending a ≠ none ∨ w.dirty a ≠ none

/-- The entries of a map of maps. -/
def GoMap.lookups {K K' V : Type} [DecidableEq K] [DecidableEq K']
    (m : GoMap K (GoMap K' V)) (k : K) :
    Option (K' → Option V) :=
  (m.lookup k).map fun m' k' => m'.lookup k'

section

variable {K K' V : Type} [DecidableEq K] [DecidableEq K'] {m : GoMap K V} {f : K → Option V}
  {ms : GoMap K (GoMap K' V)} {fs : K → Option (K' → Option V)}

/-- An entry of a map is put. -/
theorem lookup_insert_update (h : ∀ k, m.lookup k = f k) (k : K) (v : V) (k' : K) :
    (m.insert k v).lookup k' = Function.update f k (some v) k' := by
  by_cases hk : k' = k
  · rw [hk, lookup_insert, Function.update_self]
  · rw [lookup_insert_ne hk, Function.update_of_ne hk, h]

/-- An entry of a map is dropped. -/
theorem lookup_erase_update (h : ∀ k, m.lookup k = f k) (k k' : K) :
    (m.erase k).lookup k' = Function.update f k none k' := by
  by_cases hk : k' = k
  · rw [hk, lookup_erase, Function.update_self]
  · rw [lookup_erase_ne hk, Function.update_of_ne hk, h]

theorem lookups_insert_update (h : ∀ k, ms.lookups k = fs k) (k : K) (v : GoMap K' V) (k' : K) :
    lookups (ms.insert k v) k' = Function.update fs k (some fun x => v.lookup x) k' := by
  rw [lookups, lookup_insert_update fun _ => rfl, Function.apply_update fun _ =>
    Option.map _, ← funext h]
  rfl

theorem lookups_erase_update (h : ∀ k, ms.lookups k = fs k) (k k' : K) :
    lookups (ms.erase k) k' = Function.update fs k none k' := by
  rw [lookups, lookup_erase_update fun _ => rfl, Function.apply_update fun _ =>
    Option.map _, ← funext h]
  rfl

end

variable [Keccak]

/-- `stateObject.empty` of an account. -/
def View.empty (v : View) : Bool :=
  v.data.nonce = 0 ∧ v.data.balance = 0 ∧ v.data.codeHash = emptyCodeHash.bytes

/-- What is seen of an object over the slots of its trie. -/
def StateObject.view (db : Database) (obj : StateObject) (cur : Hash → Hash) (reads : Hash → Prop) :
    View where
  data := obj.data
  origin := obj.origin
  deleted := obj.deleted
  code := StateDB.codeOf db obj
  cur := cur
  committed := obj.committed cur
  value := obj.value cur
  reads := reads

namespace StateDB

/-- The object is seen as the account of the world. -/
structure Sees (base : Base) (s : StateDB) (addr : Address) (obj : StateObject) (v : View) :
    Prop where
  on : ObjectOn base s.db (s.stateObjectsDestruct.lookup addr).isSome obj v.cur
  view : v = obj.view s.db v.cur v.reads
  address : obj.address = addr
  codeHash : obj.data.codeHash.length = 32
  reads : ∀ k, v.reads k →
    obj.originStorage.lookup k ≠ none ∨ (s.stateObjectsDestruct.lookup addr).isSome = true

section

variable {base : Base} {s : StateDB} {addr : Address} {obj : StateObject} {v : View}
    (h : Sees base s addr obj v)
include h

theorem Sees.data : v.data = obj.data := congrArg View.data h.view

theorem Sees.origin : v.origin = obj.origin := congrArg View.origin h.view

theorem Sees.deleted : v.deleted = obj.deleted := congrArg View.deleted h.view

theorem Sees.code : v.code = codeOf s.db obj := congrArg View.code h.view

theorem Sees.value : v.value = obj.value v.cur := congrArg View.value h.view

end

/-- An account of the world for the object at an address, and none without one. -/
def SeesAt (base : Base) (s : StateDB) (addr : Address) : Option StateObject → Option View → Prop
  | none, none => True
  | some obj, some v => Sees base s addr obj v
  | _, _ => False

/-- The state stands for the world; `seen` is what is seen of a log. -/
structure Rel (base : Base) (seen : Log → Log) (s : StateDB) (w : World) : Prop where
  onBase : OnBase base s w.written
  accounts : ∀ a, SeesAt base s a (s.peek base a) (w.accounts a)
  destruct : ∀ a, s.stateObjectsDestruct.lookup a = w.destruct a
  dirties : ∀ a, s.journal.dirties.lookup a = w.dirties a
  pending : ∀ a, s.stateObjectsPending.lookup a = w.pending a
  dirty : ∀ a, s.stateObjectsDirty.lookup a = w.dirty a
  accountDiffs : ∀ h, s.accounts.lookup h = w.accountDiffs h
  storageDiffs : ∀ h, GoMap.lookups s.storages h = w.storageDiffs h
  accountOrigins : ∀ a, s.accountsOrigin.lookup a = w.accountOrigins a
  storageOrigins : ∀ a, GoMap.lookups s.storagesOrigin a = w.storageOrigins a
  refund : s.refund = w.refund
  thash : s.thash = w.thash
  txIndex : s.txIndex = w.txIndex
  logs : ∀ h, (s.logs h).map seen = w.logs h
  logSize : s.logSize = w.logSize
  preimages : s.preimages = w.preimages
  accessList : s.accessList = w.accessList
  counts : ∀ a n, w.dirties a = some n → 0 < n
  indices : w.accessList.WF
  live : ∀ a, w.Touched a → s.stateObjects.lookup a ≠ none
  markers : ∀ a o, w.destruct a = some o → o = base.accounts a

end StateDB

/-- The world with an account at an address. -/
def World.setAccount (w : World) (addr : Address) (v : View) : World :=
  { w with accounts := Function.update w.accounts addr (some v) }

omit [Keccak] in
@[simp] theorem World.setAccount_accounts (w : World) (addr : Address) (v : View) :
    (w.setAccount addr v).accounts = Function.update w.accounts addr (some v) := rfl

/-- The account at an address, unless it is deleted. -/
def World.live (w : World) (addr : Address) : Option View :=
  match w.accounts addr with
  | none => none
  | some v => if v.deleted then none else some v

namespace StateDB

variable {base : Base} {seen : Log → Log} {s : StateDB} {w : World} {addr : Address}
    {obj : StateObject}
  {s' : StateDB} {v : View}

/-- What is seen of an object depends on the database and on the marker of its address. -/
theorem Sees.transfer (h : Sees base s addr obj v) (hdb : s'.db = s.db)
    (hdestruct : s'.stateObjectsDestruct.lookup addr = s.stateObjectsDestruct.lookup addr) :
    Sees base s' addr obj v :=
  ⟨by rw [hdb, hdestruct]; exact h.on, by rw [hdb]; exact h.view, h.address, h.codeHash,
    by rw [hdestruct]; exact h.reads⟩

theorem SeesAt.transfer {obj : Option StateObject} {v : Option View}
    (h : SeesAt base s addr obj v) (hdb : s'.db = s.db)
    (hdestruct : s'.stateObjectsDestruct.lookup addr = s.stateObjectsDestruct.lookup addr) :
    SeesAt base s' addr obj v := by
  unfold SeesAt at h ⊢
  split at h
  · trivial
  · exact Sees.transfer h hdb hdestruct
  · exact h

/-- The part of the state that the accounts depend on is the same. -/
structure SameAccounts (s s' : StateDB) : Prop where
  db : s'.db = s.db
  snap : s'.snap = s.snap
  root : s'.originalRoot = s.originalRoot
  trie : s'.trie = s.trie
  objects : s'.stateObjects = s.stateObjects
  destruct : s'.stateObjectsDestruct = s.stateObjectsDestruct

theorem SameAccounts.onBase (hs : SameAccounts s s') {written : Address → Option StateAccount}
    (h : OnBase base s written) : OnBase base s' written where
  backs := by rw [hs.db, hs.snap]; exact h.backs
  db := hs.db.trans h.db
  root := hs.root.trans h.root
  trie := by rw [hs.trie]; exact h.trie
  encodable := h.encodable
  fresh a ha := h.fresh a (by rwa [hs.objects] at ha)
  address a obj ha := h.address a obj (by rwa [hs.objects] at ha)

/-- The revisions are the same. -/
structure SameRevisions (s s' : StateDB) : Prop where
  valid : s'.validRevisions = s.validRevisions
  next : s'.nextRevisionId = s.nextRevisionId

omit [Keccak] in
theorem SameRevisions.trans {s1 s2 s3 : StateDB} (h : SameRevisions s1 s2)
    (h' : SameRevisions s2 s3) :
    SameRevisions s1 s3 := ⟨h'.valid.trans h.valid, h'.next.trans h.next⟩

/-- Nothing was journalled. -/
structure Quiet (s s' : StateDB) : Prop extends SameRevisions s s' where
  journal : s'.journal = s.journal

omit [Keccak] in
theorem Quiet.refl (s : StateDB) : Quiet s s := ⟨⟨rfl, rfl⟩, rfl⟩

omit [Keccak] in
theorem Quiet.trans {s1 s2 s3 : StateDB} (h : Quiet s1 s2) (h' : Quiet s2 s3) : Quiet s1 s3 :=
  ⟨h.toSameRevisions.trans h'.toSameRevisions, h'.journal.trans h.journal⟩

/-- Objects are found without a trace in the journal. -/
theorem getDeletedStateObject_quiet (s : StateDB) (addr : Address) :
    Quiet s (s.getDeletedStateObject addr).2 := by
  unfold getDeletedStateObject
  split
  · exact .refl s
  · split
    · exact .refl s
    · exact ⟨⟨rfl, rfl⟩, rfl⟩
    · split <;> exact ⟨⟨rfl, rfl⟩, rfl⟩

theorem getStateObject_quiet (s : StateDB) (addr : Address) :
    Quiet s (s.getStateObject addr).2 := by
  have hquiet := getDeletedStateObject_quiet s addr
  unfold getStateObject
  cases hget : s.getDeletedStateObject addr with
  | mk obj s' =>
    rw [hget] at hquiet
    cases obj <;> exact hquiet

omit [Keccak] in
theorem lookup_setStateObject_ne {a : Address} (h : s.stateObjects.lookup a ≠ none)
    (obj : StateObject) :
    (s.setStateObject obj).stateObjects.lookup a ≠ none := fun hnone =>
  h (lookup_insert_eq_none.mp hnone).2

omit [Keccak] in
theorem setAccount_self (hv : w.accounts addr = some v) : w.setAccount addr v = w := by
  rw [World.setAccount, ← hv, Function.update_eq_self]

variable (h : Rel base seen s w)
include h

/-- Loading objects keeps the world. -/
theorem Rel.loads (hbase : OnBase base s' w.written)
    (hloads : Loads s s') (hpeek : ∀ a, s'.peek base a = s.peek base a) : Rel base seen s' w := by
  obtain ⟨⟨objs, tr, rfl⟩, hkeep⟩ := hloads
  refine { h with onBase := hbase, accounts := fun a => ?_, live := fun a ha => ?_ }
  · rw [hpeek a]
    exact (h.accounts a).transfer rfl rfl
  · obtain ⟨obj, hobj⟩ := ne_none_iff_exists'.mp (h.live a ha)
    rw [hkeep a obj hobj]
    exact some_ne_none obj

/-- The object at an address and the account of the world. -/
theorem getDeletedStateObject_rel (addr : Address) :
    ∃ s', s.getDeletedStateObject addr = (s.peek base addr, s') ∧ Rel base seen s' w ∧
      s'.stateObjects.lookup addr = s.peek base addr ∧ s'.peek base addr = s.peek base addr := by
  obtain ⟨s', hget, hbase, hloads, hpeek, hlive⟩ := getDeletedStateObject_spec h.onBase addr
  exact ⟨s', hget, h.loads hbase hloads hpeek, hlive, hpeek addr⟩

/-- Without an object there is no account, in the base neither. -/
theorem Rel.absent (hpeek : s.peek base addr = none) :
    s.stateObjects.lookup addr = none ∧ base.accounts addr = none ∧ w.accounts addr = none := by
  have hsees := h.accounts addr
  rw [hpeek] at hsees
  have haccount : w.accounts addr = none := by
    cases hv : w.accounts addr with
    | none => rfl
    | some v => rw [hv] at hsees; exact hsees.elim
  unfold peek at hpeek
  split at hpeek
  · contradiction
  next hlive => exact ⟨hlive, map_eq_none_iff.mp hpeek, haccount⟩

/-- An object is seen as the account of its address. -/
theorem Rel.present (hpeek : s.peek base addr = some obj) :
    ∃ v, w.accounts addr = some v ∧ Sees base s addr obj v := by
  have hsees := h.accounts addr
  rw [hpeek] at hsees
  cases hv : w.accounts addr with
  | none => rw [hv] at hsees; exact hsees.elim
  | some v =>
    rw [hv] at hsees
    exact ⟨v, rfl, hsees⟩

/-- **Live objects** are those of the accounts that are not deleted. -/
theorem getStateObject_rel (addr : Address) :
    ∃ s', Rel base seen s' w ∧ Quiet s s' ∧
      ((w.live addr = none ∧ s.getStateObject addr = (none, s')) ∨
        ∃ obj v, w.live addr = some v ∧ w.accounts addr = some v ∧
          s.getStateObject addr = (some obj, s') ∧ Sees base s' addr obj v ∧ obj.deleted = false ∧
          s'.stateObjects.lookup addr = some obj) := by
  obtain ⟨s', hget, hrel, hlive, hpeek⟩ := getDeletedStateObject_rel h addr
  have hquiet := getDeletedStateObject_quiet s addr
  rw [hget] at hquiet
  refine ⟨s', hrel, hquiet, ?_⟩
  unfold getStateObject World.live
  rw [hget]
  cases hobj : s.peek base addr with
  | none =>
    obtain ⟨-, -, hv⟩ := hrel.absent (hpeek.trans hobj)
    exact .inl ⟨by rw [hv], rfl⟩
  | some obj =>
    obtain ⟨v, hv, hsees⟩ := hrel.present (hpeek.trans hobj)
    have hdel := hsees.deleted
    rw [hobj] at hlive
    cases hd : obj.deleted with
    | true => exact .inl ⟨by simp [hv, hdel, hd], by simp [hd]⟩
    | false => exact .inr ⟨obj, v, by simp [hv, hdel, hd], hv, by simp [hd], hsees, hd, hlive⟩

/-! ## objects that change -/

/-- The error that is kept is not part of the world. -/
theorem Rel.setError (e : DbError) : Rel base seen (s.setError e) w :=
  { h with
    onBase := { h.onBase with }
    accounts := fun a => (h.accounts a).transfer rfl rfl }

/-- An object that is put in the place of an account. -/
theorem Rel.setObject (hsees : Sees base s addr obj v) :
    Rel base seen (s.setStateObject obj) (w.setAccount addr v) := by
  refine { h with
    onBase := h.onBase.setStateObject obj
    accounts := fun a => ?_
    live := fun a ha => lookup_setStateObject_ne (h.live a ha) obj }
  rw [peek_setStateObject, hsees.address, World.setAccount_accounts]
  by_cases hne : a = addr
  · subst hne
    rw [if_pos rfl, Function.update_self]
    exact hsees.transfer rfl rfl
  · rw [if_neg hne, Function.update_of_ne hne]
    exact (h.accounts a).transfer rfl rfl

section

variable (hv : w.accounts addr = some v)
include hv

/-- Replacing an object by one that is seen in the same way keeps the world. -/
theorem Rel.replace (hsees : Sees base s addr obj v) : Rel base seen (s.setStateObject obj) w := by
  have hset := h.setObject hsees
  rwa [setAccount_self hv] at hset

/-- A read of a slot keeps the world; the object that is live then has read it. -/
theorem Rel.afterRead (hobj : s.stateObjects.lookup addr = some obj)
    (hsees : Sees base s addr obj v) {key : Hash} (hread : AfterRead base s obj v.cur key s') :
    Rel base seen s' w ∧ Quiet s s' ∧ ∃ obj', s'.stateObjects.lookup addr = some obj' ∧
      Sees base s' addr obj' { v with reads := fun k => v.reads k ∨ k = key } := by
  have hview : ∀ obj' : StateObject, v = obj'.view s.db v.cur v.reads →
      ({ v with reads := fun k => v.reads k ∨ k = key } : View) =
        obj'.view s.db v.cur (fun k => v.reads k ∨ k = key) := fun obj' hv' =>
    congrArg (fun u : View => { u with reads := fun k => v.reads k ∨ k = key }) hv'
  obtain ⟨rfl, hwas⟩ | ⟨obj', ⟨tr, origin, rfl, hkeep⟩, hwas, hon, rfl⟩ := hread
  · refine ⟨h, .refl _, obj, hobj, hsees.on, hview obj hsees.view, hsees.address,
      hsees.codeHash, ?_⟩
    rintro k (hk | rfl)
    · exact hsees.reads k hk
    · rwa [WasRead, hsees.address] at hwas
  · have hon' : ObjectOn base s.db (s.stateObjectsDestruct.lookup addr).isSome
        { obj with trie := tr, originStorage := origin } v.cur := by
      rwa [← hsees.address]
    refine ⟨h.replace hv ⟨hon', hsees.view, hsees.address, hsees.codeHash,
      fun k hk => (hsees.reads k hk).imp_left (hkeep k)⟩, ⟨⟨rfl, rfl⟩, rfl⟩,
      { obj with trie := tr, originStorage := origin }, ?_, hon', hview _ hsees.view, hsees.address,
      hsees.codeHash, ?_⟩
    · rw [← hsees.address]
      exact lookup_insert _
    · rintro k (hk | rfl)
      · exact (hsees.reads k hk).imp_left (hkeep k)
      · rwa [← hsees.address]

/-- A read of the code keeps the world; the object that is live then is seen in the same way. -/
theorem objectCode_rel (hobj : s.stateObjects.lookup addr = some obj)
    (hsees : Sees base s addr obj v) :
    ∃ s' obj', s.objectCode obj = (v.code, s') ∧ Rel base seen s' w ∧ Quiet s s' ∧
      s'.stateObjects.lookup addr = some obj' ∧ Sees base s' addr obj' v := by
  have hcode : codeOf s.db obj = v.code := hsees.code.symm
  obtain ⟨s', hread, rfl | ⟨e, rfl, -⟩ | ⟨code, hsome, rfl⟩⟩ := objectCode_spec s obj
  · exact ⟨s', obj, by rw [hread, hcode], h, .refl s', hobj, hsees⟩
  · exact ⟨_, obj, by rw [hread, hcode], h.setError e, ⟨⟨rfl, rfl⟩, rfl⟩, hobj,
      hsees.transfer rfl rfl⟩
  · have hkept : Sees base s addr { obj with code := some code } v := by
      refine ⟨{ hsees.on with }, ?_, hsees.address, hsees.codeHash, hsees.reads⟩
      have hview := hsees.view
      simp only [StateObject.view] at hview ⊢
      rwa [codeOf_keep hsome]
    have hput : (s.setStateObject { obj with code := some code }).stateObjects.lookup addr =
        some { obj with code := some code } := by
      rw [← hsees.address]
      exact lookup_insert _
    exact ⟨_, _, by rw [hread, hcode], h.replace hv hkept, ⟨⟨rfl, rfl⟩, rfl⟩, hput,
      hkept.transfer rfl rfl⟩

end

/-! ## getters -/

omit h in
/-- The answer of a call that keeps the world and journals nothing. -/
abbrev Answers (base : Base) (seen : Log → Log) (s : StateDB) (w : World) {α : Type}
    (call : α × StateDB) (a : α) : Prop :=
  ∃ s', call = (a, s') ∧ Rel base seen s' w ∧ Quiet s s'

variable (a : Address)

/-- A getter of an account. -/
theorem ofObject_rel {α : Type} (d : α) (f : StateDB → StateObject → α × StateDB)
    (g : View → α) (hf : ∀ s' obj v, Rel base seen s' w → w.accounts a = some v →
      s'.stateObjects.lookup a = some obj → obj.deleted = false → Sees base s' a obj v →
      Answers base seen s' w (f s' obj) (g v)) :
    Answers base seen s w (s.ofObject a d f) ((w.live a).elim d g) := by
  obtain ⟨s', hrel, hquiet, ⟨hlive, hget⟩ | ⟨obj, v, hlive, hv, hget, hsees, hdel, hobj⟩⟩ :=
    getStateObject_rel h a
  · exact ⟨s', by simp [ofObject, hget, hlive, Option.elim], hrel, hquiet⟩
  · obtain ⟨s'', hres, hrel', hquiet'⟩ := hf s' obj v hrel hv hobj hdel hsees
    exact ⟨s'', by simp [ofObject, hget, hlive, Option.elim, hres], hrel', hquiet.trans hquiet'⟩

/-- A getter of the data of an account. -/
theorem ofData_rel {α : Type} (d : α) (f : StateAccount → α) :
    Answers base seen s w (s.ofObject a d fun s obj => (f obj.data, s))
      ((w.live a).elim d fun v => f v.data) := by
  refine ofObject_rel h a d _ (fun v => f v.data) fun s' obj v hrel _ _ _ hsees =>
    ⟨s', ?_, hrel, .refl s'⟩
  rw [show obj.data = v.data from hsees.data.symm]

/-- `Exist`. -/
theorem exist_spec : Answers base seen s w (s.exist a) (w.live a).isSome := by
  obtain ⟨s', hget, hrel, hquiet⟩ := ofData_rel h a false (fun _ => true)
  refine ⟨s', hget.trans ?_, hrel, hquiet⟩
  cases w.live a <;> rfl

/-- `Empty`. -/
theorem isEmpty_spec : Answers base seen s w (s.isEmpty a) ((w.live a).elim true View.empty) :=
  ofData_rel h a true fun data =>
    decide (data.nonce = 0 ∧ data.balance = 0 ∧ data.codeHash = emptyCodeHash.bytes)

/-- `GetBalance`. -/
theorem getBalance_spec :
    Answers base seen s w (s.getBalance a) ((w.live a).elim 0 (·.data.balance)) :=
  ofData_rel h a 0 (·.balance)

/-- `GetNonce`. -/
theorem getNonce_spec : Answers base seen s w (s.getNonce a) ((w.live a).elim 0 (·.data.nonce)) :=
  ofData_rel h a 0 (·.nonce)

/-- `GetStorageRoot`. -/
theorem getStorageRoot_spec :
    Answers base seen s w (s.getStorageRoot a) ((w.live a).elim Hash.zero (·.data.root)) :=
  ofData_rel h a Hash.zero (·.root)

/-- `GetCodeHash`. -/
theorem getCodeHash_spec :
    Answers base seen s w (s.getCodeHash a)
      ((w.live a).elim Hash.zero (Hash.ofBytes ·.data.codeHash)) :=
  ofData_rel h a Hash.zero (Hash.ofBytes ·.codeHash)

/-- `GetCode`. -/
theorem getCode_spec : Answers base seen s w (s.getCode a) ((w.live a).elim none (·.code)) := by
  refine ofObject_rel h a none objectCode (·.code) fun s' obj v hrel hv hobj _ hsees => ?_
  obtain ⟨s'', -, hread, hrel', hquiet, -⟩ := objectCode_rel hrel hv hobj hsees
  exact ⟨s'', hread, hrel', hquiet⟩

/-- `GetCodeSize`. -/
theorem getCodeSize_spec :
    Answers base seen s w (s.getCodeSize a)
      ((w.live a).elim 0 (fun v => (v.code.getD []).length)) := by
  refine ofObject_rel h a 0 objectCodeSize (fun v => (v.code.getD []).length)
    fun s' obj v hrel _ _ _ hsees => ?_
  have hcode : codeOf s'.db obj = v.code := hsees.code.symm
  obtain ⟨s'', hread, rfl | ⟨e, rfl, -⟩⟩ := objectCodeSize_spec s' obj
  · exact ⟨_, by rw [hread, hcode], hrel, .refl _⟩
  · exact ⟨_, by rw [hread, hcode], hrel.setError e, ⟨⟨rfl, rfl⟩, rfl⟩⟩

/-- `GetState`. -/
theorem getState_spec (key : Hash) :
    Answers base seen s w (s.getState a key) ((w.live a).elim Hash.zero (·.value key)) := by
  refine ofObject_rel h a Hash.zero _ (·.value key) fun s' obj v hrel hv hobj hdel hsees => ?_
  have hvalue : v.value key = obj.value v.cur key := congrFun (congrArg View.value hsees.view) key
  obtain ⟨s'', hread, hafter⟩ :=
    objectState_spec hrel.onBase.backs hrel.onBase.root hdel (hsees.address ▸ hsees.on) key
  obtain ⟨hrel', hquiet, -⟩ := hrel.afterRead hv hobj hsees hafter
  exact ⟨s'', by rw [hread, hvalue], hrel', hquiet⟩

/-- `GetCommittedState`. -/
theorem getCommittedState_spec (key : Hash) :
    Answers base seen s w (s.getCommittedState a key)
      ((w.live a).elim Hash.zero (·.committed key)) := by
  refine ofObject_rel h a Hash.zero _ (·.committed key) fun s' obj v hrel hv hobj hdel hsees => ?_
  have hvalue : v.committed key = obj.committed v.cur key :=
    congrFun (congrArg View.committed hsees.view) key
  obtain ⟨s'', hread, hafter⟩ :=
    objectCommittedState_spec hrel.onBase.backs hrel.onBase.root hdel (hsees.address ▸ hsees.on) key
  obtain ⟨hrel', hquiet, -⟩ := hrel.afterRead hv hobj hsees hafter
  exact ⟨s'', by rw [hread, hvalue], hrel', hquiet⟩

/-- `GetLogs` keeps the world, if the block of a log is not seen. -/
theorem getLogs_spec (hseen : ∀ l n b, seen { l with blockNumber := n, blockHash := b } = seen l)
    (hash : Hash) (blockNumber : UInt64) (blockHash : Hash) :
    (s.getLogs hash blockNumber blockHash).1.map seen = w.logs hash ∧
      Rel base seen (s.getLogs hash blockNumber blockHash).2 w ∧
      Quiet s (s.getLogs hash blockNumber blockHash).2 := by
  have hmap : ((s.logs hash).map fun l =>
      { l with blockNumber := blockNumber, blockHash := blockHash }).map seen = w.logs hash := by
    rw [List.map_map, ← h.logs hash]
    exact List.map_congr_left fun l _ => hseen l blockNumber blockHash
  refine ⟨hmap, { h with
    onBase := { h.onBase with }
    accounts := fun a => (h.accounts a).transfer rfl rfl
    logs := ?_ }, ⟨⟨rfl, rfl⟩, rfl⟩⟩
  exact (Function.forall_update_iff _ fun k (l : List Log) => l.map seen = w.logs k).mpr
    ⟨hmap, fun k _ => h.logs k⟩

end StateDB

end GoQrl.State
