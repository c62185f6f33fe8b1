import GoQrl.GoMap
import GoQrl.State.StateTrie
import GoQrl.Types.Transaction

/-!
# GoQrl.State.StateDB

The state database of `core/state`: `StateDB`, its live objects, its journal and its
access list.

The live objects cache what was read from the trie or from the snapshot, and hold the
storage of an account in three layers: values read from or written to the storage trie
(`originStorage`), values of finished transactions (`pendingStorage`) and those of the
running one (`dirtyStorage`).  Every change of the running transaction is journalled;
`RevertToSnapshot` undoes the entries from the newest on.

The prefetcher, the measurements and the recorded preimages of trie keys are left out.
-/

namespace GoQrl.State

open Rlp Mpt GoQrl.Types

/-- `Storage`. -/
abbrev Storage := GoMap Hash Hash

/-! ## access lists -/

/-- `accessList`: the slots of an address are at its index; without slots the index
is `-1`. -/
structure AccessList where
  addresses : Address → Option Int
  slots : List (Finset Hash)

namespace AccessList

/-- `newAccessList`. -/
def new : AccessList := ⟨fun _ => none, []⟩

/-- `ContainsAddress`. -/
def containsAddress (al : AccessList) (address : Address) : Bool := (al.addresses address).isSome

/-- `al.slots[idx]`; an index out of range panics. -/
def slotsAt (al : AccessList) (idx : Int) : Option (Finset Hash) :=
  if idx < 0 then none else al.slots[idx.toNat]?

/-- `Contains`. -/
def contains (al : AccessList) (address : Address) (slot : Hash) : Option (Bool × Bool) :=
  match al.addresses address with
  | none => some (false, false)
  | some idx =>
    if idx = -1 then some (true, false)
    else (al.slotsAt idx).map fun slotmap => (true, decide (slot ∈ slotmap))

/-- `AddAddress`. -/
def addAddress (al : AccessList) (address : Address) : Bool × AccessList :=
  if (al.addresses address).isSome then (false, al)
  else (true, { al with addresses := Function.update al.addresses address (some (-1)) })

/-- A first slot of the address. -/
def addFirstSlot (al : AccessList) (address : Address) (slot : Hash) : AccessList where
  addresses := Function.update al.addresses address (some (al.slots.length : Int))
  slots := al.slots ++ [{slot}]

/-- `AddSlot`: whether the address and whether the slot are new. -/
def addSlot (al : AccessList) (address : Address) (slot : Hash) :
    Option ((Bool × Bool) × AccessList) :=
  match al.addresses address with
  | none => some ((true, true), al.addFirstSlot address slot)
  | some idx =>
    if idx = -1 then some ((false, true), al.addFirstSlot address slot)
    else
      match al.slotsAt idx with
      | none => none
      | some slotmap =>
        if slot ∈ slotmap then some ((false, false), al)
        else some ((false, true), { al with slots := al.slots.set idx.toNat (insert slot slotmap) })

/-- `DeleteSlot`; it panics if the address is not present or has no slots. -/
def deleteSlot (al : AccessList) (address : Address) (slot : Hash) : Option AccessList :=
  match al.addresses address with
  | none => none
  | some idx =>
    match al.slotsAt idx with
    | none => none
    | some slotmap =>
      if slotmap.erase slot = ∅ then
        some ⟨Function.update al.addresses address (some (-1)), al.slots.take idx.toNat⟩
      else some { al with slots := al.slots.set idx.toNat (slotmap.erase slot) }

/-- `DeleteAddress`. -/
def deleteAddress (al : AccessList) (address : Address) : AccessList :=
  { al with addresses := Function.update al.addresses address none }

end AccessList

/-! ## the database -/

/-- `Database`: the trie nodes and the contract codes. -/
structure Database where
  reader : Hash → Option Reader
  code : Hash → Option Bytes

/-- `ContractCode`. -/
def Database.contractCode (db : Database) (codeHash : Hash) : Except DbError Bytes :=
  match db.code codeHash with
  | none => .error .codeNotFound
  | some code => if code.length > 0 then .ok code else .error .codeNotFound

/-- `snapshot.Snapshot`; a read of a snapshot that is stale or not yet generated fails. -/
structure Snapshot where
  account : Hash → Option (Option SlimAccount)
  storage : Hash → Hash → Option Bytes

/-! ## state objects -/

/-- `types.Log`. -/
structure Log where
  address : Address
  topics : List Hash
  data : Bytes
  blockNumber : UInt64
  txHash : Hash
  txIndex : Nat
  blockHash : Hash
  index : Nat
  deriving DecidableEq

/-- `stateObject`. -/
structure StateObject where
  address : Address
  origin : Option StateAccount
  data : StateAccount
  trie : Option Trie
  code : Option Bytes
  originStorage : Storage
  pendingStorage : Storage
  dirtyStorage : Storage
  dirtyCode : Bool
  deleted : Bool
  created : Bool

/-- The journal entries. -/
inductive JournalEntry
  | createObject (account : Address)
  | resetObject (account : Address) (prev : StateObject) (prevdestruct : Bool)
      (prevAccount : Option Bytes) (prevStorage : Option (GoMap Hash Bytes))
      (prevAccountOrigin : Option Bytes) (prevStorageOrigin : Option (GoMap Hash Bytes))
  | balance (account : Address) (prev : Int)
  | nonce (account : Address) (prev : UInt64)
  | storage (account : Address) (key prevalue : Hash)
  | code (account : Address) (prevcode : Option Bytes) (prevhash : Bytes)
  | refund (prev : UInt64)
  | addLog (txhash : Hash)
  | addPreimage (hash : Hash)
  | touch (account : Address)
  | accessListAddAccount (address : Address)
  | accessListAddSlot (address : Address) (slot : Hash)

/-- `dirtied`: the address that is modified. -/
def JournalEntry.dirtied : JournalEntry → Option Address
  | .createObject account => some account
  | .resetObject account .. => some account
  | .balance account _ => some account
  | .nonce account _ => some account
  | .storage account _ _ => some account
  | .code account _ _ => some account
  | .touch account => some account
  | .refund _ => none
  | .addLog _ => none
  | .addPreimage _ => none
  | .accessListAddAccount _ => none
  | .accessListAddSlot _ _ => none

/-- `journal`: the newest entry is the first. -/
structure Journal where
  entries : List JournalEntry
  dirties : GoMap Address Int

/-- `newJournal`. -/
def Journal.new : Journal := ⟨[], ∅⟩

/-- One more change of the address. -/
def addDirty (dirties : GoMap Address Int) : Option Address → GoMap Address Int
  | none => dirties
  | some addr => dirties.insert addr ((dirties.lookup addr).getD 0 + 1)

/-- `journal.append`. -/
def Journal.append (j : Journal) (entry : JournalEntry) : Journal :=
  ⟨entry :: j.entries, addDirty j.dirties entry.dirtied⟩

/-- One change less; an address without changes is dropped. -/
def dropDirty (dirties : GoMap Address Int) : Option Address → GoMap Address Int
  | none => dirties
  | some addr =>
    let n := (dirties.lookup addr).getD 0 - 1
    if n = 0 then dirties.erase addr else dirties.insert addr n

/-- `revision`. -/
structure Revision where
  id : Nat
  journalIndex : Nat

/-- `StateDB`.  A nil byte slice in one of the maps is the empty one. -/
structure StateDB where
  db : Database
  trie : Trie
  snap : Option Snapshot
  originalRoot : Hash
  accounts : GoMap Hash Bytes
  storages : GoMap Hash (GoMap Hash Bytes)
  accountsOrigin : GoMap Address Bytes
  storagesOrigin : GoMap Address (GoMap Hash Bytes)
  stateObjects : GoMap Address StateObject
  stateObjectsPending : GoMap Address Unit
  stateObjectsDirty : GoMap Address Unit
  stateObjectsDestruct : GoMap Address (Option StateAccount)
  dbErr : Option DbError
  refund : UInt64
  thash : Hash
  txIndex : Nat
  logs : Hash → List Log
  logSize : Nat
  preimages : Hash → Option Bytes
  accessList : AccessList
  journal : Journal
  validRevisions : List Revision
  nextRevisionId : Nat

section

variable [Keccak]

/-- `newObject`. -/
def newObject (address : Address) (acct : Option StateAccount) : StateObject where
  address := address
  origin := acct
  data := acct.getD newEmptyStateAccount
  trie := none
  code := none
  originStorage := ∅
  pendingStorage := ∅
  dirtyStorage := ∅
  dirtyCode := false
  deleted := false
  created := false

/-- The field `addrHash`. -/
def StateObject.addrHash (obj : StateObject) : Hash := Keccak.hash obj.address.bytes

/-- `stateObject.empty`. -/
def StateObject.empty (obj : StateObject) : Bool :=
  obj.data.nonce = 0 ∧ obj.data.balance = 0 ∧ obj.data.codeHash = emptyCodeHash.bytes

namespace StateDB

/-- `New`, with the snapshot of the root if there is one. -/
def new (root : Hash) (db : Database) (snap : Option Snapshot) : Except DbError StateDB :=
  match Trie.new ⟨root, Hash.zero, root⟩ db.reader with
  | .error e => .error (.trie e)
  | .ok tr => .ok {
      db := db
      trie := tr
      snap := snap
      originalRoot := root
      accounts := ∅
      storages := ∅
      accountsOrigin := ∅
      storagesOrigin := ∅
      stateObjects := ∅
      stateObjectsPending := ∅
      stateObjectsDirty := ∅
      stateObjectsDestruct := ∅
      dbErr := none
      refund := 0
      thash := Hash.zero
      txIndex := 0
      logs := fun _ => []
      logSize := 0
      preimages := fun _ => none
      accessList := .new
      journal := .new
      validRevisions := []
      nextRevisionId := 0 }

/-- `setError`: the first error is kept. -/
def setError (s : StateDB) (e : DbError) : StateDB :=
  { s with dbErr := match s.dbErr with
      | none => some e
      | some e' => some e' }

/-- `journal.append` on the journal of the state. -/
def append (s : StateDB) (entry : JournalEntry) :
    StateDB := { s with journal := s.journal.append entry }

/-- `setStateObject`. -/
def setStateObject (s : StateDB) (obj : StateObject) : StateDB :=
  { s with stateObjects := s.stateObjects.insert obj.address obj }

/-! ### objects -/

/-- The account of a slim account, as in `getDeletedStateObject`.  Other than in
`FullAccount`, a root that is all zeros is taken for a missing one. -/
def ofSlim (acc : SlimAccount) : StateAccount where
  nonce := acc.nonce
  balance := acc.balance
  root := if Hash.ofBytes acc.root = Hash.zero then emptyRootHash else Hash.ofBytes acc.root
  codeHash := if acc.codeHash.length = 0 then emptyCodeHash.bytes else acc.codeHash

/-- The account in the snapshot: `none` if there is no snapshot or it cannot be read. -/
def snapAccount (s : StateDB) (addr : Address) : Option (Option StateAccount) :=
  match s.snap with
  | none => none
  | some snap => (snap.account (Keccak.hash addr.bytes)).map fun acc => acc.map ofSlim

/-- `getDeletedStateObject`. -/
def getDeletedStateObject (s : StateDB) (addr : Address) : Option StateObject × StateDB :=
  match s.stateObjects.lookup addr with
  | some obj => (some obj, s)
  | none =>
    match s.snapAccount addr with
    | some none => (none, s)
    | some (some data) =>
      let obj := newObject addr (some data)
      (some obj, s.setStateObject obj)
    | none =>
      match getAccount s.trie addr with
      | (.error e, tr) =>
        (none, { s with trie := tr }.setError (.context "getDeleteStateObject" addr.bytes e))
      | (.ok none, tr) => (none, { s with trie := tr })
      | (.ok (some data), tr) =>
        let obj := newObject addr (some data)
        (some obj, { s with trie := tr }.setStateObject obj)

/-- `getStateObject`. -/
def getStateObject (s : StateDB) (addr : Address) : Option StateObject × StateDB :=
  match s.getDeletedStateObject addr with
  | (some obj, s) => (if obj.deleted then none else some obj, s)
  | (none, s) => (none, s)

/-- The journal entry of `createObject` over an existing object, and what it clears. -/
def resetObject (s : StateDB) (prev : StateObject) : StateDB :=
  let prevdestruct := (s.stateObjectsDestruct.lookup prev.address).isSome
  let destruct := if prevdestruct then s.stateObjectsDestruct
    else s.stateObjectsDestruct.insert prev.address prev.origin
  let s := s.append (.resetObject prev.address prev prevdestruct
    (s.accounts.lookup prev.addrHash) (s.storages.lookup prev.addrHash)
    (s.accountsOrigin.lookup prev.address) (s.storagesOrigin.lookup prev.address))
  { s with
    stateObjectsDestruct := destruct
    accounts := s.accounts.erase prev.addrHash
    storages := s.storages.erase prev.addrHash
    accountsOrigin := s.accountsOrigin.erase prev.address
    storagesOrigin := s.storagesOrigin.erase prev.address }

/-- `createObject`: the new object, and the one that it replaces unless that is deleted. -/
def createObject (s : StateDB) (addr : Address) : (StateObject × Option StateObject) × StateDB :=
  let newobj := { newObject addr none with created := true }
  match s.getDeletedStateObject addr with
  | (none, s) => ((newobj, none), (s.append (.createObject addr)).setStateObject newobj)
  | (some prev, s) =>
    ((newobj, if prev.deleted then none else some prev), (s.resetObject prev).setStateObject newobj)

/-- `GetOrNewStateObject`. -/
def getOrNewStateObject (s : StateDB) (addr : Address) : StateObject × StateDB :=
  match s.getStateObject addr with
  | (some obj, s) => (obj, s)
  | (none, s) => ((s.createObject addr).1.1, (s.createObject addr).2)

/-- `CreateAccount`. -/
def createAccount (s : StateDB) (addr : Address) : StateDB :=
  match s.createObject addr with
  | ((_, none), s) => s
  | ((newObj, some prev), s) =>
    s.setStateObject { newObj with data := { newObj.data with balance := prev.data.balance } }

/-! ### storage -/

/-- `getTrie`. -/
def getTrie (s : StateDB) (obj : StateObject) : Except DbError Trie :=
  match obj.trie with
  | some tr => .ok tr
  | none =>
    match Trie.new ⟨s.originalRoot, obj.addrHash, obj.data.root⟩ s.db.reader with
    | .error e => .error (.trie e)
    | .ok tr => .ok tr

/-- The value of the slot in the snapshot, `none` if it cannot be read. -/
def snapStorage (s : StateDB) (obj : StateObject) (key : Hash) : Option (Hash × StateDB) :=
  match s.snap with
  | none => none
  | some snap =>
    match snap.storage obj.addrHash (Keccak.hash key.bytes) with
    | none => none
    | some enc =>
      if enc.length > 0 then
        match split enc with
        | .error e => some (Hash.zero, s.setError (.rlp e))
        | .ok (_, content, _) => some (Hash.ofBytes content, s)
      else some (Hash.zero, s)

/-- Keeps a value that was read. -/
def cacheOrigin (s : StateDB) (obj : StateObject) (key value : Hash) : StateDB :=
  s.setStateObject { obj with originStorage := obj.originStorage.insert key value }

/-- `stateObject.GetCommittedState`. -/
def objectCommittedState (s : StateDB) (obj : StateObject) (key : Hash) : Hash × StateDB :=
  match obj.pendingStorage.lookup key with
  | some value => (value, s)
  | none =>
    match obj.originStorage.lookup key with
    | some value => (value, s)
    | none =>
      if (s.stateObjectsDestruct.lookup obj.address).isSome then (Hash.zero, s)
      else
        match s.snapStorage obj key with
        | some (value, s) => (value, s.cacheOrigin obj key value)
        | none =>
          match s.getTrie obj with
          | .error e => (Hash.zero, s.setError e)
          | .ok tr =>
            match getStorage tr key with
            | (.error e, tr) =>
              (Hash.zero, (s.setStateObject { obj with trie := some tr }).setError e)
            | (.ok val, tr) =>
              (Hash.ofBytes val, s.cacheOrigin { obj with trie := some tr } key (Hash.ofBytes val))

/-- `stateObject.GetState`. -/
def objectState (s : StateDB) (obj : StateObject) (key : Hash) : Hash × StateDB :=
  match obj.dirtyStorage.lookup key with
  | some value => (value, s)
  | none => s.objectCommittedState obj key

/-- The live object at its address, after a call that may have changed its caches. -/
def object (s : StateDB) (addr : Address) : StateObject :=
  (s.stateObjects.lookup addr).getD (newObject addr none)

/-- `stateObject.setState`. -/
def objectSetState (s : StateDB) (obj : StateObject) (key value : Hash) : StateDB :=
  s.setStateObject { obj with dirtyStorage := obj.dirtyStorage.insert key value }

/-! ### code -/

/-- `stateObject.Code`. -/
def objectCode (s : StateDB) (obj : StateObject) : Option Bytes × StateDB :=
  match obj.code with
  | some code => (some code, s)
  | none =>
    if obj.data.codeHash = emptyCodeHash.bytes then (none, s)
    else
      match s.db.contractCode (Hash.ofBytes obj.data.codeHash) with
      | .error e => (none, s.setError (.context "can't load code hash" obj.data.codeHash e))
      | .ok code => (some code, s.setStateObject { obj with code := some code })

/-- `stateObject.CodeSize`; the cache of sizes in the database agrees with the codes. -/
def objectCodeSize (s : StateDB) (obj : StateObject) : Nat × StateDB :=
  match obj.code with
  | some code => (code.length, s)
  | none =>
    if obj.data.codeHash = emptyCodeHash.bytes then (0, s)
    else
      match s.db.contractCode (Hash.ofBytes obj.data.codeHash) with
      | .error e => (0, s.setError (.context "can't load code size" obj.data.codeHash e))
      | .ok code => (code.length, s)

/-! ### getters -/

/-- A getter: the default without an object. -/
def ofObject {α : Type} (s : StateDB) (addr : Address) (default : α)
    (f : StateDB → StateObject → α × StateDB) : α × StateDB :=
  match s.getStateObject addr with
  | (none, s) => (default, s)
  | (some obj, s) => f s obj

/-- `Exist`. -/
def exist (s : StateDB) (addr : Address) : Bool × StateDB :=
  s.ofObject addr false fun s _ => (true, s)

/-- `Empty`. -/
def isEmpty (s : StateDB) (addr : Address) : Bool × StateDB :=
  s.ofObject addr true fun s obj => (obj.empty, s)

/-- `GetBalance`. -/
def getBalance (s : StateDB) (addr : Address) : Int × StateDB :=
  s.ofObject addr 0 fun s obj => (obj.data.balance, s)

/-- `GetNonce`. -/
def getNonce (s : StateDB) (addr : Address) : UInt64 × StateDB :=
  s.ofObject addr 0 fun s obj => (obj.data.nonce, s)

/-- `GetStorageRoot`. -/
def getStorageRoot (s : StateDB) (addr : Address) : Hash × StateDB :=
  s.ofObject addr Hash.zero fun s obj => (obj.data.root, s)

/-- `GetCode`. -/
def getCode (s : StateDB) (addr : Address) : Option Bytes × StateDB :=
  s.ofObject addr none objectCode

/-- `GetCodeSize`. -/
def getCodeSize (s : StateDB) (addr : Address) : Nat × StateDB :=
  s.ofObject addr 0 objectCodeSize

/-- `GetCodeHash`. -/
def getCodeHash (s : StateDB) (addr : Address) : Hash × StateDB :=
  s.ofObject addr Hash.zero fun s obj => (Hash.ofBytes obj.data.codeHash, s)

/-- `GetState`. -/
def getState (s : StateDB) (addr : Address) (key : Hash) : Hash × StateDB :=
  s.ofObject addr Hash.zero fun s obj => s.objectState obj key

/-- `GetCommittedState`. -/
def getCommittedState (s : StateDB) (addr : Address) (key : Hash) : Hash × StateDB :=
  s.ofObject addr Hash.zero fun s obj => s.objectCommittedState obj key

/-! ### setters -/

/-- `stateObject.SetBalance`. -/
def objectSetBalance (s : StateDB) (obj : StateObject) (amount : Int) : StateDB :=
  (s.append (.balance obj.address obj.data.balance)).setStateObject
    { obj with data := { obj.data with balance := amount } }

/-- `AddBalance`: a zero amount touches an empty account. -/
def addBalance (s : StateDB) (addr : Address) (amount : Int) : StateDB :=
  let (obj, s) := s.getOrNewStateObject addr
  if amount = 0 then
    if obj.empty then s.append (.touch obj.address) else s
  else s.objectSetBalance obj (obj.data.balance + amount)

/-- `SubBalance`. -/
def subBalance (s : StateDB) (addr : Address) (amount : Int) : StateDB :=
  let (obj, s) := s.getOrNewStateObject addr
  if amount = 0 then s else s.objectSetBalance obj (obj.data.balance - amount)

/-- `SetBalance`. -/
def setBalance (s : StateDB) (addr : Address) (amount : Int) : StateDB :=
  let (obj, s) := s.getOrNewStateObject addr
  s.objectSetBalance obj amount

/-- `SetNonce`. -/
def setNonce (s : StateDB) (addr : Address) (nonce : UInt64) : StateDB :=
  let (obj, s) := s.getOrNewStateObject addr
  (s.append (.nonce obj.address obj.data.nonce)).setStateObject
    { obj with data := { obj.data with nonce := nonce } }

/-- `stateObject.setCode`. -/
def objectSetCode (s : StateDB) (obj : StateObject) (codeHash : Bytes) (code : Option Bytes) :
    StateDB :=
  s.setStateObject
    { obj with code := code, data := { obj.data with codeHash := codeHash }, dirtyCode := true }

/-- `SetCode`; the code may be nil. -/
def setCode (s : StateDB) (addr : Address) (code : Option Bytes) : StateDB :=
  let (obj, s) := s.getOrNewStateObject addr
  let (prevcode, s) := s.objectCode obj
  let obj := s.object obj.address
  (s.append (.code obj.address prevcode obj.data.codeHash)).objectSetCode obj
    (Keccak.hash (code.getD [])).bytes code

/-- `SetState`: a value that does not change is not journalled. -/
def setState (s : StateDB) (addr : Address) (key value : Hash) : StateDB :=
  let (obj, s) := s.getOrNewStateObject addr
  let (prev, s) := s.objectState obj key
  if prev = value then s
  else
    let obj := s.object obj.address
    (s.append (.storage obj.address key prev)).objectSetState obj key value

/-- `AddLog`. -/
def addLog (s : StateDB) (log : Log) : StateDB :=
  let s := s.append (.addLog s.thash)
  let log := { log with txHash := s.thash, txIndex := s.txIndex, index := s.logSize }
  { s with
    logs := Function.update s.logs s.thash (s.logs s.thash ++ [log])
    logSize := s.logSize + 1 }

/-- `GetLogs`: the logs of a transaction, annotated with the block. -/
def getLogs (s : StateDB) (hash : Hash) (blockNumber : UInt64) (blockHash : Hash) :
    List Log × StateDB :=
  let logs := (s.logs hash).map fun l =>
    { l with blockNumber := blockNumber, blockHash := blockHash }
  (logs, { s with logs := Function.update s.logs hash logs })

/-- `AddPreimage`. -/
def addPreimage (s : StateDB) (hash : Hash) (preimage : Bytes) : StateDB :=
  match s.preimages hash with
  | some _ => s
  | none =>
    let s := s.append (.addPreimage hash)
    { s with preimages := Function.update s.preimages hash (some preimage) }

/-- `AddRefund`. -/
def addRefund (s : StateDB) (gas : UInt64) : StateDB :=
  let s := s.append (.refund s.refund)
  { s with refund := s.refund + gas }

/-- `SubRefund`; a counter below zero panics. -/
def subRefund (s : StateDB) (gas : UInt64) : Option StateDB :=
  let s := s.append (.refund s.refund)
  if gas > s.refund then none else some { s with refund := s.refund - gas }

/-- `AddAddressToAccessList`. -/
def addAddressToAccessList (s : StateDB) (addr : Address) : StateDB :=
  let (added, al) := s.accessList.addAddress addr
  let s := { s with accessList := al }
  if added then s.append (.accessListAddAccount addr) else s

/-- `AddSlotToAccessList`. -/
def addSlotToAccessList (s : StateDB) (addr : Address) (slot : Hash) : Option StateDB :=
  match s.accessList.addSlot addr slot with
  | none => none
  | some ((addrMod, slotMod), al) =>
    let s := { s with accessList := al }
    let s := if addrMod then s.append (.accessListAddAccount addr) else s
    some (if slotMod then s.append (.accessListAddSlot addr slot) else s)

/-- `AddressInAccessList`. -/
def addressInAccessList (s : StateDB) (addr : Address) : Bool := s.accessList.containsAddress addr

/-- `SlotInAccessList`. -/
def slotInAccessList (s : StateDB) (addr : Address) (slot : Hash) : Option (Bool × Bool) :=
  s.accessList.contains addr slot

/-- `SetTxContext`. -/
def setTxContext (s : StateDB) (thash : Hash) (ti : Nat) :
    StateDB := { s with thash := thash, txIndex := ti }

/-- The slots of an entry of the access list of a transaction. -/
def prepareSlots (address : Address) : List Hash → AccessList → Option AccessList
  | [], al => some al
  | key :: keys, al =>
    match al.addSlot address key with
    | none => none
    | some (_, al) => prepareSlots address keys al

/-- The access list of a transaction. -/
def prepareList : List AccessTuple → AccessList → Option AccessList
  | [], al => some al
  | el :: list, al =>
    match prepareSlots el.address el.storageKeys (al.addAddress el.address).2 with
    | none => none
    | some al => prepareList list al

/-- `Prepare`: a new access list. -/
def prepare (s : StateDB) (sender coinbase : Address) (dst : Option Address)
    (precompiles : List Address) (list : List AccessTuple) : Option StateDB :=
  let al := (AccessList.new.addAddress sender).2
  let al := match dst with
    | none => al
    | some dst => (al.addAddress dst).2
  let al := precompiles.foldl (fun al addr => (al.addAddress addr).2) al
  match prepareList list al with
  | none => none
  | some al => some { s with accessList := (al.addAddress coinbase).2 }

/-! ### snapshots -/

/-- The reverts of entries on the live object of an account; without one they panic. -/
def revertObject (s : StateDB) (addr : Address) (f : StateDB → StateObject → StateDB) :
    Option StateDB :=
  match s.getStateObject addr with
  | (none, _) => none
  | (some obj, s) => some (f s obj)

/-- Restores an entry of a map, if there was one. -/
def restore {K V : Type} [DecidableEq K] (m : GoMap K V) (k : K) : Option V → GoMap K V
  | none => m
  | some v => m.insert k v

/-- `journalEntry.revert`. -/
def revertEntry (s : StateDB) : JournalEntry → Option StateDB
  | .createObject account =>
    some { s with
      stateObjects := s.stateObjects.erase account
      stateObjectsDirty := s.stateObjectsDirty.erase account }
  | .resetObject _ prev prevdestruct prevAccount prevStorage prevAccountOrigin prevStorageOrigin =>
    let s := s.setStateObject prev
    some { s with
      stateObjectsDestruct := if prevdestruct then s.stateObjectsDestruct
        else s.stateObjectsDestruct.erase prev.address
      accounts := restore s.accounts prev.addrHash prevAccount
      storages := restore s.storages prev.addrHash prevStorage
      accountsOrigin := restore s.accountsOrigin prev.address prevAccountOrigin
      storagesOrigin := restore s.storagesOrigin prev.address prevStorageOrigin }
  | .balance account prev =>
    s.revertObject account fun s obj =>
      s.setStateObject { obj with data := { obj.data with balance := prev } }
  | .nonce account prev =>
    s.revertObject account fun s obj =>
      s.setStateObject { obj with data := { obj.data with nonce := prev } }
  | .storage account key prevalue => s.revertObject account fun s obj =>
    s.objectSetState obj key prevalue
  | .code account prevcode prevhash =>
    s.revertObject account fun s obj => s.objectSetCode obj (Hash.ofBytes prevhash).bytes prevcode
  | .refund prev => some { s with refund := prev }
  | .addLog txhash =>
    -- without a log the slice expression panics
    if s.logs txhash = [] then none
    else some { s with
      logs := Function.update s.logs txhash (s.logs txhash).dropLast
      logSize := s.logSize - 1 }
  | .addPreimage h => some { s with preimages := Function.update s.preimages h none }
  | .touch _ => some s
  | .accessListAddAccount address =>
    some { s with accessList := s.accessList.deleteAddress address }
  | .accessListAddSlot address slot =>
    match s.accessList.deleteSlot address slot with
    | none => none
    | some al => some { s with accessList := al }

/-- One step of `journal.revert`. -/
def revertNewest (s : StateDB) : Option StateDB :=
  match s.journal.entries with
  | [] => some s
  | entry :: _ =>
    match s.revertEntry entry with
    | none => none
    | some s =>
      some { s with journal := ⟨s.journal.entries.tail, dropDirty s.journal.dirties entry.dirtied⟩ }

/-- `journal.revert`: undoes `n` entries. -/
def revertN : Nat → StateDB → Option StateDB
  | 0, s => some s
  | n + 1, s =>
    match s.revertNewest with
    | none => none
    | some s => revertN n s

/-- `Snapshot`. -/
def snapshot (s : StateDB) : Nat × StateDB :=
  (s.nextRevisionId, { s with
    nextRevisionId := s.nextRevisionId + 1
    validRevisions := s.validRevisions ++ [⟨s.nextRevisionId, s.journal.entries.length⟩] })

/-- `RevertToSnapshot`: the search is for the first revision with at least the given
identifier; an identifier that is not valid panics. -/
def revertToSnapshot (s : StateDB) (revid : Nat) : Option StateDB :=
  let idx := s.validRevisions.findIdx (revid ≤ ·.id)
  match s.validRevisions[idx]? with
  | none => none
  | some rev =>
    if rev.id ≠ revid then none
    -- an index beyond the journal is not a revision of it
    else if s.journal.entries.length < rev.journalIndex then none
    else
      match revertN (s.journal.entries.length - rev.journalIndex) s with
      | none => none
      | some s => some { s with validRevisions := s.validRevisions.take idx }

end StateDB

end

end GoQrl.State
