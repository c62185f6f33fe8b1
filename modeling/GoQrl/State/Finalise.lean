import GoQrl.State.StateDB

/-!
# GoQrl.State.Finalise

The end of a transaction and the root of the state: `Finalise`, `IntermediateRoot` and
`Copy` of `core/state/statedb.go`, with the part of `state_object.go` they use.

`Finalise` moves the storage of the running transaction to the pending storage and marks
the touched empty accounts as deleted.  `IntermediateRoot` writes the pending storage into
the storage tries and then the pending accounts into the account trie.
-/

namespace GoQrl.State

open Rlp Mpt GoQrl.Types

section

variable [Keccak] [MapOrder]

/-- `stateObject.finalise`. -/
def StateObject.finalise (obj : StateObject) : StateObject :=
  { obj with
    pendingStorage := (GoMap.range (0 :: obj.address.bytes) obj.dirtyStorage).foldl
      (fun m e => m.insert e.1 e.2) obj.pendingStorage
    dirtyStorage := ∅ }

namespace StateDB

/-! ## Finalise -/

/-- `clearJournalAndRefund`: the refund is kept if nothing was journalled. -/
def clearJournalAndRefund (s : StateDB) : StateDB :=
  if s.journal.entries.length > 0 then { s with journal := .new, refund := 0, validRevisions := [] }
  else { s with validRevisions := [] }

/-- Marks an object as deleted, and forgets what was collected about it in the block. -/
def markDeleted (s : StateDB) (obj : StateObject) : StateDB :=
  { s.setStateObject { obj with deleted := true, created := false } with
    stateObjectsDestruct :=
      if (s.stateObjectsDestruct.lookup obj.address).isSome then s.stateObjectsDestruct
      else s.stateObjectsDestruct.insert obj.address obj.origin
    accounts := s.accounts.erase obj.addrHash
    storages := s.storages.erase obj.addrHash
    accountsOrigin := s.accountsOrigin.erase obj.address
    storagesOrigin := s.storagesOrigin.erase obj.address }

/-- The loop of `Finalise` at one address. -/
def finaliseAddress (deleteEmptyObjects : Bool) (s : StateDB) (addr : Address) : StateDB :=
  match s.stateObjects.lookup addr with
  | none => s
  | some obj =>
    let s := if deleteEmptyObjects && obj.empty then s.markDeleted obj
      else s.setStateObject { obj.finalise with created := false }
    { s with
      stateObjectsPending := s.stateObjectsPending.insert addr ()
      stateObjectsDirty := s.stateObjectsDirty.insert addr () }

/-- `Finalise`. -/
def finalise (s : StateDB) (deleteEmptyObjects : Bool) : StateDB :=
  (((GoMap.range [0] s.journal.dirties).map Prod.fst).foldl
    (finaliseAddress deleteEmptyObjects) s).clearJournalAndRefund

/-! ## storage tries -/

/-- The bytes of a slot in the maps of changed slots: nil for a zero. -/
def slotBytes (v : Hash) :
    Bytes := if v = Hash.zero then [] else encodeString (trimLeftZeroes v.bytes)

/-- Notes a changed slot; the original value is kept from the first change on. -/
def trackSlot (s : StateDB) (obj : StateObject) (key prev value : Hash) : StateDB :=
  let khash := Keccak.hash key.bytes
  let storage := (s.storages.lookup obj.addrHash).getD ∅
  let origin := (s.storagesOrigin.lookup obj.address).getD ∅
  { s with
    storages := s.storages.insert obj.addrHash (storage.insert khash (slotBytes value))
    storagesOrigin := s.storagesOrigin.insert obj.address
      (if (origin.lookup khash).isSome then origin else origin.insert khash (slotBytes prev)) }

/-- Writes a slot into the storage trie. -/
def writeSlot (tr : Trie) (key value : Hash) : Except DbError Unit × Trie :=
  if value = Hash.zero then deleteStorage tr key else updateStorage tr key
    (trimLeftZeroes value.bytes)

/-- The loop of `updateTrie` over the pending slots. -/
def updateSlots : List (Hash × Hash) → StateDB → StateObject → Trie →
    Option DbError × StateDB × StateObject × Trie
  | [], s, obj, tr => (none, s, obj, tr)
  | (key, value) :: slots, s, obj, tr =>
    let prev := (obj.originStorage.lookup key).getD Hash.zero
    if value = prev then updateSlots slots s obj tr
    else
      let obj := { obj with originStorage := obj.originStorage.insert key value }
      match writeSlot tr key value with
      | (.error e, tr) => (some e, s.setError e, obj, tr)
      | (.ok (), tr) => updateSlots slots (s.trackSlot obj key prev value) obj tr

/-- `stateObject.updateTrie`: the trie unless an error occurred or there is none. -/
def updateTrie (s : StateDB) (obj : StateObject) : Option Trie × StateDB × StateObject :=
  let obj := obj.finalise
  if obj.pendingStorage.keys.length = 0 then (obj.trie, s, obj)
  else
    match s.getTrie obj with
    | .error e => (none, s.setError e, obj)
    | .ok tr =>
      match updateSlots (GoMap.range (1 :: obj.address.bytes) obj.pendingStorage) s obj tr with
      | (some _, s, obj, tr) => (none, s, { obj with trie := some tr })
      | (none, s, obj, tr) => (some tr, s, { obj with trie := some tr, pendingStorage := ∅ })

/-- `stateObject.updateRoot`; it panics if the hash of the trie does. -/
def updateRoot (s : StateDB) (obj : StateObject) : Option StateDB :=
  match s.updateTrie obj with
  | (none, s, obj) => some (s.setStateObject obj)
  | (some tr, s, obj) =>
    match tr.hash with
    | (.error _, _) => none
    | (.ok root, tr) =>
      some (s.setStateObject { obj with trie := some tr, data := { obj.data with root := root } })

/-! ## the account trie -/

/-- `updateStateObject`; an account that has no encoding panics, and so does one whose
encoding does not fit into a slice. -/
def updateStateObject (s : StateDB) (obj : StateObject) : Option StateDB :=
  if 2 ^ 62 ≤ obj.data.enc.length then none else
  let (err, tr) := updateAccount s.trie obj.address obj.data
  let s := { s with trie := tr }
  let s := match err with
    | .error e => s.setError (.context "updateStateObject" obj.address.bytes e)
    | .ok () => s
  match slimAccountRLP obj.data with
  | .error _ => none
  | .ok data =>
    let s := { s with accounts := s.accounts.insert obj.addrHash data }
    if (s.accountsOrigin.lookup obj.address).isSome then some s
    else
      match obj.origin with
      | none => some { s with accountsOrigin := s.accountsOrigin.insert obj.address [] }
      | some origin =>
        match slimAccountRLP origin with
        | .error _ => none
        | .ok data => some { s with accountsOrigin := s.accountsOrigin.insert obj.address data }

/-- `deleteStateObject`. -/
def deleteStateObject (s : StateDB) (obj : StateObject) : StateDB :=
  match deleteAccount s.trie obj.address with
  | (.error e, tr) =>
    { s with trie := tr }.setError (.context "deleteStateObject" obj.address.bytes e)
  | (.ok (), tr) => { s with trie := tr }

/-! ## IntermediateRoot -/

/-- A loop over the pending objects; a pending address without an object panics. -/
def forPending (f : StateDB → StateObject → Option StateDB) :
    List Address → StateDB → Option StateDB
  | [], s => some s
  | addr :: addrs, s =>
    match s.stateObjects.lookup addr with
    | none => none
    | some obj =>
      match f s obj with
      | none => none
      | some s => forPending f addrs s

/-- The first loop of `IntermediateRoot`: the storage tries. -/
def updateStorageRoot (s : StateDB) (obj : StateObject) : Option StateDB :=
  if obj.deleted then some s else s.updateRoot obj

/-- The second loop of `IntermediateRoot`: the account trie. -/
def writeObject (s : StateDB) (obj : StateObject) : Option StateDB :=
  if obj.deleted then some (s.deleteStateObject obj) else s.updateStateObject obj

/-- `IntermediateRoot`. -/
def intermediateRoot (s : StateDB) (deleteEmptyObjects : Bool) : Option (Hash × StateDB) :=
  let s := s.finalise deleteEmptyObjects
  let addrs := fun site => (GoMap.range site s.stateObjectsPending).map Prod.fst
  match forPending updateStorageRoot (addrs [1]) s with
  | none => none
  | some s =>
    match forPending writeObject (addrs [2]) s with
    | none => none
    | some s =>
      match s.trie.hash with
      | (.error _, _) => none
      | (.ok root, tr) => some (root, { s with trie := tr, stateObjectsPending := ∅ })

end StateDB

end

end GoQrl.State
