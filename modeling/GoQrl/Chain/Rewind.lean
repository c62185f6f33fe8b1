import GoQrl.Chain.Database
import Mathlib.Data.List.Sort

/-!
# GoQrl.Chain.Rewind

Rewinding the chain, `SetHead` of `core/blockchain.go` and `setHead` of `core/headerchain.go`, in
block mode.

The loop walks back from the head header.  Each round first lowers the markers and writes them, then
deletes the blocks of the height it leaves: those in the freezer at once, those in the key-value
store in a batch that is written after the loop.  The state database is a parameter, by what the
rewind asks of it.  The safe and the finalized block, the caches, events and logs are left out.
-/

namespace GoQrl.Chain

/-- `HasState`, `stateRecoverable`, `Recover`, and the reset to the genesis state.  `Recover` and
the reset can fail; if they do not, the state is there. -/
structure StateDatabase (σ : Type) (genesis : Block) where
  hasState : σ → Hash → Bool
  stateRecoverable : σ → Hash → Bool
  recover : σ → Hash → Option σ
  commitGenesis : σ → Option σ
  hasState_recover : ∀ {s s' : σ} {root : Hash}, recover s root = some s' → hasState s' root = true
  hasState_commitGenesis : ∀ {s s' : σ}, commitGenesis s = some s' → hasState s' genesis.root = true

/-- What the rewind changes of a `BlockChain`, with the snap sync pivot that it reads. -/
structure ChainState (σ : Type) where
  db : Db
  pivot : Option Nat
  state : σ
  currentBlock : Header
  currentSnapBlock : Header
  currentHeader : Header

/-- How a rewind ends without success: `crit` if the state database fails, `reset` if the head block
is missing and the chain is reset to genesis. -/
inductive RewindError
  | crit
  | reset
  | currentBlockMissing
  | outOfFuel
deriving DecidableEq

namespace Db

/-- The hash of a header stored with this number. -/
def hashAt (number : Nat) : Key → Option Hash
  | .header n hash => if n = number then some hash else none
  | _ => none

/-- `ReadAllHashes`: in the order of the keys. -/
def readAllHashes (db : Db) (number : Nat) :
    List Hash := (db.kv.keys.filterMap (hashAt number)).insertionSort (· ≤ ·)

/-- `HasReceipts`. -/
def hasReceipts (db : Db) (hash : Hash) (number : Nat) : Bool :=
  match db.ancients[number]? with
  | some b => b.hash = hash || (db.kv.lookup (Key.receipts number hash)).isSome
  | none => (db.kv.lookup (Key.receipts number hash)).isSome

/-- `GetBlockByHash`. -/
def getBlockByHash (db : Db) (hash : Hash) : Option Block :=
  match db.kv.lookup (Key.headerNumber hash) with
  | none => none
  | some number => db.getBlock hash number

/-- `GetHeaderByHash`. -/
def getHeaderByHash (db : Db) (hash : Hash) : Option Header :=
  match db.kv.lookup (Key.headerNumber hash) with
  | none => none
  | some number => db.readHeader hash number

/-- `TruncateHead` of the freezer. -/
def truncateHead (db : Db) (items : Nat) : Db := { db with ancients := db.ancients.take items }

/-- `DeleteHeader`. -/
def deleteHeader (hash : Hash) (number : Nat) :
    Writes := [⟨.header number hash, none⟩, ⟨.headerNumber hash, none⟩]

/-- `delFn`: the database after a truncation, and what is added to the batch. -/
def delFn (db : Db) (hash : Hash) (num : Nat) : Db × Writes :=
  if num + 1 ≤ db.ancients.length then (db.truncateHead num, [⟨.headerNumber hash, none⟩])
  else (db, [⟨.body num hash, none⟩, ⟨.receipts num hash, none⟩])

/-- The deletion of the blocks of a height. -/
def deleteHashes (db : Db) (num : Nat) : List Hash → Db × Writes
  | [] => (db, [])
  | hash :: hashes =>
    let del := db.delFn hash num
    let rest := deleteHashes del.1 num hashes
    (rest.1, del.2 ++ deleteHeader hash num ++ rest.2)

/-- The hashes to delete at a height; that of the header if there are none. -/
def hashesAt (db : Db) (hdr : Header) (num : Nat) : List Hash :=
  match db.readAllHashes num with
  | [] => [hdr.hash]
  | hash :: hashes => hash :: hashes

/-- The deletion of the blocks of some heights. -/
def deleteNumbers (db : Db) (hdr : Header) : List Nat → Db × Writes
  | [] => (db, [])
  | num :: nums =>
    let del := db.deleteHashes num (db.hashesAt hdr num)
    let rest := deleteNumbers del.1 hdr nums
    (rest.1, del.2 ++ [⟨.canonicalHash num, none⟩] ++ rest.2)

/-- The heights from `n` on that have headers, the highest first. -/
def leftovers (db : Db) : Nat → Nat → List Nat
  | 0, _ => []
  | fuel + 1, n => if db.readAllHashes n = [] then [] else leftovers db fuel (n + 1) ++ [n]

/-- The number of a header key. -/
def headerHeight : Key → Nat
  | .header n _ => n
  | _ => 0

/-- The highest number of a stored header. -/
def topHeight (db : Db) : Nat := (db.kv.keys.map headerHeight).foldr max 0

end Db

namespace ChainState

variable {σ : Type} {genesis : Block} (sdb : StateDatabase σ genesis)

/-- `resetState`. -/
def resetState (s : σ) : Except RewindError σ :=
  if sdb.hasState s genesis.root then .ok s
  else
    match sdb.commitGenesis s with
    | none => .error .crit
    | some s' => .ok s'

/-- The block is the new head: its state is reset or recovered if needed. -/
def restore (b : Block) (s : σ) : Except RewindError (Block × σ) :=
  if b.number = 0 then (resetState sdb s).map fun s' => (b, s')
  else if sdb.hasState s b.root then .ok (b, s)
  else
    match sdb.recover s b.root with
    | none => .error .crit
    | some s' => .ok (b, s')

/-- The loop of `updateFn`: back to a block with state, or to genesis beyond the pivot. -/
def rewindBlock (db : Db) (pivot : Option Nat) (s : σ) :
    Nat → Block → Except RewindError (Block × σ)
  | 0, _ => .error .outOfFuel
  | fuel + 1, b =>
    if sdb.hasState s b.root || sdb.stateRecoverable s b.root then restore sdb b s
    else if pivot.all (· < b.number) then
      match db.getBlock b.parentHash (pred64 b.number) with
      | some parent => rewindBlock db pivot s fuel parent
      | none => restore sdb genesis s
    else restore sdb genesis s

/-- The new head block for a header. -/
def newHeadBlock (bc : ChainState σ) (header : Header) : Except RewindError (Block × σ) :=
  match bc.db.getBlock header.hash header.number with
  | none => (resetState sdb bc.state).map fun s => (genesis, s)
  | some b => rewindBlock sdb bc.db bc.pivot bc.state (b.number + 1) b

/-- The part of `updateFn` that lowers the head block. -/
def updateBlock (bc : ChainState σ) (header : Header) :
    Except RewindError (ChainState σ × Writes) :=
  if header.number ≤ bc.currentBlock.number then
    match newHeadBlock sdb bc header with
    | .error e => .error e
    | .ok (b, s) =>
      .ok ({ bc with currentBlock := b.header, state := s }, [⟨.headBlockHash, some b.hash⟩])
  else .ok (bc, [])

/-- The part of `updateFn` that lowers the head snap block. -/
def updateSnapBlock (genesis : Block) (bc : ChainState σ) (header : Header) :
    ChainState σ × Writes :=
  if header.number < bc.currentSnapBlock.number then
    let b := (bc.db.getBlock header.hash header.number).getD genesis
    ({ bc with currentSnapBlock := b.header }, [⟨.headFastBlockHash, some b.hash⟩])
  else (bc, [])

/-- Whether `updateFn` asks to wipe the headers above the head block too. -/
def wipe (bc : ChainState σ) (frozen : Nat) : Bool :=
  decide (bc.currentBlock.number + 1 < frozen) && bc.pivot.all (· ≤ bc.currentBlock.number)

/-- The markers of a round: `updateFn`, the target after it and the head header. -/
def lowerMarkers (bc : ChainState σ) (frozen headBlock : Nat) (parent : Header) :
    Except RewindError (ChainState σ × Nat) :=
  match updateBlock sdb bc parent with
  | .error e => .error e
  | .ok (bc₁, blockBatch) =>
    let (bc₂, snapBatch) := updateSnapBlock genesis bc₁ parent
    let target := if bc₂.wipe frozen &&
      decide (bc₂.currentBlock.number < headBlock) then bc₂.currentBlock.number else headBlock
    .ok ({ bc₂ with
      db := bc₂.db.write (blockBatch ++ snapBatch ++ [⟨.headHeaderHash, some parent.hash⟩]),
      currentHeader := parent }, target)

/-- `GetHeader` of the parent, or the genesis header. -/
def parentHeader (genesis : Block) (db : Db) (hdr : Header) : Header :=
  (db.readHeader hdr.parentHash (pred64 hdr.number)).getD genesis.header

/-- The heights whose blocks a round deletes. -/
def roundNumbers (db : Db) (origin : Bool) (num : Nat) : List Nat :=
  if origin then db.leftovers (db.topHeight + 1) (num + 1) ++ [num] else [num]

/-- A round of the loop of `HeaderChain.setHead`. -/
def rewindHeader (bc : ChainState σ) (frozen headBlock : Nat) (origin : Bool) :
    Except RewindError (ChainState σ × Nat × Writes) :=
  match lowerMarkers sdb bc frozen headBlock (parentHeader genesis bc.db bc.currentHeader) with
  | .error e => .error e
  | .ok (bc₁, target) =>
    let del := bc₁.db.deleteNumbers bc.currentHeader
      (roundNumbers bc₁.db origin bc.currentHeader.number)
    .ok ({ bc₁ with db := del.1 }, target, del.2)

/-- The loop of `HeaderChain.setHead`. -/
def rewindHeaders (frozen : Nat) :
    Nat → ChainState σ → Nat → Bool → Writes → Except RewindError (ChainState σ × Writes)
  | 0, _, _, _, _ => .error .outOfFuel
  | fuel + 1, bc, headBlock, origin, batch =>
    if bc.currentHeader.number ≤ headBlock then .ok (bc, batch)
    else
      match rewindHeader sdb bc frozen headBlock origin with
      | .error e => .error e
      | .ok (bc', target, dels) => rewindHeaders frozen fuel bc' target false (batch ++ dels)

/-- `HeaderChain.SetHead`. -/
def setHeaders (bc : ChainState σ) (head : Nat) : Except RewindError (ChainState σ) :=
  match rewindHeaders sdb bc.db.ancients.length (bc.currentHeader.number + 1) bc head true [] with
  | .error e => .error e
  | .ok (bc', batch) => .ok { bc' with db := bc'.db.write batch }

/-- The head block marker, if it is set. -/
def headMarker (marker : Option Hash) : Option Hash := marker.filter (· ≠ Hash.zero)

/-- `loadLastState`. -/
def loadLastState (bc : ChainState σ) : Except RewindError (ChainState σ) :=
  match (headMarker (bc.db.kv.lookup Key.headBlockHash)).bind bc.db.getBlockByHash with
  | none => .error .reset
  | some headBlock => .ok { bc with
      currentBlock := headBlock.header
      currentHeader := ((headMarker (bc.db.kv.lookup Key.headHeaderHash)).bind
        bc.db.getHeaderByHash).getD headBlock.header
      currentSnapBlock :=
        (((headMarker (bc.db.kv.lookup Key.headFastBlockHash)).bind bc.db.getBlockByHash).getD
          headBlock).header }

/-- `SetHead`. -/
def setHead (bc : ChainState σ) (head : Nat) : Except RewindError (ChainState σ) :=
  match setHeaders sdb bc head with
  | .error e => .error e
  | .ok bc₁ =>
    match loadLastState bc₁ with
    | .error e => .error e
    | .ok bc₂ =>
      match bc₂.db.getBlock bc₂.currentBlock.hash bc₂.currentBlock.number with
      | none => .error .currentBlockMissing
      | some _ => .ok bc₂

end ChainState

end GoQrl.Chain
