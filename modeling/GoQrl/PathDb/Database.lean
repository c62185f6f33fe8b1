import GoQrl.GoMap
import GoQrl.Lib.Descend
import GoQrl.Lib.Overlay
import GoQrl.Trie.Committer

/-!
# GoQrl.PathDb.Database

The path-keyed trie database, `trie/triedb/pathdb`: the layer tree, its diff layers, the disk layer
with the node buffer and the clean cache, and `Update` and `Commit`.

Layers are objects that point at their parents, and `cap` changes the pointer of one of them, so
the layers are kept in a heap.  All disk layers of a database share the node buffer and the clean
cache; a disk layer that was committed into is stale and does not read them any more.

The state histories, the journal and the measurements are left out.
-/

namespace GoQrl.PathDb

open Mpt State

/-! ## nodes -/

/-- `map[common.Hash]map[string]*trienode.Node`: nodes by owner and path. -/
abbrev NodeMap := GoMap Hash (GoMap Hex TrieNode)

/-- The node at a path. -/
def NodeMap.node (nodes : NodeMap) (owner : Hash) (path : Hex) : Option TrieNode :=
  (nodes.lookup owner).bind fun subset => subset.lookup path

/-- The size of a node with its path, as the buffer counts it. -/
def nodeSize (path : Hex) (n : TrieNode) : Int := n.blob.length + path.length

/-- `cacheKey`. -/
def cacheKey (owner : Hash) (path : Hex) : Bytes :=
  if owner = Hash.zero then path.map Nibble.toByte else owner.bytes ++ path.map Nibble.toByte

/-- `types.TrieRootHash`. -/
def trieRootHash [Keccak] (h : Hash) : Hash := if h = Hash.zero then emptyRootHash else h

/-! ## layers -/

/-- `diffLayer`; the pointer of the parent can be changed. -/
structure DiffLayer where
  root : Hash
  id : Nat
  block : UInt64
  nodes : NodeMap
  parent : Nat

/-- `diskLayer`. -/
structure DiskLayer where
  root : Hash
  id : Nat
  stale : Bool

inductive Layer
  | diff (dl : DiffLayer)
  | disk (dl : DiskLayer)

/-- `rootHash`. -/
def Layer.rootHash : Layer → Hash
  | .diff dl => dl.root
  | .disk dl => dl.root

/-- `stateID`. -/
def Layer.stateID : Layer → Nat
  | .diff dl => dl.id
  | .disk dl => dl.id

/-- `nodebuffer`. -/
structure NodeBuffer where
  layers : Nat
  size : Nat
  limit : Nat
  nodes : NodeMap

/-- The key-value store: the trie nodes, `PersistentStateID` and `StateID`. -/
structure DiskDB where
  nodes : Hash → Hex → Option Bytes
  persistentStateID : Nat
  stateIDs : Hash → Option Nat

/-- `Database`, with the heap of its layers and what its disk layers share. -/
structure Database where
  readOnly : Bool
  heap : List Layer
  layers : GoMap Hash Nat
  buffer : NodeBuffer
  cleans : Option (Bytes → Option Bytes)
  disk : DiskDB

/-- What the operations fail with. -/
inductive PathError
  /-- `errSnapshotReadOnly` -/
  | readOnly
  /-- `errSnapshotStale` -/
  | stale
  /-- `errUnexpectedNode` -/
  | unexpectedNode (expect got : Hash)
  /-- "state is not available" -/
  | unavailable (root : Hash)
  /-- "layer cycle" -/
  | layerCycle
  /-- "triedb parent layer missing" -/
  | parentMissing (root : Hash)
  /-- "triedb layer missing" -/
  | layerMissing (root : Hash)
  /-- "triedb layer is disk layer" -/
  | layerIsDisk (root : Hash)
  /-- "buffer layers cannot be applied on top of persisted state id" -/
  | unaligned
  /-- a Go panic -/
  | panicked
  /-- The evaluation budget of the model is used up; not an error of the source. -/
  | outOfFuel
  deriving DecidableEq

/-! ## the node buffer -/

namespace NodeBuffer

/-- `updateSize`. -/
def updateSize (b : NodeBuffer) (delta : Int) :
    NodeBuffer := { b with size := (b.size + delta).toNat }

/-- The change of the size when a node is put at a path. -/
def sizeDelta (current : GoMap Hex TrieNode) (path : Hex) (n : TrieNode) : Int :=
  match current.lookup path with
  | none => nodeSize path n
  | some orig => n.blob.length - orig.blob.length

/-- The loop of `commit` over the nodes of one trie. -/
def commitSubset (b : NodeBuffer) (owner : Hash) (subset : GoMap Hex TrieNode) : NodeBuffer × Int :=
  let current := (b.nodes.lookup owner).getD ∅
  let entries := subset.entries.map fun e => (e.1, e.2)
  ({ b with nodes := b.nodes.insert owner (entries.foldl (fun m e => m.insert e.1 e.2) current) },
    (entries.map fun e => sizeDelta current e.1 e.2).sum)

/-- The loop of `commit`. -/
def commitAll : List (Hash × GoMap Hex TrieNode) → NodeBuffer → Int → NodeBuffer × Int
  | [], b, delta => (b, delta)
  | (owner, subset) :: rest, b, delta =>
    let (b, d) := b.commitSubset owner subset
    commitAll rest b (delta + d)

/-- `nodebuffer.commit`. -/
def commit (b : NodeBuffer) (nodes : NodeMap) : NodeBuffer :=
  let (b, delta) := commitAll (nodes.entries.map fun e => (e.1, e.2)) b 0
  { b.updateSize delta with layers := b.layers + 1 }

/-- `nodebuffer.reset`. -/
def reset (b : NodeBuffer) : NodeBuffer := { b with layers := 0, size := 0, nodes := ∅ }

end NodeBuffer

/-! ## the disk -/

namespace Database

/-- `writeNodes` for one node: a deleted one is removed. -/
def writeNode (db : Database) (owner : Hash) (path : Hex) (n : TrieNode) : Database :=
  let blob := if n.isDeleted then none else some n.blob
  { db with
    disk := { db.disk with
      nodes := Function.update db.disk.nodes owner
        (Function.update (db.disk.nodes owner) path blob) }
    cleans := db.cleans.map fun cache => Function.update cache (cacheKey owner path) blob }

/-- The loop of `writeNodes` over the nodes of one trie. -/
def writeSubset (db : Database) (owner : Hash) (subset : GoMap Hex TrieNode) : Database :=
  (subset.entries.map fun e => (e.1, e.2)).foldl (fun db e => db.writeNode owner e.1 e.2) db

/-- `writeNodes`. -/
def writeNodes (db : Database) (nodes : NodeMap) : Database :=
  (nodes.entries.map fun e => (e.1, e.2)).foldl (fun db e => db.writeSubset e.1 e.2) db

/-- `nodebuffer.flush`. -/
def flush (db : Database) (id : Nat) (force : Bool) : Except PathError Unit × Database :=
  if db.buffer.size ≤ db.buffer.limit ∧ force = false then (.ok (), db)
  else if db.disk.persistentStateID + db.buffer.layers ≠ id then (.error .unaligned, db)
  else
    let db := db.writeNodes db.buffer.nodes
    (.ok (), { db with
      disk := { db.disk with persistentStateID := id }, buffer := db.buffer.reset })

/-- A new object. -/
def alloc (db : Database) (l : Layer) :
    Nat × Database := (db.heap.length, { db with heap := db.heap ++ [l] })

/-- An object is changed. -/
def setLayer (db : Database) (ptr : Nat) (l : Layer) :
    Database := { db with heap := db.heap.set ptr l }

/-- `WriteStateID`. -/
def writeStateID (db : Database) (root : Hash) (id : Nat) : Database :=
  { db with disk := { db.disk with stateIDs := Function.update db.disk.stateIDs root (some id) } }

/-- `diskLayer.commit`: the bottom-most diff layer is merged into the buffer, and the disk layer
is stale from then on. -/
def commitDisk (db : Database) (ptr : Nat) (dl : DiskLayer) (bottom : DiffLayer) (force : Bool) :
    Except PathError Nat × Database :=
  let db := db.setLayer ptr (.disk { dl with stale := true })
  let db := if dl.id = 0 then db.writeStateID dl.root 0 else db
  let db := db.writeStateID bottom.root bottom.id
  let (ndl, db) := { db with buffer := db.buffer.commit bottom.nodes }.alloc
    (.disk ⟨bottom.root, bottom.id, false⟩)
  match db.flush bottom.id force with
  | (.error e, db) => (.error e, db)
  | (.ok (), db) => (.ok ndl, db)

/-- `diffToDisk`. -/
def diffToDisk (db : Database) (layer : DiffLayer) (force : Bool) :
    Except PathError Nat × Database :=
  match db.heap[layer.parent]? with
  | some (.disk dl) => db.commitDisk layer.parent dl layer force
  | _ => (.error .panicked, db)

/-- `diffLayer.persist`. -/
def persist : Nat → Database → Nat → Bool → Except PathError Nat × Database
  | 0, db, _, _ => (.error .outOfFuel, db)
  | fuel + 1, db, ptr, force =>
    match db.heap[ptr]? with
    | some (.diff dl) =>
      match db.heap[dl.parent]? with
      | some (.diff _) =>
        match persist fuel db dl.parent force with
        | (.error e, db) => (.error e, db)
        | (.ok result, db) =>
          let dl := { dl with parent := result }
          (db.setLayer ptr (.diff dl)).diffToDisk dl force
      | _ => db.diffToDisk dl force
    | _ => (.error .panicked, db)

/-! ## reading -/

/-- A blob in the clean cache with the right hash. -/
def cleanNode [Keccak] (db : Database) (owner : Hash) (path : Hex) (hash : Hash) : Option Bytes :=
  match db.cleans with
  | none => none
  | some cache =>
    match cache (cacheKey owner path) with
    | none => none
    | some blob => if 0 < blob.length ∧ Keccak.hash blob = hash then some blob else none

/-- A blob that was read is put into the clean cache. -/
def cacheClean (db : Database) (owner : Hash) (path : Hex) (blob : Bytes) : Database :=
  if 0 < blob.length then
    { db with
      cleans := db.cleans.map fun cache => Function.update cache (cacheKey owner path) (some blob) }
  else db

/-- `ReadAccountTrieNode` and `ReadStorageTrieNode`. -/
def DiskDB.readNode [Keccak] (disk : DiskDB) (owner : Hash) (path : Hex) : Bytes × Hash :=
  match disk.nodes owner path with
  | none => ([], Hash.zero)
  | some blob => (blob, Keccak.hash blob)

/-- `diskLayer.Node`. -/
def diskNode [Keccak] (db : Database) (dl : DiskLayer) (owner : Hash) (path : Hex) (hash : Hash) :
    Except PathError Bytes × Database :=
  if dl.stale then (.error .stale, db)
  else
    match db.buffer.nodes.node owner path with
    | some n => if n.hash =
      hash then (.ok n.blob, db) else (.error (.unexpectedNode hash n.hash), db)
    | none =>
      match db.cleanNode owner path hash with
      | some blob => (.ok blob, db)
      | none =>
        let (nBlob, nHash) := DiskDB.readNode db.disk owner path
        if nHash ≠ hash then (.error (.unexpectedNode hash nHash), db)
        else (.ok nBlob, db.cacheClean owner path nBlob)

/-- `Node` of the layer at a pointer. -/
def nodeAt [Keccak] : Nat → Database → Nat → Hash → Hex → Hash → Except PathError Bytes × Database
  | 0, db, _, _, _, _ => (.error .outOfFuel, db)
  | fuel + 1, db, ptr, owner, path, want =>
    match db.heap[ptr]? with
    | none => (.error .panicked, db)
    | some (.disk dl) => db.diskNode dl owner path want
    | some (.diff dl) =>
      match dl.nodes.node owner path with
      | some n => if n.hash =
        want then (.ok n.blob, db) else (.error (.unexpectedNode want n.hash), db)
      | none => nodeAt fuel db dl.parent owner path want

/-- `layerTree.get`. -/
def get [Keccak] (db : Database) (root : Hash) : Option Nat := db.layers.lookup (trieRootHash root)

/-- `Reader(root).Node`; there are fewer layers below one than there are objects. -/
def readNode [Keccak] (db : Database) (root owner : Hash) (path : Hex) (hash : Hash) :
    Except PathError Bytes × Database :=
  match db.get root with
  | none => (.error (.unavailable root), db)
  | some ptr => nodeAt (db.heap.length + 1) db ptr owner path hash

/-! ## the layer tree -/

/-- `layerTree.add`. -/
def add [Keccak] (db : Database) (root parentRoot : Hash) (block : UInt64) (nodes : NodeMap) :
    Except PathError Unit × Database :=
  let root := trieRootHash root
  let parentRoot := trieRootHash parentRoot
  if root = parentRoot then (.error .layerCycle, db)
  else
    match db.get parentRoot with
    | none => (.error (.parentMissing parentRoot), db)
    | some parent =>
      match db.heap[parent]? with
      | none => (.error .panicked, db)
      | some l =>
        let (ptr, db) := db.alloc (.diff ⟨root, l.stateID + 1, block, nodes, parent⟩)
        (.ok (), { db with layers := db.layers.insert root ptr })

/-- The loop of `cap` that goes down `n` layers, unless the stack is too shallow. -/
def dive (db : Database) : Nat → Nat → DiffLayer → Option (Nat × DiffLayer)
  | 0, ptr, diff => some (ptr, diff)
  | n + 1, _, diff =>
    match db.heap[diff.parent]? with
    | some (.diff parent) => db.dive n diff.parent parent
    | _ => none

/-- The root of the parent of a diff layer. -/
def parentRoot (db : Database) (ptr : Nat) : Option Hash :=
  match db.heap[ptr]? with
  | some (.diff dl) => db.heap[dl.parent]?.map Layer.rootHash
  | _ => none

/-- The layers that have a layer with this root as their parent. -/
def children (db : Database) (root : Hash) : List Hash :=
  (db.layers.entries.filter fun e => db.parentRoot e.2 = some root).map Sigma.fst

/-- `remove`: a layer and all that are above it. -/
def remove (children : Hash → List Hash) : Nat → Hash → GoMap Hash Nat → GoMap Hash Nat :=
  Descend.eraseBelow children

/-- Whether the object is a stale disk layer. -/
def isStale (db : Database) (ptr : Nat) : Bool :=
  match db.heap[ptr]? with
  | some (.disk dl) => dl.stale
  | _ => false

/-- The stale disk layers of the tree. -/
def staleRoots (db : Database) :
    List Hash := (db.layers.entries.filter fun e => db.isStale e.2).map Sigma.fst

/-- The end of `cap`: what is stale or above a stale layer is removed. -/
def removeStale (db : Database) : Database :=
  { db with
    layers := db.staleRoots.foldl
      (fun layers root => remove db.children (db.heap.length + 2) root layers) db.layers }

/-- The layer that `cap` flattens, with the one above it. -/
def flattened (db : Database) (ptr : Nat) (diff : DiffLayer) (layers : Nat) :
    Option (Nat × DiffLayer) :=
  match db.dive (layers - 1) ptr diff with
  | none => none
  | some (ptr, diff) =>
    match db.heap[diff.parent]? with
    | some (.diff _) => some (ptr, diff)
    | _ => none

/-- `layerTree.cap`. -/
def cap [Keccak] (db : Database) (root : Hash) (layers : Nat) : Except PathError Unit × Database :=
  let root := trieRootHash root
  match db.get root with
  | none => (.error (.layerMissing root), db)
  | some ptr =>
    match db.heap[ptr]? with
    | some (.diff diff) =>
      if layers = 0 then
        match persist (db.heap.length + 1) db ptr true with
        | (.error e, db) => (.error e, db)
        | (.ok base, db) =>
          match db.heap[base]? with
          | none => (.error .panicked, db)
          | some l => (.ok (), { db with layers := (∅ : GoMap Hash Nat).insert l.rootHash base })
      else
        match db.flattened ptr diff layers with
        | none => (.ok (), db)
        | some (ptr, diff) =>
          match persist (db.heap.length + 1) db diff.parent false with
          | (.error e, db) => (.error e, db)
          | (.ok base, db) =>
            match db.heap[base]? with
            | none => (.error .panicked, db)
            | some l =>
              let db := { db with layers := db.layers.insert l.rootHash base }
              let db := db.setLayer ptr (.diff { diff with parent := base })
              (.ok (), db.removeStale)
    | _ => (.error (.layerIsDisk root), db)

/-- `maxDiffLayers`. -/
def maxDiffLayers : Nat := 128

/-- `Update`. -/
def update [Keccak] (db : Database) (root parentRoot : Hash) (block : UInt64) (nodes : NodeMap) :
    Except PathError Unit × Database :=
  if db.readOnly then (.error .readOnly, db)
  else
    match db.add root parentRoot block nodes with
    | (.error e, db) => (.error e, db)
    | (.ok (), db) => db.cap root maxDiffLayers

/-- `Commit`. -/
def commit [Keccak] (db : Database) (root : Hash) : Except PathError Unit × Database :=
  if db.readOnly then (.error .readOnly, db) else db.cap root 0

end Database

end GoQrl.PathDb
