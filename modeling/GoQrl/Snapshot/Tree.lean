import GoQrl.GoMap
import GoQrl.Lib.Descend
import GoQrl.Lib.Overlay

/-!
# GoQrl.Snapshot.Tree

The state snapshots, `core/state/snapshot`: the tree of diff layers over the disk layer, `Update`,
`Cap` and the reads.

Layers are objects that point at their parents and at their origin, so they are kept in a heap.
`flatten` merges a layer into the maps of its parent and makes a new layer with the same maps, and
a map of slots that the parent did not have is taken over as it is; the maps are therefore kept in
heaps of their own (`data` and `slots`), so that it can be seen who shares them.

Reading an account and reading a slot are one function of a `Key`.  Iterators, the journal and the
generator are left out; the marker of the generator stays where it is.
-/

namespace GoQrl.Snapshot

open State (GoMap)

/-! ## keys -/

/-- What a snapshot is asked for. -/
inductive Key
  | account (hash : Hash)
  | slot (accountHash storageHash : Hash)
  deriving DecidableEq

/-- The account a key belongs to. -/
def Key.owner : Key → Hash
  | .account h => h
  | .slot a _ => a

/-- The key in the cache of the disk layer. -/
def Key.bytes : Key → Bytes
  | .account h => h.bytes
  | .slot a s => a.bytes ++ s.bytes

/-- What is put into the bloom filters: `destructBloomHasher`, `accountBloomHasher` and
`storageBloomHasher`. -/
inductive BloomKey
  | destruct (hash : Hash)
  | account (hash : Hash)
  | storage (accountHash storageHash : Hash)
  deriving DecidableEq

def Key.bloom : Key → BloomKey
  | .account h => .account h
  | .slot a s => .storage a s

/-- `bloomfilter.Filter`: what was added is contained. -/
class Bloom (F : Type) where
  new : F
  add : F → BloomKey → F
  contains : F → BloomKey → Bool
  contains_add : ∀ f k, contains (add f k) k = true
  contains_of : ∀ f k k', contains f k' = true → contains (add f k) k' = true

/-! ## layers -/

/-- The maps of a diff layer; the maps of slots are references. -/
structure DiffData where
  destructSet : GoMap Hash Unit
  accountData : GoMap Hash Bytes
  storageData : GoMap Hash Nat

/-- `diffLayer`. -/
structure DiffLayer (F : Type) where
  origin : Nat
  parent : Nat
  memory : Nat
  root : Hash
  stale : Bool
  data : Nat
  diffed : F

/-- `diskLayer`; `genAbort` says whether a generator is running. -/
structure DiskLayer where
  root : Hash
  stale : Bool
  genMarker : Option Bytes
  genAbort : Bool

inductive Layer (F : Type)
  | diff (dl : DiffLayer F)
  | disk (dl : DiskLayer)

/-- `Root`. -/
def Layer.root {F : Type} : Layer F → Hash
  | .diff dl => dl.root
  | .disk dl => dl.root

/-- `Stale`. -/
def Layer.isStale {F : Type} : Layer F → Bool
  | .diff dl => dl.stale
  | .disk dl => dl.stale

/-- `Tree`, with the objects it reaches; all disk layers share the database and the cache. -/
structure Tree (F : Type) where
  heap : List (Layer F)
  data : List DiffData
  slots : List (GoMap Hash Bytes)
  layers : GoMap Hash Nat
  diskdb : Key → Option Bytes
  cache : Bytes → Option Bytes

/-- What the operations fail with. -/
inductive SnapError
  /-- `ErrSnapshotStale` -/
  | stale
  /-- `ErrNotCoveredYet` -/
  | notCovered
  /-- `errSnapshotCycle` -/
  | cycle
  /-- "parent snapshot missing" -/
  | parentMissing (root : Hash)
  /-- "snapshot missing" -/
  | missing (root : Hash)
  /-- "snapshot is disk layer" -/
  | isDiskLayer (root : Hash)
  /-- a Go panic -/
  | panicked
  /-- The evaluation budget of the model is used up; not an error of the source. -/
  | outOfFuel
  deriving DecidableEq

/-- `bytes.Compare(key, marker) <= 0`, if there is a marker. -/
def covered (marker : Option Bytes) (key : Bytes) : Bool :=
  match marker with
  | none => true
  | some m => !decide (m < key)

/-- The value that a diff layer has for a key. -/
def DiffData.value (slots : List (GoMap Hash Bytes)) (d : DiffData) : Key → Option Bytes
  | .account h => d.accountData.lookup h
  | .slot a s => (d.storageData.lookup a).bind fun ref => slots[ref]?.bind fun storage =>
    storage.lookup s

/-- Whether the account is in the destruct set. -/
def DiffData.destructs (d : DiffData) (h : Hash) : Bool := (d.destructSet.lookup h).isSome

namespace Tree

variable {F : Type}

/-! ## reading -/

/-- `diskLayer.AccountRLP` and `diskLayer.Storage`. -/
def diskRead (t : Tree F) (dl : DiskLayer) (key : Key) : Except SnapError Bytes × Tree F :=
  if dl.stale then (.error .stale, t)
  else if !covered dl.genMarker key.bytes then (.error .notCovered, t)
  else
    match t.cache key.bytes with
    | some blob => (.ok blob, t)
    | none =>
      let blob := (t.diskdb key).getD []
      (.ok blob, { t with cache := Function.update t.cache key.bytes (some blob) })

/-- `diffLayer.accountRLP` and `diffLayer.storage`: the reads without the bloom filter. -/
def readAt : Nat → Tree F → Nat → Key → Except SnapError Bytes × Tree F
  | 0, t, _, _ => (.error .outOfFuel, t)
  | fuel + 1, t, ptr, key =>
    match t.heap[ptr]? with
    | none => (.error .panicked, t)
    | some (.disk dl) => t.diskRead dl key
    | some (.diff dl) =>
      if dl.stale then (.error .stale, t)
      else
        match t.data[dl.data]? with
        | none => (.error .panicked, t)
        | some d =>
          match d.value t.slots key with
          | some data => (.ok data, t)
          | none => if d.destructs key.owner then (.ok [], t) else readAt fuel t dl.parent key

/-- `AccountRLP` and `Storage` of the layer at a pointer; there are fewer layers below one than
there are objects. -/
def read [Bloom F] (t : Tree F) (ptr : Nat) (key : Key) : Except SnapError Bytes × Tree F :=
  match t.heap[ptr]? with
  | none => (.error .panicked, t)
  | some (.disk dl) => t.diskRead dl key
  | some (.diff dl) =>
    if dl.stale then (.error .stale, t)
    else if Bloom.contains dl.diffed key.bloom ||
      Bloom.contains dl.diffed (.destruct key.owner) then
      readAt (t.heap.length + 1) t ptr key
    else
      match t.heap[dl.origin]? with
      | some (.disk origin) => t.diskRead origin key
      | _ => (.error .panicked, t)

/-! ## new layers -/

/-- A new object. -/
def alloc (t : Tree F) (l : Layer F) :
    Nat × Tree F := (t.heap.length, { t with heap := t.heap ++ [l] })

/-- An object is changed. -/
def setLayer (t : Tree F) (ptr : Nat) (l : Layer F) : Tree F := { t with heap := t.heap.set ptr l }

/-- The keys of the maps, as the bloom filter takes them. -/
def bloomKeys (slots : List (GoMap Hash Bytes)) (d : DiffData) : List BloomKey :=
  d.destructSet.keys.map .destruct ++ d.accountData.keys.map .account ++
    d.storageData.entries.flatMap fun e => ((slots[e.2]?.getD ∅).keys.map (.storage e.1))

/-- `rebloom`. -/
def rebloom [Bloom F] (t : Tree F) (ptr origin : Nat) : Tree F :=
  match t.heap[ptr]? with
  | some (.diff dl) =>
    let inherited := match t.heap[dl.parent]? with
      | some (.diff parent) => parent.diffed
      | _ => Bloom.new
    let keys := match t.data[dl.data]? with
      | some d => bloomKeys t.slots d
      | none => []
    t.setLayer ptr (.diff { dl with origin := origin, diffed := keys.foldl Bloom.add inherited })
  | _ => t

/-- The approximate memory of a new layer. -/
def memoryOf (destructs : GoMap Hash Unit) (accounts : GoMap Hash Bytes)
    (storage : GoMap Hash (GoMap Hash Bytes)) : Nat :=
  (accounts.entries.map fun e => 32 + e.2.length).sum +
    (storage.entries.map fun e => (e.2.entries.map fun s => 32 + s.2.length).sum).sum +
      destructs.entries.length * 32

/-- The maps of slots of a new layer become objects. -/
def allocSlots (storage : GoMap Hash (GoMap Hash Bytes)) (slots : List (GoMap Hash Bytes)) :
    GoMap Hash Nat × List (GoMap Hash Bytes) :=
  (storage.entries.map fun e => (e.1, e.2)).foldl
    (fun acc e => (acc.1.insert e.1 acc.2.length, acc.2 ++ [e.2])) (∅, slots)

/-- `newDiffLayer`. -/
def newDiffLayer [Bloom F] (t : Tree F) (parent : Nat) (root : Hash) (destructs : GoMap Hash Unit)
    (accounts : GoMap Hash Bytes) (storage : GoMap Hash (GoMap Hash Bytes)) : Nat × Tree F :=
  let (storageData, slots) := allocSlots storage t.slots
  let origin := match t.heap[parent]? with
    | some (.diff dl) => dl.origin
    | _ => parent
  let dl : DiffLayer F :=
    ⟨origin, parent, memoryOf destructs accounts storage, root, false, t.data.length, Bloom.new⟩
  let d : DiffData := ⟨destructs, accounts, storageData⟩
  let (ptr, t) := { t with slots := slots, data := t.data ++ [d] }.alloc (.diff dl)
  (ptr, t.rebloom ptr origin)

/-- `Update`. -/
def update [Bloom F] (t : Tree F) (blockRoot parentRoot : Hash) (destructs : GoMap Hash Unit)
    (accounts : GoMap Hash Bytes) (storage : GoMap Hash (GoMap Hash Bytes)) :
    Except SnapError Unit × Tree F :=
  if blockRoot = parentRoot then (.error .cycle, t)
  else
    match t.layers.lookup parentRoot with
    | none => (.error (.parentMissing parentRoot), t)
    | some parent =>
      let (ptr, t) := t.newDiffLayer parent blockRoot destructs accounts storage
      (.ok (), { t with layers := t.layers.insert blockRoot ptr })

/-! ## flattening -/

/-- The loop of `flatten` over the destruct set. -/
def mergeDestructs (destructs : GoMap Hash Unit) (d : DiffData) : DiffData :=
  (destructs.entries.map fun e => (e.1, e.2)).foldl
    (fun d e => ⟨d.destructSet.insert e.1 (), d.accountData.erase e.1, d.storageData.erase e.1⟩) d

/-- `maps.Copy`. -/
def copyMap (src dst : GoMap Hash Bytes) : GoMap Hash Bytes :=
  (src.entries.map fun e => (e.1, e.2)).foldl (fun m e => m.insert e.1 e.2) dst

/-- The slots of one account: a map that is not in the parent is taken over, and the others are
copied. -/
def mergeSlots (acc : GoMap Hash Nat × List (GoMap Hash Bytes)) (e : Hash × Nat) :
    GoMap Hash Nat × List (GoMap Hash Bytes) :=
  match acc.1.lookup e.1 with
  | none => (acc.1.insert e.1 e.2, acc.2)
  | some comboData =>
    (acc.1, acc.2.set comboData (copyMap (acc.2[e.2]?.getD ∅) (acc.2[comboData]?.getD ∅)))

/-- The loop of `flatten` over the slots. -/
def mergeStorage (storageData : GoMap Hash Nat) (parent : GoMap Hash Nat)
    (slots : List (GoMap Hash Bytes)) :
    GoMap Hash Nat × List (GoMap Hash Bytes) :=
  (storageData.entries.map fun e => (e.1, e.2)).foldl mergeSlots (parent, slots)

/-- The maps of a layer are merged into those of its parent. -/
def mergeData (t : Tree F) (parent : Nat) (d p : DiffData) : Tree F :=
  let p := mergeDestructs d.destructSet p
  let (storageData, slots) := mergeStorage d.storageData p.storageData t.slots
  { t with
    data := t.data.set parent ⟨p.destructSet, copyMap d.accountData p.accountData, storageData⟩
    slots := slots }

/-- The parent becomes stale, and a new layer has the merged maps. -/
def mergeLayer (t : Tree F) (ptr : Nat) (parent dl : DiffLayer F) (d p : DiffData) : Nat × Tree F :=
  let t := (t.setLayer ptr (.diff { parent with stale := true })).mergeData parent.data d p
  t.alloc (.diff ⟨parent.origin, parent.parent, parent.memory + dl.memory, dl.root, false,
    parent.data, dl.diffed⟩)

/-- `flatten`. -/
def flatten : Nat → Tree F → Nat → Except SnapError Nat × Tree F
  | 0, t, _ => (.error .outOfFuel, t)
  | fuel + 1, t, ptr =>
    match t.heap[ptr]? with
    | some (.diff dl) =>
      match t.heap[dl.parent]? with
      | some (.diff _) =>
        match flatten fuel t dl.parent with
        | (.error e, t) => (.error e, t)
        | (.ok q, t) =>
          match t.heap[q]? with
          | some (.diff parent) =>
            match parent.stale, t.data[dl.data]?, t.data[parent.data]? with
            | false, some d, some p =>
              let (ptr, t) := t.mergeLayer q parent dl d p
              (.ok ptr, t)
            | _, _, _ => (.error .panicked, t)
          | _ => (.error .panicked, t)
      | _ => (.ok ptr, t)
    | _ => (.error .panicked, t)

/-! ## writing to disk -/

/-- A destructed account is removed with all its slots, if it is covered. -/
def destructAccount (marker : Option Bytes) (t : Tree F) (hash : Hash) : Tree F :=
  if !covered marker hash.bytes then t
  else
    { t with
      diskdb := fun key => if key.owner = hash then none else t.diskdb key
      cache := fun k =>
        if k = hash.bytes then some []
        else if k.take 32 = hash.bytes ∧ k.length = 64 ∧
          (t.diskdb (.slot hash (Hash.ofBytes (k.drop 32)))).isSome then none
        else t.cache k }

/-- An updated account is written, if it is covered. -/
def writeAccount (marker : Option Bytes) (t : Tree F) (e : Hash × Bytes) : Tree F :=
  if !covered marker e.1.bytes then t
  else
    { t with
      diskdb := Function.update t.diskdb (.account e.1) (some e.2)
      cache := Function.update t.cache e.1.bytes (some e.2) }

/-- An updated slot is written, if it is covered; an empty one is removed. -/
def writeSlot (midAccount : Option Bytes) (accountHash : Hash) (t : Tree F) (e : Hash × Bytes) :
    Tree F :=
  if !covered midAccount e.1.bytes then t
  else
    let key := Key.slot accountHash e.1
    if 0 < e.2.length then
      { t with
        diskdb := Function.update t.diskdb key (some e.2)
        cache := Function.update t.cache key.bytes (some e.2) }
    else
      { t with
        diskdb := Function.update t.diskdb key none
        cache := Function.update t.cache key.bytes (some []) }

/-- The marker for the slots of an account, when the generator is inside of it. -/
def midAccount (marker : Option Bytes) (accountHash : Hash) : Option Bytes :=
  match marker with
  | none => none
  | some m => if m.take 32 = accountHash.bytes then some (m.drop 32) else none

/-- The updated slots of an account are written, if it is covered. -/
def writeStorage (marker : Option Bytes) (t : Tree F) (e : Hash × Nat) : Tree F :=
  if !covered marker e.1.bytes then t
  else (((t.slots[e.2]?.getD ∅).entries.map fun s => (s.1, s.2)).foldl
    (writeSlot (midAccount marker e.1) e.1) t)

/-- The three loops of `diffToDisk`. -/
def writeDiff (marker : Option Bytes) (t : Tree F) (d : DiffData) : Tree F :=
  let t := (d.destructSet.entries.map fun e => e.1).foldl (destructAccount marker) t
  let t := (d.accountData.entries.map fun e => (e.1, e.2)).foldl (writeAccount marker) t
  (d.storageData.entries.map fun e => (e.1, e.2)).foldl (writeStorage marker) t

/-- `diffToDisk`. -/
def diffToDisk (t : Tree F) (ptr : Nat) : Except SnapError Nat × Tree F :=
  match t.heap[ptr]? with
  | some (.diff bottom) =>
    match t.heap[bottom.parent]?, t.data[bottom.data]? with
    | some (.disk base), some d =>
      if base.stale then (.error .panicked, t)
      else
        let t := t.setLayer bottom.parent (.disk { base with stale := true })
        let t := t.writeDiff base.genMarker d
        let (ptr, t) := t.alloc
          (.disk ⟨bottom.root, false, base.genMarker, base.genMarker.isSome && base.genAbort⟩)
        (.ok ptr, t)
    | _, _ => (.error .panicked, t)
  | _ => (.error .panicked, t)

/-! ## capping -/

/-- The loop of `cap` that goes down `n` layers, unless the stack is too shallow. -/
def dive (t : Tree F) : Nat → Nat → DiffLayer F → Option (Nat × DiffLayer F)
  | 0, ptr, diff => some (ptr, diff)
  | n + 1, _, diff =>
    match t.heap[diff.parent]? with
    | some (.diff parent) => t.dive n diff.parent parent
    | _ => none

/-- `aggregatorMemoryLimit`. -/
def aggregatorMemoryLimit : Nat := 4 * 1024 * 1024

/-- The layer whose parent `cap` flattens. -/
def capped (t : Tree F) (ptr : Nat) (diff : DiffLayer F) (layers : Int) :
    Option (Nat × DiffLayer F) :=
  match t.dive (layers - 1).toNat ptr diff with
  | none => none
  | some (ptr, diff) =>
    match t.heap[diff.parent]? with
    | some (.diff _) => some (ptr, diff)
    | _ => none

/-- Whether the flattened layer is written to disk: it is too large, or the generator is running. -/
def persists (t : Tree F) (flattened : DiffLayer F) : Bool :=
  if flattened.memory < aggregatorMemoryLimit then
    match t.heap[flattened.parent]? with
    | some (.disk base) => base.genAbort
    | _ => true
  else true

/-- `Tree.cap`: the new disk layer, if there is one. -/
def capTree (t : Tree F) (ptr : Nat) (diff : DiffLayer F) (layers : Int) :
    Except SnapError (Option Nat) × Tree F :=
  match t.capped ptr diff layers with
  | none => (.ok none, t)
  | some (ptr, diff) =>
    match flatten (t.heap.length + 1) t diff.parent with
    | (.error e, t) => (.error e, t)
    | (.ok q, t) =>
      match t.heap[q]? with
      | some (.diff flattened) =>
        let t := { t with layers := t.layers.insert flattened.root q }
        let t := t.setLayer ptr (.diff { diff with parent := q })
        if !t.persists flattened then (.ok none, t)
        else
          match t.diffToDisk q with
          | (.error e, t) => (.error e, t)
          | (.ok base, t) =>
            let t := { t with layers := t.layers.insert flattened.root base }
            (.ok (some base), t.setLayer ptr (.diff { diff with parent := base }))
      | _ => (.error .panicked, t)

/-- The root of the parent of a diff layer. -/
def parentRoot (t : Tree F) (ptr : Nat) : Option Hash :=
  match t.heap[ptr]? with
  | some (.diff dl) => t.heap[dl.parent]?.map Layer.root
  | _ => none

/-- The layers that have a layer with this root as their parent. -/
def children (t : Tree F) (root : Hash) : List Hash :=
  (t.layers.entries.filter fun e => t.parentRoot e.2 = some root).map Sigma.fst

/-- The stale layers of the tree. -/
def staleRoots (t : Tree F) : List Hash :=
  (t.layers.entries.filter fun e => (t.heap[e.2]?.map Layer.isStale).getD false).map Sigma.fst

/-- What is stale or above a stale layer is removed. -/
def removeStale (t : Tree F) : Tree F :=
  { t with
    layers := t.staleRoots.foldl
      (fun layers root => Descend.eraseBelow t.children (t.heap.length + 2) root layers) t.layers }

/-- The blooms of a layer and of all that are above it are made again. -/
def rebloomAll [Bloom F] (children : Hash → List Hash) (origin : Nat) : Nat → Tree F → Hash → Tree F
  | 0, t, _ => t
  | fuel + 1, t, root =>
    let t := match t.layers.lookup root with
      | some ptr => t.rebloom ptr origin
      | none => t
    (children root).foldl (rebloomAll children origin fuel) t

/-- The number of layers that are kept, which is smaller while the generator is running. -/
def allowedLayers (t : Tree F) (diff : DiffLayer F) (layers : Int) : Int :=
  match t.heap[diff.origin]? with
  | some (.disk origin) => if origin.genMarker.isSome ∧ layers > 8 then 8 else layers
  | _ => layers

/-- `Cap`. -/
def cap [Bloom F] (t : Tree F) (root : Hash) (layers : Int) : Except SnapError Unit × Tree F :=
  match t.layers.lookup root with
  | none => (.error (.missing root), t)
  | some ptr =>
    match t.heap[ptr]? with
    | some (.diff diff) =>
      let layers := t.allowedLayers diff layers
      if layers = 0 then
        match flatten (t.heap.length + 1) t ptr with
        | (.error e, t) => (.error e, t)
        | (.ok q, t) =>
          match t.diffToDisk q with
          | (.error e, t) => (.error e, t)
          | (.ok base, t) =>
            (.ok (), { t with layers := (∅ : GoMap Hash Nat).insert diff.root base })
      else
        match t.capTree ptr diff layers with
        | (.error e, t) => (.error e, t)
        | (.ok persisted, t) =>
          let children := t.children
          let t := t.removeStale
          match persisted.bind fun base => t.heap[base]?.map fun l => (base, l.root) with
          | none => (.ok (), t)
          | some (base, baseRoot) =>
            (.ok (), rebloomAll children base (t.heap.length + 2) t baseRoot)
    | _ => (.error (.isDiskLayer root), t)

end Tree

end GoQrl.Snapshot
