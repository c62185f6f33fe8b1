import GoQrl.PathDb.LayerTree

/-!
# GoQrl.PathDb.Readable

Runs of a path database: which states can be read after any sequence of updates and commits.

A run starts with a disk layer only (`Fresh`) and is any sequence of `Update` and `Commit`, with
reads in between that fill the clean cache and with the cache dropping what it likes.  What the
roots stand for is tracked beside the run (`Op.track`).

As long as a layer is only merged into the disk layer when it has one child (`unforked`), every
state in the layer tree can be read (`readable_of_unforked`).  With two children the one that is not
on the way to the new head stays in the tree, but its parent is the merged layer over a stale disk
layer, so that its nodes are lost (`stale_sibling`).
-/

namespace GoQrl.PathDb

open Mpt State Overlay AList Function Database NodeMap
open List hiding after

/-! ## runs -/

/-- A call on the database. -/
inductive Op
  /-- `Update` -/
  | update (root parentRoot : Hash) (block : UInt64) (nodes : NodeMap)
  /-- `Commit` -/
  | commit (root : Hash)
  /-- `Reader(root).Node` -/
  | read (root owner : Hash) (path : Hex) (want : Hash)
  /-- The clean cache drops what is not to be kept. -/
  | evict (keep : Bytes → Bool)

/-- The root that an update makes. -/
def Op.newRoot? [Keccak] : Op → Option Hash
  | .update root _ _ _ => some (trieRootHash root)
  | _ => none

/-- The nodes of an update are in order. -/
def Op.OK [Keccak] (blobs : Set Bytes) : Op → Prop
  | .update _ _ _ nodes => nodes.OK blobs
  | _ => True

/-- The states after a call. -/
def Op.track [Keccak] (st : States) : Op → States
  | .update root parentRoot _ nodes =>
    match st (trieRootHash parentRoot) with
    | none => st
    | some s => Function.update st (trieRootHash root) (some (apply nodes.change s))
  | _ => st

variable {blobs : Set Bytes} {op : Op} {ops : List Op} {used : List Hash}

namespace Database

/-- The database after a call. -/
def step [Keccak] (db : Database) : Op → Database
  | .update root parentRoot block nodes => (db.update root parentRoot block nodes).2
  | .commit root => (db.commit root).2
  | .read root owner path want => (db.readNode root owner path want).2
  | .evict keep =>
    { db with cleans := db.cleans.map fun cache key => if keep key then cache key else none }

/-- Whether no layer of the tree but the one at `p` has the parent of `l`. -/
def onlyChild (db : Database) (p : Nat) (l : DiffLayer) : Bool :=
  db.layers.entries.all fun e =>
    match db.heap[e.2]? with
    | some (.diff k) => k.parent != l.parent || e.2 == p
    | _ => true

/-- Whether the layer that an update merges into the disk layer, if it merges one, has one child. -/
def unforked [Keccak] (db : Database) : Op → Bool
  | .update root parentRoot block nodes =>
    match db.add root parentRoot block nodes with
    | (.error _, _) => true
    | (.ok (), db) =>
      match db.get root with
      | none => true
      | some ptr =>
        match db.heap[ptr]? with
        | some (.diff diff) =>
          match db.flattened ptr diff maxDiffLayers with
          | none => true
          | some (p, l) => db.onlyChild p l
        | _ => true
  | _ => true

/-- Whether this holds of all calls of a run. -/
def unforkedRun [Keccak] : Database → List Op → Bool
  | _, [] => true
  | db, op :: ops => db.unforked op && unforkedRun (db.step op) ops

/-- There is only a disk layer. -/
structure Fresh [Keccak] (blobs : Set Bytes) (db : Database) (root : Hash) (id : Nat) : Prop where
  sound : Sound blobs db
  heap : db.heap = [.disk ⟨root, id, false⟩]
  layers : db.layers = (∅ : GoMap Hash Nat).insert root 0
  aligned : db.disk.persistentStateID + db.buffer.layers = id

/-- The states at the start. -/
def start (db : Database) (root : Hash) :
    States := Function.update (fun _ => none) root (some db.content)

variable [Keccak] {db : Database} {st : States} {base : Nat} {d : DiskLayer}
    {root parentRoot r : Hash}
  {block : UInt64} {nodes : NodeMap} {depth : Nat}

/-! ## one call -/

theorem trieRootHash_idem (h : Hash) : trieRootHash (trieRootHash h) = trieRootHash h := by
  unfold trieRootHash
  grind

theorem get_trieRootHash (db : Database) (root : Hash) :
    db.get (trieRootHash root) = db.get root := by
  unfold get
  rw [trieRootHash_idem]

/-- What `add` does when it succeeds. -/
theorem add_ok {db1 : Database} (h : db.add root parentRoot block nodes = (.ok (), db1)) :
    ∃ parent q, db.layers.lookup (trieRootHash parentRoot) = some parent ∧
      db.heap[parent]? = some q ∧ db1 = { db with
        heap := db.heap ++ [.diff ⟨trieRootHash root, q.stateID + 1, block, nodes, parent⟩]
        layers := db.layers.insert (trieRootHash root) db.heap.length } := by
  simp only [add, get_trieRootHash, alloc] at h
  split at h
  · cases h
  · split at h
    · cases h
    next parent hparent =>
      split at h
      · cases h
      next q hq =>
        cases h
        exact ⟨parent, q, hparent, hq, rfl⟩

/-- A call that fails in `add` does nothing. -/
theorem add_error {e : PathError} {db1 : Database}
    (h : db.add root parentRoot block nodes = (.error e, db1)) :
    db1 = db := by
  simp only [add, alloc] at h
  grind

/-- Capping a tree that is not too deep. -/
theorem cap_of_none {ptr layers : Nat} {head : DiffLayer} (hget : db.get root = some ptr)
    (hptr : db.heap[ptr]? = some (.diff head)) (hpos : layers ≠ 0)
    (hnone : db.flattened ptr head layers = none) :
    db.cap root layers = (.ok (), db) := by
  simp [cap, get_trieRootHash, hget, hptr, if_neg hpos, hnone]

/-- A layer that is not in the tree is not stale. -/
theorem get_of_stale {owner : Hash} {path : Hex} {want : Hash}
    (h : (db.readNode root owner path want).1 = .error .stale) : db.get root ≠ none := by
  intro hget
  simp [readNode, hget] at h

/-- **The tree is capped** at the depth that it had. -/
theorem cap_spec (h : Tree blobs db st (depth + 1) base d) (hpos : 0 < depth) {ptr : Nat}
    {head : DiffLayer} (hroot : db.layers.lookup (trieRootHash root) = some ptr)
    (hptr : db.heap[ptr]? = some (.diff head))
    (hothers : ∀ r q k, db.layers.lookup r = some q → db.heap[q]? = some (.diff k) → q ≠ ptr →
      k.id ≤ d.id + depth)
    (hfork : ∀ p l, db.flattened ptr head depth = some (p, l) → db.onlyChild p l = true) :
    ∃ base' d', Tree blobs (db.cap root depth).2 st depth base' d' := by
  obtain ⟨hheadRoot, -⟩ := h.diff hroot hptr
  have hhead : db.layers.lookup head.root = some ptr := by rw [hheadRoot, hroot]
  have hget : db.get root = some ptr := hroot
  obtain ⟨hle, hnone⟩ | ⟨p, l, l1, -, hflat, hp, hl, hl1, hroot1, hbase1⟩ :=
    h.flattened_spec hpos hhead hptr
  · -- no way is too long
    rw [cap_of_none hget hptr hpos.ne' hnone]
    refine ⟨base, d, h.shrink fun r q k hr hk => ?_⟩
    by_cases hqp : q = ptr
    · rw [hqp, hptr] at hk
      cases hk
      exact hle
    · exact hothers r q k hr hk hqp
  · simp only [cap, get_trieRootHash, hget, hptr, if_neg hpos.ne', hflat]
    obtain ⟨-, hon1, -⟩ := h.diff hroot1 hl1
    obtain ⟨hid1, -⟩ := h.on_base hon1 hbase1
    obtain ⟨db', hcommit, hmerged⟩ :=
      commitDisk_spec h.sound base d l1 hon1.nodes h.aligned hid1 false
    rw [persist_bottom hl1 (by rw [hbase1, h.disk]), hbase1, hcommit]
    dsimp only
    rw [hmerged.persisted.heap]
    have honly := hfork p l hflat
    refine ⟨_, _, Tree.flatten h hl hl1 hroot1 (hmerged.rewired hl h.disk) hp hbase1 ?_⟩
    intro r q k hr hk hparent
    simp only [onlyChild, all_eq_true] at honly
    simpa [hk, hparent] using (honly ⟨r, q⟩ (mem_lookup_iff.mp hr))

/-- **A commit** leaves the disk layer of the committed state only. -/
theorem commit_tree (h : Tree blobs db st depth base d) (root : Hash) :
    ∃ base' d', Tree blobs (db.commit root).2 st depth base' d' := by
  unfold commit
  split
  · exact ⟨base, d, h⟩
  · simp only [cap, get_trieRootHash]
    cases hroot : db.get root with
    | none => exact ⟨base, d, h⟩
    | some ptr =>
      dsimp only
      split
      next head hptr =>
        obtain ⟨s, hs⟩ := h.state hroot
        have hlt := h.pointer_lt hroot
        obtain ⟨b, db', hpersist, -, hdone⟩ := persist_spec h true hroot hptr
          (show ptr + 2 ≤ db.heap.length + 1 by omega) hs
        obtain ⟨hheadRoot, -⟩ := h.diff hroot hptr
        rw [hpersist]
        dsimp only
        rw [hdone.heap]
        have hst : st head.root = some db'.content := by rw [hheadRoot, hs, hdone.content]
        exact ⟨b, ⟨head.root, head.id, false⟩,
          .single depth { hdone.sound with } hdone.heap rfl rfl hst hdone.aligned⟩
      · exact ⟨base, d, h⟩

/-- A call changes the state of its new root at most. -/
theorem track_cases (op : Op) (st : States) (r : Hash) :
    op.track st r = st r ∨ op.newRoot? = some r := by
  cases op with
  | update root parentRoot block nodes =>
    by_cases hr : r = trieRootHash root
    · exact .inr (by rw [hr]; rfl)
    · cases hs : st (trieRootHash parentRoot) with
      | none => exact .inl (by simp [Op.track, hs])
      | some s => exact .inl (by simp [Op.track, hs, update_of_ne hr])
  | _ => exact .inl rfl

theorem track_mono (op : Op) (hfresh : ∀ r, op.newRoot? = some r → st r = none) {s : Nodes}
    (hs : st r = some s) :
    op.track st r = some s := by
  obtain hsame | hnew := track_cases op st r
  · rw [hsame, hs]
  · simp [hfresh r hnew] at hs

/-- The layers that were there before one was added are not above the depth that the tree had. -/
theorem added_le (h : Tree blobs db st depth base d) {l : Layer} {p : Nat} {k : DiffLayer}
    (hr : (db.layers.insert root db.heap.length).lookup r = some p)
    (hk : (db.heap ++ [l])[p]? = some (.diff k))
    (hp : p ≠ db.heap.length) : k.id ≤ d.id + depth := by
  obtain ⟨-, heq⟩ | hr := lookup_insert_cases hr
  · exact absurd heq hp
  · rw [getElem?_append_left (h.pointer_lt hr)] at hk
    exact (h.diff hr hk).2.2.2.2

/-- **An update** keeps the tree in order. -/
theorem update_tree (h : Tree blobs db st maxDiffLayers base d) (hnodes : nodes.OK blobs)
    (hfresh : st (trieRootHash root) = none)
    (hfork : db.unforked (.update root parentRoot block nodes) = true) :
    ∃ base' d', Tree blobs (db.update root parentRoot block nodes).2
      ((Op.update root parentRoot block nodes).track st) maxDiffLayers base' d' := by
  have hmono := h.mono fun r s hs => track_mono (.update root parentRoot block nodes)
    (by rintro _ ⟨⟩; exact hfresh) hs
  unfold update
  split
  · exact ⟨base, d, hmono⟩
  · cases hadd : db.add root parentRoot block nodes with
    | mk result db1 =>
      cases result with
      | error e =>
        rw [add_error hadd]
        exact ⟨base, d, hmono⟩
      | ok =>
        obtain ⟨parent, q, hparent, hq, rfl⟩ := add_ok hadd
        obtain ⟨s, hs⟩ := h.state hparent
        have htree := h.insert hnodes block hfresh hparent hq hs
        have hheap := getElem?_concat_length (l := db.heap)
          (a := .diff ⟨trieRootHash root, q.stateID + 1, block, nodes, parent⟩)
        simp only [Op.track, hs]
        refine cap_spec htree (by decide) (lookup_insert _) hheap ?_ ?_
        · exact fun r p k hr hk hp => added_le h hr hk hp
        · intro p l hflat
          simpa only [unforked, hadd, get, lookup_insert, hheap, hflat] using hfork

/-- **One call** keeps the tree in order. -/
theorem step_tree (h : Tree blobs db st maxDiffLayers base d) (hop : op.OK blobs)
    (hfresh : ∀ r, op.newRoot? = some r → st r = none) (hfork : db.unforked op = true) :
    ∃ base' d', Tree blobs (db.step op) (op.track st) maxDiffLayers base' d' := by
  cases op with
  | update root parentRoot block nodes => exact update_tree h hop (hfresh _ rfl) hfork
  | commit root => exact commit_tree h root
  | read root owner path want =>
    refine ⟨base, d, h.readOnly ?_⟩
    show ReadOnly blobs db (db.readNode root owner path want).2
    unfold readNode
    split
    · exact .refl h.sound
    · exact nodeAt_readOnly h.sound ..
  | evict keep =>
    refine ⟨base, d, h.readOnly ⟨rfl, h.sound.buffer, h.sound.disk, ?_⟩⟩
    intro cache hcache key blob hblob
    obtain ⟨old, hold, rfl⟩ := Option.map_eq_some_iff.mp hcache
    have hkept : old key = some blob := by grind
    exact h.sound.cleans old hold key blob hkept

/-! ## runs of calls -/

theorem Fresh.tree {id : Nat} (h : Fresh blobs db root id) :
    Tree blobs db (db.start root) maxDiffLayers 0 ⟨root, id, false⟩ :=
  .single maxDiffLayers h.sound (by rw [h.heap]; rfl) rfl h.layers (update_self ..) h.aligned

/-- Roots that are different from those in use are fresh. -/
theorem fresh_step (hused : ∀ r, st r ≠ none → r ∈ used)
    (hroots : (used ++ (op :: ops).filterMap Op.newRoot?).Nodup) :
    (∀ r, op.newRoot? = some r → st r = none) ∧
    (∀ r, op.track st r ≠ none → r ∈ used ++ op.newRoot?.toList) ∧
      ((used ++ op.newRoot?.toList) ++ ops.filterMap Op.newRoot?).Nodup := by
  refine ⟨fun r hr => ?_, fun r hr => ?_, ?_⟩
  · by_contra hne
    rw [filterMap_cons_some hr] at hroots
    exact disjoint_of_nodup_append hroots (hused r hne) mem_cons_self
  · obtain hold | hnew := track_cases op st r
    · exact mem_append_left _ (hused r (hold ▸ hr))
    · exact mem_append_right _ (by rw [hnew]; exact mem_singleton_self r)
  · cases hnew : op.newRoot? <;> simp_all

/-- **A run** keeps the tree in order; `used` are the roots that were made before. -/
theorem run_tree (h : Tree blobs db st maxDiffLayers base d) (hused : ∀ r, st r ≠ none → r ∈ used)
    (hops : ∀ op ∈ ops, op.OK blobs) (hroots : (used ++ ops.filterMap Op.newRoot?).Nodup)
    (hfork : db.unforkedRun ops = true) :
    ∃ base' d', Tree blobs (ops.foldl step db) (ops.foldl Op.track st) maxDiffLayers base' d' := by
  induction ops generalizing db st base d used with
  | nil => exact ⟨base, d, h⟩
  | cons op ops ih =>
    rw [unforkedRun, Bool.and_eq_true] at hfork
    obtain ⟨hfresh, hused', hroots'⟩ := fresh_step hused hroots
    obtain ⟨base', d', htree⟩ := step_tree h (hops op mem_cons_self) hfresh hfork.1
    exact ih htree hused' (fun o ho => hops o (mem_cons_of_mem _ ho)) hroots' hfork.2

omit [Keccak] in
/-- The only root at the start. -/
theorem start_used (hr : db.start root r ≠ none) : r ∈ [root] := by
  by_contra hne
  rw [mem_singleton] at hne
  exact hr (update_of_ne hne ..)

end Database

/-- **Every state that the database keeps is readable**, when a layer is only merged into the disk
layer while it has one child. -/
theorem readable_of_unforked [Keccak] {blobs : Set Bytes} (hinj : Set.InjOn Keccak.hash blobs)
    {db : Database} {root : Hash}
    {id : Nat} (hstart : db.Fresh blobs root id) {ops : List Op} (hops : ∀ op ∈ ops, op.OK blobs)
    (hroots : (root :: ops.filterMap Op.newRoot?).Nodup)
    (hfork : db.unforkedRun ops = true) {r : Hash}
    (hr : (ops.foldl Database.step db).get r ≠ none) :
    ∃ s, ops.foldl Op.track (db.start root) (trieRootHash r) = some s ∧
      ∀ owner path blob, s (owner, path) = some blob →
        ((ops.foldl Database.step db).readNode r owner path (Keccak.hash blob)).1 = .ok blob := by
  obtain ⟨base, d, htree⟩ :=
    Database.run_tree hstart.tree (fun _ => Database.start_used) hops hroots hfork
  obtain ⟨p, hp⟩ := Option.ne_none_iff_exists'.mp hr
  obtain ⟨s, hs⟩ := htree.state hp
  refine ⟨s, hs, fun owner path blob hblob => ?_⟩
  have hlt := htree.pointer_lt hp
  rw [Database.readNode, hp]
  exact Database.nodeAt_spec hinj htree hp (.inr (by omega)) (Nat.succ_pos _) hs hblob

def sampleRoot (k : Nat) : Hash := Hash.ofHead (byte k)

/-- A disk layer with one node. -/
def sampleDatabase : Database where
  readOnly := false
  heap := [.disk ⟨sampleRoot 200, 0, false⟩]
  layers := (∅ : GoMap Hash Nat).insert (sampleRoot 200) 0
  buffer := ⟨0, 0, 0, ∅⟩
  cleans := none
  disk := ⟨fun owner path => if owner = Hash.zero ∧ path = [] then some [1] else none, 0,
    fun _ => none⟩

theorem fresh_sampleDatabase [Keccak] (h : [1] ∈ blobs) :
    sampleDatabase.Fresh blobs (sampleRoot 200) 0 := by
  refine ⟨⟨ok_empty, fun owner path blob hblob => ?_, fun cache hcache => by cases hcache⟩,
    rfl, rfl, rfl⟩
  change (if owner = Hash.zero ∧ path = [] then some [1] else none) = some blob at hblob
  grind

/-- One node of the account trie. -/
def oneNode [Keccak] (path : Hex) (blob : Bytes) : NodeMap :=
  (∅ : NodeMap).insert Hash.zero ((∅ : GoMap Hex TrieNode).insert path ⟨Keccak.hash blob, blob⟩)

theorem ok_oneNode [Keccak] {path : Hex} {blob : Bytes} (h : blob ∈ blobs) :
    (oneNode path blob).OK blobs := by
  intro owner p n hn _
  rw [oneNode, node_insert] at hn
  split at hn
  · obtain ⟨-, rfl⟩ | hn := lookup_insert_cases hn
    · exact ⟨rfl, h⟩
    · cases hn
  · cases hn

/-- Two children of a layer, which write different nodes, a read, and a commit of one of them. -/
def sampleCalls [Keccak] : List Op :=
  [.update (sampleRoot 1) (sampleRoot 200) 0 (oneNode [4] [2]),
    .update (sampleRoot 2) (sampleRoot 1) 0 (oneNode [] [3]),
    .update (sampleRoot 3) (sampleRoot 1) 0 (oneNode [4] [3]),
    .read (sampleRoot 3) Hash.zero [] Hash.zero, .commit (sampleRoot 2)]

def sampleBlobs : Set Bytes := {blob | blob ∈ [[1], [2], [3]]}

theorem injOn_sampleBlobs : Set.InjOn (@Keccak.hash Keccak.wide) sampleBlobs :=
  (by decide +kernel : ∀ x ∈ [[1], [2], [3]], ∀ y ∈ [[1], [2], [3]],
    @Keccak.hash Keccak.wide x = @Keccak.hash Keccak.wide y → x = y)

theorem get_sampleCalls :
    letI := Keccak.wide
    (sampleCalls.foldl step sampleDatabase).get (sampleRoot 2) ≠ none := by
  decide +kernel

theorem ok_sampleCalls [Keccak] : ∀ op ∈ sampleCalls, op.OK sampleBlobs := by
  simp [sampleCalls, Op.OK, ok_oneNode, sampleBlobs]

theorem readable_of_unforked_sample :
    letI := Keccak.wide
    (sampleCalls.foldl Database.step sampleDatabase).get (sampleRoot 2) ≠ none ∧
      ∃ s, sampleCalls.foldl Op.track (sampleDatabase.start (sampleRoot 200))
          (trieRootHash (sampleRoot 2)) = some s ∧
        ∀ owner path blob, s (owner, path) = some blob →
          ((sampleCalls.foldl Database.step sampleDatabase).readNode (sampleRoot 2) owner path
            (Keccak.hash blob)).1 = .ok blob :=
  ⟨get_sampleCalls, @readable_of_unforked Keccak.wide sampleBlobs injOn_sampleBlobs _ _ _
    (@fresh_sampleDatabase _ Keccak.wide (by simp [sampleBlobs])) _ (@ok_sampleCalls Keccak.wide)
    (by decide +kernel) (by decide +kernel) _ get_sampleCalls⟩

/-! ## shallow trees -/

namespace Database

/-- Whether an update adds a layer that is not too far above the disk layer with this `id`. -/
def shallow [Keccak] (db : Database) (id : Nat) : Op → Bool
  | .update root parentRoot block nodes =>
    match db.add root parentRoot block nodes with
    | (.error _, _) => false
    | (.ok (), db) => !db.readOnly && db.heap.getLast?.all fun l => l.stateID ≤ id + maxDiffLayers
  | _ => false

/-- The layer that an update adds. -/
def grow [Keccak] (db : Database) : Op → Database
  | .update root parentRoot block nodes => (db.add root parentRoot block nodes).2
  | _ => db

/-- Whether this holds of all calls of a run. -/
def shallowRun [Keccak] (id : Nat) : Database → List Op → Bool
  | _, [] => true
  | db, op :: ops => db.shallow id op && shallowRun id (db.grow op) ops

variable [Keccak] {db : Database} {st : States} {base : Nat} {d : DiskLayer}

/-- While the tree is shallow, an update adds a layer and does nothing else. -/
theorem step_shallow (h : Tree blobs db st maxDiffLayers base d) (hop : op.OK blobs)
    (hfresh : ∀ r, op.newRoot? = some r → st r = none) (hshallow : db.shallow d.id op = true) :
    db.step op = db.grow op ∧ Tree blobs (db.step op) (op.track st) maxDiffLayers base d := by
  cases op with
  | update root parentRoot block nodes =>
    unfold shallow at hshallow
    cases hadd : db.add root parentRoot block nodes with
    | mk result db1 =>
      cases result with
      | error e => simp [hadd] at hshallow
      | ok =>
        obtain ⟨parent, q, hparent, hq, rfl⟩ := add_ok hadd
        simp only [hadd, Bool.and_eq_true, Bool.not_eq_true', getLast?_append, getLast?_singleton,
          Option.some_or, Option.all_some, decide_eq_true_eq] at hshallow
        obtain ⟨hwritable, hid⟩ := hshallow
        obtain ⟨s, hs⟩ := h.state hparent
        have htree := h.insert hop block (hfresh _ rfl) hparent hq hs
        have hheap := getElem?_concat_length (l := db.heap)
          (a := .diff ⟨trieRootHash root, q.stateID + 1, block, nodes, parent⟩)
        have hnone := (htree.flattened_spec (by decide) (lookup_insert _) hheap).resolve_right (by
          rintro ⟨-, -, -, hlt, -⟩
          exact absurd hid (Nat.not_le_of_lt hlt))
        have hstep : db.step (.update root parentRoot block nodes) =
            db.grow (.update root parentRoot block nodes) := by
          rw [step, grow, update, if_neg (by simp [hwritable]), hadd]
          exact congrArg Prod.snd (cap_of_none (lookup_insert _) hheap (by decide) hnone.2)
        refine ⟨hstep, ?_⟩
        simp only [hstep, grow, hadd, Op.track, hs]
        refine htree.shrink fun r p k hr hk => ?_
        by_cases hp : p = db.heap.length
        · rw [hp, hheap] at hk
          cases hk
          exact hid
        · exact added_le h hr hk hp
  | _ => cases hshallow

/-- A run in which the tree stays shallow only adds layers. -/
theorem run_shallow (h : Tree blobs db st maxDiffLayers base d)
    (hused : ∀ r, st r ≠ none → r ∈ used)
    (hops : ∀ op ∈ ops, op.OK blobs) (hroots : (used ++ ops.filterMap Op.newRoot?).Nodup)
    (hshallow : shallowRun d.id db ops = true) : ops.foldl step db = ops.foldl grow db := by
  induction ops generalizing db st used with
  | nil => rfl
  | cons op ops ih =>
    rw [shallowRun, Bool.and_eq_true] at hshallow
    obtain ⟨hfresh, hused', hroots'⟩ := fresh_step hused hroots
    obtain ⟨hstep, htree⟩ := step_shallow h (hops op mem_cons_self) hfresh hshallow.1
    rw [hstep] at htree
    rw [foldl_cons, hstep]
    exact ih htree hused' (fun o ho => hops o (mem_cons_of_mem _ ho)) hroots' hshallow.2

end Database

/-! ## two children of a merged layer -/

/-- A layer, two children of it, and as many layers above the second child as can stay. -/
def siblings : List Op :=
  .update (sampleRoot 1) (sampleRoot 200) 0 ∅ :: .update (sampleRoot 201) (sampleRoot 1) 0 ∅ ::
    (List.range 127).map fun k => .update (sampleRoot (k + 2)) (sampleRoot (k + 1)) 0 ∅

/-- One more layer: the layer with the two children is merged. -/
def siblingsMerged : List Op := siblings ++ [.update (sampleRoot 129) (sampleRoot 128) 0 ∅]

theorem ok_siblingsMerged [Keccak] : ∀ op ∈ siblingsMerged, op.OK blobs := by
  intro op hop
  simp only [siblingsMerged, siblings, cons_append, mem_cons, mem_append, mem_map, not_mem_nil,
    or_false] at hop
  obtain rfl | rfl | ⟨k, -, rfl⟩ | rfl := hop <;> exact ok_empty

theorem nodup_siblingsMerged :
    (sampleRoot 200 :: siblingsMerged.filterMap (@Op.newRoot? Keccak.wide)).Nodup :=
  .of_map (fun h => (h.bytes.headD 0).toNat) (by decide +kernel)

theorem track_siblingsMerged :
    letI := Keccak.wide
    (siblingsMerged.foldl Op.track (sampleDatabase.start (sampleRoot 200))
      (trieRootHash (sampleRoot 201))).bind
      (fun s => s (Hash.zero, [])) = some [1] := by
  decide +kernel

theorem shallowRun_siblings : @shallowRun Keccak.wide 0 sampleDatabase siblings = true := by
  decide +kernel

theorem readNode_grow :
    letI := Keccak.wide
    (((siblings.foldl grow sampleDatabase).step
      (.update (sampleRoot 129) (sampleRoot 128) 0 ∅)).readNode
      (sampleRoot 201) Hash.zero [] (Keccak.hash [1])).1 = .error .stale := by
  decide +kernel

theorem readNode_siblingsMerged :
    letI := Keccak.wide
    ((siblingsMerged.foldl step sampleDatabase).readNode (sampleRoot 201) Hash.zero []
      (Keccak.hash [1])).1 =
      .error .stale := by
  let := Keccak.wide
  have hnodup := nodup_siblingsMerged
  have hgrow := run_shallow (@fresh_sampleDatabase {[1]} Keccak.wide rfl).tree (fun _ => start_used)
    (fun op hop => ok_siblingsMerged op (mem_append_left _ hop))
      (nodup_append.mp hnodup).1 shallowRun_siblings
  rw [siblingsMerged, foldl_append, hgrow]
  exact readNode_grow

/-- **A sibling of a layer that was moved** is in the tree and cannot be read. -/
theorem stale_sibling :
    letI := Keccak.wide
    Set.InjOn Keccak.hash {[1]} ∧ sampleDatabase.Fresh {[1]} (sampleRoot 200) 0 ∧
      (∀ op ∈ siblingsMerged, op.OK {[1]}) ∧
      (sampleRoot 200 :: siblingsMerged.filterMap Op.newRoot?).Nodup ∧
      (siblingsMerged.foldl Op.track (sampleDatabase.start (sampleRoot 200))
        (trieRootHash (sampleRoot 201))).bind
        (fun s => s (Hash.zero, [])) = some [1] ∧
      (siblingsMerged.foldl Database.step sampleDatabase).get (sampleRoot 201) ≠ none ∧
      ((siblingsMerged.foldl Database.step sampleDatabase).readNode (sampleRoot 201) Hash.zero []
        (Keccak.hash [1])).1 =
        .error .stale :=
  ⟨Set.injOn_singleton _ _, @fresh_sampleDatabase _ Keccak.wide rfl,
    @ok_siblingsMerged _ Keccak.wide, nodup_siblingsMerged, track_siblingsMerged,
      @Database.get_of_stale Keccak.wide _ _ _ _ _ readNode_siblingsMerged,
    readNode_siblingsMerged⟩

end GoQrl.PathDb
