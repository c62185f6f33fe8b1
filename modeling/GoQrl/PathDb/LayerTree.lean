import GoQrl.PathDb.Content

/-!
# GoQrl.PathDb.LayerTree

The layer tree of a path database, with the states its roots stand for.

In a tree in order (`Tree`) there is one disk layer, every other layer is a diff layer whose parent
is in the tree under its root, and the nodes of a diff layer lead from the state of the parent to
its own.  Every node of the state of a layer in the tree is read (`nodeAt_spec`).

The tree stays in order when a layer is added (`Tree.insert`), when a layer is committed with all
that are below it (`persist_spec`), and when the bottom-most diff layer is merged into the disk
layer, provided that it has only one child (`Tree.flatten`): `cap` moves only the child on its way
to the new disk layer.
-/

namespace GoQrl.PathDb

open Mpt State Overlay Descend Option AList Database Function
open List hiding after

variable [Keccak] {blobs : Set Bytes}

/-- The states that the roots stand for. -/
abbrev States := Hash → Option Nodes

/-- The diff layer leads from the state of its parent, which is in the tree, to its own. -/
structure OnTree (blobs : Set Bytes) (db : Database) (st : States) (l : DiffLayer) : Prop where
  nodes : l.nodes.OK blobs
  parent : ∃ q s, db.heap[l.parent]? = some q ∧ db.layers.lookup q.rootHash = some l.parent ∧
    l.id = q.stateID + 1 ∧ st q.rootHash = some s ∧ st l.root = some (apply l.nodes.change s)

/-- The tree is in order: `d`, at `base`, is its disk layer, and there are at most `depth` layers
above it on any way. -/
structure Tree (blobs : Set Bytes) (db : Database) (st : States) (depth base : Nat)
    (d : DiskLayer) : Prop where
  sound : Sound blobs db
  disk : db.heap[base]? = some (.disk d)
  live : d.stale = false
  bottom : db.layers.lookup d.root = some base
  only : ∀ r, db.layers.lookup r = some base → r = d.root
  content : st d.root = some db.content
  aligned : db.disk.persistentStateID + db.buffer.layers = d.id
  diffs : ∀ r p, db.layers.lookup r = some p → p ≠ base → ∃ l, db.heap[p]? = some (.diff l) ∧
    l.root = r ∧
    OnTree blobs db st l ∧ (l.parent = base ∨ l.parent < p) ∧ d.id < l.id ∧ l.id ≤ d.id + depth

variable {base depth p q : Nat} {d : DiskLayer} {db db' : Database} {l l₁ : DiffLayer} {r x : Hash}
  {st : States} {s : Nodes}

namespace Tree

/-- A disk layer alone. -/
theorem single (depth : Nat) (hsound : Sound blobs db) (hdisk : db.heap[base]? = some (.disk d))
    (hlive : d.stale = false) (hlayers : db.layers = (∅ : GoMap Hash Nat).insert d.root base)
    (hcontent : st d.root = some db.content)
    (haligned : db.disk.persistentStateID + db.buffer.layers = d.id) :
    Tree blobs db st depth base d := by
  have hlookup : ∀ r p, db.layers.lookup r = some p → r = d.root ∧ p = base := by
    intro r p hr
    rw [hlayers] at hr
    exact (lookup_insert_cases hr).resolve_right nofun
  refine ⟨hsound, hdisk, hlive, ?_, fun r hr => (hlookup r base hr).1, hcontent, haligned,
    fun r p hr hp => ?_⟩
  · rw [hlayers]
    exact lookup_insert _
  · exact absurd (hlookup r p hr).2 hp

variable (h : Tree blobs db st depth base d)
include h

/-- Every root in the tree stands for a state. -/
theorem state (hr : db.layers.lookup r = some p) : ∃ s, st r = some s := by
  by_cases hp : p = base
  · rw [h.only r (hp ▸ hr)]
    exact ⟨_, h.content⟩
  · obtain ⟨l, -, rfl, hl, -⟩ := h.diffs r p hr hp
    obtain ⟨-, s, -, -, -, -, hs⟩ := hl.parent
    exact ⟨_, hs⟩

theorem ne_base (hp : db.heap[p]? = some (.diff l)) : p ≠ base := by
  rintro rfl
  simp [h.disk] at hp

/-- What is known of a diff layer of the tree. -/
theorem diff (hr : db.layers.lookup r = some p) (hp : db.heap[p]? = some (.diff l)) :
    l.root = r ∧ OnTree blobs db st l ∧ (l.parent = base ∨ l.parent < p) ∧ d.id < l.id ∧
      l.id ≤ d.id + depth := by
  obtain ⟨l', hl', hrest⟩ := h.diffs r p hr (h.ne_base hp)
  rw [hp] at hl'
  cases hl'
  exact hrest

/-- A diff layer that stands on the disk layer. -/
theorem on_base (hl : OnTree blobs db st l) (hbase : l.parent = base) :
    l.id = d.id + 1 ∧ st l.root = some (apply l.nodes.change db.content) := by
  obtain ⟨q, s, hq, -, hid, hs, hst⟩ := hl.parent
  rw [hbase, h.disk] at hq
  cases hq
  rw [Layer.rootHash, h.content] at hs
  cases hs
  exact ⟨hid, hst⟩

/-- A diff layer that stands on another diff layer. -/
theorem on_diff (hl : OnTree blobs db st l) (hbase : l.parent ≠ base) :
    ∃ q s, db.heap[l.parent]? = some (.diff q) ∧ db.layers.lookup q.root = some l.parent ∧
      l.id = q.id + 1 ∧ st q.root = some s ∧ st l.root = some (apply l.nodes.change s) := by
  obtain ⟨q, s, hq, hroot, hid, hs, hst⟩ := hl.parent
  obtain ⟨q', hq', -⟩ := h.diffs _ _ hroot hbase
  rw [hq] at hq'
  cases hq'
  exact ⟨q', s, hq, hroot, hid, hs, hst⟩

theorem on_base_iff (hl : OnTree blobs db st l) : l.parent = base ↔ l.id = d.id + 1 := by
  constructor
  · exact fun hbase => (h.on_base hl hbase).1
  · intro hid
    by_contra hbase
    obtain ⟨q, -, hq, hroot, hid', -⟩ := h.on_diff hl hbase
    obtain ⟨-, -, -, hlt, -⟩ := h.diff hroot hq
    omega

/-- More states may be known. -/
theorem mono {st' : States} (hst : ∀ r s, st r = some s → st' r = some s) :
    Tree blobs db st' depth base d := by
  refine { h with content := hst _ _ h.content, diffs := fun r p hr hp => ?_ }
  obtain ⟨l, hl, hroot, ⟨hnodes, q, s, hq, hlookup, hid, hs, hs'⟩, hrest⟩ := h.diffs r p hr hp
  exact ⟨l, hl, hroot, ⟨hnodes, q, s, hq, hlookup, hid, hst _ _ hs, hst _ _ hs'⟩, hrest⟩

/-- The tree is as deep as its layers are. -/
theorem shrink {depth' : Nat}
    (hle : ∀ r q k, db.layers.lookup r = some q → db.heap[q]? = some (.diff k) →
      k.id ≤ d.id + depth') :
    Tree blobs db st depth' base d := by
  refine { h with diffs := fun r q hr hq => ?_ }
  obtain ⟨k, hk, hroot, hon, hbelow, hlt, -⟩ := h.diffs r q hr hq
  exact ⟨k, hk, hroot, hon, hbelow, hlt, hle r q k hr hk⟩

/-- The clean cache does not matter. -/
theorem readOnly (hdb : ReadOnly blobs db db') : Tree blobs db' st depth base d := by
  obtain ⟨hframe, hsound⟩ := hdb
  rw [hframe] at hsound ⊢
  refine { h with sound := hsound, diffs := fun r p hr hp => ?_ }
  obtain ⟨l, hl, hroot, ⟨hnodes, hparent⟩, hrest⟩ := h.diffs r p hr hp
  exact ⟨l, hl, hroot, ⟨hnodes, hparent⟩, hrest⟩

end Tree

/-! ## reading -/

namespace Database

theorem nodeAt_readOnly (h : Sound blobs db) (fuel p : Nat) (owner : Hash) (path : Hex)
    (want : Hash) :
    ReadOnly blobs db (nodeAt fuel db p owner path want).2 := by
  induction fuel generalizing p with
  | zero => exact .refl h
  | succ fuel ih =>
    unfold nodeAt
    split
    · exact .refl h
    · exact diskNode_readOnly h ..
    · split
      · split <;> exact .refl h
      · exact ih _

/-- **Reading**: a layer of the tree gives every node of its state. -/
theorem nodeAt_spec (hinj : Set.InjOn Keccak.hash blobs) (h : Tree blobs db st depth base d)
    {fuel : Nat}
    (hr : db.layers.lookup r = some p) (hfuel : p = base ∨ p + 2 ≤ fuel) (hpos : 0 < fuel)
    (hs : st r = some s)
    {owner : Hash} {path : Hex} {blob : Bytes} (hblob : s (owner, path) = some blob) :
    (nodeAt fuel db p owner path (Keccak.hash blob)).1 = .ok blob := by
  induction fuel generalizing p r s with
  | zero => omega
  | succ fuel ih =>
    unfold nodeAt
    by_cases hp : p = base
    · subst hp
      rw [h.only r hr, h.content] at hs
      cases hs
      rw [h.disk]
      exact diskNode_spec h.sound hinj h.live hblob
    · obtain ⟨l, hl, rfl, hon, hbelow, -⟩ := h.diffs r p hr hp
      obtain ⟨q, s', -, hroot, -, hs', hst⟩ := hon.parent
      rw [hs] at hst
      cases hst
      simp only [hl]
      cases hn : l.nodes.node owner path with
      | some n =>
        simp only [apply, NodeMap.change, hn, map_some, getD_some] at hblob
        split at hblob
        · cases hblob
        next hkept =>
          cases hblob
          simp [(hon.nodes owner path n hn (by simpa using hkept)).1]
      | none =>
        simp only [apply, NodeMap.change, hn, map_none, getD_none] at hblob
        refine ih hroot ?_ ?_ hs' hblob
        · omega
        · omega

/-! ## merging a diff layer into the disk layer -/

/-- What `diskLayer.commit` does. -/
structure Merged (blobs : Set Bytes) (db db' : Database) (ptr : Nat) (dl : DiskLayer)
    (bottom : DiffLayer) : Prop where
  readOnly : db'.readOnly = db.readOnly
  heap : db'.heap = db.heap.set ptr (.disk { dl with stale := true }) ++
    [.disk ⟨bottom.root, bottom.id, false⟩]
  layers : db'.layers = db.layers
  content : db'.content = apply bottom.nodes.change db.content
  aligned : db'.disk.persistentStateID + db'.buffer.layers = bottom.id
  sound : Sound blobs db'

theorem commitDisk_spec (h : Sound blobs db) (ptr : Nat) (dl : DiskLayer) (bottom : DiffLayer)
    (hnodes : bottom.nodes.OK blobs)
    (haligned : db.disk.persistentStateID + db.buffer.layers = dl.id) (hid : bottom.id = dl.id + 1)
    (force : Bool) :
    ∃ db', db.commitDisk ptr dl bottom force = (.ok db.heap.length, db') ∧
      Merged blobs db db' ptr dl bottom := by
  -- the buffer takes the nodes, and the identifiers of the states are not read
  obtain ⟨ids, hids⟩ : ∃ ids,
    (if dl.id = 0 then (db.setLayer ptr (.disk { dl with stale := true })).writeStateID dl.root 0
      else db.setLayer ptr (.disk { dl with stale := true })).writeStateID bottom.root bottom.id =
        { db with
          heap := db.heap.set ptr (.disk { dl with stale := true })
          disk := { db.disk with stateIDs := ids } } := by
    split <;> exact ⟨_, rfl⟩
  let mid : Database :=
    { db with
      heap := db.heap.set ptr (.disk { dl with stale := true }) ++
        [.disk ⟨bottom.root, bottom.id, false⟩]
      disk := { db.disk with stateIDs := ids }
      buffer := db.buffer.commit bottom.nodes }
  have hmid : Sound blobs mid := ⟨db.buffer.commit_ok h.buffer hnodes, h.disk, h.cleans⟩
  have hmidAligned : mid.disk.persistentStateID + mid.buffer.layers = bottom.id := by
    show db.disk.persistentStateID + (db.buffer.commit bottom.nodes).layers = bottom.id
    rw [NodeBuffer.commit_layers]
    omega
  obtain ⟨db', hflush, hflushed⟩ := flush_spec hmid hmidAligned force
  refine ⟨db', ?_, { hflushed with content := ?_ }⟩
  · simp only [mid] at hflush
    simp [commitDisk, hids, alloc, hflush]
  · rw [hflushed.content]
    show apply (db.buffer.commit bottom.nodes).nodes.change _ = _
    rw [NodeBuffer.commit_change, apply_after]
    rfl

omit [Keccak] in
/-- Persisting a layer that stands on a disk layer. -/
theorem persist_bottom {dl : DiskLayer} (hp : db.heap[p]? = some (.diff l))
    (hparent : db.heap[l.parent]? = some (.disk dl)) (fuel : Nat) (force : Bool) :
    persist (fuel + 1) db p force = db.commitDisk l.parent dl l force := by
  simp [persist, hp, hparent, diffToDisk]

/-- What is left when a layer was persisted with all that are below it. -/
structure Persisted (blobs : Set Bytes) (db' : Database) (b : Nat) (root : Hash) (id : Nat)
    (s : Nodes) : Prop where
  heap : db'.heap[b]? = some (.disk ⟨root, id, false⟩)
  content : db'.content = s
  aligned : db'.disk.persistentStateID + db'.buffer.layers = id
  sound : Sound blobs db'

theorem Merged.persisted {ptr : Nat} {dl : DiskLayer} {bottom : DiffLayer}
    (h : Merged blobs db db' ptr dl bottom) :
    Persisted blobs db' db.heap.length bottom.root bottom.id
      (apply bottom.nodes.change db.content) := by
  refine { h with heap := ?_ }
  rw [h.heap, getElem?_append_right (by rw [length_set]), length_set, Nat.sub_self]
  rfl

/-- **Persisting** a layer of the tree makes a disk layer of its state. -/
theorem persist_spec (h : Tree blobs db st depth base d) (force : Bool) {fuel : Nat}
    (hr : db.layers.lookup r = some p) (hp : db.heap[p]? = some (.diff l)) (hfuel : p + 2 ≤ fuel)
    (hs : st r = some s) :
    ∃ b db', persist fuel db p force = (.ok b, db') ∧ db.heap.length ≤ b ∧
      Persisted blobs db' b l.root l.id s := by
  induction fuel generalizing p r l s with
  | zero => omega
  | succ fuel ih =>
    obtain ⟨rfl, hon, hbelow, -⟩ := h.diff hr hp
    by_cases hbase : l.parent = base
    · obtain ⟨hid, hst⟩ := h.on_base hon hbase
      rw [hs] at hst
      cases hst
      obtain ⟨db', hcommit, hmerged⟩ :=
        commitDisk_spec h.sound l.parent d l hon.nodes h.aligned hid force
      exact ⟨db.heap.length, db',
        (persist_bottom hp (by rw [hbase, h.disk]) fuel force).trans hcommit, le_refl _,
        hmerged.persisted⟩
    · obtain ⟨q, s', hq, hroot, hid, hs', hst⟩ := h.on_diff hon hbase
      rw [hs] at hst
      cases hst
      obtain ⟨b, db1, hpersist, hb, hdone⟩ := ih hroot hq (by omega) hs'
      have hlt : p < db.heap.length := index_lt hp
      have hlt' : b < db1.heap.length := index_lt hdone.heap
      -- the layer is moved to the new disk layer before it is merged
      let moved := db1.setLayer p (.diff { l with parent := b })
      have hmoved : moved.heap[b]? = some (.disk ⟨q.root, q.id, false⟩) := by
        show (db1.heap.set p _)[b]? = _
        rw [getElem?_set_ne (by omega), hdone.heap]
      have hsound : Sound blobs moved := { hdone.sound with }
      obtain ⟨db', hcommit, hmerged⟩ :=
        commitDisk_spec hsound b ⟨q.root, q.id, false⟩ { l with parent := b } hon.nodes
        hdone.aligned hid force
      refine ⟨moved.heap.length, db', ?_, ?_, ?_⟩
      · simp only [persist, hp, hq, hpersist, diffToDisk,
          show (db1.setLayer p (.diff { l with parent := b })).heap[b]? =
          some (.disk ⟨q.root, q.id, false⟩) from hmoved]
        exact hcommit
      · show db.heap.length ≤ (db1.heap.set p _).length
        rw [length_set]
        omega
      · have hcontent : moved.content = s' := hdone.content
        rw [← hcontent]
        exact hmerged.persisted

end Database

/-! ## adding a layer -/

namespace Tree

section

variable (h : Tree blobs db st depth base d)
include h

theorem pointer_lt (hr : db.layers.lookup r = some p) : p < db.heap.length := by
  by_cases hp : p = base
  · subst hp
    exact index_lt h.disk
  · obtain ⟨l, hl, -⟩ := h.diffs r p hr hp
    exact index_lt hl

/-- The layer that `add` makes. -/
theorem insert {root parentRoot : Hash} {parent : Nat} {q : Layer}
    {nodes : NodeMap} (hnodes : nodes.OK blobs) (block : UInt64) (hfresh : st root = none)
    (hparent : db.layers.lookup parentRoot = some parent) (hq : db.heap[parent]? = some q)
    (hs : st parentRoot = some s) :
    Tree blobs { db with
        heap := db.heap ++ [.diff ⟨root, q.stateID + 1, block, nodes, parent⟩]
        layers := db.layers.insert root db.heap.length }
      (update st root (some (apply nodes.change s))) (depth + 1) base d := by
  have hne : ∀ {r p}, db.layers.lookup r = some p → r ≠ root := by
    rintro r p hr rfl
    obtain ⟨s, hs⟩ := h.state hr
    simp [hfresh] at hs
  have hkeep : ∀ {r p}, db.layers.lookup r = some p →
      (db.layers.insert root db.heap.length).lookup r = some p :=
    fun hr => (lookup_insert_ne (hne hr)).trans hr
  have hold : ∀ {p : Nat} {x : Layer}, db.heap[p]? = some x →
      (db.heap ++ [Layer.diff ⟨root, q.stateID + 1, block, nodes, parent⟩])[p]? = some x := by
    intro p x hx
    rw [getElem?_append_left (index_lt hx), hx]
  have hst : ∀ r s', st r = some s' → update st root (some (apply nodes.change s)) r = some s' := by
    rintro r s' hs'
    rw [update_of_ne (by rintro rfl; rw [hfresh] at hs'; cases hs'), hs']
  have hbaseLt : base < db.heap.length := h.pointer_lt h.bottom
  refine ⟨{ h.sound with }, hold h.disk, h.live, hkeep h.bottom, ?_, hst _ _ h.content,
    h.aligned, ?_⟩
  · intro r hr
    obtain ⟨-, hbase⟩ | hr := lookup_insert_cases hr
    · omega
    · exact h.only r hr
  · intro r p hr hp
    obtain ⟨rfl, rfl⟩ | hr := lookup_insert_cases hr
    · -- the new layer
      have hq' : parent = base ∧ q = .disk d ∨ ∃ l, q = .diff l ∧ l.root = parentRoot ∧
          d.id < l.id ∧ l.id ≤ d.id + depth := by
        by_cases hbase : parent = base
        · subst hbase
          rw [h.disk] at hq
          cases hq
          exact .inl ⟨rfl, rfl⟩
        · obtain ⟨l, hl, hroot, -, -, hids⟩ := h.diffs _ _ hparent hbase
          rw [hq] at hl
          cases hl
          exact .inr ⟨l, rfl, hroot, hids⟩
      have hroot : q.rootHash = parentRoot := by
        obtain ⟨rfl, rfl⟩ | ⟨l, rfl, hroot, -⟩ := hq'
        · exact (h.only _ hparent).symm
        · exact hroot
      have hid : d.id ≤ q.stateID ∧ q.stateID ≤ d.id + depth := by
        obtain ⟨-, rfl⟩ | ⟨l, rfl, -, hlt, hle⟩ := hq'
        · exact ⟨le_refl _, Nat.le_add_right _ _⟩
        · exact ⟨hlt.le, hle⟩
      refine ⟨_, getElem?_concat_length, rfl, ⟨hnodes, q, s, hold hq, ?_, rfl, ?_, update_self ..⟩,
        .inr (h.pointer_lt hparent), ?_, ?_⟩
      · rw [hroot]
        exact hkeep hparent
      · rw [hroot]
        exact hst _ _ hs
      · exact Nat.lt_succ_of_le hid.1
      · exact Nat.succ_le_succ hid.2
    · obtain ⟨l, hl, hroot, ⟨hok, q', s', hq', hlookup, hid, hs', hst'⟩, hbelow, hlt, hle⟩ :=
        h.diffs r p hr hp
      exact ⟨l, hold hl, hroot,
        ⟨hok, q', s', hold hq', hkeep hlookup, hid, hst _ _ hs', hst _ _ hst'⟩, hbelow, hlt,
        by omega⟩

/-! ## the layer that is merged -/

/-- Diving below a layer of the tree ends at the disk layer. -/
theorem dive_spec {n : Nat} (hr : db.layers.lookup l.root = some p)
    (hp : db.heap[p]? = some (.diff l)) :
    (l.id ≤ d.id + n → db.dive n p l = none) ∧
      (d.id + n < l.id → ∃ p' l', db.dive n p l = some (p', l') ∧
        db.layers.lookup l'.root = some p' ∧
        db.heap[p']? = some (.diff l') ∧ l'.id + n = l.id) := by
  obtain ⟨-, hon, -, hlt, -⟩ := h.diff hr hp
  induction n generalizing p l with
  | zero => exact ⟨fun hle => absurd hle (by omega), fun _ => ⟨p, l, rfl, hr, hp, rfl⟩⟩
  | succ n ih =>
    by_cases hbase : l.parent = base
    · obtain ⟨hid, -⟩ := h.on_base hon hbase
      refine ⟨fun _ => ?_, fun hlt => absurd hlt (by omega)⟩
      simp [dive, hbase, h.disk]
    · obtain ⟨q, -, hq, hroot, hid, -⟩ := h.on_diff hon hbase
      obtain ⟨-, hon', -, hlt', -⟩ := h.diff hroot hq
      obtain ⟨hnone, hsome⟩ := ih hroot hq hon' hlt'
      simp only [dive, hq]
      refine ⟨fun hle => hnone (by omega), fun hlt => ?_⟩
      obtain ⟨p', l', hdive, hr', hp', hid'⟩ := hsome (by omega)
      exact ⟨p', l', hdive, hr', hp', by omega⟩

end

/-- **The way to the disk layer** is one layer too long at most, and then the bottom-most diff layer
is merged. -/
theorem flattened_spec (h : Tree blobs db st (depth + 1) base d) (hpos : 0 < depth)
    (hr : db.layers.lookup l.root = some p) (hp : db.heap[p]? = some (.diff l)) :
    (l.id ≤ d.id + depth ∧ db.flattened p l depth = none) ∨
      ∃ p' l' l₁, d.id + depth < l.id ∧ db.flattened p l depth = some (p', l') ∧
        db.layers.lookup l'.root = some p' ∧
        db.heap[p']? = some (.diff l') ∧ db.heap[l'.parent]? = some (.diff l₁) ∧
        db.layers.lookup l₁.root = some l'.parent ∧ l₁.parent = base := by
  obtain ⟨-, -, -, hlt, hle⟩ := h.diff hr hp
  obtain ⟨hnone, hsome⟩ := h.dive_spec hr hp
  unfold flattened
  by_cases hshort : l.id ≤ d.id + (depth - 1)
  · exact .inl ⟨by omega, by rw [hnone hshort]⟩
  · obtain ⟨p', l', hdive, hr', hp', hid⟩ := hsome (by omega)
    obtain ⟨-, hon, -, hlt', -⟩ := h.diff hr' hp'
    rw [hdive]
    dsimp only
    by_cases hbase : l'.parent = base
    · obtain ⟨hid', -⟩ := h.on_base hon hbase
      exact .inl ⟨by omega, by rw [hbase, h.disk]⟩
    · obtain ⟨l₁, -, hl₁, hroot, hid', -⟩ := h.on_diff hon hbase
      obtain ⟨-, hon1, -, hlt1, -⟩ := h.diff hroot hl₁
      refine .inr ⟨p', l', l₁, by omega, by rw [hl₁], hr', hp', hl₁, hroot, ?_⟩
      exact (h.on_base_iff hon1).mpr (by omega)

end Tree

/-! ## removing what is stale -/

namespace Database

omit [Keccak] in
theorem mem_children :
    r ∈ db.children x ↔ ∃ p, db.layers.lookup r = some p ∧ db.parentRoot p = some x := by
  simp [children, mem_keys_filter]

omit [Keccak] in
theorem mem_staleRoots :
    r ∈ db.staleRoots ↔ ∃ p, db.layers.lookup r = some p ∧ db.isStale p = true :=
  mem_keys_filter

omit [Keccak] in
theorem lookup_removeStale : db.removeStale.layers.lookup x = some p ↔
      (∀ c ∈ db.staleRoots, ¬Within db.children (db.heap.length + 2) c x) ∧
        db.layers.lookup x = some p :=
  lookup_foldl_eraseBelow (fun a m => lookup_eraseBelow _ a x p m) _ _

/-- The bottom-most diff layer `l₁` was merged into the disk layer, and `l` was moved. -/
structure Rewired (blobs : Set Bytes) (db db' : Database) (base : Nat) (d : DiskLayer) (p : Nat)
    (l l₁ : DiffLayer) : Prop where
  sound : Sound blobs db'
  length : db'.heap.length = db.heap.length + 1
  new : db'.heap[db.heap.length]? = some (.disk ⟨l₁.root, l₁.id, false⟩)
  old : db'.heap[base]? = some (.disk { d with stale := true })
  moved : db'.heap[p]? = some (.diff { l with parent := db.heap.length })
  other : ∀ (q : Nat) x, db.heap[q]? = some x → q ≠ base → q ≠ p → db'.heap[q]? = some x
  layers : db'.layers = db.layers.insert l₁.root db.heap.length
  content : db'.content = apply l₁.nodes.change db.content
  aligned : db'.disk.persistentStateID + db'.buffer.layers = l₁.id

theorem Merged.rewired (h : Merged blobs db db' base d l₁) {x : DiffLayer}
    (hp : db.heap[p]? = some (.diff x)) (hbase : db.heap[base]? = some (.disk d)) :
    Rewired blobs db
      ({ db' with layers := db'.layers.insert l₁.root db.heap.length }.setLayer p
        (.diff { l with parent := db.heap.length }))
      base d p l l₁ := by
  have hplt : p < db.heap.length := index_lt hp
  have hbaseLt : base < db.heap.length := index_lt hbase
  have hne : p ≠ base := by
    rintro rfl
    simp [hp] at hbase
  have hlen : db'.heap.length = db.heap.length + 1 := by
    rw [h.heap, length_append, length_set]
    rfl
  refine ⟨{ h.sound with }, ?_, ?_, ?_, ?_, ?_, ?_, h.content, h.aligned⟩
  · exact (length_set ..).trans hlen
  · show (db'.heap.set p _)[db.heap.length]? = _
    rw [getElem?_set_ne (by omega), h.heap, getElem?_append_right (by rw [length_set]), length_set,
      Nat.sub_self]
    rfl
  · show (db'.heap.set p _)[base]? = _
    rw [getElem?_set_ne hne, h.heap, getElem?_append_left (by rwa [length_set]),
      getElem?_set_self hbaseLt]
  · show (db'.heap.set p _)[p]? = _
    rw [getElem?_set_self (by omega)]
  · intro q x hx hqbase hqp
    show (db'.heap.set p _)[q]? = _
    have hq : q < db.heap.length := index_lt hx
    rw [getElem?_set_ne (Ne.symm hqp), h.heap, getElem?_append_left (by rwa [length_set]),
      getElem?_set_ne (Ne.symm hqbase), hx]
  · show db'.layers.insert _ _ = _
    rw [h.layers]

/-- The layers after the merge. -/
theorem Rewired.lookup (h : Rewired blobs db db' base d p l l₁) : db'.layers.lookup r = some q ↔
      r = l₁.root ∧ q = db.heap.length ∨ r ≠ l₁.root ∧ db.layers.lookup r = some q := by
  rw [h.layers]
  by_cases hr : r = l₁.root
  · subst hr
    simp [eq_comm]
  · simp [hr]

omit [Keccak] in
theorem lookup_removeStale_of_one {root : Hash} (h : ∀ r, r ∈ db.staleRoots ↔ r = root) :
    db.removeStale.layers.lookup r = some q ↔
      ¬Within db.children (db.heap.length + 2) root r ∧ db.layers.lookup r = some q := by
  rw [lookup_removeStale]
  simp [h]

end Database

namespace Tree

/-- No two roots have the same layer. -/
theorem pointer_inj (h : Tree blobs db st depth base d) {r' : Hash}
    (hr : db.layers.lookup r = some q) (hr' : db.layers.lookup r' = some q) : r = r' := by
  by_cases hq : q = base
  · subst hq
    rw [h.only r hr, h.only r' hr']
  · obtain ⟨k, hk, hroot, -⟩ := h.diffs r q hr hq
    obtain ⟨k', hk', hroot', -⟩ := h.diffs r' q hr' hq
    rw [hk] at hk'
    cases hk'
    rw [← hroot, hroot']

variable {k : DiffLayer}

theorem parentRoot_iff (h : Tree blobs db st depth base d) (hr : db.layers.lookup r = some q)
    (hk : db.heap[q]? = some (.diff k)) :
    db.parentRoot q = some x ↔ db.layers.lookup x = some k.parent := by
  obtain ⟨-, ⟨-, y, -, hy, hroot, -⟩, -⟩ := h.diff hr hk
  simp only [parentRoot, hk, hy, map_some, some.injEq]
  constructor
  · rintro rfl
    exact hroot
  · exact fun hx => h.pointer_inj hroot hx

section

variable (h : Tree blobs db st depth base d) (hl : db.heap[p]? = some (.diff l))
  (hl₁ : db.heap[l.parent]? = some (.diff l₁)) (hroot₁ : db.layers.lookup l₁.root = some l.parent)
  (hdb : Database.Rewired blobs db db' base d p l l₁)

include h hl hl₁ hroot₁ hdb

omit hroot₁ in
/-- A layer keeps the root of its parent. -/
theorem parentRoot_rewired (hr : db.layers.lookup r = some q) (hk : db.heap[q]? = some (.diff k)) :
    db'.parentRoot q = db.parentRoot q := by
  by_cases hq : q = p
  · subst hq
    simp [parentRoot, hdb.moved, hdb.new, hl, hl₁, Layer.rootHash]
  · simp only [parentRoot, hk, hdb.other q _ hk (h.ne_base hk) hq]
    by_cases hbase : k.parent = base
    · simp [hbase, hdb.old, h.disk, Layer.rootHash]
    · by_cases hparent : k.parent = p
      · simp [hparent, hdb.moved, hl, Layer.rootHash]
      · obtain ⟨-, ⟨-, y, -, hy, -⟩, -⟩ := h.diff hr hk
        rw [hdb.other _ _ hy hbase hparent, hy]

omit hroot₁ in
theorem mem_children_rewired :
    r ∈ db'.children x ↔ r ≠ l₁.root ∧ ∃ q k, db.layers.lookup r = some q ∧
      db.heap[q]? = some (.diff k) ∧ db.layers.lookup x = some k.parent := by
  rw [mem_children]
  constructor
  · rintro ⟨q, hr, hx⟩
    obtain ⟨rfl, rfl⟩ | ⟨hne, hr⟩ := hdb.lookup.mp hr
    · simp only [parentRoot, hdb.new] at hx
      cases hx
    · by_cases hq : q = base
      · simp only [parentRoot, hq, hdb.old] at hx
        cases hx
      · obtain ⟨k, hk, -⟩ := h.diffs r q hr hq
        rw [parentRoot_rewired h hl hl₁ hdb hr hk] at hx
        exact ⟨hne, q, k, hr, hk, (h.parentRoot_iff hr hk).mp hx⟩
  · rintro ⟨hne, q, k, hr, hk, hx⟩
    refine ⟨q, hdb.lookup.mpr (.inr ⟨hne, hr⟩), ?_⟩
    rw [parentRoot_rewired h hl hl₁ hdb hr hk]
    exact (h.parentRoot_iff hr hk).mpr hx

omit hl in
theorem mem_staleRoots_rewired : r ∈ db'.staleRoots ↔ r = d.root := by
  have hne : d.root ≠ l₁.root := by
    intro heq
    have hbase := h.bottom
    rw [heq, hroot₁] at hbase
    exact h.ne_base hl₁ (some.inj hbase)
  rw [mem_staleRoots]
  constructor
  · rintro ⟨q, hr, hq⟩
    obtain ⟨rfl, rfl⟩ | ⟨-, hr⟩ := hdb.lookup.mp hr
    · simp [isStale, hdb.new] at hq
    · by_cases hbase : q = base
      · exact h.only r (hbase ▸ hr)
      · obtain ⟨k, hk, -⟩ := h.diffs r q hr hbase
        by_cases hqp : q = p
        · simp [isStale, hqp, hdb.moved] at hq
        · simp [isStale, hdb.other q _ hk hbase hqp] at hq
  · rintro rfl
    refine ⟨base, hdb.lookup.mpr (.inr ⟨hne, h.bottom⟩), ?_⟩
    simp [isStale, hdb.old]

omit hl hl₁ hroot₁ hdb in
/-- The disk layer ranks lowest, and the others as they were made. -/
theorem rank_lt (hr : db.layers.lookup r = some q) (hk : db.heap[q]? = some (.diff k))
    (hx : db.layers.lookup x = some k.parent) :
    (if x = d.root then 0 else ((db.layers.lookup x).elim 0 fun w => w + 1)) <
      if r = d.root then 0 else ((db.layers.lookup r).elim 0 fun w => w + 1) := by
  have hne : r ≠ d.root := by
    rintro rfl
    rw [h.bottom] at hr
    cases hr
    exact h.ne_base hk rfl
  rw [hr]
  obtain ⟨-, -, hbelow, -⟩ := h.diff hr hk
  split
  · exact Nat.succ_pos q
  next hxne =>
    rw [hx]
    obtain hbase | hlt := hbelow
    · exact absurd (h.only x (hbase ▸ hx)) hxne
    · exact Nat.succ_lt_succ hlt

omit hroot₁ in
/-- What is above a layer that was removed is removed. -/
theorem removed_child (hx : Within db'.children (db'.heap.length + 2) d.root x)
    (hr : r ∈ db'.children x) :
    Within db'.children (db'.heap.length + 2) d.root r := by
  refine within_child
    (fun x => if x = d.root then 0 else ((db.layers.lookup x).elim 0 fun w => w + 1)) ?_ ?_ hx hr
  · intro a c hc
    obtain ⟨-, q, k, hrq, hk, ha⟩ := (mem_children_rewired h hl hl₁ hdb).mp hc
    exact h.rank_lt hrq hk ha
  · obtain ⟨-, q, k, hrq, hk, -⟩ := (mem_children_rewired h hl hl₁ hdb).mp hr
    have hlt := h.pointer_lt hrq
    rw [hdb.length, hrq]
    dsimp only [elim_some]
    split <;> omega

/-- **Merging** the bottom-most diff layer into the disk layer, when it has only one child. -/
theorem flatten (hroot : db.layers.lookup l.root = some p) (hbase1 : l₁.parent = base)
    (hfork : ∀ r q k, db.layers.lookup r = some q → db.heap[q]? = some (.diff k) →
      k.parent = l.parent → q = p) :
    Tree blobs db'.removeStale st (depth - 1) db.heap.length ⟨l₁.root, l₁.id, false⟩ := by
  have hstale : ∀ r, r ∈ db'.staleRoots ↔ r = d.root :=
    fun r => mem_staleRoots_rewired h hl₁ hroot₁ hdb
  have hchild {r x} := mem_children_rewired h hl hl₁ hdb (r := r) (x := x)
  obtain ⟨-, hon1, -⟩ := h.diff hroot₁ hl₁
  obtain ⟨hid1, hst1⟩ := h.on_base hon1 hbase1
  -- what is kept of the tree
  have hkept : ∀ {r q}, db'.removeStale.layers.lookup r = some q → q ≠ db.heap.length →
      r ≠ l₁.root ∧ db.layers.lookup r = some q ∧ q ≠ base ∧
        ¬Within db'.children (db'.heap.length + 2) d.root r := by
    intro r q hr hq
    obtain ⟨hnot, hr⟩ := (lookup_removeStale_of_one hstale).mp hr
    obtain ⟨-, hnew⟩ | ⟨hne, hr⟩ := hdb.lookup.mp hr
    · exact absurd hnew hq
    · refine ⟨hne, hr, ?_, hnot⟩
      rintro rfl
      exact hnot (.inl (h.only r hr))
  have hnew : db'.removeStale.layers.lookup l₁.root = some db.heap.length := by
    refine (lookup_removeStale_of_one hstale).mpr ⟨fun hwithin => ?_,
      hdb.lookup.mpr (.inl ⟨rfl, rfl⟩)⟩
    obtain heq | ⟨c, -, hc⟩ := hwithin.eq_or_child
    · have hbase := h.bottom
      rw [← heq, hroot₁] at hbase
      exact h.ne_base hl₁ (some.inj hbase)
    · exact (hchild.mp hc).1 rfl
  refine ⟨{ hdb.sound with }, hdb.new, rfl, hnew, ?_, ?_, hdb.aligned, ?_⟩
  · intro r hr
    obtain ⟨-, hr⟩ := (lookup_removeStale_of_one hstale).mp hr
    obtain ⟨heq, -⟩ | ⟨-, hr⟩ := hdb.lookup.mp hr
    · exact heq
    · exact absurd (h.pointer_lt hr) (lt_irrefl _)
  · rw [hst1, ← hdb.content]
    rfl
  · intro r q hr hq
    obtain ⟨hne, hr, hqbase, hnot⟩ := hkept hr hq
    obtain ⟨k, hk, hkroot, hkon, hbelow, hlt, hle⟩ := h.diffs r q hr hqbase
    -- the layers on the old disk layer were removed
    have hparent : k.parent ≠ base := by
      intro hbase
      refine hnot (.inr ⟨r, hchild.mpr ⟨hne, q, k, hr, hk, ?_⟩, .inl rfl⟩)
      rw [hbase, h.bottom]
    have hid : k.id ≠ d.id + 1 := fun hid => hparent ((h.on_base_iff hkon).mpr hid)
    obtain ⟨x, s, hx, hxroot, hxid, hs, hst⟩ := h.on_diff hkon hparent
    by_cases hqp : q = p
    · subst hqp
      rw [hl] at hk
      cases hk
      rw [hl₁] at hx
      cases hx
      refine ⟨_, hdb.moved, hkroot, ⟨hkon.nodes, _, s, hdb.new, hnew, hxid, hs, hst⟩,
        .inl rfl, ?_, ?_⟩
      · show l₁.id < l.id
        omega
      · show l.id ≤ l₁.id + (depth - 1)
        omega
    · have hmerged : k.parent ≠ l.parent := fun heq => hqp (hfork r q k hr hk heq)
      have hxne : x.root ≠ l₁.root := by
        intro heq
        rw [heq, hroot₁] at hxroot
        exact hmerged (some.inj hxroot).symm
      have hxkept : db'.removeStale.layers.lookup x.root = some k.parent := by
        refine (lookup_removeStale_of_one hstale).mpr ⟨fun hwithin => hnot ?_,
          hdb.lookup.mpr (.inr ⟨hxne, hxroot⟩)⟩
        exact removed_child h hl hl₁ hdb hwithin (hchild.mpr ⟨hne, q, k, hr, hk, hxroot⟩)
      have hheap : db'.heap[q]? = some (.diff k) := hdb.other q _ hk hqbase hqp
      refine ⟨k, hheap, hkroot, ⟨hkon.nodes, ?_⟩, .inr (hbelow.resolve_left hparent), ?_, ?_⟩
      · by_cases hkp : k.parent = p
        · rw [hkp, hl] at hx
          cases hx
          exact ⟨.diff { l with parent := db.heap.length }, s, by rw [hkp]; exact hdb.moved, hxkept,
            hxid, hs, hst⟩
        · exact ⟨_, s, hdb.other _ _ hx hparent hkp, hxkept, hxid, hs, hst⟩
      · show l₁.id < k.id
        omega
      · show k.id ≤ l₁.id + (depth - 1)
        omega

end

end Tree

end GoQrl.PathDb
