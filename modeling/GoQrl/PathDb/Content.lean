import GoQrl.PathDb.Database

/-!
# GoQrl.PathDb.Content

What the disk layer of a path database holds: the node buffer over the key-value store.

A layer that is committed changes the content by its nodes (`NodeBuffer.commit_change`), and a flush
does not change it (`flush_spec`).  The clean cache is keyed by owner and path put together, so that
it may hold the blob of another node; the hash of a blob is checked when it is read.  A node of the
content is therefore read with its blob, whichever way it is found, when no two of the blobs at hand
have the same hash (`diskNode_spec`).
-/

namespace GoQrl.PathDb

open Mpt State Overlay Option Function NodeMap

/-- The nodes of a state, by owner and path. -/
abbrev Nodes := Store (Hash × Hex) (Option Bytes)

/-- What a set of nodes changes. -/
def NodeMap.change (nodes : NodeMap) : Change (Hash × Hex) (Option Bytes) := fun k =>
  (nodes.node k.1 k.2).map fun n => if n.isDeleted then none else some n.blob

/-- The nodes have the hashes of their blobs, which are among `blobs`. -/
def NodeMap.OK [Keccak] (blobs : Set Bytes) (nodes : NodeMap) : Prop :=
  ∀ owner path n, nodes.node owner path = some n → n.isDeleted = false →
    n.hash = Keccak.hash n.blob ∧ n.blob ∈ blobs

theorem NodeMap.ok_empty [Keccak] {blobs : Set Bytes} : OK blobs ∅ := by
  intro owner path n hn
  cases hn

/-! ## the buffer -/

/-- The nodes of one owner are replaced. -/
theorem NodeMap.node_insert (nodes : NodeMap) (owner : Hash) (subset : GoMap Hex TrieNode)
    (o : Hash) (path : Hex) :
    node (nodes.insert owner subset) o path = if o =
      owner then subset.lookup path else nodes.node o path := by
  by_cases ho : o = owner
  · subst ho
    rw [if_pos rfl, node, AList.lookup_insert, bind_some]
  · rw [if_neg ho, node, AList.lookup_insert_ne ho, node]

namespace NodeBuffer

variable (b : NodeBuffer)

/-- New nodes of an owner cover the old ones in the buffer. -/
theorem commitSubset_node (owner : Hash) (subset : GoMap Hex TrieNode) (o : Hash) (path : Hex) :
    (b.commitSubset owner subset).1.nodes.node o path =
      if o = owner then (subset.lookup path).or (b.nodes.node o path) else b.nodes.node o path := by
  simp only [commitSubset, node_insert, lookup_copy]
  by_cases ho : o = owner
  · subst ho
    cases h : b.nodes.lookup o <;> simp [node, h]
  · rw [if_neg ho, if_neg ho]

/-- The size that is counted along does not matter for the buffer. -/
theorem commitAll_eq (l : List (Hash × GoMap Hex TrieNode)) (delta : Int) :
    (commitAll l b delta).1 = l.foldl (fun b e => (b.commitSubset e.1 e.2).1) b := by
  induction l generalizing b delta with
  | nil => rfl
  | cons e l ih => rw [commitAll, ih, List.foldl_cons]

/-- **Committing** puts the nodes over those of the buffer. -/
theorem commit_node (nodes : NodeMap) (o : Hash) (path : Hex) :
    (b.commit nodes).nodes.node o path = (nodes.node o path).or (b.nodes.node o path) := by
  show (commitAll _ b 0).1.nodes.node o path = _
  rw [commitAll_eq, foldl_entries (fun b : NodeBuffer => b.nodes.node o path) o
    fun subset old => (subset.lookup path).or old]
  · cases h : nodes.lookup o <;> simp [node, h]
  · intro b subset
    rw [commitSubset_node, if_pos rfl]
  · intro b o' subset hne
    rw [commitSubset_node, if_neg (Ne.symm hne)]

theorem commitAll_layers (l : List (Hash × GoMap Hex TrieNode)) (delta : Int) :
    (commitAll l b delta).1.layers = b.layers := by
  induction l generalizing b delta with
  | nil => rfl
  | cons e l ih => rw [commitAll, ih]; rfl

/-- The buffer counts the layers it has taken. -/
theorem commit_layers (nodes : NodeMap) : (b.commit nodes).layers = b.layers + 1 := by
  show (commitAll _ b 0).1.layers + 1 = _
  rw [commitAll_layers]

/-- The buffer has the changes of the layer on top of its own. -/
theorem commit_change (nodes : NodeMap) :
    (b.commit nodes).nodes.change = after nodes.change b.nodes.change := by
  funext k
  simp only [change, after, commit_node]
  cases nodes.node k.1 k.2 <;> simp

/-- The nodes of the buffer are still among the blobs. -/
theorem commit_ok [Keccak] {blobs : Set Bytes} {nodes : NodeMap} (hb : b.nodes.OK blobs)
    (h : nodes.OK blobs) :
    (b.commit nodes).nodes.OK blobs := by
  intro owner path n hn
  rw [commit_node] at hn
  obtain hn | ⟨-, hn⟩ := or_eq_some_iff.mp hn
  · exact h owner path n hn
  · exact hb owner path n hn

end NodeBuffer

/-! ## the key-value store and the clean cache -/

namespace Database

/-- What the disk layer holds. -/
def content (db : Database) : Nodes := apply db.buffer.nodes.change fun k => db.disk.nodes k.1 k.2

/-- One node is written to disk, or deleted. -/
theorem writeNode_nodes (db : Database) (owner : Hash) (path : Hex) (n : TrieNode)
    (o : Hash) (p : Hex) :
    (db.writeNode owner path n).disk.nodes o p =
      if o = owner ∧
        p = path then (if n.isDeleted then none else some n.blob) else db.disk.nodes o p := by
  simp only [writeNode, update_apply]
  grind

/-- The nodes of one owner are written to disk. -/
theorem writeSubset_nodes (db : Database) (owner : Hash) (subset : GoMap Hex TrieNode)
    (o : Hash) (p : Hex) :
    (db.writeSubset owner subset).disk.nodes o p =
      if o = owner then ((subset.lookup p).map fun n =>
        if n.isDeleted then none else some n.blob).getD (db.disk.nodes o p)
      else db.disk.nodes o p := by
  rw [writeSubset, foldl_entries (fun db : Database => db.disk.nodes o p) p
    fun n old => if o = owner then (if n.isDeleted then none else some n.blob) else old]
  · cases subset.lookup p <;> simp
  · simp [writeNode_nodes]
  · intro db p' n hne
    rw [writeNode_nodes, if_neg fun h => hne h.2.symm]

/-- **Writing** nodes changes the store by them. -/
theorem writeNodes_nodes (db : Database) (nodes : NodeMap) (o : Hash) (p : Hex) :
    (db.writeNodes nodes).disk.nodes o p = apply nodes.change (fun k => db.disk.nodes k.1 k.2)
    (o, p) := by
  rw [writeNodes, foldl_entries (fun db : Database => db.disk.nodes o p) o
    fun subset old =>
      ((subset.lookup p).map fun n => if n.isDeleted then none else some n.blob).getD old]
  · cases h : nodes.lookup o <;> simp [apply, change, node, h]
  · intro db subset
    rw [writeSubset_nodes, if_pos rfl]
  · intro db o' subset hne
    rw [writeSubset_nodes, if_neg (Ne.symm hne)]

/-- Writing nodes only changes the disk and the clean cache. -/
theorem writeNodes_frame (db : Database) (nodes : NodeMap) :
    (db.writeNodes nodes).readOnly = db.readOnly ∧ (db.writeNodes nodes).heap = db.heap ∧
      (db.writeNodes nodes).layers = db.layers ∧ (db.writeNodes nodes).buffer = db.buffer := by
  let P (db' : Database) : Prop :=
    db'.readOnly = db.readOnly ∧ db'.heap = db.heap ∧ db'.layers = db.layers ∧
      db'.buffer = db.buffer
  exact List.foldlRecOn (motive := P) _ _ ⟨rfl, rfl, rfl, rfl⟩ fun _ h _ _ =>
    List.foldlRecOn (motive := P) _ _ h fun _ h _ _ => h

end Database

variable [Keccak] {blobs : Set Bytes}

/-- The buffer, the key-value store and the clean cache hold nothing but `blobs`. -/
structure Sound (blobs : Set Bytes) (db : Database) : Prop where
  buffer : db.buffer.nodes.OK blobs
  disk : ∀ owner path blob, db.disk.nodes owner path = some blob → blob ∈ blobs
  cleans : ∀ cache, db.cleans = some cache → ∀ key blob, cache key = some blob → blob ∈ blobs

namespace Sound

variable {db : Database}

theorem writeNode (h : Sound blobs db) (owner : Hash) (path : Hex) {n : TrieNode}
    (hn : n.isDeleted = false → n.blob ∈ blobs) : Sound blobs (db.writeNode owner path n) := by
  constructor
  · exact h.buffer
  · intro o p blob hblob
    rw [Database.writeNode_nodes] at hblob
    grind [h.disk o p blob]
  · intro cache hcache key blob hblob
    obtain ⟨old, hold, rfl⟩ := map_eq_some_iff.mp hcache
    grind [h.cleans old hold key blob]

/-- After a write of nodes the database still holds nothing but the blobs. -/
theorem writeNodes (h : Sound blobs db) {nodes : NodeMap} (hnodes : nodes.OK blobs) :
    Sound blobs (db.writeNodes nodes) := by
  refine List.foldlRecOn _ _ h fun db h e he => List.foldlRecOn _ _ h fun db h n hn => ?_
  refine h.writeNode e.1 n.1 fun hkept => (hnodes e.1 n.1 n.2 ?_ hkept).2
  rw [node, mem_entries.mp he, bind_some, mem_entries.mp hn]

end Sound

/-! ## flushing -/

namespace Database

variable {db : Database}

/-- What a flush leaves as it is. -/
structure Flushed (blobs : Set Bytes) (db db' : Database) (id : Nat) : Prop where
  readOnly : db'.readOnly = db.readOnly
  heap : db'.heap = db.heap
  layers : db'.layers = db.layers
  content : db'.content = db.content
  aligned : db'.disk.persistentStateID + db'.buffer.layers = id
  sound : Sound blobs db'

/-- **A flush** does not change what the disk layer holds. -/
theorem flush_spec (h : Sound blobs db) {id : Nat}
    (hid : db.disk.persistentStateID + db.buffer.layers = id) (force : Bool) :
    ∃ db', db.flush id force = (.ok (), db') ∧ Flushed blobs db db' id := by
  unfold flush
  split
  · exact ⟨db, rfl, ⟨rfl, rfl, rfl, rfl, hid, h⟩⟩
  · rw [if_neg (not_not_intro hid)]
    obtain ⟨hro, hheap, hlayers, -⟩ := db.writeNodes_frame db.buffer.nodes
    have hsound := h.writeNodes h.buffer
    refine ⟨_, rfl, ⟨hro, hheap, hlayers, ?_, rfl, ⟨ok_empty, hsound.disk, hsound.cleans⟩⟩⟩
    funext k
    exact db.writeNodes_nodes db.buffer.nodes k.1 k.2

/-! ## reading the disk layer -/

/-- A read only changes the clean cache. -/
structure ReadOnly (blobs : Set Bytes) (db db' : Database) : Prop where
  frame : db' = { db with cleans := db'.cleans }
  sound : Sound blobs db'

variable (h : Sound blobs db)
include h

theorem ReadOnly.refl : ReadOnly blobs db db := ⟨rfl, h⟩

/-- Caching a blob does not change what is stored. -/
theorem cacheClean_readOnly (owner : Hash) (path : Hex) {blob : Bytes}
    (hblob : 0 < blob.length → blob ∈ blobs) :
    ReadOnly blobs db (db.cacheClean owner path blob) := by
  unfold cacheClean
  split
  next hlen =>
    refine ⟨rfl, h.buffer, h.disk, ?_⟩
    intro cache hcache key b hb
    obtain ⟨old, hold, rfl⟩ := map_eq_some_iff.mp hcache
    grind [h.cleans old hold key b]
  · exact .refl h

/-- Nor does a read. -/
theorem diskNode_readOnly (dl : DiskLayer) (owner : Hash) (path : Hex) (want : Hash) :
    ReadOnly blobs db (db.diskNode dl owner path want).2 := by
  unfold diskNode
  split
  · exact .refl h
  · split
    · split <;> exact .refl h
    · split
      · exact .refl h
      · dsimp only
        split
        · exact .refl h
        · refine cacheClean_readOnly h owner path fun hlen => ?_
          unfold DiskDB.readNode at hlen ⊢
          cases hd : db.disk.nodes owner path with
          | none => rw [hd] at hlen; cases hlen
          | some blob => exact h.disk owner path blob hd

/-- **The disk layer** gives every node of its content. -/
theorem diskNode_spec (hinj : Set.InjOn Keccak.hash blobs) {dl : DiskLayer}
    (hlive : dl.stale = false)
    {owner : Hash} {path : Hex} {blob : Bytes} (hblob : db.content (owner, path) = some blob) :
    (db.diskNode dl owner path (Keccak.hash blob)).1 = .ok blob := by
  unfold diskNode
  rw [if_neg (by simp [hlive])]
  simp only [content, apply, change] at hblob
  cases hn : db.buffer.nodes.node owner path with
  | some n =>
    simp only [hn, map_some, getD_some] at hblob
    split at hblob
    · cases hblob
    next hkept =>
      cases hblob
      simp [(h.buffer owner path n hn (by simpa using hkept)).1]
  | none =>
    simp only [hn, map_none, getD_none] at hblob
    cases hc : db.cleanNode owner path (Keccak.hash blob) with
    | some b =>
      obtain ⟨cache, hcache, hb, hhash⟩ : ∃ cache, db.cleans = some cache ∧
        cache (cacheKey owner path) = some b ∧ Keccak.hash b = Keccak.hash blob := by
        unfold cleanNode at hc
        grind
      rw [hinj (h.cleans cache hcache _ b hb) (h.disk owner path blob hblob) hhash]
    | none => simp [DiskDB.readNode, hblob]

end Database

end GoQrl.PathDb
