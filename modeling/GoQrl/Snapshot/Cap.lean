import GoQrl.Snapshot.Capping
import GoQrl.Snapshot.Rebloom

/-!
# GoQrl.Snapshot.Cap

`Cap` keeps the tree of snapshots in order, if the layer that is cut off is the only one on its
parent (`cap_spec`).

`diffToDisk` and the loop of `cap` have one spec lemma each; what they leave is `Rewired`, so that
the results about the removal of stale layers apply.
-/

namespace GoQrl.Snapshot

open Overlay Descend List AList Snapshot.Tree
open State (GoMap lookup_insert_cases)

variable {F : Type} {t t₁ : Tree F} {st : States} {rank : Nat → Nat} {base : Nat} {dk : DiskLayer}

/-! ## trees with the same layers -/

variable {layers : GoMap Hash Nat} {e : Entry F} {x : Entry F}

/-- Only what is looked up matters. -/
theorem Shape.same_layers (h : Shape t st rank base dk)
    (hsame : ∀ r, layers.lookup r = t.layers.lookup r) :
    Shape { t with layers := layers } st rank base dk := by
  have hin : ∀ {e : Entry F}, InTree { t with layers := layers } e ↔ InTree t e := fun {e} =>
    ⟨fun he => ⟨(hsame _).symm.trans he.lookup, { he.entry with }⟩,
      fun he => ⟨(hsame _).trans he.lookup, { he.entry with }⟩⟩
  obtain ⟨s0, hs0, hok⟩ := h.content
  refine ⟨h.disk, h.live, (hsame _).trans h.bottom, fun r hr => h.only r ((hsame r).symm.trans hr),
    ⟨s0, hs0, hok.disk, hok.cache⟩,
    fun r p hr hp => ?_, fun r p hr => h.ranks r p ((hsame r).symm.trans hr), fun e e' he he' =>
      h.apart e e' (hin.mp he) (hin.mp he')⟩
  obtain ⟨e, hptr, hroot, he⟩ := h.diffs r p ((hsame r).symm.trans hr) hp
  obtain ⟨q, s, hq, hqroot, hs, hst⟩ := he.parent
  exact ⟨e, hptr, hroot, hin.mpr he.toInTree, he.lower, q, s, hq, (hsame _).trans hqroot, hs, hst⟩

theorem Blooms.same_layers [Bloom F] (h : Blooms t st base dk)
    (hsame : ∀ r, layers.lookup r = t.layers.lookup r) :
    Blooms { t with layers := layers } st base dk :=
  fun e he => h e ⟨(hsame _).symm.trans he.lookup, { he.entry with }⟩

/-- A tree in order has no stale layers to be removed. -/
theorem Shape.lookup_removeStale (h : Shape t st rank base dk) (r : Hash) :
    t.removeStale.layers.lookup r = t.layers.lookup r := by
  have hnone : ¬t.Removed r := by
    rintro ⟨a, ha, -⟩
    obtain ⟨p, o, hp, ho, hstale⟩ := mem_staleRoots.mp ha
    by_cases hbase : p = base
    · rw [hbase, h.disk] at ho
      cases ho
      exact absurd (h.live.symm.trans hstale) Bool.false_ne_true
    · obtain ⟨e, rfl, -, he⟩ := h.diffs a p hp hbase
      rw [he.entry.heap] at ho
      cases ho
      exact absurd (he.entry.live.symm.trans hstale) Bool.false_ne_true
  refine Option.ext fun p => ?_
  rw [Tree.lookup_removeStale, and_iff_right hnone]

/-! ## writing the merged layer to disk -/

namespace Tree

/-- The disk layer after `diffToDisk`. -/
def newBase (dk : DiskLayer) (root : Hash) : DiskLayer :=
  ⟨root, false, dk.genMarker, dk.genMarker.isSome && dk.genAbort⟩

/-- **`diffToDisk`** makes the old disk layer stale and leads from its state to that of the layer.
-/
theorem diffToDisk_spec {q : Nat} {f : DiffLayer F} {d : DiffData} {s : State}
    (hq : t.heap[q]? = some (.diff f))
    (hparent : f.parent = base) (hbase : t.heap[base]? = some (.disk dk)) (hlive : dk.stale = false)
    (hdata : t.data[f.data]? = some d) (hok : t.DiskOK dk.genMarker s) :
    ∃ diskdb cache, t.diffToDisk q = (.ok t.heap.length, { t with
        heap := t.heap.set base (.disk { dk with stale := true }) ++ [.disk (newBase dk f.root)]
        diskdb := diskdb, cache := cache }) ∧
      DiskOK dk.genMarker { t with diskdb := diskdb, cache := cache }
        (apply (d.change t.slots) s) := by
  obtain ⟨diskdb, cache, hwrite⟩ :=
    onDisk_writeDiff dk.genMarker (t.setLayer base (.disk { dk with stale := true })) d
  have hok' := writeDiff_ok (t := t.setLayer base (.disk { dk with stale := true }))
      ⟨hok.disk, hok.cache⟩ d
  rw [hwrite] at hok'
  refine ⟨diskdb, cache, ?_, hok'.disk, hok'.cache⟩
  simp only [diffToDisk, hq, hparent, hbase, hdata, hlive, Bool.false_eq_true, if_false, hwrite]
  simp [alloc, setLayer, newBase]

/-- The layer at `q` takes the place of the parent of `x`. -/
def rewire (t : Tree F) (x : Entry F) (root : Hash) (q : Nat) : Tree F :=
  { t with layers := t.layers.insert root q }.setLayer x.ptr (.diff { x.layer with parent := q })

theorem rewire_heap_ne {root : Hash} {q y : Nat} (hne : y ≠ x.ptr) :
    (t.rewire x root q).heap[y]? = t.heap[y]? := getElem?_set_ne (Ne.symm hne)

theorem rewire_heap_self {root : Hash} {q : Nat} (hlt : x.ptr < t.heap.length) :
    (t.rewire x root q).heap[x.ptr]? = some (.diff { x.layer with parent := q }) :=
  getElem?_set_self hlt

theorem rewire_length (t : Tree F) (x : Entry F) (root : Hash) (q : Nat) :
    (t.rewire x root q).heap.length = t.heap.length :=
  length_set

end Tree

/-! ## the merged layer in its place -/

namespace Site

variable {x : Entry F} {above : List (Entry F)} {b : Entry F} {q : Nat} {f : DiffLayer F}
    {d : DiffData}

variable (h : Site t st rank base dk x above b)
include h

theorem cut_lt : x.ptr < t.heap.length :=
  index_lt h.cut.entry.heap

theorem base_ne : base ≠ x.ptr ∧ base ≠ b.ptr :=
  ⟨(h.shape.ne_base h.cut.entry).symm, (h.shape.ne_base h.bottom_inTree.entry).symm⟩

variable (hf : Tree.Flattened t t₁ base above b q f d)
include hf

/-- The disk layer is as it was. -/
theorem flattened_base : t₁.heap[base]? = some (.disk dk) := hf.old _ _ h.shape.disk h.base_ne.2

theorem flattened_ne : q ≠ x.ptr := by
  by_cases habove : above = []
  · rw [(hf.same habove).2]
    exact h.cut_ne (by simp)
  · have := (hf.new habove).1
    have := h.cut_lt
    omega

/-- The merged layer stays in memory. -/
theorem rewired_diff (habove : above ≠ []) :
    Rewired t (t₁.rewire x f.root q) base dk x above b q (.diff f) := by
  obtain ⟨hfresh, hbottom⟩ := hf.new habove
  constructor
  case fresh => exact hfresh
  case self =>
    rw [← hf.root]
    exact lookup_insert _
  case others =>
    intro r hr
    rw [← hf.root] at hr
    refine (lookup_insert_ne hr).trans ?_
    rw [hf.layers]
  case new =>
    rw [rewire_heap_ne (h.flattened_ne hf)]
    exact hf.heap
  case root => exact hf.root
  case live => exact hf.live
  case cut => exact rewire_heap_self (lt_of_lt_of_le h.cut_lt hf.length)
  case bottom =>
    intro _
    rwa [rewire_heap_ne (h.cut_ne (by simp))]
  case kind =>
    refine .inl ⟨f, rfl, hf.parent, ?_⟩
    rw [rewire_heap_ne h.base_ne.1]
    exact h.flattened_base hf
  case heap =>
    intro y l hy hx hb _
    rw [rewire_heap_ne hx]
    exact hf.old y l hy hb
  case data => exact hf.otherData
  case slots => exact hf.otherSlots

/-- The merged layer is written to disk. -/
theorem rewired_disk {t2 : Tree F} (diskdb : Key → Option Bytes) (cache : Bytes → Option Bytes)
    (ht2 : t2 = { t₁.rewire x f.root q with
      heap := (t₁.rewire x f.root q).heap.set base (.disk { dk with stale := true }) ++
        [.disk (newBase dk f.root)]
      diskdb := diskdb, cache := cache }) :
    Rewired t (t2.rewire x f.root t₁.heap.length) base dk x above b t₁.heap.length
      (.disk (newBase dk f.root)) := by
  have hlen : (t₁.rewire x f.root q).heap.length = t₁.heap.length := rewire_length _ _ _ _
  have hlen2 : t2.heap.length = t₁.heap.length + 1 := by
    rw [ht2]
    simp [hlen]
  have hcut := lt_of_lt_of_le h.cut_lt hf.length
  have hbase : base < t₁.heap.length := (List.getElem?_eq_some_iff.mp (h.flattened_base hf)).1
  -- an object that is neither the disk layer nor the layer that is moved
  have hheap : ∀ {y : Nat} {l : Layer F}, t₁.heap[y]? = some l → y ≠ x.ptr → y ≠ base →
      (t2.rewire x f.root t₁.heap.length).heap[y]? = some l := by
    intro y l hy hx hb
    have hlt := index_lt hy
    rw [rewire_heap_ne hx, ht2]
    show (_ ++ _)[y]? = _
    rw [getElem?_append_left (by rw [length_set, hlen]; exact hlt), getElem?_set_ne (Ne.symm hb),
      rewire_heap_ne hx]
    exact hy
  have hlayers : t2.layers = t₁.layers.insert f.root q := by
    rw [ht2]
    rfl
  constructor
  case fresh => exact hf.length
  case self =>
    rw [← hf.root]
    exact lookup_insert _
  case others =>
    intro r hr
    rw [← hf.root] at hr
    refine (lookup_insert_ne hr).trans ?_
    rw [hlayers, lookup_insert_ne hr, hf.layers]
  case new =>
    rw [rewire_heap_ne (by omega), ht2]
    rw [getElem?_append_right (by rw [length_set, hlen]), length_set, hlen, Nat.sub_self]
    rfl
  case root => exact hf.root
  case live => rfl
  case cut => exact rewire_heap_self (by omega)
  case bottom =>
    exact fun habove => hheap (hf.new habove).2 (h.cut_ne (by simp)) h.base_ne.2.symm
  case kind =>
    refine .inr ⟨_, rfl, ?_⟩
    rw [rewire_heap_ne h.base_ne.1, ht2]
    rw [getElem?_append_left (by rw [length_set, hlen]; exact hbase),
      getElem?_set_self (by rw [hlen]; exact hbase)]
  case heap => exact fun y l hy hx hb hbase => hheap (hf.old y l hy hb) hx hbase
  case data =>
    intro i hi
    rw [← hf.otherData i hi, ht2]
    rfl
  case slots =>
    intro ref href
    rw [← hf.otherSlots ref href, ht2]
    rfl

end Site

/-! ## which layer is cut off -/

/-- Going down from a layer of the tree ends at a layer of the tree. -/
theorem dive_spec (h : Shape t st rank base dk) (he : InTree t e) (n : Nat) :
    t.dive n e.ptr e.layer = none ∨ ∃ x :
    Entry F, InTree t x ∧ t.dive n e.ptr e.layer = some (x.ptr, x.layer) := by
  induction n generalizing e with
  | zero => exact .inr ⟨e, he, rfl⟩
  | succ n ih =>
    by_cases hbase : e.layer.parent = base
    · simp [dive, hbase, h.disk]
    · obtain ⟨q, hq, hqlinked, -⟩ := h.on_diff he hbase
      have hstep : t.dive (n + 1) e.ptr e.layer = t.dive n q.ptr q.layer := by
        simp [dive, ← hq, hqlinked.entry.heap]
      rw [hstep]
      exact ih hqlinked.toInTree

/-- The layer that is cut off is in the tree, and stands on a diff layer. -/
theorem capped_spec (h : Shape t st rank base dk) (he : InTree t e) (layers : Int) :
    t.capped e.ptr e.layer layers = none ∨
      ∃ x : Entry F, InTree t x ∧ x.layer.parent ≠ base ∧
        t.capped e.ptr e.layer layers = some (x.ptr, x.layer) := by
  unfold capped
  obtain hnone | ⟨x, hx, hsome⟩ := dive_spec h he (layers - 1).toNat
  · rw [hnone]
    exact .inl rfl
  · rw [hsome]
    by_cases hbase : x.layer.parent = base
    · simp [hbase, h.disk]
    · obtain ⟨q, hq, hqlinked, -⟩ := h.on_diff hx hbase
      right
      refine ⟨x, hx, hbase, ?_⟩
      simp [← hq, hqlinked.entry.heap]

/-- The parent of a diff layer is the disk layer. -/
def Tree.onDiskLayer (t : Tree F) (dl : DiffLayer F) : Bool :=
  match t.heap[dl.parent]? with
  | some (.disk _) => true
  | _ => false

/-- The layer that `Cap` cuts off is the only one on its parent, or the parent stays as it is. -/
def Tree.cutsAlone (t : Tree F) (x : DiffLayer F) : Bool :=
  match t.heap[x.parent]? with
  | some (.diff parent) =>
    (t.onDiskLayer parent && !t.persists parent) || (t.children parent.root).all fun r =>
      decide (r = x.root)
  | _ => true

/-- Whether `Cap` merges no layer on which another layer of the tree stands. -/
def Tree.capsAlone (t : Tree F) (root : Hash) (layers : Int) : Bool :=
  match t.layers.lookup root with
  | none => true
  | some ptr =>
    match t.heap[ptr]? with
    | some (.diff diff) =>
      if t.allowedLayers diff layers = 0 then true
      else
        match t.capped ptr diff (t.allowedLayers diff layers) with
        | none => true
        | some (_, x) => t.cutsAlone x
    | _ => true

/-- The way down from the parent of the layer, which stays as it is or has no other layer on it. -/
theorem site_of_cutsAlone (h : Shape t st rank base dk) (hx : InTree t x)
    (hbase : x.layer.parent ≠ base) (halone : t.cutsAlone x.layer = true) :
    ∃ above b, Way t st rank base above b ∧ x.layer.parent = (top above b).ptr ∧
      (above = [] ∧ t.persists b.layer = false ∨ Site t st rank base dk x above b) := by
  obtain ⟨q, hq, hqlinked, -⟩ := h.on_diff hx hbase
  obtain ⟨above, b, hway, rfl⟩ := h.exists_way hqlinked.toInTree
  refine ⟨above, b, hway, hq.symm, ?_⟩
  have hheap : t.heap[x.layer.parent]? = some (.diff (top above b).layer) :=
    hq ▸ hqlinked.entry.heap
  simp only [cutsAlone, hheap, Bool.or_eq_true, Bool.and_eq_true, Bool.not_eq_true', all_eq_true,
    decide_eq_true_eq] at halone
  obtain ⟨hdisk, hpersists⟩ | hall := halone
  · left
    cases above with
    | nil => exact ⟨rfl, hpersists⟩
    | cons e above =>
      cases hway.chain with
      | above he hparent hchain =>
        have hparent' : t.heap[e.layer.parent]? = some (.diff (top above b).layer) :=
          hparent ▸ hchain.at_top.heap
        change t.onDiskLayer e.layer = true at hdisk
        simp only [onDiskLayer, hparent'] at hdisk
        cases hdisk
  · right
    refine ⟨h, hway, hx, hq.symm, fun y hy hparent =>
      hy.eq_of_root hx (hall _ (mem_children.mpr ⟨_, hy.lookup, ?_⟩))⟩
    simp only [parentRoot, hy.entry.heap, hparent, hqlinked.entry.heap, Option.map_some]
    rfl

/-! ## capping -/

variable [Bloom F]

theorem lookup_insert_same {r : Hash} {p : Nat} (h : layers.lookup r = some p) (r' : Hash) :
    (layers.insert r p).lookup r' = layers.lookup r' := by
  by_cases heq : r' = r
  · subst heq
    exact (lookup_insert _).trans h.symm
  · exact lookup_insert_ne heq

/-- The tree after the loop of `cap`, before its stale layers are removed: there is no new disk
layer, or the tree stands on it. -/
inductive Capped (t : Tree F) (st : States) (base : Nat) (dk : DiskLayer) :
    Except SnapError (Option Nat) × Tree F → Prop
  | inMemory {t' : Tree F} {rank' : Nat → Nat} : Shape t'.removeStale st rank' base dk →
      Blooms t'.removeStale st base dk → Capped t st base dk (.ok none, t')
  | onDisk {t' : Tree F} {rank' : Nat → Nat} {n : Nat} {dk' : DiskLayer} :
    dk'.genMarker = dk.genMarker →
      Shape t'.removeStale st rank' n dk' → Capped t st base dk (.ok (some n), t')

variable (h : Shape t st rank base dk)
include h

/-- The parent of the layer stands on the disk layer and stays as it is. -/
theorem capTree_same (hbloom : Blooms t st base dk) {x b : Entry F} (hx : InTree t x)
    (hb : InTree t b) (hparent : x.layer.parent = b.ptr) :
    Capped t st base dk (.ok none, t.rewire x b.layer.root b.ptr) := by
  have hheap : t.heap.set x.ptr (.diff { x.layer with parent := b.ptr }) = t.heap := by
    obtain ⟨hlt, hget⟩ := List.getElem?_eq_some_iff.mp hx.entry.heap
    rw [← hparent, ← hget, set_getElem_self]
  have ht : t.rewire x b.layer.root b.ptr =
      { t with layers := t.layers.insert b.layer.root b.ptr } := by
    simp [rewire, setLayer, hheap]
  have hsame := lookup_insert_same hb.lookup
  rw [ht]
  have hshape := h.same_layers hsame
  have hremove := hshape.lookup_removeStale
  exact .inMemory (hshape.same_layers hremove) ((hbloom.same_layers hsame).same_layers hremove)

/-- **The loop of `cap`** merges the layers below the one that it cuts off. -/
theorem capTree_spec (hbloom : Blooms t st base dk) (hx : InTree t x)
    (hbase : x.layer.parent ≠ base) (halone : t.cutsAlone x.layer = true) {ptr : Nat}
    {diff : DiffLayer F} {layers : Int}
    (hcapped : t.capped ptr diff layers = some (x.ptr, x.layer)) :
    Capped t st base dk (t.capTree ptr diff layers) := by
  obtain ⟨above, b, hway, hparent, hsite⟩ := site_of_cutsAlone h hx hbase halone
  obtain ⟨q, t₁, f, d, hflat, hf⟩ := flatten_chain hway.chain h.disk (h.separate hway)
    (Nat.lt_succ_of_lt (h.way_length hway))
  simp only [capTree, hcapped, hparent, hflat, hf.heap, ← rewire.eq_1]
  obtain ⟨rfl, hpersists⟩ | hsite := hsite
  · -- nothing is merged, and nothing is written
    obtain ⟨rfl, rfl⟩ := hf.same rfl
    have hb := (hway.linked b (by simp)).toInTree
    have hfb : f = b.layer := by
      have hheap := hf.heap
      rw [hb.entry.heap] at hheap
      cases hheap
      rfl
    have hkeep : (t₁.rewire x f.root b.ptr).persists f = false := by
      rw [← hpersists, ← hfb]
      have hne : base ≠ x.ptr := (h.ne_base hx.entry).symm
      simp [persists, hf.parent, rewire_heap_ne hne]
    rw [hkeep, hfb]
    exact capTree_same h hbloom hx hb hparent
  · cases hpersists : (t₁.rewire x f.root q).persists f with
    | false =>
      by_cases habove : above = []
      · subst habove
        obtain ⟨rfl, rfl⟩ := hf.same rfl
        rw [hf.root]
        exact capTree_same h hbloom hx hsite.bottom_inTree hparent
      · have hr := hsite.rewired_diff hf habove
        have hat : Entry.At (t₁.rewire x f.root q) ⟨q, f, d⟩ := ⟨hr.new, hf.live, hf.data, hf.wf⟩
        exact .inMemory (hsite.shape_diff hr hat hf.change hf.dataPtr hf.refs hf.diskdb hf.cache)
          (hsite.blooms_diff hr hbloom hf.diffed hf.origin)
    | true =>
      obtain ⟨s0, hs0, hok⟩ := h.content
      have hok1 : (t₁.rewire x f.root q).DiskOK dk.genMarker s0 :=
        ⟨fun key hcov => (congrFun hf.diskdb key ▸ hok.disk key hcov :), fun key hcov blob hblob =>
          hok.cache key hcov blob (hf.cache ▸ hblob)⟩
      have hq : (t₁.rewire x f.root q).heap[q]? = some (.diff f) := by
        rw [rewire_heap_ne (hsite.flattened_ne hf)]
        exact hf.heap
      have hdisk : (t₁.rewire x f.root q).heap[base]? = some (.disk dk) := by
        rw [rewire_heap_ne hsite.base_ne.1]
        exact hsite.flattened_base hf
      obtain ⟨diskdb, cache, hwrite, hok2⟩ := diffToDisk_spec hq hf.parent hdisk h.live hf.data hok1
      have hr := hsite.rewired_disk hf diskdb cache rfl
      simp only [hwrite, rewire_length]
      have hchange : d.change (t₁.rewire x f.root q).slots = chainChange t.slots above b :=
        hf.change
      rw [hchange] at hok2
      have hmarker : (newBase dk f.root).genMarker = dk.genMarker := rfl
      exact .onDisk hmarker (hsite.shape_disk hr (h.way_state hway hs0) ⟨hok2.disk, hok2.cache⟩)

/-- Everything is merged and written to disk. -/
theorem capAll_spec (he : InTree t e) :
    ∃ q t₁ n t2 dk', flatten (t.heap.length + 1) t e.ptr = (.ok q, t₁) ∧
      t₁.diffToDisk q = (.ok n, t2) ∧ dk'.genMarker = dk.genMarker ∧
      Shape { t2 with layers := (∅ : GoMap Hash Nat).insert e.layer.root n } st (fun _ => 0) n dk' ∧
      Blooms { t2 with layers := (∅ : GoMap Hash Nat).insert e.layer.root n } st n dk' := by
  obtain ⟨above, b, hway, rfl⟩ := h.exists_way he
  obtain ⟨q, t₁, f, d, hflat, hf⟩ := flatten_chain hway.chain h.disk (h.separate hway)
    (Nat.lt_succ_of_lt (h.way_length hway))
  obtain ⟨s0, hs0, hok⟩ := h.content
  have hok1 : t₁.DiskOK dk.genMarker s0 := by
    refine ⟨?_, ?_⟩
    · rw [hf.diskdb]
      exact hok.disk
    · rw [hf.cache]
      exact hok.cache
  have hdisk := hf.old _ _ h.disk (h.ne_base (hway.linked b (by simp)).entry).symm
  obtain ⟨diskdb, cache, hwrite, hok2⟩ :=
    diffToDisk_spec hf.heap hf.parent hdisk h.live hf.data hok1
  refine ⟨q, t₁, _, _, newBase dk f.root, hflat, hwrite, rfl, ?_⟩
  have hone : ∀ {r p},
      ((∅ : GoMap Hash Nat).insert (top above b).layer.root t₁.heap.length).lookup r = some p →
      r = (top above b).layer.root ∧ p = t₁.heap.length := by
    exact fun hr => (lookup_insert_cases hr).resolve_right nofun
  have hnew : (t₁.heap.set base (.disk { dk with stale := true }) ++
      [.disk (newBase dk f.root)])[t₁.heap.length]? =
      some (.disk (newBase dk f.root)) := by
    rw [getElem?_append_right (by simp), length_set, Nat.sub_self]
    rfl
  -- no diff layer is left
  have hnone : ∀ {x : Entry F} {t2 : Tree F},
      t2.heap[t₁.heap.length]? = some (.disk (newBase dk f.root)) →
      t2.layers = (∅ : GoMap Hash Nat).insert (top above b).layer.root t₁.heap.length →
        ¬InTree t2 x := by
    intro x t2 hheap hlayers hx
    have hlookup := hx.lookup
    rw [hlayers] at hlookup
    have hxheap := hx.entry.heap
    simp [(hone hlookup).2, hheap] at hxheap
  refine ⟨⟨hnew, rfl, ?_, fun r hr => (hone hr).1.trans hf.root.symm, ?_, fun r p hr hp =>
    absurd (hone hr).2 hp, fun r p hr => ?_,
    fun e e' he => absurd he (hnone hnew rfl)⟩, fun e he => absurd he (hnone hnew rfl)⟩
  · rw [hf.root]
    exact lookup_insert _
  · refine ⟨_, ?_, hok2.disk, hok2.cache⟩
    rw [hf.root, hf.change]
    exact h.way_state hway hs0
  · simp

/-- **`Cap`** keeps the tree in order, if the layer that is cut off is the only one on its parent.
It fails only for a root that is not in the tree or is the disk layer. -/
theorem cap_spec (hbloom : Blooms t st base dk) {root : Hash} {layers : Int}
    (halone : t.capsAlone root layers = true) :
    ((t.cap root layers).1 = .ok () ∨ (t.cap root layers).1 = .error (.missing root) ∨
        (t.cap root layers).1 = .error (.isDiskLayer root)) ∧
      ∃ rank' base' dk', dk'.genMarker = dk.genMarker ∧
        Shape (t.cap root layers).2 st rank' base' dk' ∧
        Blooms (t.cap root layers).2 st base' dk' := by
  unfold cap
  cases hroot : t.layers.lookup root with
  | none => exact ⟨.inr (.inl rfl), rank, base, dk, rfl, h, hbloom⟩
  | some p =>
    by_cases hp : p = base
    · subst hp
      simp only [h.disk]
      exact ⟨.inr (.inr trivial), rank, p, dk, rfl, h, hbloom⟩
    obtain ⟨e, rfl, rfl, he⟩ := h.diffs root p hroot hp
    simp only [capsAlone, hroot, he.entry.heap] at halone
    simp only [he.entry.heap]
    by_cases hzero : t.allowedLayers e.layer layers = 0
    · obtain ⟨q, t₁, n, t2, dk', hflat, hwrite, hmarker, hshape, hblooms⟩ :=
        capAll_spec h he.toInTree
      simp only [if_pos hzero, hflat, hwrite]
      exact ⟨.inl trivial, _, n, dk', hmarker, hshape, hblooms⟩
    rw [if_neg hzero] at halone
    simp only [if_neg hzero]
    obtain hnone | ⟨x, hx, hbase, hcapped⟩ :=
      capped_spec h he.toInTree (t.allowedLayers e.layer layers)
    · have hstep : t.capTree e.ptr e.layer (t.allowedLayers e.layer layers) = (.ok none, t) := by
        simp [capTree, hnone]
      simp only [hstep, Option.bind_none]
      exact ⟨.inl trivial, rank, base, dk, rfl, h.same_layers h.lookup_removeStale,
        hbloom.same_layers h.lookup_removeStale⟩
    · rw [hcapped] at halone
      generalize hresult : t.capTree e.ptr e.layer (t.allowedLayers e.layer layers) = result
      have hspec := capTree_spec h hbloom hx hbase halone hcapped
      rw [hresult] at hspec
      cases hspec with
      | inMemory hshape hblooms =>
        simp only [Option.bind_none]
        exact ⟨.inl trivial, _, base, dk, rfl, hshape, hblooms⟩
      | @onDisk t' rank' n dk' hmarker hshape =>
        have hheap : t'.removeStale.heap[n]? = some (.disk dk') := hshape.disk
        simp only [Option.bind_some, hheap, Option.map_some]
        have hlookup : ∀ {r p}, t'.removeStale.layers.lookup r = some p →
            t'.layers.lookup r = some p :=
          fun hr => (Tree.lookup_removeStale.mp hr).2
        obtain ⟨hshape', hblooms'⟩ := rebloomAll_blooms hshape
          (fun e a he ha => mem_children.mpr ⟨e.ptr, hlookup he.lookup, ha⟩) fun a c p hc hr => by
            obtain ⟨p', hp', ha⟩ := mem_children.mp hc
            rw [hlookup hr] at hp'
            cases hp'
            exact ha
        exact ⟨.inl trivial, rank', n, dk', hmarker, hshape', hblooms'⟩

end GoQrl.Snapshot
