import GoQrl.Snapshot.Update

/-!
# GoQrl.Snapshot.Capping

`Cap` on a tree of snapshots in order.

`Cap` merges the layers below the layer `x` into one (`Flattened`), puts it into the place of the
parent of `x` (`Rewired`), writes it to disk if it is large, and removes what is stale with all that
is above (`Removed`).  If `x` is the only layer on its parent, then what is left is in order,
whether the merged layer stays in memory (`Site.shape_diff`) or is written to disk
(`Site.shape_disk`).
-/

namespace GoQrl.Snapshot

open Overlay Descend List Option Function Snapshot.Tree
open State (GoMap mem_keys_filter)

variable {F : Type}

/-! ## what is removed -/

variable {a r : Hash} {p base : Nat} {t : Tree F} {e y : Entry F}

namespace Tree

/-- What `removeStale` takes out of the tree. -/
def Removed (t : Tree F) (r : Hash) : Prop :=
  ∃ a ∈ t.staleRoots, Within t.children (t.heap.length + 2) a r

/-- Lookups in the tree without what goes stale. -/
theorem lookup_removeStale :
    t.removeStale.layers.lookup r = some p ↔ ¬t.Removed r ∧ t.layers.lookup r = some p := by
  rw [removeStale, lookup_foldl_eraseBelow fun a m => lookup_eraseBelow _ a r p m]
  simp [Removed]

theorem mem_children {c : Hash} :
    c ∈ t.children a ↔ ∃ p, t.layers.lookup c = some p ∧ t.parentRoot p = some a := by
  simp [children, mem_keys_filter]

/-- The roots at which a stale layer stands. -/
theorem mem_staleRoots :
    r ∈ t.staleRoots ↔ ∃ p o, t.layers.lookup r = some p ∧ t.heap[p]? = some o ∧
      o.isStale = true := by
  simp only [staleRoots, mem_keys_filter]
  refine exists_congr fun p => ?_
  cases t.heap[p]? <;> simp

/-- A stale layer is removed. -/
theorem removed_of_stale {o : Layer F} (hr : t.layers.lookup r = some p) (ho : t.heap[p]? = some o)
    (hstale : o.isStale = true) : t.Removed r :=
  ⟨r, mem_staleRoots.mpr ⟨p, o, hr, ho, hstale⟩, .inl rfl⟩

/-- What is removed is stale, or its parent is removed. -/
theorem Removed.stale_or_parent (h : t.Removed r) :
    ∃ p, t.layers.lookup r = some p ∧ ((∃ o, t.heap[p]? = some o ∧ o.isStale = true) ∨
      ∃ a, t.parentRoot p = some a ∧ t.Removed a) := by
  obtain ⟨b, hb, hwithin⟩ := h
  obtain rfl | ⟨c, hc, hchild⟩ := hwithin.eq_or_child
  · obtain ⟨p, o, hp, ho, hstale⟩ := mem_staleRoots.mp hb
    exact ⟨p, hp, .inl ⟨o, ho, hstale⟩⟩
  · obtain ⟨p, hp, hparent⟩ := mem_children.mp hchild
    exact ⟨p, hp, .inr ⟨c, hparent, b, hb, hc⟩⟩

/-- What is above a removed layer is removed, if the tree has ranks. -/
theorem Removed.child (h : t.Removed a) (hr : t.layers.lookup r = some p)
    (hparent : t.parentRoot p = some a) (rank : Hash → Nat)
    (hrank : ∀ {r p a}, t.layers.lookup r = some p → t.parentRoot p = some a → rank a < rank r)
    (hbound : ∀ r, rank r < t.heap.length + 2) : t.Removed r := by
  obtain ⟨b, hb, hwithin⟩ := h
  refine ⟨b, hb,
    within_child rank (fun a c hc => ?_) (hbound r) hwithin (mem_children.mpr ⟨p, hr, hparent⟩)⟩
  obtain ⟨q, hq, ha⟩ := mem_children.mp hc
  exact hrank hq ha

end Tree

/-! ## ranks of roots -/

/-- The rank of a root: the disk layer is the lowest. -/
def rootRank (t : Tree F) (rank : Nat → Nat) (dk : DiskLayer) (r : Hash) : Nat :=
  if r = dk.root then 0 else ((t.layers.lookup r).elim 0 fun p => rank p + 1)

namespace Shape

variable {st : States} {rank : Nat → Nat} {dk : DiskLayer} (h : Shape t st rank base dk)
include h

theorem root_ne_disk (he : InTree t e) : e.layer.root ≠ dk.root := by
  intro heq
  have hlookup := he.lookup
  rw [heq, h.bottom] at hlookup
  exact h.ne_base he.entry (some.inj hlookup).symm

theorem rootRank_of (he : InTree t e) : rootRank t rank dk e.layer.root = rank e.ptr + 1 := by
  rw [rootRank, if_neg (h.root_ne_disk he), he.lookup]
  rfl

/-- Ranks are bounded by the number of layers. -/
theorem rootRank_bound (r : Hash) : rootRank t rank dk r < t.heap.length + 2 := by
  rw [rootRank]
  split
  · omega
  · cases hr : t.layers.lookup r with
    | none => exact Nat.succ_pos _
    | some p =>
      have := h.ranks r p hr
      show rank p + 1 < _
      omega

theorem parentRoot_base : t.parentRoot base = none := by
  simp [parentRoot, h.disk]

/-- The parent of a layer of the tree has a lower rank. -/
theorem rootRank_lt (hr : t.layers.lookup r = some p) (hparent : t.parentRoot p = some a) :
    rootRank t rank dk a < rootRank t rank dk r := by
  by_cases hp : p = base
  · simp [hp, h.parentRoot_base] at hparent
  · obtain ⟨e, rfl, rfl, he⟩ := h.diffs r p hr hp
    rw [h.rootRank_of he.toInTree]
    by_cases hbase : e.layer.parent = base
    · simp only [parentRoot, he.entry.heap, hbase, h.disk, map_some, some.injEq] at hparent
      rw [rootRank, if_pos (show a = dk.root from hparent.symm)]
      omega
    · obtain ⟨q, hq, hqlinked, hlt, -⟩ := h.on_diff he.toInTree hbase
      simp only [parentRoot, he.entry.heap, ← hq, hqlinked.entry.heap, map_some,
        some.injEq] at hparent
      rw [← hparent]
      show rootRank t rank dk q.layer.root < _
      rw [h.rootRank_of hqlinked.toInTree]
      omega

end Shape

/-- Layers of the tree with the same root are the same. -/
theorem InTree.eq_of_root {z : Entry F} (hy : InTree t y) (hz : InTree t z)
    (hroot : y.layer.root = z.layer.root) : y = z := by
  have hlookup := hy.lookup
  rw [hroot, hz.lookup] at hlookup
  exact hy.entry.eq hz.entry (some.inj hlookup).symm

/-- What holds at the bottom of a chain and goes from each layer to the next one holds of all its
layers. -/
theorem Chain.up {above : List (Entry F)} {b : Entry F} (h : Chain t base above b)
    {p : Entry F → Prop}
    (hbottom : p b) (hstep : ∀ e ∈ above ++ [b], ∀ e' ∈ above ++ [b], e.layer.parent = e'.ptr →
      p e' → p e) :
    ∀ e ∈ above ++ [b], p e := by
  induction h with
  | bottom hb hparent =>
    intro e he
    rw [nil_append, mem_singleton] at he
    exact he ▸ hbottom
  | @above e0 b above he0 hparent hchain ih =>
    have hbelow :=
      ih hbottom fun e he e' he' => hstep e (mem_cons_of_mem _ he) e' (mem_cons_of_mem _ he')
    intro e he
    obtain rfl | he := mem_cons.mp he
    · exact hstep e mem_cons_self _ (mem_cons_of_mem _ (top_mem above b)) hparent
        (hbelow _ (top_mem above b))
    · exact hbelow e he

/-! ## the layer that is cut off -/

/-- The layer `x` stands alone on the topmost layer of a way down. -/
structure Site (t : Tree F) (st : States) (rank : Nat → Nat) (base : Nat) (dk : DiskLayer)
    (x : Entry F) (above : List (Entry F)) (b : Entry F) : Prop where
  shape : Shape t st rank base dk
  way : Way t st rank base above b
  cut : InTree t x
  parent : x.layer.parent = (top above b).ptr
  alone : ∀ y : Entry F, InTree t y → y.layer.parent = (top above b).ptr → y = x

/-- The layer `o` at `n` took the place of the parent of `x`: it stands on the disk layer, or it is
the new disk layer. -/
structure Rewired (t t₂ : Tree F) (base : Nat) (dk : DiskLayer) (x : Entry F)
    (above : List (Entry F)) (b : Entry F) (n : Nat) (o : Layer F) : Prop where
  fresh : t.heap.length ≤ n
  self : t₂.layers.lookup (top above b).layer.root = some n
  others : ∀ r, r ≠ (top above b).layer.root → t₂.layers.lookup r = t.layers.lookup r
  new : t₂.heap[n]? = some o
  root : o.root = (top above b).layer.root
  live : o.isStale = false
  cut : t₂.heap[x.ptr]? = some (.diff { x.layer with parent := n })
  bottom : above ≠ [] → t₂.heap[b.ptr]? = some (.diff { b.layer with stale := true })
  kind : (∃ f, o = .diff f ∧ f.parent = base ∧ t₂.heap[base]? = some (.disk dk)) ∨
    ∃ dk', o = .disk dk' ∧ t₂.heap[base]? = some (.disk { dk with stale := true })
  heap : ∀ (y : Nat) l, t.heap[y]? = some l → y ≠ x.ptr → y ≠ b.ptr → y ≠ base →
    t₂.heap[y]? = some l
  data : ∀ i, i ≠ b.layer.data → t₂.data[i]? = t.data[i]?
  slots : ∀ ref, (∀ e ∈ above ++ [b], ∀ a, e.data.storageData.lookup a ≠ some ref) →
    t₂.slots[ref]? = t.slots[ref]?

namespace Site

variable {t₂ : Tree F} {st : States} {rank : Nat → Nat} {dk : DiskLayer} {x : Entry F}
    {above : List (Entry F)}
  {b : Entry F} {n : Nat} {o : Layer F}

theorem parentRoot_base (h : Rewired t t₂ base dk x above b n o) : t₂.parentRoot base = none := by
  obtain ⟨f, -, -, hdisk⟩ | ⟨dk', -, hdisk⟩ := h.kind <;> simp [parentRoot, hdisk]

/-- The layer that is put in stands on nothing but the disk layer. -/
theorem parentRoot_new (h : Rewired t t₂ base dk x above b n o) (ha : t₂.parentRoot n = some a) :
    a = dk.root ∧ t₂.heap[base]? = some (.disk dk) := by
  obtain ⟨f, rfl, hparent, hdisk⟩ | ⟨dk', rfl, -⟩ := h.kind
  · simp only [parentRoot, h.new, hparent, hdisk, map_some, some.injEq] at ha
    exact ⟨ha.symm, hdisk⟩
  · simp only [parentRoot, h.new] at ha
    cases ha

/-- A layer of the old tree that is left. -/
structure Left (t t₂ : Tree F) (above : List (Entry F)) (b : Entry F) (y : Entry F) : Prop where
  inTree : InTree t y
  ne : y.layer.root ≠ (top above b).layer.root
  kept : ¬t₂.Removed y.layer.root

/-- The layer `x` moves to another parent. -/
def moved (x : Entry F) (n : Nat) (y : Entry F) : Entry F :=
  if y.ptr = x.ptr then { y with layer := { y.layer with parent := n } } else y

@[simp] theorem moved_ptr (x : Entry F) (n : Nat) (y : Entry F) : (moved x n y).ptr = y.ptr := by
  unfold moved
  split <;> rfl

@[simp] theorem moved_data (x : Entry F) (n : Nat) (y : Entry F) : (moved x n y).data = y.data := by
  unfold moved
  split <;> rfl

theorem moved_layer (x : Entry F) (n : Nat) (y : Entry F) :
    (moved x n y).layer =
    { y.layer with parent := if y.ptr = x.ptr then n else y.layer.parent } := by
  unfold moved
  split <;> rfl

variable (h : Site t st rank base dk x above b)
include h

theorem top_inTree : InTree t (top above b) :=
  (h.way.linked _ (top_mem above b)).toInTree

theorem bottom_inTree : InTree t b :=
  (h.way.linked b (by simp)).toInTree

/-- The layers that are merged are below the one that is kept. -/
theorem rank_lt : rank (top above b).ptr < rank x.ptr := by
  have hbase : x.layer.parent ≠ base := by
    rw [h.parent]
    exact h.shape.ne_base h.top_inTree.entry
  rw [← h.parent]
  exact (h.shape.linked h.cut).lower.resolve_left hbase

/-- The layer that is kept is not merged. -/
theorem cut_ne (he : e ∈ above ++ [b]) : e.ptr ≠ x.ptr := by
  intro heq
  have hle := h.way.rank_le he
  have hlt := h.rank_lt
  rw [heq] at hle
  omega

/-- The root on disk changes. -/
theorem root_ne : dk.root ≠ (top above b).layer.root := (h.shape.root_ne_disk h.top_inTree).symm

section

variable (hr : Rewired t t₂ base dk x above b n o)
include hr

/-- The objects have the roots they had. -/
theorem root_at {z : Nat} {l : Layer F} (hz : t.heap[z]? = some l) (hne : z ≠ (top above b).ptr) :
    ∃ l', t₂.heap[z]? = some l' ∧ l'.root = l.root := by
  by_cases hcut : z = x.ptr
  · subst hcut
    rw [h.cut.entry.heap] at hz
    cases hz
    exact ⟨_, hr.cut, rfl⟩
  by_cases hbottom : z = b.ptr
  · subst hbottom
    rw [h.bottom_inTree.entry.heap] at hz
    cases hz
    have habove : above ≠ [] := fun heq => hne (by rw [heq]; rfl)
    exact ⟨_, hr.bottom habove, rfl⟩
  by_cases hbase : z = base
  · subst hbase
    rw [h.shape.disk] at hz
    cases hz
    obtain ⟨f, -, -, hdisk⟩ | ⟨dk', -, hdisk⟩ := hr.kind <;> exact ⟨_, hdisk, rfl⟩
  · exact ⟨l, hr.heap z l hz hcut hbottom hbase, rfl⟩

/-- The parents have the roots they had. -/
theorem parentRoot_eq (hy : InTree t y) (hne : y.layer.root ≠ (top above b).layer.root) :
    t₂.parentRoot y.ptr = t.parentRoot y.ptr := by
  by_cases hcut : y.ptr = x.ptr
  · rw [hy.entry.eq h.cut.entry hcut]
    simp only [parentRoot, hr.cut, hr.new, h.cut.entry.heap, h.parent, h.top_inTree.entry.heap,
      map_some, hr.root]
    rfl
  · obtain ⟨q, -, hq, -⟩ := (h.shape.linked hy).parent
    have hparent : y.layer.parent ≠ (top above b).ptr := fun heq => hcut (by rw [h.alone y hy heq])
    obtain ⟨q', hq', hroot⟩ := h.root_at hr hq hparent
    have hlayer : ∃ l, t₂.heap[y.ptr]? = some (.diff l) ∧ l.parent = y.layer.parent := by
      by_cases hbottom : y.ptr = b.ptr
      · have heq := hy.entry.eq h.bottom_inTree.entry hbottom
        have habove : above ≠ [] := fun hnil => hne (by rw [heq, hnil]; rfl)
        rw [heq]
        exact ⟨_, hr.bottom habove, rfl⟩
      · exact ⟨_, hr.heap _ _ hy.entry.heap hcut hbottom (h.shape.ne_base hy.entry), rfl⟩
    obtain ⟨l, hl, hlparent⟩ := hlayer
    simp [parentRoot, hl, hlparent, hq', hy.entry.heap, hq, hroot]

/-- What is above a removed layer is removed. -/
theorem removed_child (ha : t₂.Removed a) (hlookup : t₂.layers.lookup r = some p)
    (hparent : t₂.parentRoot p = some a) : t₂.Removed r := by
  refine ha.child hlookup hparent (rootRank t rank dk) (fun {r p a} hlookup hparent => ?_) fun r =>
    ?_
  · by_cases hroot : r = (top above b).layer.root
    · rw [hroot, hr.self] at hlookup
      cases hlookup
      rw [(parentRoot_new hr hparent).1, rootRank, if_pos rfl, hroot,
        h.shape.rootRank_of h.top_inTree]
      omega
    · rw [hr.others r hroot] at hlookup
      by_cases hp : p = base
      · simp [hp, parentRoot_base hr] at hparent
      · obtain ⟨y, rfl, rfl, hy⟩ := h.shape.diffs r p hlookup hp
        rw [h.parentRoot_eq hr hy.toInTree hroot] at hparent
        exact h.shape.rootRank_lt hlookup hparent
  · have := h.shape.rootRank_bound r
    have := index_lt hr.new
    have := hr.fresh
    omega

/-- The disk layer is kept with the layer that stands on it. -/
theorem disk_kept (hdisk : t₂.heap[base]? = some (.disk dk)) : ¬t₂.Removed dk.root := by
  intro hgone
  obtain ⟨p, hp, hwhy⟩ := hgone.stale_or_parent
  rw [hr.others _ h.root_ne, h.shape.bottom] at hp
  cases hp
  obtain ⟨l, hl, hstale⟩ | ⟨a, ha, -⟩ := hwhy
  · rw [hdisk] at hl
    cases hl
    exact absurd (h.shape.live.symm.trans hstale) Bool.false_ne_true
  · rw [parentRoot_base hr] at ha
    cases ha

/-- The layer that is put in is kept. -/
theorem top_kept : ¬t₂.Removed (top above b).layer.root := by
  intro hremoved
  obtain ⟨p, hp, hwhy⟩ := hremoved.stale_or_parent
  rw [hr.self] at hp
  cases hp
  obtain ⟨l, hl, hstale⟩ | ⟨a, ha, hgone⟩ := hwhy
  · rw [hr.new] at hl
    cases hl
    rw [hr.live] at hstale
    cases hstale
  · obtain ⟨rfl, hdisk⟩ := parentRoot_new hr ha
    exact h.disk_kept hr hdisk hgone

/-- The merged layer stands at the root of the highest one. -/
theorem top_lookup : t₂.removeStale.layers.lookup (top above b).layer.root = some n :=
  lookup_removeStale.mpr ⟨h.top_kept hr, hr.self⟩

/-- The merged layers are removed. -/
theorem chain_removed (he : e ∈ above ++ [b]) (hne : e.layer.root ≠ (top above b).layer.root) :
    t₂.Removed e.layer.root := by
  have hbottom : b.layer.root ≠ (top above b).layer.root → t₂.Removed b.layer.root := by
    intro hne
    have habove : above ≠ [] := fun hnil => hne (by rw [hnil]; rfl)
    refine removed_of_stale ?_ (hr.bottom habove) rfl
    rw [hr.others _ hne]
    exact h.bottom_inTree.lookup
  refine h.way.chain.up (p := fun e => e.layer.root ≠ (top above b).layer.root →
    t₂.Removed e.layer.root) hbottom ?_ e he hne
  intro e he e' he' hparent ih hne
  have hin := h.way.linked e he
  have hin' := h.way.linked e' he'
  -- the layer below is not the topmost one
  have hne' : e'.layer.root ≠ (top above b).layer.root := by
    intro hroot
    have heq := hin'.toInTree.eq_of_root h.top_inTree hroot
    have hle := h.way.rank_le he
    have hlt : rank e.layer.parent < rank e.ptr := by
      refine hin.lower.resolve_left ?_
      rw [hparent]
      exact h.shape.ne_base hin'.entry
    rw [hparent, heq] at hlt
    omega
  refine h.removed_child hr (ih hne') ((hr.others _ hne).trans hin.lookup) ?_
  rw [h.parentRoot_eq hr hin.toInTree hne]
  simp only [parentRoot, hin.entry.heap, hparent, hin'.entry.heap, map_some]
  rfl

/-! ## what is left -/

section

variable (hy : Left t t₂ above b y)
include hy

/-- None of the merged layers is left. -/
theorem not_merged (he : e ∈ above ++ [b]) : y.ptr ≠ e.ptr := by
  intro hptr
  have heq := hy.inTree.entry.eq (h.way.linked e he).entry hptr
  exact hy.kept (heq ▸ h.chain_removed hr he (heq ▸ hy.ne))

/-- The maps of what is left are as they were. -/
theorem left_maps : t₂.data[y.layer.data]? = t.data[y.layer.data]? ∧
      ∀ a ref, y.data.storageData.lookup a = some ref → t₂.slots[ref]? = t.slots[ref]? := by
  refine ⟨hr.data _ ?_, fun a ref ha => hr.slots ref fun e he a' ha' => ?_⟩
  · exact (h.shape.apart y b hy.inTree h.bottom_inTree (h.not_merged hr hy (by simp))).1
  · exact (h.shape.apart y e hy.inTree (h.way.linked e he).toInTree (h.not_merged hr hy he)).2 a
      a' ref ha ha'

/-- The layers that are left write what they wrote before. -/
theorem left_change : y.data.change t₂.slots = y.data.change t.slots :=
  DiffData.change_congr (h.left_maps hr hy).2

theorem left_at : (moved x n y).At t₂ := by
  have hlayer := moved_layer x n y
  obtain ⟨hdata, hslots⟩ := h.left_maps hr hy
  refine ⟨?_, ?_, ?_, ?_⟩
  · rw [moved_ptr, hlayer]
    by_cases hcut : y.ptr = x.ptr
    · rw [hy.inTree.entry.eq h.cut.entry hcut, if_pos rfl]
      exact hr.cut
    · rw [if_neg hcut]
      exact hr.heap _ _ hy.inTree.entry.heap hcut (h.not_merged hr hy (by simp))
        (h.shape.ne_base hy.inTree.entry)
  · rw [hlayer]
    exact hy.inTree.entry.live
  · rw [hlayer, moved_data]
    exact hdata.trans hy.inTree.entry.data
  · rw [moved_data]
    have hkept : Kept t { t₂ with heap := t.heap } y := ⟨rfl, hdata, hslots⟩
    exact hkept.wf hy.inTree.entry.wf

/-- What is left stands on what is left. -/
theorem left_parent (hcut : y.ptr ≠ x.ptr) {q : Layer F} (hq : t.heap[y.layer.parent]? = some q)
    (hlookup : t.layers.lookup q.root = some y.layer.parent) :
    t₂.removeStale.layers.lookup q.root = some y.layer.parent ∧
      ∃ q', t₂.heap[y.layer.parent]? = some q' ∧ q'.root = q.root := by
  have hparent : y.layer.parent ≠ (top above b).ptr :=
    fun heq => hcut (by rw [h.alone y hy.inTree heq])
  have hne : q.root ≠ (top above b).layer.root := by
    intro heq
    rw [heq, h.top_inTree.lookup] at hlookup
    exact hparent (some.inj hlookup).symm
  refine ⟨lookup_removeStale.mpr ⟨fun hgone => hy.kept ?_, (hr.others _ hne).trans hlookup⟩,
    h.root_at hr hq hparent⟩
  refine h.removed_child hr hgone ((hr.others _ hy.ne).trans hy.inTree.lookup) ?_
  rw [h.parentRoot_eq hr hy.inTree hy.ne]
  simp [parentRoot, hy.inTree.entry.heap, hq]

omit h in
/-- They are still found at their roots. -/
theorem left_lookup : t₂.removeStale.layers.lookup y.layer.root = some y.ptr :=
  lookup_removeStale.mpr ⟨hy.kept, (hr.others _ hy.ne).trans hy.inTree.lookup⟩

/-- **What is left** is linked to its parents. -/
theorem left_linked {base' : Nat} (hbase : base' = base ∨ t₂.Removed dk.root) :
    Linked t₂.removeStale st (update rank n (rank (top above b).ptr)) base' (moved x n y) := by
  have hat := h.left_at hr hy
  have hlayer := moved_layer x n y
  have hrank : ∀ {z : Nat} {l : Layer F}, t.heap[z]? = some l →
      update rank n (rank (top above b).ptr) z = rank z := by
    intro z l hz
    have hlt := index_lt hz
    have := hr.fresh
    exact update_of_ne (by omega) _ _
  have hroot : (moved x n y).layer.root = y.layer.root := by rw [hlayer]
  have hchange : (moved x n y).data.change t₂.removeStale.slots = y.data.change t.slots := by
    rw [moved_data]
    exact (h.left_change hr hy :)
  have hlookup := left_lookup hr hy
  obtain ⟨q, s, hq, hqroot, hs, hst⟩ := (h.shape.linked hy.inTree).parent
  refine ⟨⟨?_, { hat with }⟩, ?_, ?_⟩
  · rwa [hroot, moved_ptr]
  · rw [moved_ptr, hlayer, hrank hy.inTree.entry.heap]
    by_cases hcut : y.ptr = x.ptr
    · right
      simp only [if_pos hcut, update_self]
      rw [hcut]
      exact h.rank_lt
    · simp only [if_neg hcut]
      obtain hlow | hlow := (h.shape.linked hy.inTree).lower
      · left
        obtain rfl | hgone := hbase
        · exact hlow
        · have hparent := h.left_parent hr hy hcut hq hqroot
          rw [hlow, h.shape.disk] at hq
          cases hq
          exact absurd hgone (lookup_removeStale.mp hparent.1).1
      · right
        rwa [hrank hq]
  · rw [hroot, hchange]
    by_cases hcut : y.ptr = x.ptr
    · have heq := hy.inTree.entry.eq h.cut.entry hcut
      have hq' := hq
      rw [heq, h.parent, h.top_inTree.entry.heap] at hq'
      cases hq'
      refine ⟨o, s, ?_, ?_, ?_, hst⟩
      · rw [hlayer]
        simp only [if_pos hcut]
        exact hr.new
      · rw [hlayer, hr.root]
        simp only [if_pos hcut]
        exact h.top_lookup hr
      · rwa [hr.root]
    · obtain ⟨hkept, q', hq', hqroot'⟩ := h.left_parent hr hy hcut hq hqroot
      refine ⟨q', s, ?_, ?_, ?_, hst⟩
      · rw [hlayer]
        simp only [if_neg hcut]
        exact hq'
      · rw [hlayer, hqroot']
        simp only [if_neg hcut]
        exact hkept
      · rwa [hqroot']

end

/-- The roots that are in the tree afterwards. -/
theorem left_of_lookup (hlookup : t₂.removeStale.layers.lookup r = some p) :
    r = (top above b).layer.root ∧ p = n ∨
      r ≠ (top above b).layer.root ∧ (p = base ∧ r = dk.root ∧ ¬t₂.Removed dk.root ∨
        ∃ y : Entry F, Left t t₂ above b y ∧ y.ptr = p ∧ y.layer.root = r) := by
  obtain ⟨hkept, hlookup⟩ := lookup_removeStale.mp hlookup
  by_cases hroot : r = (top above b).layer.root
  · rw [hroot, hr.self] at hlookup
    exact .inl ⟨hroot, (some.inj hlookup).symm⟩
  · refine .inr ⟨hroot, ?_⟩
    rw [hr.others r hroot] at hlookup
    by_cases hp : p = base
    · subst hp
      have hdk := h.shape.only r hlookup
      exact .inl ⟨rfl, hdk, hdk ▸ hkept⟩
    · obtain ⟨y, rfl, rfl, hy⟩ := h.shape.diffs r p hlookup hp
      exact .inr ⟨y, ⟨hy.toInTree, hroot, hkept⟩, rfl, rfl⟩

/-- The layers that are in the tree afterwards. -/
theorem left_of_inTree (he : InTree t₂.removeStale e) :
    e.layer.root = (top above b).layer.root ∧ e.ptr = n ∨ ∃ y, Left t t₂ above b y ∧
      e = moved x n y := by
  have hat : e.At t₂ := { he.entry with }
  obtain hnew | ⟨-, ⟨hp, -⟩ | ⟨y, hy, hptr, -⟩⟩ := h.left_of_lookup hr he.lookup
  · exact .inl hnew
  · have hheap := hat.heap
    rw [hp] at hheap
    obtain ⟨f, -, -, hdisk⟩ | ⟨dk', -, hdisk⟩ := hr.kind <;> rw [hdisk] at hheap <;> cases hheap
  · exact .inr ⟨y, hy, hat.eq (h.left_at hr hy) (by rw [moved_ptr, hptr])⟩

/-- Their ranks are still bounded by the number of layers. -/
theorem left_ranks (hlookup : t₂.removeStale.layers.lookup r = some p) :
    update rank n (rank (top above b).ptr) p < t₂.removeStale.heap.length := by
  have hlen := index_lt hr.new
  have hfresh := hr.fresh
  have hrank : ∀ {r p}, t.layers.lookup r = some p →
      update rank n (rank (top above b).ptr) p < t₂.heap.length := by
    intro r p hp
    have := h.shape.ranks r p hp
    have := h.shape.ranks _ _ h.top_inTree.lookup
    rw [update_apply]
    split <;> omega
  obtain ⟨-, rfl⟩ | ⟨-, ⟨rfl, -⟩ | ⟨y, hy, rfl, -⟩⟩ := h.left_of_lookup hr hlookup
  · have := h.shape.ranks _ _ h.top_inTree.lookup
    rw [update_self]
    show _ < t₂.heap.length
    omega
  · exact hrank h.shape.bottom
  · exact hrank hy.inTree.lookup

omit hr in
/-- What is left shares nothing. -/
theorem left_apart {z : Entry F} (hy : Left t t₂ above b y) (hz : Left t t₂ above b z)
    (hne : (moved x n y).ptr ≠ (moved x n z).ptr) :
    (moved x n y).layer.data ≠ (moved x n z).layer.data ∧
    (moved x n y).data.Apart (moved x n z).data := by
  rw [moved_ptr, moved_ptr] at hne
  rw [moved_layer, moved_layer, moved_data, moved_data]
  exact h.shape.apart y z hy.inTree hz.inTree hne

end

/-- **The merged layer stays in memory**: the tree is in order again. -/
theorem shape_diff {f : DiffLayer F} {d : DiffData}
    (hr : Rewired t t₂ base dk x above b n (.diff f))
    (he : Entry.At t₂ ⟨n, f, d⟩) (hchange : d.change t₂.slots = chainChange t.slots above b)
    (hdata : f.data = b.layer.data)
    (hrefs : ∀ a ref, d.storageData.lookup a = some ref → ∃ e ∈ above ++ [b],
      e.data.storageData.lookup a = some ref)
    (hdiskdb : t₂.diskdb = t.diskdb) (hcache : t₂.cache = t.cache) :
    Shape t₂.removeStale st (update rank n (rank (top above b).ptr)) base dk := by
  obtain ⟨hparent, hdisk⟩ : f.parent = base ∧ t₂.heap[base]? = some (.disk dk) := by
    obtain ⟨f, heq, hparent, hdisk⟩ | ⟨dk', heq, -⟩ := hr.kind <;> cases heq
    exact ⟨hparent, hdisk⟩
  have hkept := h.disk_kept hr hdisk
  have hbottom : t₂.removeStale.layers.lookup dk.root = some base :=
    lookup_removeStale.mpr ⟨hkept, (hr.others _ (h.root_ne)).trans h.shape.bottom⟩
  have hlt := index_lt h.shape.disk
  have hfresh := hr.fresh
  have hnewEntry : ∀ {e : Entry F}, InTree t₂.removeStale e → e.ptr = n → e = ⟨n, f, d⟩ :=
    fun he' hptr =>
    Entry.At.eq (t := t₂) { he'.entry with } he hptr
  have happart : ∀ {y : Entry F}, Left t t₂ above b y →
      f.data ≠ (moved x n y).layer.data ∧ d.Apart (moved x n y).data := by
    intro y hy
    rw [moved_layer, moved_data, hdata]
    refine ⟨(h.shape.apart b y h.bottom_inTree hy.inTree (h.not_merged hr hy (by simp)).symm).1,
      fun a a' ref ha => ?_⟩
    obtain ⟨e, hmem, ha⟩ := hrefs a ref ha
    exact (h.shape.apart e y (h.way.linked e hmem).toInTree hy.inTree
      (h.not_merged hr hy hmem).symm).2 a a' ref ha
  obtain ⟨s0, hs0, hok⟩ := h.shape.content
  constructor
  case disk => exact hdisk
  case live => exact h.shape.live
  case bottom => exact hbottom
  case only =>
    intro r hlookup
    obtain ⟨-, hp⟩ | ⟨-, ⟨-, hroot, -⟩ | ⟨y, hy, hp, -⟩⟩ := h.left_of_lookup hr hlookup
    · omega
    · exact hroot
    · exact absurd hp (h.shape.ne_base hy.inTree.entry)
  case content =>
    refine ⟨s0, hs0, ?_⟩
    exact ⟨fun key hcov => (congrFun hdiskdb key ▸ hok.disk key hcov :), fun key hcov blob hblob =>
      hok.cache key hcov blob (hcache ▸ hblob)⟩
  case diffs =>
    intro r p hlookup hp
    obtain ⟨hroot, rfl⟩ | ⟨-, ⟨hbase, -⟩ | ⟨y, hy, rfl, rfl⟩⟩ := h.left_of_lookup hr hlookup
    · have hfroot : f.root = (top above b).layer.root := hr.root
      refine ⟨⟨p, f, d⟩, rfl, hfroot.trans hroot.symm, ⟨?_, { he with }⟩, .inl hparent, .disk dk,
        s0, ?_, ?_, hs0, ?_⟩
      · rw [hfroot]
        exact h.top_lookup hr
      · rwa [hparent]
      · rwa [hparent]
      · show st f.root = some (apply (d.change t₂.slots) s0)
        rw [hfroot, hchange]
        exact h.shape.way_state h.way hs0
    · exact absurd hbase hp
    · exact ⟨moved x n y, moved_ptr x n y, by rw [moved_layer], h.left_linked hr hy (.inl rfl)⟩
  case ranks => exact fun r p hlookup => h.left_ranks hr hlookup
  case apart =>
    intro e e' hin hin' hne
    obtain ⟨-, hptr⟩ | ⟨y, hy, rfl⟩ := h.left_of_inTree hr hin <;>
      obtain ⟨-, hptr'⟩ | ⟨z, hz, rfl⟩ := h.left_of_inTree hr hin'
    · exact absurd (hptr.trans hptr'.symm) hne
    · rw [hnewEntry hin hptr]
      exact happart hz
    · rw [hnewEntry hin' hptr']
      exact ⟨(happart hy).1.symm, (happart hy).2.symm⟩
    · exact h.left_apart hy hz hne

/-- The filters still have all keys of the layers below. -/
theorem blooms_diff [Bloom F] {f : DiffLayer F} (hr : Rewired t t₂ base dk x above b n (.diff f))
    (hbloom : Blooms t st base dk) (hdiffed : f.diffed = (top above b).layer.diffed)
    (horigin : f.origin = b.layer.origin) : Blooms t₂.removeStale st base dk := by
  intro e he
  obtain ⟨hroot, hptr⟩ | ⟨y, hy, rfl⟩ := h.left_of_inTree hr he
  · have hheap : t₂.heap[e.ptr]? = some (.diff e.layer) := he.entry.heap
    rw [hptr, hr.new] at hheap
    cases hheap
    have htop := hbloom _ h.top_inTree
    refine ⟨horigin.trans (hbloom b h.bottom_inTree).origin, fun s s0 hs => ?_⟩
    rw [hroot] at hs
    rw [hdiffed]
    exact htop.hits s s0 hs
  · have hy' := hbloom y hy.inTree
    rw [moved_layer]
    exact ⟨hy'.origin, hy'.hits⟩

/-- **The merged layer is written to disk**: the tree over the new disk layer is in order. -/
theorem shape_disk {dk' : DiskLayer} {s : State} (hr : Rewired t t₂ base dk x above b n (.disk dk'))
    (hs : st (top above b).layer.root = some s) (hok : t₂.DiskOK dk'.genMarker s) :
    Shape t₂.removeStale st (update rank n (rank (top above b).ptr)) n dk' := by
  have hgone : t₂.Removed dk.root := by
    obtain ⟨f, heq, -⟩ | ⟨dk'', -, hdisk⟩ := hr.kind
    · cases heq
    · exact removed_of_stale ((hr.others _ (h.root_ne)).trans h.shape.bottom) hdisk rfl
  have hroot : dk'.root = (top above b).layer.root := hr.root
  constructor
  case disk => exact hr.new
  case live => exact hr.live
  case bottom =>
    rw [hroot]
    exact h.top_lookup hr
  case only =>
    intro r hlookup
    obtain ⟨heq, -⟩ | ⟨-, ⟨-, -, hkept⟩ | ⟨y, hy, hp, -⟩⟩ := h.left_of_lookup hr hlookup
    · exact heq.trans hroot.symm
    · exact absurd hgone hkept
    · have hlt := index_lt hy.inTree.entry.heap
      have := hr.fresh
      omega
  case content => exact ⟨s, hroot ▸ hs, hok.disk, hok.cache⟩
  case diffs =>
    intro r p hlookup hp
    obtain ⟨-, heq⟩ | ⟨-, ⟨-, -, hkept⟩ | ⟨y, hy, rfl, rfl⟩⟩ := h.left_of_lookup hr hlookup
    · exact absurd heq hp
    · exact absurd hgone hkept
    · exact ⟨moved x n y, moved_ptr x n y, by rw [moved_layer], h.left_linked hr hy (.inr hgone)⟩
  case ranks => exact fun r p hlookup => h.left_ranks hr hlookup
  case apart =>
    have hnot : ∀ {e : Entry F}, InTree t₂.removeStale e → e.ptr ≠ n := by
      intro e he hptr
      have hheap : t₂.heap[e.ptr]? = some (.diff e.layer) := he.entry.heap
      simp [hptr, hr.new] at hheap
    intro e e' hin hin' hne
    obtain ⟨y, hy, rfl⟩ := (h.left_of_inTree hr hin).resolve_left fun hnew => hnot hin hnew.2
    obtain ⟨z, hz, rfl⟩ := (h.left_of_inTree hr hin').resolve_left fun hnew => hnot hin' hnew.2
    exact h.left_apart hy hz hne

end Site

end GoQrl.Snapshot
