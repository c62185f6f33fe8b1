import GoQrl.Snapshot.Update

/-!
# GoQrl.Snapshot.Rebloom

The bloom filters after a new disk layer: `Cap` makes them again, from the disk layer upwards.

Only filters and origins change (`Rebloomed`), so the tree stays in order.  A layer whose parent is
in order is in order after its filter was made, whatever the filters of the others are; as the
parents come first, all layers are in order in the end (`rebloomAll_blooms`).
-/

namespace GoQrl.Snapshot

open Overlay Descend List Option Snapshot.Tree
open State (GoMap)

variable {F : Type}

/-! ## trees that differ in their filters -/

/-- A layer without origin and filter. -/
def Layer.plain : Layer F → Layer Unit
  | .diff l => .diff ⟨0, l.parent, l.memory, l.root, l.stale, l.data, ()⟩
  | .disk dk => .disk dk

/-- Only origins and filters are changed. -/
structure Rebloomed (t t' : Tree F) : Prop where
  heap : t'.heap.map Layer.plain = t.heap.map Layer.plain
  data : t'.data = t.data
  slots : t'.slots = t.slots
  layers : t'.layers = t.layers
  diskdb : t'.diskdb = t.diskdb
  cache : t'.cache = t.cache

variable {dk : DiskLayer} {e : Entry F} {t t' : Tree F}

namespace Rebloomed

variable {t'' : Tree F}

theorem refl (t : Tree F) : Rebloomed t t := ⟨rfl, rfl, rfl, rfl, rfl, rfl⟩

variable (h : Rebloomed t t') {p : Nat}
include h

theorem symm : Rebloomed t' t :=
  ⟨h.heap.symm, h.data.symm, h.slots.symm, h.layers.symm, h.diskdb.symm, h.cache.symm⟩

theorem trans (h' : Rebloomed t' t'') : Rebloomed t t'' :=
  ⟨h'.heap.trans h.heap, h'.data.trans h.data, h'.slots.trans h.slots, h'.layers.trans h.layers,
    h'.diskdb.trans h.diskdb, h'.cache.trans h.cache⟩

theorem length : t'.heap.length = t.heap.length := by
  have hlen := congrArg List.length h.heap
  rwa [length_map, length_map] at hlen

theorem plain_at {o : Layer F} (ho : t.heap[p]? = some o) :
    ∃ o', t'.heap[p]? = some o' ∧ o'.plain = o.plain := by
  have hp := congrArg (fun l => l[p]?) h.heap
  simpa only [getElem?_map, ho, map_some, map_eq_some_iff] using hp

theorem disk_at (hp : t.heap[p]? = some (.disk dk)) : t'.heap[p]? = some (.disk dk) := by
  obtain ⟨o, ho, hplain⟩ := h.plain_at hp
  cases o with
  | diff l => cases hplain
  | disk dk' =>
    cases hplain
    exact ho

theorem root_at {o : Layer F} (ho : t.heap[p]? = some o) :
    ∃ o', t'.heap[p]? = some o' ∧ o'.root = o.root := by
  obtain ⟨o', ho', hplain⟩ := h.plain_at ho
  have hroot : ∀ l : Layer F, l.plain.root = l.root := fun l => by cases l <;> rfl
  exact ⟨o', ho', by rw [← hroot o', hplain, hroot]⟩

/-- The same layer, with another origin and filter. -/
structure Same (e e' : Entry F) : Prop where
  ptr : e'.ptr = e.ptr
  data : e'.data = e.data
  root : e'.layer.root = e.layer.root
  parent : e'.layer.parent = e.layer.parent
  stale : e'.layer.stale = e.layer.stale
  dataPtr : e'.layer.data = e.layer.data

theorem inTree (he : InTree t e) : ∃ e', InTree t' e' ∧ Same e e' := by
  obtain ⟨o, ho, hplain⟩ := h.plain_at he.entry.heap
  cases o with
  | disk dk => cases hplain
  | diff l =>
    simp only [Layer.plain, Layer.diff.injEq, DiffLayer.mk.injEq, true_and, and_true] at hplain
    obtain ⟨hparent, -, hroot, hstale, hdata⟩ := hplain
    refine ⟨⟨e.ptr, l, e.data⟩, ⟨?_, ho, hstale.trans he.entry.live, ?_, ?_⟩, rfl, rfl, hroot,
      hparent, hstale, hdata⟩
    · rw [h.layers, hroot]
      exact he.lookup
    · rw [h.data, hdata]
      exact he.entry.data
    · rw [h.slots]
      exact he.entry.wf

theorem parentRoot (he : InTree t e) {a : Hash} (ha : t.parentRoot e.ptr = some a) :
    t'.parentRoot e.ptr = some a := by
  obtain ⟨e', he', hsame⟩ := h.inTree he
  simp only [Tree.parentRoot, he.entry.heap, map_eq_some_iff] at ha
  obtain ⟨o, ho, rfl⟩ := ha
  obtain ⟨o', ho', hroot⟩ := h.root_at ho
  rw [← hsame.ptr]
  simp [Tree.parentRoot, he'.entry.heap, hsame.parent, ho', hroot]

end Rebloomed

/-- The tree stays in order. -/
theorem Shape.rebloomed {st : States} {rank : Nat → Nat} {base : Nat} (h : Shape t st rank base dk)
    (hr : Rebloomed t t') : Shape t' st rank base dk := by
  constructor
  case disk => exact hr.disk_at h.disk
  case live => exact h.live
  case bottom =>
    rw [hr.layers]
    exact h.bottom
  case only =>
    rw [hr.layers]
    exact h.only
  case content =>
    obtain ⟨s, hs, hok⟩ := h.content
    refine ⟨s, hs, ?_, ?_⟩
    · rw [hr.diskdb]
      exact hok.disk
    · rw [hr.cache]
      exact hok.cache
  case diffs =>
    intro r p hlookup hp
    rw [hr.layers] at hlookup
    obtain ⟨e, rfl, rfl, he⟩ := h.diffs r p hlookup hp
    obtain ⟨e', he', hsame⟩ := hr.inTree he.toInTree
    obtain ⟨q, s, hq, hqroot, hs, hst⟩ := he.parent
    obtain ⟨q', hq', hroot⟩ := hr.root_at hq
    refine ⟨e', hsame.ptr, hsame.root, he', ?_, q', s, ?_, ?_, ?_, ?_⟩
    · rw [hsame.parent, hsame.ptr]
      exact he.lower
    · rw [hsame.parent]
      exact hq'
    · rwa [hroot, hr.layers, hsame.parent]
    · rwa [hroot]
    · rwa [hsame.root, hsame.data, hr.slots]
  case ranks =>
    rw [hr.layers, hr.length]
    exact h.ranks
  case apart =>
    intro e e' he he' hne
    obtain ⟨x, hx, hsame⟩ := hr.symm.inTree he
    obtain ⟨x', hx', hsame'⟩ := hr.symm.inTree he'
    rw [← hsame.dataPtr, ← hsame'.dataPtr, ← hsame.data, ← hsame'.data]
    exact h.apart x x' hx hx' (by rw [hsame.ptr, hsame'.ptr]; exact hne)

/-! ## making filters -/

variable [Bloom F]

theorem rebloomed_rebloom (t : Tree F) (ptr origin : Nat) : Rebloomed t (t.rebloom ptr origin) := by
  unfold rebloom
  split
  next dl hdl =>
    refine ⟨?_, rfl, rfl, rfl, rfl, rfl⟩
    have hlt := index_lt hdl
    simp only [setLayer, map_set]
    refine ext_getElem? fun i => ?_
    rw [getElem?_set]
    split
    next heq =>
      subst heq
      simp only [length_map, hlt, if_true, getElem?_map, hdl, map_some]
      rfl
    · rfl
  · exact .refl t

theorem rebloomed_rebloomAll (children : Hash → List Hash) (origin fuel : Nat) (t : Tree F)
    (root : Hash) :
    Rebloomed t (rebloomAll children origin fuel t root) := by
  induction fuel generalizing t root with
  | zero => exact .refl t
  | succ fuel ih =>
    refine .trans ?_ (foldlRecOn (children root) _ (.refl _) fun t' ht root _ =>
      ht.trans (ih t' root))
    split
    · exact rebloomed_rebloom _ _ _
    · exact .refl t

section

variable {st : States} {rank : Nat → Nat} {base : Nat} {children : Hash → List Hash}

/-- The layer under this root, if it is in the tree, is in order. -/
def BloomedAt (st : States) (base : Nat) (dk : DiskLayer) (t : Tree F) (r : Hash) : Prop :=
  ∀ e : Entry F, InTree t e → e.layer.root = r → Bloomed st base dk e.layer

/-- The parent of the layer is in order. -/
def ParentBloomed (st : States) (base : Nat) (dk : DiskLayer) (t : Tree F) (r : Hash) : Prop :=
  ∀ e : Entry F, InTree t e → e.layer.root = r → e.layer.parent = base ∨
    ∃ a, t.parentRoot e.ptr = some a ∧ BloomedAt st base dk t a

/-- A new filter over a parent in order. -/
theorem rebloom_bloomed (h : Shape t st rank base dk) (he : InTree t e)
    (hparent : ParentBloomed st base dk t e.layer.root) {f : F}
    (hhits : ∀ key, e.data.change t.slots key ≠ none → Hits f key)
    (hinherits : ∀ q : DiffLayer F, t.heap[e.layer.parent]? = some (.diff q) →
      ∀ k, Bloom.contains q.diffed k = true → Bloom.contains f k = true) :
    Bloomed st base dk { e.layer with origin := base, diffed := f } := by
  by_cases hbase : e.layer.parent = base
  · obtain ⟨s, hs, -⟩ := h.content
    refine .mk_above rfl (h.on_base he hbase hs) hhits fun s0 hs0 key hne => ?_
    rw [hs] at hs0
    exact absurd (congrFun (some.inj hs0) key) hne
  · obtain ⟨q, hq, hqlinked, -, s, hs, hst⟩ := h.on_diff he hbase
    obtain ⟨a, ha, hgood⟩ := (hparent e he rfl).resolve_left hbase
    have hheap : t.heap[e.layer.parent]? = some (.diff q.layer) := hq ▸ hqlinked.entry.heap
    simp only [Tree.parentRoot, he.entry.heap, hheap, map_some, some.injEq] at ha
    have hq' := hgood q hqlinked.toInTree ha
    have hinherits := hinherits _ hheap
    exact .mk_above rfl hst hhits fun s0 hs0 key hne =>
      (hq'.hits s s0 hs hs0 key hne).imp (hinherits _) (hinherits _)

/-- Making one filter: the others stay in order, and this one is in order if its parent is. -/
theorem rebloom_at (h : Shape t st rank base dk) {r : Hash} {p : Nat}
    (hp : t.layers.lookup r = some p) (hparent : ParentBloomed st base dk t r) :
    (∀ r', BloomedAt st base dk t r' → BloomedAt st base dk (t.rebloom p base) r') ∧
      BloomedAt st base dk (t.rebloom p base) r := by
  by_cases hbase : p = base
  · have hsame : t.rebloom p base = t := by simp only [rebloom, hbase, h.disk]
    rw [hsame]
    refine ⟨fun _ hr => hr, fun e he hroot => ?_⟩
    have hlookup := he.lookup
    rw [hroot, hp, hbase] at hlookup
    exact absurd (some.inj hlookup).symm (h.ne_base he.entry)
  · obtain ⟨e, rfl, rfl, he⟩ := h.diffs r p hp hbase
    obtain ⟨f, hf, hhits, hinherits⟩ := rebloom_spec he.entry.heap he.entry.data base
    have hlt := index_lt he.entry.heap
    have hnew := rebloom_bloomed h he.toInTree hparent hhits hinherits
    -- the layer itself is in order, and the others are as before
    have hcases : ∀ {x : Entry F}, InTree (t.rebloom e.ptr base) x → Bloomed st base dk x.layer ∨
        InTree t x ∧ x.ptr ≠ e.ptr := by
      intro x hx
      rw [hf] at hx
      have hheap := hx.entry.heap
      by_cases hptr : x.ptr = e.ptr
      · rw [hptr, setLayer, getElem?_set_self hlt, some.injEq, Layer.diff.injEq] at hheap
        exact .inl (hheap ▸ hnew)
      · rw [setLayer, getElem?_set_ne (Ne.symm hptr)] at hheap
        exact .inr ⟨⟨hx.lookup, hheap, hx.entry.live, hx.entry.data, hx.entry.wf⟩, hptr⟩
    refine ⟨fun r' hr' x hx hroot => ?_, fun x hx hroot => ?_⟩
    · exact (hcases hx).elim id fun hold => hr' x hold.1 hroot
    · refine (hcases hx).elim id fun hold => absurd ?_ hold.2
      have hlookup := hold.1.lookup
      rw [hroot, he.lookup] at hlookup
      exact (some.inj hlookup).symm

/-- The children are layers above the one with this root. -/
def Above (t : Tree F) (children : Hash → List Hash) : Prop :=
  ∀ a c p, c ∈ children a → t.layers.lookup c = some p → t.parentRoot p = some a

omit [Bloom F] in
theorem Above.rebloomed (ha : Above t children) (h : Shape t st rank base dk)
    (hr : Rebloomed t t') : Above t' children := by
  intro a c p hc hp
  rw [hr.layers] at hp
  have hparent := ha a c p hc hp
  by_cases hbase : p = base
  · simp only [Tree.parentRoot, hbase, h.disk] at hparent
    cases hparent
  · obtain ⟨e, rfl, -, he⟩ := h.diffs c p hp hbase
    exact hr.parentRoot he.toInTree hparent

/-- **Making the filters from a root upwards**: what was in order stays so, and what is above the
root comes in order. -/
theorem rebloomAll_at (children : Hash → List Hash) (fuel : Nat) (h : Shape t st rank base dk)
    (habove : Above t children) {r : Hash} (hparent : ParentBloomed st base dk t r) :
    (∀ r', BloomedAt st base dk t r' →
      BloomedAt st base dk (rebloomAll children base fuel t r) r') ∧
      ∀ y, Within children fuel r y →
        BloomedAt st base dk (rebloomAll children base fuel t r) y := by
  induction fuel generalizing t r with
  | zero => exact ⟨fun _ hr => hr, fun _ hy => hy.elim⟩
  | succ fuel ih =>
    -- the children one after the other
    have hfold : ∀ (l : List Hash) (t : Tree F), (∀ c ∈ l, c ∈ children r) →
        Shape t st rank base dk → Above t children →
        BloomedAt st base dk t r →
        (∀ r', BloomedAt st base dk t r' →
          BloomedAt st base dk (l.foldl (rebloomAll children base fuel) t) r') ∧
        ∀ c ∈ l, ∀ y, Within children fuel c y →
          BloomedAt st base dk (l.foldl (rebloomAll children base fuel) t) y := by
      intro l
      induction l with
      | nil => exact fun t _ _ _ _ => ⟨fun _ hr => hr, fun c hc => absurd hc (not_mem_nil)⟩
      | cons c l ihl =>
        intro t hsub h habove hr
        have hparent : ParentBloomed st base dk t c := fun e he hroot =>
          .inr ⟨r, habove r c e.ptr (hsub c mem_cons_self) (hroot ▸ he.lookup), hr⟩
        obtain ⟨hkeep, hnew⟩ := ih h habove hparent
        have hre := rebloomed_rebloomAll children base fuel t c
        obtain ⟨hkeep', hnew'⟩ :=
          ihl _ (fun c hc => hsub c (mem_cons_of_mem _ hc)) (h.rebloomed hre)
          (habove.rebloomed h hre) (hkeep r hr)
        refine ⟨fun r' hr' => hkeep' r' (hkeep r' hr'), fun c' hc' y hy => ?_⟩
        obtain rfl | hc' := mem_cons.mp hc'
        · exact hkeep' y (hnew y hy)
        · exact hnew' c' hc' y hy
    rw [rebloomAll]
    cases hlookup : t.layers.lookup r with
    | none =>
      have hr : BloomedAt st base dk t r := fun e he hroot => by
        have hsome := he.lookup
        rw [hroot, hlookup] at hsome
        cases hsome
      obtain ⟨hkeep, hnew⟩ := hfold (children r) t (fun _ hc => hc) h habove hr
      refine ⟨hkeep, fun y hy => ?_⟩
      obtain rfl | ⟨c, hc, hy⟩ := hy
      · exact hkeep _ hr
      · exact hnew c hc y hy
    | some p =>
      obtain ⟨hkeep0, hr⟩ := rebloom_at h hlookup hparent
      have hre := rebloomed_rebloom t p base
      obtain ⟨hkeep, hnew⟩ :=
        hfold (children r) _ (fun _ hc => hc) (h.rebloomed hre) (habove.rebloomed h hre) hr
      refine ⟨fun r' hr' => hkeep r' (hkeep0 r' hr'), fun y hy => ?_⟩
      obtain rfl | ⟨c, hc, hy⟩ := hy
      · exact hkeep _ hr
      · exact hnew c hc y hy

variable (h : Shape t st rank base dk)
  (hchildren : ∀ (e : Entry F) a, InTree t e → t.parentRoot e.ptr = some a →
    e.layer.root ∈ children a)
include h hchildren

omit [Bloom F] in
/-- Every layer of the tree is reached from the disk layer. -/
theorem Shape.within (he : InTree t e) : Within children (rank e.ptr + 2) dk.root e.layer.root := by
  induction hn : rank e.ptr using Nat.strong_induction_on generalizing e with
  | _ n ih =>
    by_cases hbase : e.layer.parent = base
    · have hmem : e.layer.root ∈ children dk.root := by
        refine hchildren e _ he ?_
        simp only [Tree.parentRoot, he.entry.heap, hbase, h.disk, map_some]
        rfl
      exact .inr ⟨_, hmem, .inl rfl⟩
    · obtain ⟨q, hq, hqlinked, hlt, -⟩ := h.on_diff he hbase
      have hmem : e.layer.root ∈ children q.layer.root := by
        refine hchildren e _ he ?_
        simp only [Tree.parentRoot, he.entry.heap, ← hq, hqlinked.entry.heap, map_some]
        rfl
      exact ((ih _ (hn ▸ hlt) hqlinked.toInTree rfl).snoc hmem).mono (by omega)

/-- **All filters are in order** after they were made from the disk layer upwards. -/
theorem rebloomAll_blooms (habove : Above t children) :
    Shape (rebloomAll children base (t.heap.length + 2) t dk.root) st rank base dk ∧
      Blooms (rebloomAll children base (t.heap.length + 2) t dk.root) st base dk := by
  have hre := rebloomed_rebloomAll children base (t.heap.length + 2) t dk.root
  have hparent : ParentBloomed st base dk t dk.root := fun e he hroot => by
    have hlookup := he.lookup
    rw [hroot, h.bottom] at hlookup
    exact absurd (some.inj hlookup).symm (h.ne_base he.entry)
  obtain ⟨-, hall⟩ := rebloomAll_at children (t.heap.length + 2) h habove hparent
  refine ⟨h.rebloomed hre, fun e he => ?_⟩
  obtain ⟨x, hx, hsame⟩ := hre.symm.inTree he
  have hwithin := h.within hchildren hx
  have hrank := h.ranks _ _ hx.lookup
  rw [hsame.root] at hwithin
  exact hall _ (hwithin.mono (by omega)) e he rfl

end

end GoQrl.Snapshot
