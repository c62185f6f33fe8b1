import GoQrl.Snapshot.Disk

/-!
# GoQrl.Snapshot.Shape

The tree of snapshots in order, with the states its roots stand for.

`Shape` says that there is one disk layer, that the parent of every other layer is in the tree under
its root, that the maps of a layer lead from the state of the parent to its own, and that no two
layers of the tree share a map.  `Blooms` says that every layer has the disk layer as its origin and
that its bloom filter contains every key whose value is not that of the disk layer.

Together they are what a read needs: it gives the value in the state of its layer, or the key is not
covered by the generator yet (`read_spec`).
-/

namespace GoQrl.Snapshot

open Overlay List
open State (GoMap)

variable {F : Type}

/-- The states that the roots stand for. -/
abbrev States := Hash → Option State

/-- A diff layer of the tree, under its root. -/
structure InTree (t : Tree F) (e : Entry F) : Prop where
  lookup : t.layers.lookup e.layer.root = some e.ptr
  entry : e.At t

/-- The layer leads from the state of its parent, which is in the tree, to its own. -/
structure Linked (t : Tree F) (st : States) (rank : Nat → Nat) (base : Nat) (e : Entry F) :
    Prop extends InTree t e where
  lower : e.layer.parent = base ∨ rank e.layer.parent < rank e.ptr
  parent : ∃ q s, t.heap[e.layer.parent]? = some q ∧ t.layers.lookup q.root = some e.layer.parent ∧
    st q.root = some s ∧ st e.layer.root = some (apply (e.data.change t.slots) s)

/-- The tree is in order: `dk`, at `base`, is its disk layer, and parents rank lower. -/
structure Shape (t : Tree F) (st : States) (rank : Nat → Nat) (base : Nat) (dk : DiskLayer) :
    Prop where
  disk : t.heap[base]? = some (.disk dk)
  live : dk.stale = false
  bottom : t.layers.lookup dk.root = some base
  only : ∀ r, t.layers.lookup r = some base → r = dk.root
  content : ∃ s, st dk.root = some s ∧ t.DiskOK dk.genMarker s
  diffs : ∀ r p, t.layers.lookup r = some p → p ≠ base → ∃ e : Entry F, e.ptr = p ∧
    e.layer.root = r ∧ Linked t st rank base e
  ranks : ∀ r p, t.layers.lookup r = some p → rank p < t.heap.length
  apart : ∀ e e' : Entry F, InTree t e → InTree t e' → e.ptr ≠ e'.ptr →
    e.layer.data ≠ e'.layer.data ∧ e.data.Apart e'.data

variable {base p : Nat} {st : States} {t : Tree F} {e : Entry F} {dk : DiskLayer} {r : Hash}
    {rank : Nat → Nat}
  {s : State}

/-- An entry is determined by its pointer. -/
theorem Entry.At.eq {e' : Entry F} (h : e.At t) (h' : e'.At t) (hptr : e.ptr = e'.ptr) :
    e = e' := by
  obtain ⟨p, l, d⟩ := e
  cases hptr
  have hl := h.heap.symm.trans h'.heap
  cases hl
  have hd := h.data.symm.trans h'.data
  cases hd
  rfl

/-- What belongs to a layer is the same in both trees. -/
structure Kept (t t' : Tree F) (e : Entry F) : Prop where
  heap : t'.heap[e.ptr]? = t.heap[e.ptr]?
  data : t'.data[e.layer.data]? = t.data[e.layer.data]?
  slots : ∀ a ref, e.data.storageData.lookup a = some ref → t'.slots[ref]? = t.slots[ref]?

namespace Kept

variable {t' : Tree F}

theorem change (h : Kept t t' e) : e.data.change t'.slots = e.data.change t.slots :=
  DiffData.change_congr h.slots

theorem wf (h : Kept t t' e) (he : e.data.WF t.slots) : e.data.WF t'.slots := by
  refine ⟨fun a ref ha => ?_, he.inj⟩
  have hsome := getElem?_eq_getElem (he.bound a ref ha)
  rw [← h.slots a ref ha] at hsome
  exact index_lt hsome

theorem entry (h : Kept t t' e) (he : e.At t) : e.At t' :=
  ⟨h.heap.trans he.heap, he.live, h.data.trans he.data, h.wf he.wf⟩

end Kept

namespace Shape

variable (h : Shape t st rank base dk)
include h

theorem ne_base (he : e.At t) : e.ptr ≠ base := by
  intro heq
  have hdisk := h.disk
  simp [← heq, he.heap] at hdisk

theorem linked (he : InTree t e) : Linked t st rank base e := by
  obtain ⟨e', hptr, -, hlinked⟩ := h.diffs _ _ he.lookup (h.ne_base he.entry)
  rwa [he.entry.eq hlinked.entry hptr.symm]

/-- Every root in the tree stands for a state. -/
theorem state (hr : t.layers.lookup r = some p) : ∃ s, st r = some s := by
  by_cases hp : p = base
  · obtain ⟨s, hs, -⟩ := h.content
    rw [h.only r (hp ▸ hr)]
    exact ⟨s, hs⟩
  · obtain ⟨e, -, rfl, he⟩ := h.diffs r p hr hp
    obtain ⟨-, s, -, -, -, hs⟩ := he.parent
    exact ⟨_, hs⟩

/-- What the tree has under a root is an object with this root. -/
theorem at_lookup (hr : t.layers.lookup r = some p) : ∃ o, t.heap[p]? = some o ∧ o.root = r := by
  by_cases hp : p = base
  · subst hp
    exact ⟨_, h.disk, (h.only r hr).symm⟩
  · obtain ⟨e, rfl, hroot, he⟩ := h.diffs r p hr hp
    exact ⟨_, he.entry.heap, hroot⟩

/-- A layer that stands on another diff layer. -/
theorem on_diff (he : InTree t e) (hbase : e.layer.parent ≠ base) :
    ∃ q : Entry F, q.ptr = e.layer.parent ∧ Linked t st rank base q ∧ rank q.ptr < rank e.ptr ∧
      ∃ s, st q.layer.root = some s ∧ st e.layer.root = some (apply (e.data.change t.slots) s) := by
  have hlinked := h.linked he
  obtain ⟨q, s, hq, hroot, hs, hst⟩ := hlinked.parent
  obtain ⟨x, hptr, hxroot, hx⟩ := h.diffs _ _ hroot hbase
  refine ⟨x, hptr, hx, ?_, s, ?_, hst⟩
  · rw [hptr]
    exact hlinked.lower.resolve_left hbase
  · rwa [hxroot]

/-- A layer that stands on the disk layer. -/
theorem on_base (he : InTree t e) (hbase : e.layer.parent = base) (hs : st dk.root = some s) :
    st e.layer.root = some (apply (e.data.change t.slots) s) := by
  obtain ⟨q, s', hq, -, hs', hst⟩ := (h.linked he).parent
  rw [hbase, h.disk] at hq
  cases hq
  rw [Layer.root, hs] at hs'
  cases hs'
  exact hst

end Shape

/-! ## the way down from a layer -/

/-- A chain whose layers are in the tree. -/
structure Way (t : Tree F) (st : States) (rank : Nat → Nat) (base : Nat) (above : List (Entry F))
    (b : Entry F) : Prop where
  chain : Chain t base above b
  linked : ∀ e ∈ above ++ [b], Linked t st rank base e
  ranks : (above ++ [b]).Pairwise fun e e' => rank e'.ptr < rank e.ptr
  length : above.length ≤ rank (top above b).ptr
  state : ∀ s, st b.layer.root = some (apply (b.data.change t.slots) s) →
    st (top above b).layer.root = some (apply (chainChange t.slots above b) s)

theorem top_mem (above : List (Entry F)) (b : Entry F) : top above b ∈ above ++ [b] := by
  cases above with
  | nil => exact mem_singleton_self b
  | cons e above => exact mem_cons_self

theorem Way.rank_le {above : List (Entry F)} {b : Entry F} (h : Way t st rank base above b)
    (he : e ∈ above ++ [b]) : rank e.ptr ≤ rank (top above b).ptr := by
  cases above with
  | nil =>
    rw [nil_append, mem_singleton] at he
    rw [he]
    exact le_refl _
  | cons x above =>
    obtain rfl | he := mem_cons.mp he
    · exact le_refl _
    · exact ((pairwise_cons.mp h.ranks).1 e he).le

namespace Shape

variable (h : Shape t st rank base dk)
include h

/-- **There is a way down** from every layer of the tree. -/
theorem exists_way (he : InTree t e) : ∃ above b, Way t st rank base above b ∧ top above b = e := by
  induction hn : rank e.ptr using Nat.strong_induction_on generalizing e with
  | _ n ih =>
    by_cases hbase : e.layer.parent = base
    · refine ⟨[], e,
        ⟨.bottom he.entry hbase, ?_, pairwise_singleton _ _, Nat.zero_le _, fun _ hs => hs⟩, rfl⟩
      intro x hx
      rw [nil_append, mem_singleton] at hx
      exact hx ▸ h.linked he
    · obtain ⟨q, hq, hqlinked, hlt, s, hs, hst⟩ := h.on_diff he hbase
      obtain ⟨above, b, hway, htop⟩ := ih (rank q.ptr) (hn ▸ hlt) hqlinked.toInTree rfl
      refine ⟨e :: above, b, ⟨.above he.entry ?_ hway.chain, ?_, ?_, ?_, ?_⟩, rfl⟩
      · rw [htop, hq]
      · intro x hx
        obtain rfl | hx := mem_cons.mp hx
        · exact h.linked he
        · exact hway.linked x hx
      · refine pairwise_cons.mpr ⟨fun x hx => ?_, hway.ranks⟩
        have hle := hway.rank_le hx
        rw [htop] at hle
        omega
      · show above.length + 1 ≤ rank e.ptr
        have := hway.length
        rw [htop] at this
        omega
      · intro s' hs'
        have hbelow := hway.state s' hs'
        rw [htop, hs] at hbelow
        show st e.layer.root =
          some (apply (after (e.data.change t.slots) (chainChange t.slots above b)) s')
        rw [hst, apply_after, Option.some.inj hbelow]

variable {above : List (Entry F)} {b : Entry F}

variable (hway : Way t st rank base above b)
include hway

/-- The layers of a way share nothing. -/
theorem separate : Tree.Separate above b := by
  have hptr : (above ++ [b]).Pairwise fun e e' => e.ptr ≠ e'.ptr :=
    hway.ranks.imp fun hlt heq => absurd hlt (by rw [heq]; exact lt_irrefl _)
  have happart : (above ++ [b]).Pairwise fun e e' => e.layer.data ≠ e'.layer.data ∧
      e.data.Apart e'.data :=
    hptr.imp_of_mem fun he he' hne =>
      h.apart _ _ (hway.linked _ he).toInTree (hway.linked _ he').toInTree hne
  exact ⟨pairwise_map.mpr hptr, pairwise_map.mpr (happart.imp And.left), happart.imp And.right⟩

theorem way_state (hs : st dk.root = some s) :
    st (top above b).layer.root = some (apply (chainChange t.slots above b) s) :=
  hway.state s (h.on_base (hway.linked b (by simp)).toInTree hway.chain.bottom_parent hs)

theorem way_length : above.length < t.heap.length :=
  lt_of_le_of_lt hway.length (h.ranks _ _ (hway.linked _ (top_mem above b)).lookup)

end Shape

/-! ## blooms -/

variable [Bloom F]

/-- The filter does not rule out that the key is changed. -/
def Hits (f : F) (key : Key) : Prop :=
  Bloom.contains f key.bloom = true ∨ Bloom.contains f (.destruct key.owner) = true

/-- The origin of the layer is the disk layer, and its filter contains every key whose value in its
state is not that of the disk layer. -/
structure Bloomed (st : States) (base : Nat) (dk : DiskLayer) (l : DiffLayer F) : Prop where
  origin : l.origin = base
  hits : ∀ s s₀, st l.root = some s → st dk.root = some s₀ → ∀ key, s key ≠ s₀ key →
    Hits l.diffed key

/-- The blooms of all layers of the tree are in order. -/
def Blooms (t : Tree F) (st : States) (base : Nat) (dk : DiskLayer) : Prop :=
  ∀ e : Entry F, InTree t e → Bloomed st base dk e.layer

/-- A layer is in order if its filter contains what it changes and what differs below it. -/
theorem Bloomed.mk_above {l : DiffLayer F} {c : Change Key Bytes} (horigin : l.origin = base)
    (hst : st l.root = some (apply c s)) (hown : ∀ key, c key ≠ none → Hits l.diffed key)
    (hbelow : ∀ s0, st dk.root = some s0 → ∀ key, s key ≠ s0 key → Hits l.diffed key) :
    Bloomed st base dk l := by
  refine ⟨horigin, fun s' s0 hs' hs0 key hne => ?_⟩
  rw [hst] at hs'
  cases hs'
  by_cases hc : c key = none
  · rw [apply_of_none hc] at hne
    exact hbelow s0 hs0 key hne
  · exact hown key hc

/-- **Reading** a layer of the tree gives the value in its state, or the key is not covered. -/
theorem read_spec (h : Shape t st rank base dk) (hbloom : Blooms t st base dk)
    (hr : t.layers.lookup r = some p) (hs : st r = some s) (key : Key) :
    ((t.read p key).1 = .ok (s key) ∨ covered dk.genMarker key.bytes = false ∧
      (t.read p key).1 = .error .notCovered) ∧
      ∃ cache s0, (t.read p key).2 = { t with cache := cache } ∧ st dk.root = some s0 ∧
        Tree.DiskOK dk.genMarker { t with cache := cache } s0 := by
  obtain ⟨s0, hs0, hdisk⟩ := h.content
  obtain ⟨hread, cache, hcache, hok⟩ := Tree.diskRead_spec hdisk h.live rfl key
  -- the disk layer is read, with the same value there, or a layer above it has the value
  suffices hcases : s key = s0 key ∧ t.read p key = t.diskRead dk key ∨
      t.read p key = (.ok (s key), t) by
    obtain ⟨hvalue, hsame⟩ | hsame := hcases
    · rw [hsame, hread, hvalue]
      refine ⟨?_, cache, s0, hcache, hs0, hok⟩
      cases covered dk.genMarker key.bytes <;> simp
    · rw [hsame]
      exact ⟨.inl rfl, t.cache, s0, rfl, hs0, hdisk⟩
  by_cases hp : p = base
  · rw [h.only r (hp ▸ hr), hs0] at hs
    cases hs
    exact .inl ⟨rfl, by simp [Tree.read, hp, h.disk]⟩
  · obtain ⟨e, rfl, rfl, he⟩ := h.diffs r p hr hp
    obtain ⟨above, b, hway, rfl⟩ := h.exists_way he.toInTree
    have hst := h.way_state hway hs0
    rw [hs] at hst
    cases hst
    have hlive := hway.chain.at_top.live
    have hchain := Tree.readAt_chain hway.chain h.disk (Nat.succ_le_succ (h.way_length hway)) key
    by_cases hhits : Hits (top above b).layer.diffed key
    · have hread' : t.read (top above b).ptr key = Tree.readAt (t.heap.length + 1) t
          (top above b).ptr key := by
        have hcontains : (Bloom.contains (top above b).layer.diffed key.bloom ||
            Bloom.contains (top above b).layer.diffed (.destruct key.owner)) = true := by
          simpa [Hits] using hhits
        simp [Tree.read, hway.chain.at_top.heap, hlive, hcontains]
      cases hchange : chainChange t.slots above b key with
      | some data =>
        right
        rw [hread', hchain, hchange, apply_of_some hchange]
      | none =>
        refine .inl ⟨apply_of_none hchange, ?_⟩
        rw [hread', hchain, hchange]
    · have hb := hbloom _ (hway.linked _ (top_mem above b)).toInTree
      refine .inl ⟨by_contra fun hne => hhits (hb.hits _ s0 hs hs0 key hne), ?_⟩
      have hcontains : (Bloom.contains (top above b).layer.diffed key.bloom ||
          Bloom.contains (top above b).layer.diffed (.destruct key.owner)) = false := by
        simpa [Hits] using hhits
      simp [Tree.read, hway.chain.at_top.heap, hlive, hcontains, hb.origin, h.disk]

end GoQrl.Snapshot
