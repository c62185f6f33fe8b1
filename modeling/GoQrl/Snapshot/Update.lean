import GoQrl.Snapshot.Shape

/-!
# GoQrl.Snapshot.Update

A new diff layer: its maps become objects of their own (`allocSlots_spec`), its bloom filter
contains what it changes and what the filter of its parent contains (`rebloom_spec`), and the tree
stays in order (`Shape.update`).
-/

namespace GoQrl.Snapshot

open Overlay AList Function DiffData Bloom
open List hiding after
open State (GoMap foldl_entries foldl_keyed lookup_copy lookup_insert_cases mem_entries
  nodup_entries)

variable {F : Type}

/-- What an update changes. -/
def updateChange (destructs : GoMap Hash Unit) (accounts : GoMap Hash Bytes)
    (storage : GoMap Hash (GoMap Hash Bytes)) :
    Change Key Bytes
  | .account h => (accounts.lookup h).or (if (destructs.lookup h).isSome then some [] else none)
  | .slot a s =>
    ((storage.lookup a).bind fun m => m.lookup s).or
    (if (destructs.lookup a).isSome then some [] else none)

variable {e x : Entry F} {p : Nat} {t : Tree F}

namespace Tree

/-! ## the maps of slots -/

/-- The maps of a list become objects behind `slots`. -/
structure Allocated (l : List (Hash × GoMap Hash Bytes)) (m : GoMap Hash Nat)
    (slots : List (GoMap Hash Bytes))
    (m' : GoMap Hash Nat) (slots' : List (GoMap Hash Bytes)) : Prop where
  old : ∀ i, i < slots.length → slots'[i]? = slots[i]?
  kept : ∀ a, (∀ v, (a, v) ∉ l) → m'.lookup a = m.lookup a
  made : ∀ a v, (a, v) ∈ l → ∃ ref, m'.lookup a = some ref ∧ slots.length ≤ ref ∧
    slots'[ref]? = some v
  inj : ∀ a a' v v' ref, (a, v) ∈ l → (a', v') ∈ l → m'.lookup a = some ref →
    m'.lookup a' = some ref → a = a'

theorem foldl_alloc {l : List (Hash × GoMap Hash Bytes)} (hl : (l.map Prod.fst).Nodup)
    (m : GoMap Hash Nat) (slots : List (GoMap Hash Bytes)) :
    Allocated l m slots
      (l.foldl (fun acc e => (acc.1.insert e.1 acc.2.length, acc.2 ++ [e.2])) (m, slots)).1
      (l.foldl (fun acc e => (acc.1.insert e.1 acc.2.length, acc.2 ++ [e.2])) (m, slots)).2 := by
  induction l generalizing m slots with
  | nil => exact ⟨fun _ _ => rfl, fun _ _ => rfl, by simp, by simp⟩
  | cons e l ih =>
    obtain ⟨a0, v0⟩ := e
    obtain ⟨hnotin, hl⟩ := nodup_cons.mp hl
    have hfirst : ∀ v, (a0, v) ∉ l := fun v hmem => hnotin (mem_map.mpr ⟨_, hmem, rfl⟩)
    rw [foldl_cons]
    have h := ih hl (m.insert a0 slots.length) (slots ++ [v0])
    have hself := (h.kept a0 hfirst).trans (lookup_insert m)
    have hlen : (slots ++ [v0]).length = slots.length + 1 := by simp
    -- the maps that are made later lie behind the first one
    have hlater : ∀ {a v}, (a, v) ∈ l → ∀ {ref}, ref ≤ slots.length →
        (l.foldl (fun acc e => (acc.1.insert e.1 acc.2.length, acc.2 ++ [e.2]))
          (m.insert a0 slots.length, slots ++ [v0])).1.lookup a ≠ some ref := by
      intro a v hmem ref hle heq
      obtain ⟨ref', href', hle', -⟩ := h.made a v hmem
      simp [heq] at href'
      omega
    refine ⟨fun i hi => ?_, fun a ha => ?_, fun a v ha => ?_,
      fun a a' v v' ref ha ha' href href' => ?_⟩
    · rw [h.old i (by omega), getElem?_append_left hi]
    · have hne : a ≠ a0 := fun heq => ha v0 (by rw [heq]; exact mem_cons_self)
      rw [h.kept a fun v hmem => ha v (mem_cons_of_mem _ hmem), lookup_insert_ne hne]
    · obtain heq | hmem := mem_cons.mp ha
      · cases heq
        refine ⟨slots.length, hself, le_refl _, ?_⟩
        rw [h.old _ (by omega), getElem?_concat_length]
      · obtain ⟨ref, href, hle, hv⟩ := h.made a v hmem
        exact ⟨ref, href, by omega, hv⟩
    · obtain heq | hmem := mem_cons.mp ha <;> obtain heq' | hmem' := mem_cons.mp ha'
      · cases heq
        cases heq'
        rfl
      · cases heq
        rw [hself] at href
        cases href
        exact absurd href' (hlater hmem' (le_refl _))
      · cases heq'
        rw [hself] at href'
        cases href'
        exact absurd href (hlater hmem (le_refl _))
      · exact h.inj a a' v v' ref hmem hmem' href href'

/-- **The maps of a new layer** are new objects, with the contents that were given. -/
theorem allocSlots_spec (destructs : GoMap Hash Unit) (accounts : GoMap Hash Bytes)
    (storage : GoMap Hash (GoMap Hash Bytes)) (slots : List (GoMap Hash Bytes)) :
    let d : DiffData := ⟨destructs, accounts, (allocSlots storage slots).1⟩
    (∀ i, i < slots.length → (allocSlots storage slots).2[i]? = slots[i]?) ∧
      d.WF (allocSlots storage slots).2 ∧
      (∀ a ref, d.storageData.lookup a = some ref → slots.length ≤ ref) ∧
      d.change (allocSlots storage slots).2 = updateChange destructs accounts storage := by
  have h := foldl_alloc (nodup_entries storage) ∅ slots
  have hlookup : ∀ a, (allocSlots storage slots).1.lookup a = none ∧ storage.lookup a = none ∨
      ∃ ref v, (allocSlots storage slots).1.lookup a = some ref ∧ storage.lookup a = some v ∧
        slots.length ≤ ref ∧ (allocSlots storage slots).2[ref]? = some v := by
    intro a
    cases hs : storage.lookup a with
    | none =>
      refine .inl ⟨(h.kept a fun v hmem => ?_).trans rfl, rfl⟩
      simp [mem_entries.mp hmem] at hs
    | some v =>
      obtain ⟨ref, href, hle, hv⟩ := h.made a v (mem_entries.mpr hs)
      exact .inr ⟨ref, v, href, rfl, hle, hv⟩
  have hsome : ∀ {a ref}, (allocSlots storage slots).1.lookup a = some ref →
      ∃ v, storage.lookup a = some v ∧ slots.length ≤ ref ∧
        (allocSlots storage slots).2[ref]? = some v := by
    intro a ref ha
    obtain ⟨hnone, -⟩ | ⟨ref', v, href, hv, hle, hslot⟩ := hlookup a
    · simp [ha] at hnone
    · rw [ha] at href
      cases href
      exact ⟨v, hv, hle, hslot⟩
  refine ⟨h.old, ⟨fun a ref ha => ?_, fun a a' ref ha ha' => ?_⟩, fun a ref ha => ?_, ?_⟩
  · obtain ⟨v, -, -, hv⟩ := hsome ha
    exact index_lt hv
  · obtain ⟨v, hv, -⟩ := hsome ha
    obtain ⟨v', hv', -⟩ := hsome ha'
    exact h.inj a a' v v' ref (mem_entries.mpr hv) (mem_entries.mpr hv') ha ha'
  · obtain ⟨v, -, hle, -⟩ := hsome ha
    exact hle
  · funext key
    cases key with
    | account hash => rfl
    | slot a s =>
      have hvalue : value (allocSlots storage slots).2 ⟨destructs, accounts,
          (allocSlots storage slots).1⟩ (.slot a s) =
          (storage.lookup a).bind fun m => m.lookup s := by
        obtain ⟨hnone, hs⟩ | ⟨ref, v, href, hs, -, hslot⟩ := hlookup a
        · simp [value, hnone, hs]
        · simp [value, href, hs, hslot]
      rw [change, hvalue]
      rfl

/-! ## blooms -/

variable [Bloom F]

theorem contains_foldl (l : List BloomKey) (f : F) (k : BloomKey)
    (h : k ∈ l ∨ contains f k = true) :
    contains (l.foldl add f) k = true := by
  induction l generalizing f with
  | nil => exact h.resolve_left (by simp)
  | cons x l ih =>
    refine ih (add f x) ?_
    obtain hmem | hf := h
    · obtain rfl | hmem := mem_cons.mp hmem
      · exact .inr (contains_add f k)
      · exact .inl hmem
    · exact .inr (contains_of f x k hf)

theorem mem_bloomKeys {slots : List (GoMap Hash Bytes)} {d : DiffData} {key : Key}
    (h : d.change slots key ≠ none) :
    key.bloom ∈ bloomKeys slots d ∨ BloomKey.destruct key.owner ∈ bloomKeys slots d := by
  by_cases hvalue : d.value slots key = none
  · right
    have hdestruct : d.destructs key.owner = true := by
      by_contra hne
      exact h (by simp [change, hvalue, hne])
    rw [destructs, lookup_isSome] at hdestruct
    simp only [bloomKeys, mem_append, mem_map]
    exact .inl (.inl ⟨key.owner, hdestruct, rfl⟩)
  · left
    simp only [bloomKeys, mem_append, mem_map, mem_flatMap]
    cases key with
    | account hash =>
      refine .inl (.inr ⟨hash, ?_, rfl⟩)
      exact lookup_isSome.mp (Option.isSome_iff_ne_none.mpr hvalue)
    | slot a s =>
      refine .inr ?_
      cases ha : d.storageData.lookup a with
      | none => exact absurd (by simp [value, ha]) hvalue
      | some ref =>
        refine ⟨⟨a, ref⟩, mem_lookup_iff.mp ha, s, ?_, rfl⟩
        cases hslot : slots[ref]? with
        | none => exact absurd (by simp [value, ha, hslot]) hvalue
        | some m =>
          refine lookup_isSome.mp (Option.isSome_iff_ne_none.mpr fun hnone => hvalue ?_)
          simp only [value, ha, hslot, Option.bind_some]
          exact hnone

/-- **Making a bloom filter**: it contains what the layer changes and what the filter of the parent
contains. -/
theorem rebloom_spec (heap : t.heap[e.ptr]? = some (.diff e.layer))
    (data : t.data[e.layer.data]? = some e.data) (origin : Nat) :
    ∃ f, t.rebloom e.ptr origin = t.setLayer e.ptr
      (.diff { e.layer with origin := origin, diffed := f }) ∧
      (∀ key, e.data.change t.slots key ≠ none → Hits f key) ∧
      ∀ q : DiffLayer F, t.heap[e.layer.parent]? = some (.diff q) →
        ∀ k, contains q.diffed k = true → contains f k = true := by
  refine ⟨_, by simp only [rebloom, heap, data]; rfl, fun key hkey => ?_, fun q hq k hk => ?_⟩
  · exact (mem_bloomKeys hkey).imp (fun hmem => contains_foldl _ _ _ (.inl hmem)) fun hmem =>
      contains_foldl _ _ _ (.inl hmem)
  · refine contains_foldl _ _ _ (.inr ?_)
    rwa [hq]

/-! ## the new layer -/

/-- A new layer `e` on the layer at `p`, with the changes `c`. -/
structure Grown (t t' : Tree F) (p : Nat) (root : Hash) (c : Change Key Bytes) (e : Entry F) :
    Prop where
  tree : ∃ slots,
    t' = { t with heap := t.heap ++ [.diff e.layer], data := t.data ++ [e.data], slots := slots }
  ptr : e.ptr = t.heap.length
  parent : e.layer.parent = p
  root : e.layer.root = root
  live : e.layer.stale = false
  data : e.layer.data = t.data.length
  wf : e.data.WF t'.slots
  fresh : ∀ a ref, e.data.storageData.lookup a = some ref → t.slots.length ≤ ref
  change : e.data.change t'.slots = c
  slots : ∀ i, i < t.slots.length → t'.slots[i]? = t.slots[i]?
  diskOrigin : ∀ dk, t.heap[p]? = some (.disk dk) → e.layer.origin = p
  diffOrigin : ∀ q, t.heap[p]? = some (.diff q) → e.layer.origin = q.origin
  hits : ∀ key, c key ≠ none → Hits e.layer.diffed key
  inherits : ∀ q : DiffLayer F, t.heap[p]? = some (.diff q) →
    ∀ k, Bloom.contains q.diffed k = true → Bloom.contains e.layer.diffed k = true

/-- The origin of a layer on the layer at `p`. -/
def originOn (t : Tree F) (p : Nat) : Nat :=
  match t.heap[p]? with
  | some (.diff dl) => dl.origin
  | _ => p

theorem newDiffLayer_spec (t : Tree F) (hp : p < t.heap.length) (root : Hash)
    (destructs : GoMap Hash Unit)
    (accounts : GoMap Hash Bytes) (storage : GoMap Hash (GoMap Hash Bytes)) :
    ∃ e, (t.newDiffLayer p root destructs accounts storage).1 = e.ptr ∧
      Grown t (t.newDiffLayer p root destructs accounts storage).2 p root
        (updateChange destructs accounts storage) e := by
  obtain ⟨hold, hwf, hfresh, hchange⟩ := allocSlots_spec destructs accounts storage t.slots
  let d : DiffData := ⟨destructs, accounts, (allocSlots storage t.slots).1⟩
  let dl : DiffLayer F :=
    ⟨t.originOn p, p, memoryOf destructs accounts storage, root, false, t.data.length, new⟩
  let t₁ : Tree F := { t with
    heap := t.heap ++ [.diff dl], data := t.data ++ [d], slots := (allocSlots storage t.slots).2 }
  obtain ⟨f, hf, hhits, hinherits⟩ := rebloom_spec (t := t₁) (e := ⟨t.heap.length, dl, d⟩)
    getElem?_concat_length getElem?_concat_length (t.originOn p)
  have hstep : t.newDiffLayer p root destructs accounts storage =
      (t.heap.length, t₁.rebloom t.heap.length (t.originOn p)) := rfl
  refine ⟨⟨t.heap.length, { dl with diffed := f }, d⟩, rfl, ?_⟩
  rw [hstep]
  have htree : t₁.rebloom t.heap.length (t.originOn p) =
      { t with heap := t.heap ++ [.diff { dl with diffed := f }], data := t.data ++ [d],
               slots := (allocSlots storage t.slots).2 } := by
    rw [hf]
    simp only [setLayer, t₁, set_append_right _ _ (le_refl _), Nat.sub_self, set_cons_zero]
    rfl
  rw [htree]
  refine ⟨⟨_, rfl⟩, rfl, rfl, rfl, rfl, rfl, hwf, hfresh, hchange, hold, fun dk hdk => ?_,
    fun q hq => ?_, ?_, fun q hq => ?_⟩
  · simp [dl, originOn, hdk]
  · simp [dl, originOn, hq]
  · rwa [← hchange]
  · exact hinherits q (by rw [← hq]; exact getElem?_append_left hp)

namespace Grown

variable {t' : Tree F} {root : Hash} {c : Change Key Bytes} (h : Grown t t' p root c e)
include h

theorem heap_lt {x : Nat} {o : Layer F} (hx : t.heap[x]? = some o) : t'.heap[x]? = some o := by
  obtain ⟨slots, rfl⟩ := h.tree
  exact (getElem?_append_left (index_lt hx)).trans hx

theorem entry : e.At t' := by
  refine ⟨?_, h.live, ?_, h.wf⟩
  · obtain ⟨slots, rfl⟩ := h.tree
    rw [h.ptr]
    exact getElem?_concat_length
  · obtain ⟨slots, rfl⟩ := h.tree
    rw [h.data]
    exact getElem?_concat_length

/-- The layers that were there stay as they are. -/
theorem kept (hx : x.At t) : Kept t t' x := by
  refine ⟨(h.heap_lt hx.heap).trans hx.heap.symm, ?_,
    fun a ref ha => h.slots ref (hx.wf.bound a ref ha)⟩
  obtain ⟨slots, rfl⟩ := h.tree
  exact getElem?_append_left (index_lt hx.data)

/-- The new layer has nothing in common with the others. -/
theorem apart (hx : x.At t) : e.layer.data ≠ x.layer.data ∧ e.data.Apart x.data := by
  refine ⟨fun heq => ?_, fun a a' ref ha ha' => ?_⟩
  · have hlt := index_lt hx.data
    rw [← heq, h.data] at hlt
    exact lt_irrefl _ hlt
  · have := h.fresh a ref ha
    have := hx.wf.bound a' ref ha'
    omega

end Grown

end Tree

/-! ## the tree -/

section

variable [Bloom F] {t₁ : Tree F} {st : States} {rank : Nat → Nat} {base : Nat} {dk : DiskLayer}
  {root parent : Hash} {c : Change Key Bytes} {s : State}

section

variable (hg : Tree.Grown t t₁ p root c e) (h : Shape t st rank base dk)
include hg h

/-- The layers of the tree with a new one. -/
theorem Tree.Grown.inTree (hx : InTree { t₁ with layers := t.layers.insert root e.ptr } x) :
    x = e ∨ InTree t x := by
  have hlookup := hx.lookup
  have hxt : x.At t₁ := { hx.entry with }
  by_cases hroot : x.layer.root = root
  · rw [hroot] at hlookup
    have hptr : e.ptr = x.ptr := Option.some.inj ((lookup_insert t.layers).symm.trans hlookup)
    exact .inl (hxt.eq hg.entry hptr.symm)
  · right
    have hold : t.layers.lookup x.layer.root = some x.ptr :=
      (lookup_insert_ne hroot).symm.trans hlookup
    have hne : x.ptr ≠ base := by
      intro heq
      have hdisk := hg.heap_lt h.disk
      rw [← heq] at hdisk
      exact absurd (hdisk.symm.trans hx.entry.heap) (by simp)
    obtain ⟨y, hptr, -, hy⟩ := h.diffs _ _ hold hne
    rw [hxt.eq ((hg.kept hy.entry).entry hy.entry) hptr.symm]
    exact hy.toInTree

variable (hp : t.layers.lookup parent = some p) (hs : st parent = some s)
    (hfresh : t.layers.lookup root = none)
include hp hs hfresh

theorem Tree.Grown.shape :
    Shape { t₁ with layers := t.layers.insert root e.ptr }
      (Function.update st root (some (apply c s)))
      (Function.update rank t.heap.length t.heap.length) base dk := by
  have hother : ∀ {r x}, t.layers.lookup r = some x → r ≠ root ∧
      (t.layers.insert root e.ptr).lookup r = some x ∧
        Function.update st root (some (apply c s)) r = st r := by
    intro r x hr
    have hne : r ≠ root := fun heq => by rw [heq, hfresh] at hr; cases hr
    exact ⟨hne, (lookup_insert_ne hne).trans hr, update_of_ne hne _ _⟩
  have hself : (t.layers.insert root e.ptr).lookup root = some e.ptr := lookup_insert _
  have hrank : ∀ {x : Nat} {o : Layer F}, t.heap[x]? = some o →
      Function.update rank t.heap.length t.heap.length x = rank x := by
    intro x o hx
    exact update_of_ne (index_lt hx).ne _ _
  have hnew : e.ptr ≠ base := by
    intro heq
    have hlt := index_lt h.disk
    rw [← heq, hg.ptr] at hlt
    exact lt_irrefl _ hlt
  obtain ⟨o, ho, horoot⟩ := h.at_lookup hp
  constructor
  case disk => exact hg.heap_lt h.disk
  case live => exact h.live
  case bottom => exact (hother h.bottom).2.1
  case only =>
    intro r hr
    obtain ⟨-, heq⟩ | hr := lookup_insert_cases hr
    · exact absurd heq.symm hnew
    · exact h.only r hr
  case content =>
    obtain ⟨s0, hs0, hdisk⟩ := h.content
    refine ⟨s0, (hother h.bottom).2.2.trans hs0, ?_⟩
    obtain ⟨slots, rfl⟩ := hg.tree
    exact ⟨hdisk.disk, hdisk.cache⟩
  case diffs =>
    intro r x hr hx
    obtain ⟨rfl, rfl⟩ | hr := lookup_insert_cases hr
    · have he := hg.entry
      refine ⟨e, rfl, hg.root, ⟨?_, { he with }⟩, ?_, o, s, ?_, ?_, ?_, ?_⟩
      · rwa [hg.root]
      · right
        rw [hg.parent, hrank ho, hg.ptr, update_self]
        exact h.ranks _ _ hp
      · rw [hg.parent]
        exact hg.heap_lt ho
      · rw [horoot, hg.parent]
        exact (hother hp).2.1
      · rwa [horoot, (hother hp).2.2]
      · rw [hg.root, update_self]
        rw [hg.change]
    · obtain ⟨y, rfl, rfl, hy⟩ := h.diffs r x hr hx
      have hkept := hg.kept hy.entry
      have hyAt := hkept.entry hy.entry
      obtain ⟨q, s', hq, hqroot, hs', hst⟩ := hy.parent
      refine ⟨y, rfl, rfl, ⟨(hother hr).2.1, { hyAt with }⟩, ?_, q, s', hg.heap_lt hq,
        (hother hqroot).2.1, (hother hqroot).2.2.trans hs', ?_⟩
      · rw [hrank hq, hrank hy.entry.heap]
        exact hy.lower
      · rw [(hother hr).2.2, hst]
        rw [hkept.change]
  case ranks =>
    intro r x hr
    have hlen : t₁.heap.length = t.heap.length + 1 := by
      obtain ⟨slots, rfl⟩ := hg.tree
      simp
    show _ < t₁.heap.length
    obtain ⟨-, rfl⟩ | hr := lookup_insert_cases hr
    · rw [hg.ptr, update_self]
      omega
    · obtain ⟨o', ho', -⟩ := h.at_lookup hr
      have := h.ranks _ _ hr
      rw [hrank ho']
      omega
  case apart =>
    intro x y hx hy hne
    obtain rfl | hxt := hg.inTree h hx <;> obtain rfl | hyt := hg.inTree h hy
    · exact absurd rfl hne
    · exact hg.apart hyt.entry
    · exact ⟨(hg.apart hxt.entry).1.symm, (hg.apart hxt.entry).2.symm⟩
    · exact h.apart x y hxt hyt hne

theorem Tree.Grown.blooms (hbloom : Blooms t st base dk) :
    Blooms { t₁ with layers := t.layers.insert root e.ptr }
      (Function.update st root (some (apply c s))) base dk := by
  have hother : ∀ {r x}, t.layers.lookup r = some x →
      Function.update st root (some (apply c s)) r = st r :=
    fun hr => update_of_ne (fun heq => by rw [heq, hfresh] at hr; cases hr) _ _
  intro x hx
  obtain rfl | hx := hg.inTree h hx
  · have hroot : Function.update st root (some (apply c s)) x.layer.root = some (apply c s) := by
      rw [hg.root, update_self]
    by_cases hbase : p = base
    · subst hbase
      refine .mk_above (hg.diskOrigin dk h.disk) hroot hg.hits fun s0 hs0 key hne => ?_
      rw [hother h.bottom, ← h.only _ hp, hs] at hs0
      exact absurd (congrFun (Option.some.inj hs0) key) hne
    · obtain ⟨y, rfl, rfl, hy⟩ := h.diffs _ _ hp hbase
      have hparent := hbloom y hy.toInTree
      have hinherits := hg.inherits _ hy.entry.heap
      refine .mk_above ((hg.diffOrigin _ hy.entry.heap).trans hparent.origin) hroot hg.hits
        fun s0 hs0 key hne => ?_
      rw [hother h.bottom] at hs0
      exact (hparent.hits s s0 hs hs0 key hne).imp (hinherits _) (hinherits _)
  · have hx' := hbloom x hx
    refine ⟨hx'.origin, fun s' s0 hs' hs0 => ?_⟩
    rw [hother hx.lookup] at hs'
    rw [hother h.bottom] at hs0
    exact hx'.hits s' s0 hs' hs0

end

/-- **A new layer** with a root that is not in the tree leaves the tree in order. -/
theorem Shape.update (h : Shape t st rank base dk) (hbloom : Blooms t st base dk)
    (hp : t.layers.lookup parent = some p)
    (hs : st parent = some s) (hfresh : t.layers.lookup root = none) (destructs : GoMap Hash Unit)
    (accounts : GoMap Hash Bytes) (storage : GoMap Hash (GoMap Hash Bytes)) :
    ∃ t' rank', t.update root parent destructs accounts storage = (.ok (), t') ∧
      Shape t' (update st root (some (apply (updateChange destructs accounts storage) s)))
        rank' base dk ∧
      Blooms t' (update st root (some (apply (updateChange destructs accounts storage) s)))
        base dk := by
  obtain ⟨o, ho, -⟩ := h.at_lookup hp
  obtain ⟨e, hptr, hg⟩ := Tree.newDiffLayer_spec t (index_lt ho) root destructs accounts storage
  have hlayers : (t.newDiffLayer p root destructs accounts storage).2.layers = t.layers := by
    obtain ⟨slots, hslots⟩ := hg.tree
    rw [hslots]
  have hne : root ≠ parent := fun heq => by rw [heq, hp] at hfresh; cases hfresh
  refine ⟨_, _, ?_, hg.shape h hp hs hfresh, hg.blooms h hp hs hfresh hbloom⟩
  simp [Tree.update, if_neg hne, hp, hptr, hlayers]

end

end GoQrl.Snapshot
