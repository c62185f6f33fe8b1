import GoQrl.Snapshot.Tree

/-!
# GoQrl.Snapshot.Diff

What a diff layer changes, and what a chain of diff layers changes together.

`DiffData.change` is the change of one layer: its writes, and nothing where an account was
destructed. Merging the maps of a layer into those of its parent puts the two changes one after the
other (`mergeData_spec`), as long as the maps of slots are not shared (`DiffData.Apart`).

A `Chain` is a way down from a layer to the disk layer.  Reading down the chain finds what the
chain changes (`readAt_chain`), and flattening it leaves one layer with the change of all
(`flatten_chain`).
-/

namespace GoQrl.Snapshot

open Overlay AList DiffData Option
open List hiding after
open State (GoMap foldl_entries foldl_keyed lookup_copy lookup_insert_cases mem_entries
  nodup_entries)

/-- The accounts and slots of a state; what does not exist is empty. -/
abbrev State := Store Key Bytes

variable {d : DiffData} {slots : List (GoMap Hash Bytes)}

namespace DiffData

/-- What the layer changes. -/
def change (slots : List (GoMap Hash Bytes)) (d : DiffData) : Change Key Bytes := fun key =>
  (d.value slots key).or (if d.destructs key.owner then some [] else none)

/-- The references are in bounds, and no two accounts have the same map. -/
structure WF (slots : List (GoMap Hash Bytes)) (d : DiffData) : Prop where
  bound : ∀ a ref, d.storageData.lookup a = some ref → ref < slots.length
  inj : ∀ a a' ref, d.storageData.lookup a = some ref → d.storageData.lookup a' = some ref → a = a'

/-- The two have no map of slots in common. -/
def Apart (d e : DiffData) : Prop :=
  ∀ a a' ref, d.storageData.lookup a = some ref → e.storageData.lookup a' ≠ some ref

theorem Apart.symm {e : DiffData} (h : Apart d e) :
    Apart e d := fun a a' ref ha ha' => h a' a ref ha' ha

/-- Only its own maps of slots matter to a layer. -/
theorem change_congr {slots' : List (GoMap Hash Bytes)}
    (h : ∀ a ref, d.storageData.lookup a = some ref → slots'[ref]? = slots[ref]?) :
    d.change slots' = d.change slots := by
  funext key
  cases key with
  | account hash => rfl
  | slot a s =>
    cases ha : d.storageData.lookup a with
    | none => simp [change, value, ha]
    | some ref => simp [change, value, ha, h a ref ha]

end DiffData

/-! ## merging the maps -/

namespace Tree

theorem lookup_copyMap (src dst : GoMap Hash Bytes) (k : Hash) :
    (copyMap src dst).lookup k = (src.lookup k).or (dst.lookup k) :=
  lookup_copy src dst k

theorem lookup_mergeDestructs {V : Type} {f : DiffData → GoMap Hash V}
    (hf : ∀ (d : DiffData) h,
      f ⟨d.destructSet.insert h (), d.accountData.erase h, d.storageData.erase h⟩ = (f d).erase h)
    (d p : DiffData) (h : Hash) :
    (f (mergeDestructs d.destructSet p)).lookup h =
      if d.destructs h then none else (f p).lookup h := by
  rw [mergeDestructs, foldl_entries (fun d => (f d).lookup h) h fun _ _ => none]
  · unfold destructs
    cases d.destructSet.lookup h <;> simp
  · exact fun d _ => by rw [hf, lookup_erase]
  · exact fun d h' _ hne => by rw [hf, lookup_erase_ne (Ne.symm hne)]

theorem mergeDestructs_storageData (d p : DiffData) (h : Hash) :
    (mergeDestructs d.destructSet p).storageData.lookup h =
      if d.destructs h then none else p.storageData.lookup h :=
  lookup_mergeDestructs (fun _ _ => rfl) d p h

/-- What the loop over the slots does: the references of the parent stay, the others are taken over,
and only maps of the parent are written. -/
structure MergedStorage (l : List (Hash × Nat)) (m : GoMap Hash Nat)
    (slots : List (GoMap Hash Bytes))
    (m' : GoMap Hash Nat) (slots' : List (GoMap Hash Bytes)) : Prop where
  length : slots'.length = slots.length
  kept : ∀ a, (∀ ref, (a, ref) ∉ l) → m'.lookup a = m.lookup a
  keptSlots : ∀ a ref, (∀ ref, (a, ref) ∉ l) → m.lookup a = some ref → slots'[ref]? = slots[ref]?
  taken : ∀ a ref, (a, ref) ∈ l → m.lookup a = none → m'.lookup a = some ref
  copied : ∀ a ref combo, (a, ref) ∈ l → m.lookup a = some combo → m'.lookup a = some combo ∧
    slots'[combo]? = some (copyMap (slots[ref]?.getD ∅) (slots[combo]?.getD ∅))
  other : ∀ ref, (∀ a, m.lookup a ≠ some ref) → slots'[ref]? = slots[ref]?

variable {slots' : List (GoMap Hash Bytes)} {l : List (Hash × Nat)} {m : GoMap Hash Nat}

/-- A map is taken over. -/
theorem MergedStorage.take {m' : GoMap Hash Nat} {a0 : Hash} {ref0 : Nat} (hfirst : ∀ ref,
    (a0, ref) ∉ l)
    (hm : m.lookup a0 = none) (h : MergedStorage l (m.insert a0 ref0) slots m' slots') :
    MergedStorage ((a0, ref0) :: l) m slots m' slots' := by
  have hother : ∀ {a}, a ≠ a0 → (m.insert a0 ref0).lookup a = m.lookup a :=
    fun hne => lookup_insert_ne hne
  have hself : (m.insert a0 ref0).lookup a0 = some ref0 := lookup_insert m
  have hne : ∀ {a ref}, (a, ref) ∈ l → a ≠ a0 := fun hmem heq => hfirst _ (heq ▸ hmem)
  refine ⟨h.length, fun a ha => ?_, fun a ref ha href => ?_, fun a ref ha hnone => ?_,
    fun a ref combo ha hsome => ?_, fun ref href => ?_⟩
  · have haa : a ≠ a0 := fun heq => ha ref0 (by rw [heq]; exact mem_cons_self)
    rw [h.kept a fun ref hmem => ha ref (mem_cons_of_mem _ hmem), hother haa]
  · have haa : a ≠ a0 := fun heq => ha ref0 (by rw [heq]; exact mem_cons_self)
    exact h.keptSlots a ref (fun ref hmem => ha ref (mem_cons_of_mem _ hmem))
      ((hother haa).trans href)
  · obtain heq | hmem := mem_cons.mp ha
    · cases heq
      rw [h.kept a0 hfirst, hself]
    · exact h.taken a ref hmem ((hother (hne hmem)).trans hnone)
  · obtain heq | hmem := mem_cons.mp ha
    · cases heq
      simp [hm] at hsome
    · exact h.copied a ref combo hmem ((hother (hne hmem)).trans hsome)
  · by_cases hr : ref = ref0
    · subst hr
      exact h.keptSlots a0 ref hfirst hself
    · refine h.other ref fun a ha => ?_
      obtain ⟨-, heq⟩ | hold := lookup_insert_cases ha
      · exact hr heq
      · exact href a hold

/-- The slots are copied into the map of the parent. -/
theorem MergedStorage.copy {m' : GoMap Hash Nat} {a0 : Hash} {ref0 combo0 : Nat} (hfirst : ∀ ref,
    (a0, ref) ∉ l)
    (hm : m.lookup a0 = some combo0) (hbound : combo0 < slots.length)
    (hinj : ∀ a, m.lookup a = some combo0 → a = a0) (hapart : ∀ e ∈ l, e.2 ≠ combo0)
    (h : MergedStorage l m
      (slots.set combo0 (copyMap (slots[ref0]?.getD ∅) (slots[combo0]?.getD ∅))) m' slots') :
    MergedStorage ((a0, ref0) :: l) m slots m' slots' := by
  have hset : ∀ {ref}, ref ≠ combo0 →
      (slots.set combo0 (copyMap (slots[ref0]?.getD ∅) (slots[combo0]?.getD ∅)))[ref]? =
        slots[ref]? :=
    fun hne => getElem?_set_ne (Ne.symm hne)
  have hne : ∀ {a ref}, (a, ref) ∈ l → a ≠ a0 := fun hmem heq => hfirst _ (heq ▸ hmem)
  refine ⟨h.length.trans length_set, fun a ha => ?_, fun a ref ha href => ?_,
    fun a ref ha hnone => ?_, fun a ref combo ha hsome => ?_, fun ref href => ?_⟩
  · exact h.kept a fun ref hmem => ha ref (mem_cons_of_mem _ hmem)
  · have haa : a ≠ a0 := fun heq => ha ref0 (by rw [heq]; exact mem_cons_self)
    rw [h.keptSlots a ref (fun ref hmem => ha ref (mem_cons_of_mem _ hmem)) href,
      hset fun heq => haa (hinj a (heq ▸ href))]
  · obtain heq | hmem := mem_cons.mp ha
    · cases heq
      simp [hm] at hnone
    · exact h.taken a ref hmem hnone
  · obtain heq | hmem := mem_cons.mp ha
    · cases heq
      rw [hm] at hsome
      cases hsome
      refine ⟨(h.kept a0 hfirst).trans hm, ?_⟩
      rw [h.keptSlots a0 combo0 hfirst hm, getElem?_set_self hbound]
    · obtain ⟨hlookup, hslots⟩ := h.copied a ref combo hmem hsome
      rw [hset (hapart _ hmem), hset fun heq => hne hmem (hinj a (heq ▸ hsome))] at hslots
      exact ⟨hlookup, hslots⟩
  · have hr : ref ≠ combo0 := by
      rintro rfl
      exact href a0 hm
    rw [h.other ref href, hset hr]

theorem foldl_mergeSlots (hkeys : (l.map Prod.fst).Nodup) (hrefs : (l.map Prod.snd).Nodup)
    (hbound : ∀ a ref, m.lookup a = some ref → ref < slots.length)
    (hinj : ∀ a a' ref, m.lookup a = some ref → m.lookup a' = some ref → a = a')
    (hbound' : ∀ e ∈ l, e.2 < slots.length) (hapart : ∀ e ∈ l, ∀ a, m.lookup a ≠ some e.2) :
    MergedStorage l m slots (l.foldl mergeSlots (m, slots)).1
      (l.foldl mergeSlots (m, slots)).2 := by
  induction l generalizing m slots with
  | nil => exact ⟨rfl, fun _ _ => rfl, fun _ _ _ _ => rfl, by simp, by simp, fun _ _ => rfl⟩
  | cons e l ih =>
    obtain ⟨a0, ref0⟩ := e
    obtain ⟨hnotin, hkeys⟩ := nodup_cons.mp hkeys
    obtain ⟨hrefNotin, hrefs⟩ := nodup_cons.mp hrefs
    have hfirst : ∀ ref, (a0, ref) ∉ l := fun ref hmem => hnotin (mem_map.mpr ⟨_, hmem, rfl⟩)
    have hapart0 : ∀ a, m.lookup a ≠ some ref0 := hapart (a0, ref0) mem_cons_self
    have hboundTail : ∀ e ∈ l, e.2 < slots.length := fun e he => hbound' e (mem_cons_of_mem _ he)
    have hapartTail : ∀ e ∈ l, ∀ a, m.lookup a ≠ some e.2 :=
      fun e he => hapart e (mem_cons_of_mem _ he)
    rw [foldl_cons]
    cases hm : m.lookup a0 with
    | none =>
      have hstep : mergeSlots (m, slots) (a0, ref0) = (m.insert a0 ref0, slots) := by
        simp [mergeSlots, hm]
      rw [hstep]
      refine .take hfirst hm (ih hkeys hrefs ?_ ?_ hboundTail ?_)
      · intro a ref ha
        obtain ⟨-, hr⟩ | hold := lookup_insert_cases ha
        · exact hr ▸ hbound' (a0, ref0) mem_cons_self
        · exact hbound a ref hold
      · intro a a' ref ha ha'
        obtain ⟨h1, hr⟩ | hold := lookup_insert_cases ha <;> obtain ⟨h1', hr'⟩ | hold' :=
          lookup_insert_cases ha'
        · rw [h1, h1']
        · exact absurd (hr ▸ hold') (hapart0 a')
        · exact absurd (hr' ▸ hold) (hapart0 a)
        · exact hinj a a' ref hold hold'
      · intro e he a ha
        obtain ⟨-, hr⟩ | hold := lookup_insert_cases ha
        · exact hrefNotin (mem_map.mpr ⟨e, he, hr⟩)
        · exact hapartTail e he a hold
    | some combo =>
      have hstep : mergeSlots (m, slots) (a0, ref0) =
          (m, slots.set combo (copyMap (slots[ref0]?.getD ∅) (slots[combo]?.getD ∅))) := by
        simp [mergeSlots, hm]
      rw [hstep]
      refine .copy hfirst hm (hbound a0 combo hm) (fun a ha => hinj a a0 combo ha hm)
        (fun e he heq => hapartTail e he a0 (heq ▸ hm)) (ih hkeys hrefs ?_ hinj ?_ hapartTail)
      · exact fun a ref ha => by rw [length_set]; exact hbound a ref ha
      · exact fun e he => by rw [length_set]; exact hboundTail e he

/-! ## the change of merged maps -/

/-- What merging the maps of `d` into those of `p` leaves. -/
structure Merged (slots : List (GoMap Hash Bytes)) (d p : DiffData)
    (slots' : List (GoMap Hash Bytes)) (p' : DiffData) : Prop where
  length : slots'.length = slots.length
  change : p'.change slots' = after (d.change slots) (p.change slots)
  wf : p'.WF slots'
  refs : ∀ a ref, p'.storageData.lookup a = some ref →
    d.storageData.lookup a = some ref ∨ p.storageData.lookup a = some ref
  other : ∀ ref, (∀ a, p.storageData.lookup a ≠ some ref) → slots'[ref]? = slots[ref]?

theorem mergeStorage_spec (hd : d.WF slots) (hbound : ∀ a ref, m.lookup a = some ref →
    ref < slots.length)
    (hinj : ∀ a a' ref, m.lookup a = some ref → m.lookup a' = some ref → a = a')
    (hapart : ∀ a a' ref, d.storageData.lookup a = some ref → m.lookup a' ≠ some ref) :
    MergedStorage (d.storageData.entries.map fun e => (e.1, e.2)) m slots
      (mergeStorage d.storageData m slots).1 (mergeStorage d.storageData m slots).2 := by
  refine foldl_mergeSlots (nodup_entries _) ?_ hbound hinj ?_ ?_
  · have hkeys := nodup_entries d.storageData
    rw [nodup_map_iff_inj_on (Nodup.of_map _ hkeys)]
    intro e he e' he' heq
    obtain ⟨a, ref⟩ := e
    obtain ⟨a', ref'⟩ := e'
    cases heq
    rw [hd.inj a a' ref (mem_entries.mp he) (mem_entries.mp he')]
  · exact fun e he => hd.bound e.1 e.2 (mem_entries.mp he)
  · exact fun e he a ha => hapart e.1 a e.2 (mem_entries.mp he) ha

/-- The maps of `d` merged into those of `p`. -/
def mergedData (d p : DiffData) (slots : List (GoMap Hash Bytes)) : DiffData :=
  ⟨(mergeDestructs d.destructSet p).destructSet,
    copyMap d.accountData (mergeDestructs d.destructSet p).accountData,
    (mergeStorage d.storageData (mergeDestructs d.destructSet p).storageData slots).1⟩

theorem mergedData_destructs (d p : DiffData) (slots : List (GoMap Hash Bytes)) (h : Hash) :
    (mergedData d p slots).destructs h = (d.destructs h || p.destructs h) := by
  show (mergeDestructs d.destructSet p).destructs h = _
  rw [mergeDestructs, foldl_entries (fun d : DiffData => d.destructs h) h fun _ _ => true]
  · unfold destructs
    cases d.destructSet.lookup h <;> simp
  · simp [destructs]
  · intro d h' _ hne
    simp [destructs, lookup_insert_ne (Ne.symm hne)]

/-- The values of merged maps: a destructed account has none of the old ones. -/
theorem mergedData_value {p : DiffData} (hd : d.WF slots) (hp : p.WF slots) (hapart : d.Apart p)
    (h : MergedStorage (d.storageData.entries.map fun e => (e.1, e.2))
      (mergeDestructs d.destructSet p).storageData slots
      (mergedData d p slots).storageData slots') (key : Key) :
    (mergedData d p slots).value slots' key =
      (d.value slots key).or (if d.destructs key.owner then none else p.value slots key) := by
  cases key with
  | account hash =>
    show (copyMap _ _).lookup hash = (d.accountData.lookup hash).or _
    rw [lookup_copyMap, lookup_mergeDestructs (f := accountData) fun _ _ => rfl]
    rfl
  | slot a s =>
    have hmd := mergeDestructs_storageData d p a
    show (_ : Option Nat).bind _ = Option.or _ (if d.destructs a then _ else _)
    cases hda : d.storageData.lookup a with
    | none =>
      have hnot : ∀ ref, (a, ref) ∉ d.storageData.entries.map fun e => (e.1, e.2) := by
        intro ref hmem
        simp [mem_entries.mp hmem] at hda
      simp only [value, hda, bind_none, none_or, h.kept a hnot, hmd]
      cases hdestruct : d.destructs a with
      | true => rfl
      | false =>
        rw [hdestruct] at hmd
        cases hpa : p.storageData.lookup a with
        | none => rfl
        | some ref =>
          simp [h.keptSlots a ref hnot (hmd.trans hpa)]
    | some ref =>
      have hmem : (a, ref) ∈ d.storageData.entries.map fun e => (e.1, e.2) := mem_entries.mpr hda
      cases hma : (mergeDestructs d.destructSet p).storageData.lookup a with
      | none =>
        -- the map was taken over
        have hother : slots'[ref]? = slots[ref]? := by
          refine h.other ref fun a' ha' => ?_
          rw [mergeDestructs_storageData] at ha'
          split at ha'
          · cases ha'
          · exact hapart a a' ref hda ha'
        have hnone : (if d.destructs a then none else p.value slots (.slot a s)) = none := by
          rw [hma] at hmd
          split at hmd
          next hdestruct => rw [if_pos hdestruct]
          next hkept => rw [if_neg hkept, value, ← hmd, bind_none]
        rw [h.taken a ref hmem hma, hnone, or_none, value, hda, bind_some, bind_some, hother]
      | some combo =>
        -- the slots were copied
        rw [hma] at hmd
        split at hmd
        · cases hmd
        next hkept =>
          obtain ⟨hlookup, hcopied⟩ := h.copied a ref combo hmem hma
          obtain ⟨src, hsrc⟩ : ∃ src, slots[ref]? = some src :=
            ⟨_, getElem?_eq_getElem (hd.bound a ref hda)⟩
          obtain ⟨dst, hdst⟩ : ∃ dst, slots[combo]? = some dst :=
            ⟨_, getElem?_eq_getElem (hp.bound a combo hmd.symm)⟩
          rw [if_neg hkept, hlookup, value, value, hda, ← hmd]
          simp [hcopied, hsrc, hdst, lookup_copyMap]

/-- **Merging** the maps puts the changes one after the other. -/
theorem merged_spec {p : DiffData} (hd : d.WF slots) (hp : p.WF slots) (hapart : d.Apart p) :
    Merged slots d p
      (mergeStorage d.storageData (mergeDestructs d.destructSet p).storageData slots).2
      (mergedData d p slots) := by
  have hlower : ∀ {a ref}, (mergeDestructs d.destructSet p).storageData.lookup a = some ref →
      p.storageData.lookup a = some ref := by
    intro a ref ha
    rw [mergeDestructs_storageData] at ha
    split at ha
    · cases ha
    · exact ha
  have h := mergeStorage_spec hd
    (fun a ref ha => hp.bound a ref (hlower ha))
      (fun a a' ref ha ha' => hp.inj a a' ref (hlower ha) (hlower ha'))
    (fun a a' ref ha ha' => hapart a a' ref ha (hlower ha'))
  have hrefs : ∀ a ref, (mergedData d p slots).storageData.lookup a = some ref →
      d.storageData.lookup a = some ref ∨ p.storageData.lookup a = some ref := by
    intro a ref ha
    change (mergeStorage _ _ _).1.lookup a = some ref at ha
    cases hda : d.storageData.lookup a with
    | none =>
      rw [h.kept a fun ref hmem => by rw [mem_entries.mp hmem] at hda; cases hda] at ha
      exact .inr (hlower ha)
    | some ref' =>
      cases hpa : (mergeDestructs d.destructSet p).storageData.lookup a with
      | none => exact .inl ((h.taken a ref' (mem_entries.mpr hda) hpa).symm.trans ha)
      | some combo =>
        rw [(h.copied a ref' combo (mem_entries.mpr hda) hpa).1] at ha
        exact .inr (hlower (hpa.trans ha))
  refine ⟨h.length, ?_, ⟨?_, ?_⟩, hrefs, ?_⟩
  · funext key
    simp only [change, after, mergedData_value hd hp hapart h, mergedData_destructs]
    cases d.destructs key.owner <;> cases d.value slots key <;> simp
  · intro a ref ha
    rw [h.length]
    obtain ha | ha := hrefs a ref ha
    · exact hd.bound a ref ha
    · exact hp.bound a ref ha
  · intro a a' ref ha ha'
    obtain ha | ha := hrefs a ref ha <;> obtain ha' | ha' := hrefs a' ref ha'
    · exact hd.inj a a' ref ha ha'
    · exact absurd ha' (hapart a a' ref ha)
    · exact absurd ha (hapart a' a ref ha')
    · exact hp.inj a a' ref ha ha'
  · exact fun ref href => h.other ref fun a ha => href a (hlower ha)

end Tree

/-! ## chains of layers -/

/-- A diff layer with its pointer and its maps. -/
structure Entry (F : Type) where
  ptr : Nat
  layer : DiffLayer F
  data : DiffData

variable {F : Type}

/-- The layer is at its pointer, and is not stale. -/
structure Entry.At (t : Tree F) (e : Entry F) : Prop where
  heap : t.heap[e.ptr]? = some (.diff e.layer)
  live : e.layer.stale = false
  data : t.data[e.layer.data]? = some e.data
  wf : e.data.WF t.slots

/-- The topmost layer of a chain. -/
def top (above : List (Entry F)) (bottom : Entry F) : Entry F := above.headD bottom

/-- A way down to the layer at `base`: the layers `above`, from the top, and the bottom-most one. -/
inductive Chain (t : Tree F) (base : Nat) : List (Entry F) → Entry F → Prop
  | bottom {b : Entry F} : b.At t → b.layer.parent = base → Chain t base [] b
  | above {e b : Entry F} {above : List (Entry F)} : e.At t → e.layer.parent = (top above b).ptr →
      Chain t base above b → Chain t base (e :: above) b

/-- What the layers of a chain change together. -/
def chainChange (slots : List (GoMap Hash Bytes)) (above : List (Entry F)) (bottom : Entry F) :
    Change Key Bytes :=
  above.foldr (fun e c => after (e.data.change slots) c) (bottom.data.change slots)

variable {t : Tree F} {base : Nat} {above : List (Entry F)} {b e : Entry F}

namespace Chain

variable (h : Chain t base above b)
include h

theorem at_top : (top above b).At t := by
  cases h with
  | bottom hb => exact hb
  | above he => exact he

theorem at_bottom : b.At t := by
  induction h with
  | bottom hb => exact hb
  | above _ _ _ ih => exact ih

theorem bottom_parent : b.layer.parent = base := by
  induction h with
  | bottom _ hparent => exact hparent
  | above _ _ _ ih => exact ih

theorem bottom_lt : b.ptr < t.heap.length :=
  index_lt h.at_bottom.heap

end Chain

namespace Tree

/-- One step of a read. -/
theorem readAt_entry (he : e.At t) (fuel : Nat) (key : Key) : readAt (fuel + 1) t e.ptr key =
      match e.data.change t.slots key with
      | some data => (.ok data, t)
      | none => readAt fuel t e.layer.parent key := by
  simp only [readAt, he.heap, he.live, he.data, Bool.false_eq_true, if_false, change]
  cases e.data.value t.slots key with
  | some data => rfl
  | none => cases e.data.destructs key.owner <;> rfl

/-- **Reading down a chain** finds what the chain changes. -/
theorem readAt_chain (h : Chain t base above b) {dl : DiskLayer}
    (hbase : t.heap[base]? = some (.disk dl)) {fuel : Nat}
    (hfuel : above.length + 2 ≤ fuel) (key : Key) :
    readAt fuel t (top above b).ptr key =
      match chainChange t.slots above b key with
      | some data => (.ok data, t)
      | none => t.diskRead dl key := by
  induction h generalizing fuel with
  | @bottom b hb hparent =>
    obtain ⟨fuel, rfl⟩ : ∃ n, fuel = n + 2 := ⟨fuel - 2, by simp at hfuel; omega⟩
    rw [top, headD_nil, readAt_entry hb]
    simp only [chainChange, foldr_nil]
    cases b.data.change t.slots key with
    | some data => rfl
    | none => simp [readAt, hparent, hbase]
  | @above e b above he hparent hchain ih =>
    obtain ⟨fuel, rfl⟩ : ∃ n, fuel = n + 1 := ⟨fuel - 1, by omega⟩
    rw [top, headD_cons, readAt_entry he, hparent, ih (by simp at hfuel; omega)]
    simp only [chainChange, foldr_cons, after]
    cases e.data.change t.slots key <;> rfl

/-! ## flattening a chain -/

/-- No two layers of the chain share anything. -/
structure Separate (above : List (Entry F)) (b : Entry F) : Prop where
  ptr : ((above ++ [b]).map Entry.ptr).Nodup
  data : ((above ++ [b]).map fun e => e.layer.data).Nodup
  slots : (above ++ [b]).Pairwise fun e e' => e.data.Apart e'.data

/-- What flattening a chain leaves: the layer `f` with the maps `d` at `q`. -/
structure Flattened (t t' : Tree F) (base : Nat) (above : List (Entry F)) (b : Entry F) (q : Nat)
    (f : DiffLayer F) (d : DiffData) : Prop where
  heap : t'.heap[q]? = some (.diff f)
  live : f.stale = false
  root : f.root = (top above b).layer.root
  parent : f.parent = base
  diffed : f.diffed = (top above b).layer.diffed
  origin : f.origin = b.layer.origin
  dataPtr : f.data = b.layer.data
  data : t'.data[f.data]? = some d
  wf : d.WF t'.slots
  change : d.change t'.slots = chainChange t.slots above b
  refs : ∀ a ref, d.storageData.lookup a = some ref → ∃ e ∈ above ++ [b],
    e.data.storageData.lookup a = some ref
  layers : t'.layers = t.layers
  diskdb : t'.diskdb = t.diskdb
  cache : t'.cache = t.cache
  length : t.heap.length ≤ t'.heap.length
  slotsLength : t'.slots.length = t.slots.length
  same : above = [] → t' = t ∧ q = b.ptr
  new : above ≠ [] → t.heap.length ≤ q ∧
    t'.heap[b.ptr]? = some (.diff { b.layer with stale := true })
  old : ∀ (x : Nat) o, t.heap[x]? = some o → x ≠ b.ptr → t'.heap[x]? = some o
  otherData : ∀ i, i ≠ b.layer.data → t'.data[i]? = t.data[i]?
  otherSlots : ∀ ref, (∀ e ∈ above ++ [b], ∀ a, e.data.storageData.lookup a ≠ some ref) →
    t'.slots[ref]? = t.slots[ref]?

theorem Separate.tail (h : Separate (e :: above) b) : Separate above b :=
  ⟨(nodup_cons.mp h.ptr).2, (nodup_cons.mp h.data).2, (pairwise_cons.mp h.slots).2⟩

theorem Separate.head_data (h : Separate (e :: above) b) : e.layer.data ≠ b.layer.data :=
  fun heq => (nodup_cons.mp h.data).1 (mem_map.mpr ⟨b, by simp, heq.symm⟩)

/-- A layer is merged into the flattened chain below it. -/
theorem Flattened.merge {t1 : Tree F} {q : Nat} {f : DiffLayer F}
    (hf : Flattened t t1 base above b q f d)
    (hchain : Chain t base above b) (he : e.At t) (hsep : Separate (e :: above) b) :
    Flattened t (t1.mergeLayer q f e.layer e.data d).2 base (e :: above) b
      (t1.mergeLayer q f e.layer e.data d).1
      ⟨f.origin, f.parent, f.memory + e.layer.memory, e.layer.root, false, f.data, e.layer.diffed⟩
      (mergedData e.data d t1.slots) := by
  -- the maps of the layer itself were not touched
  have haparts := (pairwise_cons.mp hsep.slots).1
  have hewf : e.data.WF t1.slots :=
    ⟨fun a ref ha => hf.slotsLength ▸ he.wf.bound a ref ha, he.wf.inj⟩
  have hechange : e.data.change t1.slots = e.data.change t.slots :=
    change_congr fun a ref ha => hf.otherSlots ref fun x hx a' ha' => haparts x hx a a' ref ha ha'
  have hapart : e.data.Apart d := by
    intro a a' ref ha ha'
    obtain ⟨x, hx, hxa⟩ := hf.refs a' ref ha'
    exact haparts x hx a a' ref ha hxa
  have hm := merged_spec hewf hf.wf hapart
  have hblt := hchain.bottom_lt
  -- the parent is the bottom-most layer or a new one
  have hqb : above = [] ∧ q = b.ptr ∧ f = b.layer ∨ above ≠ [] ∧ t.heap.length ≤ q := by
    by_cases habove : above = []
    · obtain ⟨rfl, hq⟩ := hf.same habove
      have hheap := hf.heap
      rw [hq, hchain.at_bottom.heap] at hheap
      cases hheap
      exact .inl ⟨habove, hq, rfl⟩
    · exact .inr ⟨habove, (hf.new habove).1⟩
  have hqlt : q < t1.heap.length := index_lt hf.heap
  have hdlt : f.data < t1.data.length := index_lt hf.data
  have hheap : ∀ {x : Nat}, x ≠ q → x < t1.heap.length →
      (t1.mergeLayer q f e.layer e.data d).2.heap[x]? = t1.heap[x]? := by
    intro x hxq hx
    show (t1.heap.set q _ ++ _)[x]? = _
    rw [getElem?_append_left (by rwa [length_set]), getElem?_set_ne (Ne.symm hxq)]
  constructor
  case heap =>
    exact getElem?_concat_length
  case live => rfl
  case root => rfl
  case parent => exact hf.parent
  case diffed => rfl
  case origin => exact hf.origin
  case dataPtr => exact hf.dataPtr
  case data => exact getElem?_set_self hdlt
  case wf => exact hm.wf
  case change =>
    show (mergedData e.data d t1.slots).change _ = after (e.data.change t.slots)
      (chainChange t.slots above b)
    rw [← hechange, ← hf.change]
    exact hm.change
  case refs =>
    intro a ref ha
    obtain ha | ha := hm.refs a ref ha
    · exact ⟨e, by simp, ha⟩
    · obtain ⟨x, hx, hxa⟩ := hf.refs a ref ha
      exact ⟨x, mem_cons_of_mem _ hx, hxa⟩
  case layers => exact hf.layers
  case diskdb => exact hf.diskdb
  case cache => exact hf.cache
  case length =>
    show t.heap.length ≤ (t1.heap.set q _ ++ [_]).length
    rw [length_append, length_set]
    exact Nat.le_succ_of_le hf.length
  case slotsLength => exact hm.length.trans hf.slotsLength
  case same => exact fun h => nomatch h
  case new =>
    intro _
    refine ⟨?_, ?_⟩
    · show t.heap.length ≤ (t1.heap.set q _).length
      rw [length_set]
      exact hf.length
    · obtain ⟨-, rfl, rfl⟩ | ⟨habove, hq⟩ := hqb
      · show (t1.heap.set b.ptr _ ++ [_])[b.ptr]? = _
        rw [getElem?_append_left (by rwa [length_set]), getElem?_set_self hqlt]
      · rw [hheap (by omega) (lt_of_lt_of_le hblt hf.length)]
        exact (hf.new habove).2
  case old =>
    intro x o hx hxb
    have hxlt : x < t.heap.length := index_lt hx
    have hxq : x ≠ q := by
      obtain ⟨-, rfl, -⟩ | ⟨-, hq⟩ := hqb
      · exact hxb
      · omega
    rw [hheap hxq (lt_of_lt_of_le hxlt hf.length), hf.old x o hx hxb]
  case otherData =>
    intro i hi
    show (t1.data.set f.data _)[i]? = _
    rw [getElem?_set_ne (by rw [hf.dataPtr]; exact Ne.symm hi), hf.otherData i hi]
  case otherSlots =>
    intro ref href
    have hd : ∀ a, d.storageData.lookup a ≠ some ref := by
      intro a ha
      obtain ⟨x, hx, hxa⟩ := hf.refs a ref ha
      exact href x (mem_cons_of_mem _ hx) a hxa
    exact (hm.other ref hd).trans (hf.otherSlots ref fun x hx => href x (mem_cons_of_mem _ hx))

/-- **Flattening a chain** leaves one layer with the change of all. -/
theorem flatten_chain (h : Chain t base above b) {dl : DiskLayer}
    (hbase : t.heap[base]? = some (.disk dl))
    (hsep : Separate above b) {fuel : Nat} (hfuel : above.length < fuel) :
    ∃ q t' f d, flatten fuel t (top above b).ptr = (.ok q, t') ∧
      Flattened t t' base above b q f d := by
  induction h generalizing fuel with
  | @bottom b hb hparent =>
    obtain ⟨fuel, rfl⟩ : ∃ n, fuel = n + 1 := ⟨fuel - 1, by simp at hfuel; omega⟩
    refine ⟨b.ptr, t, b.layer, b.data, ?_, ?_⟩
    · simp [top, flatten, hb.heap, hparent, hbase]
    · exact ⟨hb.heap, hb.live, rfl, hparent, rfl, rfl, rfl, hb.data, hb.wf, rfl,
        fun a ref ha => ⟨b, by simp, ha⟩, rfl, rfl, rfl, le_refl _, rfl, fun _ => ⟨rfl, rfl⟩,
          fun hne => absurd rfl hne, fun _ _ hx _ => hx, fun _ _ => rfl, fun _ _ => rfl⟩
  | @above e b above he hparent hchain ih =>
    obtain ⟨fuel, rfl⟩ : ∃ n, fuel = n + 1 := ⟨fuel - 1, by omega⟩
    obtain ⟨q, t1, f, d, hflatten, hf⟩ := ih hsep.tail (by simp at hfuel; omega)
    have hedata : t1.data[e.layer.data]? = some e.data :=
      (hf.otherData _ hsep.head_data).trans he.data
    refine ⟨_, _, _, _, ?_, hf.merge hchain he hsep⟩
    show flatten (fuel + 1) t e.ptr = _
    simp [flatten, he.heap, hparent, hchain.at_top.heap, hflatten, hf.heap, hf.live,
      hedata, hf.data]

end Tree

end GoQrl.Snapshot
