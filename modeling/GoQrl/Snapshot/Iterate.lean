import Mathlib.Data.List.TakeWhile
import GoQrl.Snapshot.Shape
import GoQrl.Snapshot.Merge

/-!
# GoQrl.Snapshot.Iterate

Iterating over a stack of snapshot layers.

The iterator of a layer has the keys of the layer from the seek position on, in ascending order
(`iterator_spec`, `diskIterator_spec`).  Together with the merge of the layers this gives what an
iteration yields: the entries of the flattened state, in ascending order (`iterate_spec`).
-/

namespace GoQrl.Snapshot

open Overlay Priority FastIterator AList DiffData List
open List hiding after
open State (GoMap mem_entries nodup_entries)

/-! ## sorted keys -/

/-- The keys of an iterator are in order: they ascend, and are those from `seek` on that have an
entry. -/
structure Lists (keys : List Item) (seek : Hash) (entry : Hash → Option (Option Bytes)) : Prop where
  ascending : keys.Pairwise fun x y => x.1 < y.1
  mem : ∀ h x, (h, x) ∈ keys ↔ seek ≤ h ∧ entry h = some x

variable {l : List Hash} {b : Bytes}

theorem sortHashes_lt (h : l.Nodup) : (sortHashes l).Pairwise (· < ·) := by
  have hle : (sortHashes l).Pairwise fun a b => decide (a ≤ b) = true :=
    pairwise_mergeSort (fun a b c => by simpa using le_trans)
      (fun a b => by simpa using le_total a b) l
  have hne : (sortHashes l).Nodup := ((mergeSort_perm l _).nodup_iff).mpr h
  exact (hle.and hne).imp fun h => lt_of_le_of_ne (by simpa using h.1) h.2

theorem mem_sortHashes {h : Hash} : h ∈ sortHashes l ↔ h ∈ l := mem_mergeSort

/-- An ascending list from a hash on. -/
theorem exists_split (h : l.Pairwise (· < ·)) (seek : Hash) :
    ∃ l1 l2, l = l1 ++ l2 ∧ (∀ x ∈ l1, x < seek) ∧ ∀ x ∈ l2, seek ≤ x := by
  induction l with
  | nil => exact ⟨[], [], rfl, by simp, by simp⟩
  | cons a l ih =>
    obtain ⟨ha, hl⟩ := pairwise_cons.mp h
    by_cases hlt : a < seek
    · obtain ⟨l1, l2, rfl, h1, h2⟩ := ih hl
      exact ⟨a :: l1, l2, rfl, by simpa using ⟨hlt, h1⟩, h2⟩
    · have hge := le_of_not_gt hlt
      exact ⟨[], a :: l, rfl, by simp, by simpa using ⟨hge, fun x hx => hge.trans (ha x hx).le⟩⟩

namespace DiffData

/-- **Seeking** in a sorted list. -/
theorem seekIn_spec (h : l.Pairwise (· < ·)) (seek : Hash) :
    (seekIn seek l).Pairwise (· < ·) ∧ ∀ x, x ∈ seekIn seek l ↔ x ∈ l ∧ seek ≤ x := by
  obtain ⟨l1, l2, rfl, h1, h2⟩ := exists_split h seek
  have hask : ∀ i, ((l1 ++ l2)[i]?.all fun x => decide (seek ≤ x)) = decide (l1.length ≤ i) := by
    intro i
    by_cases hi : i < l1.length
    · rw [getElem?_append_left hi, getElem?_eq_getElem hi, Option.all_some,
        decide_eq_false (not_le_of_gt (h1 _ (getElem_mem hi))), decide_eq_false (by omega)]
    · rw [getElem?_append_right (by omega), decide_eq_true (show l1.length ≤ i by omega)]
      cases hx : l2[i - l1.length]? with
      | none => rfl
      | some x =>
        exact decide_eq_true (h2 x (mem_of_getElem? hx))
  have hseek : seekIn seek (l1 ++ l2) = l2 := by
    have hf : ∀ i (s : Unit),
        ((l1 ++ l2)[i]?.all fun h => decide (seek ≤ h), ()) = (decide (l1.length ≤ i), s) :=
      fun i _ => Prod.ext (hask i) rfl
    have hfirst := (Search.search_spec (I := fun _ _ _ => True) (s := ()) hf (fun _ _ _ h => h)
      (fun _ _ _ h => h) (le_refl (l1 ++ l2).length) (Nat.zero_le _) (by simp) trivial).1
    rw [seekIn, hfirst, drop_left]
  rw [hseek]
  refine ⟨(pairwise_append.mp h).2.1, fun x => ⟨fun hx => ⟨by simp [hx], h2 x hx⟩, fun hx => ?_⟩⟩
  obtain hmem | hmem := mem_append.mp hx.1
  · exact absurd hx.2 (not_le_of_gt (h1 x hmem))
  · exact hmem

/-! ## the layers -/

/-- What a layer has for a key of this kind: nothing, or a blob, or that it is deleted. -/
def entryOf (slots : List (GoMap Hash Bytes)) (d : DiffData) : Kind → Hash → Option (Option Bytes)
  | .accounts, h =>
    match d.accountData.lookup h with
    | some blob => some (some blob)
    | none => if d.destructs h then some none else none
  | .storage a, h =>
    match (d.slotsOf slots a).lookup h with
    | some [] => some none
    | some (x :: blob) => some (some (x :: blob))
    | none => none

theorem accountList_spec (d : DiffData) : d.accountList.Pairwise (· < ·) ∧
    ∀ h, h ∈ d.accountList ↔ (d.accountData.lookup h).isSome ∨ d.destructs h = true := by
  constructor
  · refine sortHashes_lt
      (nodup_append.mpr ⟨d.accountData.nodupKeys, d.destructSet.nodupKeys.filter _, ?_⟩)
    intro a ha b hb heq
    subst heq
    rw [mem_filter, Option.isNone_iff_eq_none] at hb
    have hsome := lookup_isSome.mpr ha
    simp [hb.2] at hsome
  · intro h
    rw [accountList, mem_sortHashes, mem_append, mem_filter]
    have h1 : h ∈ d.accountData.keys ↔ (d.accountData.lookup h).isSome = true := lookup_isSome.symm
    have h2 : h ∈ d.destructSet.keys ↔ d.destructs h = true := lookup_isSome.symm
    rw [h1, h2]
    cases d.accountData.lookup h <;> simp

theorem storageList_spec (slots : List (GoMap Hash Bytes)) (d : DiffData) (a : Hash) :
    (d.storageList slots a).Pairwise (· < ·) ∧
      ∀ h, h ∈ d.storageList slots a ↔ ((d.slotsOf slots a).lookup h).isSome = true := by
  refine ⟨sortHashes_lt (d.slotsOf slots a).nodupKeys, fun h => ?_⟩
  rw [storageList, mem_sortHashes]
  exact lookup_isSome.symm

/-- The keys of a sorted list from `seek` on, with what the layer has for them. -/
theorem lists_map {value : Hash → Option Bytes} {entry : Hash → Option (Option Bytes)}
    (hl : l.Pairwise (· < ·))
    (hmem : ∀ h, h ∈ l ↔ (entry h).isSome = true) (hvalue : ∀ h x, entry h = some x → value h = x)
    (seek : Hash) :
    Lists ((seekIn seek l).map fun h => (h, value h)) seek entry := by
  obtain ⟨hsorted, hseek⟩ := seekIn_spec hl seek
  refine ⟨pairwise_map.mpr hsorted, fun h x => ?_⟩
  rw [mem_map]
  constructor
  · rintro ⟨h', hh', heq⟩
    cases heq
    obtain ⟨hin, hle⟩ := (hseek h).mp hh'
    obtain ⟨y, hy⟩ := Option.isSome_iff_exists.mp ((hmem h).mp hin)
    exact ⟨hle, by rw [hy, hvalue h y hy]⟩
  · rintro ⟨hle, hx⟩
    exact ⟨h, (hseek h).mpr ⟨(hmem h).mpr (by rw [hx]; rfl), hle⟩, by rw [hvalue h x hx]⟩

/-- **The iterator of a diff layer** has its keys from `seek` on. -/
theorem iterator_spec (slots : List (GoMap Hash Bytes)) (stale : Bool) (d : DiffData) (kind : Kind)
    (seek : Hash) :
    (d.iterator slots stale kind seek).stale = stale ∧
      Lists (d.iterator slots stale kind seek).keys seek (d.entryOf slots kind) := by
  cases kind with
  | accounts =>
    refine ⟨rfl, lists_map d.accountList_spec.1 (fun h => ?_) (fun h x hx => ?_) seek⟩
    · rw [d.accountList_spec.2, entryOf]
      cases d.accountData.lookup h <;> cases d.destructs h <;> simp
    · rw [entryOf] at hx
      rw [account]
      cases hblob : d.accountData.lookup h with
      | some blob =>
        rwa [hblob, Option.some.injEq] at hx
      | none =>
        rw [hblob] at hx
        simp only at hx
        split at hx <;> cases hx
        rfl
  | storage a =>
    refine ⟨rfl, lists_map (d.storageList_spec slots a).1 (fun h => ?_) (fun h x hx => ?_) seek⟩
    · rw [(d.storageList_spec slots a).2, entryOf]
      split <;> simp [*]
    · rw [entryOf] at hx
      rw [slot]
      split at hx
      case h_1 hslot => simpa [hslot] using hx
      case h_2 hslot => simpa [hslot] using hx
      case h_3 => cases hx

end DiffData

/-! ## the disk layer -/

theorem append_le_append_iff (p a b : Bytes) : p ++ a ≤ p ++ b ↔ a ≤ b := by
  induction p with
  | nil => rfl
  | cons x p ih => simp [cons_le_cons_iff, ih]

theorem replicate_zero_le {n : Nat} (h : b.length = n) : replicate n 0 ≤ b := by
  induction n generalizing b with
  | zero => exact nil_le _
  | succ n ih =>
    cases b with
    | nil => cases h
    | cons x b =>
      rw [replicate_succ, cons_le_cons_iff]
      by_cases hx : x = 0
      · exact .inr ⟨hx.symm, ih (by simpa using h)⟩
      · exact .inl (UInt8.pos_iff_ne_zero.mpr hx)

theorem append_zeros_le_iff {n : Nat} {a : Bytes} (h : b.length = a.length + n) :
    a ++ replicate n 0 ≤ b ↔ a ≤ b := by
  induction a generalizing b with
  | nil => exact iff_of_true (replicate_zero_le (by simpa using h)) (nil_le _)
  | cons x a ih =>
    cases b with
    | nil =>
      simp only [length_nil, length_cons] at h
      omega
    | cons y b =>
      rw [cons_append, cons_le_cons_iff, cons_le_cons_iff, ih (by simp at h; omega)]

/-- Trimming zeros from a seek position does not change what is behind it. -/
theorem trimRightZeroes_le_iff {a : Bytes} (h : b.length = a.length) :
    trimRightZeroes a ≤ b ↔ a ≤ b := by
  have hsplit : a = trimRightZeroes a ++
      replicate (a.reverse.takeWhile fun x => x == 0).length 0 := by
    have hzeros : a.reverse.takeWhile (fun x => x == 0) =
        replicate (a.reverse.takeWhile fun x => x == 0).length 0 :=
      eq_replicate_iff.mpr ⟨rfl, fun x hx => by simpa using mem_takeWhile_imp hx⟩
    have hrev := congrArg reverse
        (takeWhile_append_dropWhile (p := fun x => x == 0) (l := a.reverse))
    rw [reverse_append, reverse_reverse] at hrev
    rw [trimRightZeroes, ← reverse_replicate, ← hzeros, hrev]
  conv_rhs => rw [hsplit]
  refine (append_zeros_le_iff ?_).symm
  rw [h]
  conv_lhs => rw [hsplit]
  simp

theorem Kind.dbKey_key (kind : Kind) (h : Hash) :
    (kind.key h).dbKey = kind.dbPrefix ++ h.bytes := by
  cases kind <;> rfl

/-- The key of the database behind the prefix. -/
theorem hash_of_dbKey (pre : Bytes) (h : Hash) : Hash.ofBytes (pre ++ h.bytes) = h := by
  simp [Hash.ofBytes]

/-- **The iterator of the disk layer** has the entries of the database from `seek` on. -/
theorem diskIterator_spec (db : GoMap Bytes Bytes) (kind : Kind) (seek : Hash) :
    (diskIterator db kind seek).stale = false ∧
      Lists (diskIterator db kind seek).keys seek fun h =>
        (db.lookup (kind.key h).dbKey).map some := by
  -- the entries of the database with keys of the right form
  have hmem : ∀ key blob,
      (key, blob) ∈ (newIterator db kind.dbPrefix (trimRightZeroes seek.bytes)).filter
        (fun e => e.1.length = kind.dbPrefix.length + 32) ↔
      ∃ h : Hash, key = kind.dbPrefix ++ h.bytes ∧ seek ≤ h ∧
        db.lookup (kind.key h).dbKey = some blob := by
    intro key blob
    rw [mem_filter, newIterator, mem_mergeSort, mem_filter, Bool.and_eq_true, decide_eq_true_eq,
      decide_eq_true_eq, isPrefixOf_iff_prefix, mem_entries]
    constructor
    · rintro ⟨⟨hlookup, ⟨rest, rfl⟩, hle⟩, hlen⟩
      have hrest : rest.length = 32 := by simpa using hlen
      refine ⟨⟨rest, hrest⟩, rfl, ?_, ?_⟩
      · rw [append_le_append_iff] at hle
        exact (trimRightZeroes_le_iff (by rw [hrest, seek.length_bytes])).mp hle
      · rwa [Kind.dbKey_key]
    · rintro ⟨h, rfl, hle, hlookup⟩
      rw [Kind.dbKey_key] at hlookup
      refine ⟨⟨hlookup, ⟨h.bytes, rfl⟩, ?_⟩, by simp⟩
      rw [append_le_append_iff]
      exact (trimRightZeroes_le_iff (by rw [h.length_bytes, seek.length_bytes])).mpr hle
  refine ⟨rfl, ?_, fun h x => ?_⟩
  · -- the keys of the database ascend, and so do the hashes
    have hnodup : ((db.entries.map fun e => (e.1, e.2)).map Prod.fst).Nodup := nodup_entries db
    have hle : (newIterator db kind.dbPrefix (trimRightZeroes seek.bytes)).Pairwise fun a b =>
        decide (a.1 ≤ b.1) = true :=
      pairwise_mergeSort (fun a b c hab hbc => by
          simp only [decide_eq_true_eq] at hab hbc ⊢
          exact List.le_trans hab hbc)
        (fun a b => by simpa using List.le_total a.1 b.1) _
    have hne : (newIterator db kind.dbPrefix (trimRightZeroes seek.bytes)).Pairwise fun a b =>
        a.1 ≠ b.1 := by
      refine ((mergeSort_perm _ _).pairwise_iff fun h => h.symm).mpr (List.Pairwise.filter _ ?_)
      exact pairwise_map.mp hnodup
    refine pairwise_map.mpr ?_
    refine ((hle.and hne).filter _).imp_of_mem fun {a b} ha hb h => ?_
    obtain ⟨x, hx, -⟩ := (hmem a.1 a.2).mp ha
    obtain ⟨y, hy, -⟩ := (hmem b.1 b.2).mp hb
    rw [hx, hy, decide_eq_true_eq, append_le_append_iff] at h
    rw [hx, hy, hash_of_dbKey, hash_of_dbKey]
    exact lt_of_le_of_ne h.1 fun heq =>
      h.2 (congrArg (fun h : Hash => kind.dbPrefix ++ h.bytes) heq)
  · show (h, x) ∈ map _ _ ↔ _
    rw [mem_map, Option.map_eq_some_iff]
    constructor
    · rintro ⟨⟨key, blob⟩, hin, heq⟩
      obtain ⟨h', rfl, hle, hlookup⟩ := (hmem key blob).mp hin
      rw [hash_of_dbKey] at heq
      cases heq
      exact ⟨hle, blob, hlookup, rfl⟩
    · rintro ⟨hle, blob, hlookup, rfl⟩
      exact ⟨(kind.dbPrefix ++ h.bytes, blob),
        (hmem _ _).mpr ⟨h, rfl, hle, hlookup⟩, by rw [hash_of_dbKey]⟩

/-! ## stacks of layers -/

variable {F : Type} {its : List WeightedIterator}

/-- The layers from the one at a pointer down to the disk layer, none of them stale. -/
inductive Stack (t : Tree F) (base : Nat) : Nat → List (Entry F) → Prop
  | disk {dl : DiskLayer} : t.heap[base]? = some (.disk dl) → Stack t base base []
  | diff {e : Entry F} {es : List (Entry F)} :
    e.At t → Stack t base e.layer.parent es → Stack t base e.ptr (e :: es)

/-- An empty slot in the maps of a layer is a deleted one. -/
def Key.present : Key → Bytes → Option Bytes
  | .slot _ _, [] => none
  | _, blob => some blob

/-- What a layer changes, with deleted entries apart from empty ones. -/
def DiffData.updates (slots : List (GoMap Hash Bytes)) (d : DiffData) :
    Change Key (Option Bytes) := fun key =>
  ((d.value slots key).map key.present).or (if d.destructs key.owner then some none else none)

/-- The flattened state: what the layers change, one after the other, in what is on disk. -/
def flat (t : Tree F) (es : List (Entry F)) : Store Key (Option Bytes) :=
  es.foldr (fun e s => apply (e.data.updates t.slots) s) t.diskdb

namespace Stack

variable {t : Tree F} {base ptr : Nat} {es es' : List (Entry F)}

/-- A pointer determines the layers below. -/
theorem unique (h : Stack t base ptr es) (h' : Stack t base ptr es') : es = es' := by
  induction h generalizing es' with
  | disk hdisk =>
    generalize hp : base = p at h'
    cases h' with
    | disk => rfl
    | diff he _ =>
      simp [hp, he.heap] at hdisk
  | diff he _ ih =>
    generalize hp : Entry.ptr _ = p at h'
    cases h' with
    | disk hdisk =>
      simp [← hp, he.heap] at hdisk
    | diff he' hs =>
      have heq := he.eq he' hp
      subst heq
      rw [ih hs]

theorem of_mem (h : Stack t base ptr es) {e : Entry F} (he : e ∈ es) :
    ∃ es', Stack t base e.ptr (e :: es') ∧ es'.length < es.length := by
  induction h with
  | disk => cases he
  | diff hat hs ih =>
    obtain rfl | he := mem_cons.mp he
    · exact ⟨_, .diff hat hs, by simp⟩
    · obtain ⟨es', hs', hlt⟩ := ih he
      exact ⟨es', hs', by simp only [length_cons]; omega⟩

/-- There are no more layers than objects: no pointer occurs twice. -/
theorem length_le (h : Stack t base ptr es) : es.length ≤ t.heap.length := by
  have hnodup : (es.map Entry.ptr).Nodup ∧ ∀ e ∈ es, e.ptr < t.heap.length := by
    induction h with
    | disk => simp
    | @diff e es hat hs ih =>
      refine ⟨nodup_cons.mpr ⟨fun hmem => ?_, ih.1⟩, ?_⟩
      · obtain ⟨e', he', hptr⟩ := mem_map.mp hmem
        obtain ⟨es', hs', hlt⟩ := hs.of_mem he'
        rw [hptr] at hs'
        have heq := hs'.unique (.diff hat hs)
        injection heq with _ heq
        rw [heq] at hlt
        omega
      · simpa using ⟨index_lt hat.heap, ih.2⟩
  have hsub : (es.map Entry.ptr) ⊆ range t.heap.length := by
    intro p hp
    obtain ⟨e, he, rfl⟩ := mem_map.mp hp
    exact mem_range.mpr (hnodup.2 e he)
  simpa using (subperm_of_subset hnodup.1 hsub).length_le

end Stack

/-- The layers below one that destructs the account have no slots of it. -/
def Kind.ends (d : DiffData) : Kind → Bool
  | .accounts => false
  | .storage a => d.destructs a

/-- What the topmost layer that has an entry for a key has. -/
def found (t : Tree F) (kind : Kind) : List (Entry F) → Hash → Option (Option Bytes)
  | [], h => (t.diskdb (kind.key h)).map some
  | e :: es, h =>
    (e.data.entryOf t.slots kind h).or (if kind.ends e.data then none else found t kind es h)

theorem DiffData.slot_lookup (slots : List (GoMap Hash Bytes)) (d : DiffData) (a h : Hash) :
    (d.slotsOf slots a).lookup h = d.value slots (.slot a h) := by
  rw [slotsOf, value]
  cases d.storageData.lookup a with
  | none => rfl
  | some ref =>
    simp only [Option.bind_some]
    cases slots[ref]? <;> rfl

/-- **What is found is the flattened state.** -/
theorem found_iff (t : Tree F) (es : List (Entry F)) (kind : Kind) (k : Hash) (v : Bytes) :
    found t kind es k = some (some v) ↔ flat t es (kind.key k) = some v := by
  induction es with
  | nil => simp [found, flat]
  | cons e es ih =>
    show _ ↔ apply (e.data.updates t.slots) (flat t es) (kind.key k) = some v
    rw [found, apply, updates]
    cases kind with
    | accounts =>
      simp only [entryOf, Kind.key, Kind.ends, value, Key.owner] at ih ⊢
      cases hblob : e.data.accountData.lookup k with
      | some blob => simp [Key.present]
      | none => by_cases hd : e.data.destructs k = true <;> simp [hd, ih]
    | storage a =>
      simp only [entryOf, Kind.key, Kind.ends, Key.owner, ← slot_lookup] at ih ⊢
      cases hblob : (e.data.slotsOf t.slots a).lookup k with
      | some blob => cases blob <;> simp [Key.present]
      | none => by_cases hd : e.data.destructs a = true <;> simp [hd, ih]

/-! ## the iterators of a stack -/

/-- The iterators of the layers from `depth` down. -/
structure Layered (its : List WeightedIterator) (depth : Nat) (seek : Hash)
    (entry : Hash → Option (Option Bytes)) : Prop where
  fresh : ∀ w ∈ its, w.it.stale = false ∧ w.it.keys.Pairwise fun x y => x.1 < y.1
  deeper : ∀ w ∈ its, depth ≤ w.priority
  priorities : (its.map WeightedIterator.priority).Nodup
  best : ∀ h x, Best (aheads its) h x ↔ seek ≤ h ∧ entry h = some x

theorem Layered.nil (depth : Nat) (seek : Hash) : Layered [] depth seek fun _ => none := by
  refine ⟨by simp, by simp, by simp, fun h x => ?_⟩
  simp [aheads_nil, Best]

/-- One layer more. -/
theorem Layered.cons {depth : Nat} {seek : Hash} {entry below : Hash → Option (Option Bytes)}
    (h : Layered its (depth + 1) seek below) {it : LayerIterator} (hstale : it.stale = false)
    (hit : Lists it.keys seek entry) :
    Layered (⟨it, depth⟩ :: its) depth seek fun h => (entry h).or (below h) := by
  refine ⟨?_, ?_, ?_, fun k x => ?_⟩
  · exact forall_mem_cons.mpr ⟨⟨hstale, hit.ascending⟩, h.fresh⟩
  · exact forall_mem_cons.mpr ⟨le_refl _, fun w hw => by have := h.deeper w hw; omega⟩
  · refine nodup_cons.mpr ⟨fun hmem => ?_, h.priorities⟩
    obtain ⟨w, hw, heq⟩ := mem_map.mp hmem
    have := h.deeper w hw
    simp only at heq
    omega
  · have hlt : ∀ y ∈ aheads its, depth < y.1 := by
      rintro y ⟨w, hw, hy, -⟩
      have := h.deeper w hw
      omega
    rw [aheads_cons, best_union (fun y hy => hy.1.symm) hlt, h.best]
    have hmem : ∀ y, (depth, k, y) ∈ ahead ⟨it, depth⟩ ↔ seek ≤ k ∧ entry k = some y := fun y => by
      rw [← hit.mem]
      exact and_iff_right rfl
    simp only [hmem]
    cases entry k <;> grind

namespace Tree

/-- **The iterators of a stack** have for a key what its topmost layer has. -/
theorem layerIterators_spec {t : Tree F} {db : GoMap Bytes Bytes}
    (hdb : ∀ key, t.diskdb key = db.lookup key.dbKey)
    {base ptr : Nat} {es : List (Entry F)} (h : Stack t base ptr es) (kind : Kind) (seek : Hash)
    {fuel : Nat} (hfuel : es.length < fuel) (depth : Nat) :
    ∃ its, t.layerIterators db kind seek fuel ptr depth = .ok its ∧
      Layered its depth seek (found t kind es) := by
  induction h generalizing fuel depth with
  | disk hdisk =>
    obtain ⟨fuel, rfl⟩ : ∃ n, fuel = n + 1 := ⟨fuel - 1, by omega⟩
    obtain ⟨hstale, hlists⟩ := diskIterator_spec db kind seek
    refine ⟨[⟨diskIterator db kind seek, depth⟩], by rw [layerIterators, hdisk], ?_⟩
    have hlayer := (Layered.nil (depth + 1) seek).cons hstale hlists
    simp only [Option.or_none, ← hdb] at hlayer
    exact hlayer
  | @diff e es he hs ih =>
    obtain ⟨fuel, rfl⟩ : ∃ n, fuel = n + 1 := ⟨fuel - 1, by omega⟩
    obtain ⟨hstale, hlists⟩ := e.data.iterator_spec t.slots false kind seek
    cases hends : kind.ends e.data with
    | true =>
      refine ⟨[⟨e.data.iterator t.slots false kind seek, depth⟩], ?_, ?_⟩
      · cases kind <;> simp_all [layerIterators, Kind.ends, he.heap, he.data, he.live]
      · simpa [found, hends] using ((Layered.nil (depth + 1) seek).cons hstale hlists)
    | false =>
      obtain ⟨its, hits, hlayer⟩ :=
        ih (show es.length < fuel by simp only [length_cons] at hfuel; omega) (depth + 1)
      refine ⟨⟨e.data.iterator t.slots false kind seek, depth⟩ :: its, ?_, ?_⟩
      · cases kind <;> simp_all [layerIterators, Kind.ends, he.heap, he.data, he.live, Except.map]
      · simpa [found, hends] using (hlayer.cons hstale hlists)

/-- **Iterating over a snapshot** ends, and yields in ascending order, each once, the entries of the
flattened state from the seek position on. -/
theorem iterate_spec {t : Tree F} {db : GoMap Bytes Bytes}
    (hdb : ∀ key, t.diskdb key = db.lookup key.dbKey) {root : Hash}
    {base ptr : Nat} (hroot : t.layers.lookup root = some ptr) {es : List (Entry F)}
    (h : Stack t base ptr es) (kind : Kind) (seek : Hash) :
    ∃ out, t.iterate db root kind seek = .ok out ∧ out.Pairwise (fun x y => x.1 < y.1) ∧
      ∀ k v, (k, v) ∈ out ↔ seek ≤ k ∧ flat t es (kind.key k) = some v := by
  obtain ⟨its, hits, hlayer⟩ :=
    layerIterators_spec hdb h kind seek (Nat.lt_succ_of_le h.length_le) 0
  obtain ⟨l, hinit, hsorted, hprunes⟩ := init_spec hlayer.fresh hlayer.priorities
  obtain ⟨out, hout, hascending, hmem⟩ :=
    collect_spec hsorted (Nat.lt_succ_self (FastIterator.size l + 1))
  refine ⟨out, ?_, hascending, fun k v => ?_⟩
  · simp only [iterate, newFastIterator, hroot, hits, hinit]
    exact hout
  · rw [hmem, ← hprunes.best_iff, hlayer.best, found_iff]

def sampleDb : GoMap Bytes Bytes :=
  (∅ : GoMap Bytes Bytes).insert (Key.slot Hash.zero (Hash.ofBytes [1])).dbKey [8]

/-- A layer that destructs an account and writes a slot of it. -/
def sampleEntry : Entry Unit where
  ptr := 1
  layer := ⟨0, 0, 0, Hash.zero, false, 0, ()⟩
  data := ⟨(∅ : GoMap Hash Unit).insert Hash.zero (), ∅, (∅ : GoMap Hash Nat).insert Hash.zero 0⟩

/-- The layer above a disk layer that has another slot of the account. -/
def sampleStack : Tree Unit where
  heap := [.disk ⟨Hash.zero, false, none, false⟩, .diff sampleEntry.layer]
  data := [sampleEntry.data]
  slots := [(∅ : GoMap Hash Bytes).insert Hash.zero [7]]
  layers := (∅ : GoMap Hash Nat).insert Hash.zero 1
  diskdb := fun key => sampleDb.lookup key.dbKey
  cache := fun _ => none

theorem stack_sample : Stack sampleStack 0 1 [sampleEntry] := by
  have hlookup : ∀ a ref, sampleEntry.data.storageData.lookup a = some ref → a = Hash.zero ∧
      ref = 0 := by
    intro a ref ha
    by_cases h : a = Hash.zero
    · subst h
      exact ⟨rfl, (Option.some.inj ha).symm⟩
    · simp [show sampleEntry.data.storageData.lookup a = none from lookup_insert_ne h] at ha
  refine .diff (e := sampleEntry) ⟨rfl, rfl, rfl, fun a ref ha => ?_, fun a a' ref ha ha' =>
    ?_⟩ (.disk rfl)
  · rw [(hlookup a ref ha).2]
    decide
  · rw [(hlookup a ref ha).1, (hlookup a' ref ha').1]

/-- The slot on disk is not yielded. -/
theorem iterate_sample :
    sampleStack.iterate sampleDb Hash.zero (.storage Hash.zero) Hash.zero = .ok [(Hash.zero, [7])] ∧
      ∃ out, sampleStack.iterate sampleDb Hash.zero (.storage Hash.zero) Hash.zero = .ok out ∧
        out.Pairwise (fun x y => x.1 < y.1) ∧
        ∀ k v, (k, v) ∈ out ↔ Hash.zero ≤ k ∧
          flat sampleStack [sampleEntry] (.slot Hash.zero k) = some v :=
  ⟨by decide +kernel,
    iterate_spec (fun _ => rfl) (by decide +kernel) stack_sample (.storage Hash.zero) Hash.zero⟩

end Tree

end GoQrl.Snapshot
