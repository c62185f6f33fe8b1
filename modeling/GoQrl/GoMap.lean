import GoQrl.Bytes
import Mathlib.Data.List.AList

/-!
# GoQrl.GoMap

Go maps, and loops over them.

A map is a finite list of entries with different keys.  `range` visits them in an order that is
not specified (`MapOrder`), so that what is proved about a loop holds for every order.
-/

namespace GoQrl.State

open List AList

/-- A Go map. -/
abbrev GoMap (K V : Type) [DecidableEq K] := AList fun _ : K => V

/-- The order in which `range` visits the entries of a map is not specified, and two
loops over one map may differ; `site` tells the loops apart. -/
class MapOrder where
  order : {α : Type} → (site : Bytes) → List α → List α
  perm : ∀ {α : Type} (site : Bytes) (l : List α), (order site l).Perm l

/-- An order for worked examples. -/
@[reducible] def MapOrder.listed : MapOrder := ⟨fun _ l => l, fun _ l => .refl l⟩

/-- The entries of a map in the order of `range`. -/
def GoMap.range {K V : Type} [DecidableEq K] [MapOrder] (site : Bytes) (m : GoMap K V) :
    List (K × V) :=
  MapOrder.order site (m.entries.map fun e => (e.1, e.2))

/-! ## loops over maps -/

section

variable {K V : Type} [DecidableEq K] {m : GoMap K V}

theorem mem_entries {k : K} {v : V} :
    (k, v) ∈ m.entries.map (fun e => (e.1, e.2)) ↔ m.lookup k = some v := by
  rw [mem_map]
  constructor
  · rintro ⟨⟨k', v'⟩, hmem, heq⟩
    cases heq
    exact mem_lookup_iff.mpr hmem
  · exact fun hlookup => ⟨⟨k, v⟩, mem_lookup_iff.mp hlookup, rfl⟩

theorem nodup_entries (m : GoMap K V) :
    ((m.entries.map fun e => (e.1, e.2)).map Prod.fst).Nodup := by
  rw [map_map]
  exact m.nodupKeys

/-- The keys of the entries that pass a test. -/
theorem mem_keys_filter {p : (Sigma fun _ : K => V) → Bool} {k : K} :
    k ∈ (m.entries.filter p).map Sigma.fst ↔ ∃ v, m.lookup k = some v ∧ p ⟨k, v⟩ = true := by
  simp only [mem_map, mem_filter]
  constructor
  · rintro ⟨⟨k, v⟩, ⟨hmem, hp⟩, rfl⟩
    exact ⟨v, mem_lookup_iff.mpr hmem, hp⟩
  · rintro ⟨v, hk, hp⟩
    exact ⟨⟨k, v⟩, ⟨mem_lookup_iff.mp hk, hp⟩, rfl⟩

theorem GoMap.mem_range [MapOrder] {site : Bytes} {k : K} {v : V} :
    (k, v) ∈ GoMap.range site m ↔ m.lookup k = some v := by
  rw [GoMap.range, (MapOrder.perm site _).mem_iff, mem_entries]

theorem GoMap.nodup_range [MapOrder] (site : Bytes) (m : GoMap K V) :
    ((GoMap.range site m).map Prod.fst).Nodup :=
  ((MapOrder.perm site (m.entries.map fun e => (e.1, e.2))).map Prod.fst).nodup_iff.mpr
    (nodup_entries m)

/-- The entries after one was put. -/
theorem lookup_insert_cases {k k' : K} {v x : V} (h : (m.insert k v).lookup k' = some x) :
    k' = k ∧ x = v ∨ m.lookup k' = some x := by
  by_cases hk : k' = k
  · rw [hk, lookup_insert] at h
    exact .inl ⟨hk, (Option.some.inj h).symm⟩
  · exact .inr ((lookup_insert_ne hk).symm.trans h)

omit [DecidableEq K] in
/-- What is seen of a key after a loop in which only the entry of the key changes it. -/
theorem foldl_keyed {S A : Type} {f : S → K × V → S} (obs : S → A) (k : K) (g : V → A → A)
    (hat : ∀ s v, obs (f s (k, v)) = g v (obs s)) (hoff : ∀ s k' v, k' ≠ k →
      obs (f s (k', v)) = obs s)
    {l : List (K × V)} (hl : (l.map Prod.fst).Nodup) (s : S) :
    (∀ v, (k, v) ∈ l → obs (l.foldl f s) = g v (obs s)) ∧
    ((∀ v, (k, v) ∉ l) → obs (l.foldl f s) = obs s) := by
  induction l generalizing s with
  | nil => simp
  | cons e l ih =>
    obtain ⟨hnotin, hl⟩ := nodup_cons.mp hl
    obtain ⟨hin, hout⟩ := ih hl (f s e)
    constructor
    · intro v hv
      obtain rfl | hmem := mem_cons.mp hv
      · rw [foldl_cons, hout fun v' hv' => hnotin (mem_map.mpr ⟨_, hv', rfl⟩), hat]
      · have hne : e.1 ≠ k := fun heq => hnotin (mem_map.mpr ⟨_, hmem, heq.symm⟩)
        rw [foldl_cons, hin v hmem, hoff s e.1 e.2 hne]
    · intro hnone
      have hne : e.1 ≠ k := by
        rintro rfl
        exact hnone e.2 mem_cons_self
      rw [foldl_cons, hout fun v hv => hnone v (mem_cons_of_mem _ hv), hoff s e.1 e.2 hne]

/-- `foldl_keyed` for the entries of a map. -/
theorem foldl_entries {S A : Type} {f : S → K × V → S} (obs : S → A) (k : K) (g : V → A → A)
    (m : GoMap K V) (s : S) (hat : ∀ s v, obs (f s (k, v)) = g v (obs s))
    (hoff : ∀ s k' v, k' ≠ k → obs (f s (k', v)) = obs s) :
    obs ((m.entries.map fun e => (e.1, e.2)).foldl f s) =
      ((m.lookup k).map fun v => g v (obs s)).getD (obs s) := by
  obtain ⟨hin, hout⟩ := foldl_keyed obs k g hat hoff (nodup_entries m) s
  cases h : m.lookup k with
  | some v => exact hin v (mem_entries.mpr h)
  | none =>
    refine hout fun v hv => ?_
    simp [mem_entries.mp hv] at h

/-- Copying a map over another. -/
theorem lookup_copy (m current : GoMap K V) (k : K) :
    ((m.entries.map fun e => (e.1, e.2)).foldl (fun m e => m.insert e.1 e.2) current).lookup k =
      (m.lookup k).or (current.lookup k) := by
  rw [foldl_entries (fun c : GoMap K V => c.lookup k) k fun v _ => some v]
  · cases m.lookup k <;> rfl
  · exact fun c v => lookup_insert c
  · exact fun c k' v hne => lookup_insert_ne (Ne.symm hne)

end

end GoQrl.State
