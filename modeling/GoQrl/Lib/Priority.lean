import Mathlib.Data.Set.Insert

/-!
# GoQrl.Lib.Priority

Values for keys from several sources, of which the one with the smallest number counts.

A pool has entries of a source, a key and a value.  `Best` is the value that counts for a key.
Leaving out entries that do not count, because a better source has the key, changes nothing
(`Prunes.best_iff`).
-/

namespace GoQrl.Priority

variable {K V : Type}

/-- Sources with what they have. -/
abbrev Pool (K V : Type) := Set (Nat × K × V)

/-- The value that counts. -/
def Best (S : Pool K V) (k : K) (v : V) :
    Prop := ∃ p, (p, k, v) ∈ S ∧ ∀ p' v', (p', k, v') ∈ S → p ≤ p'

/-- What is left out is in a better source. -/
structure Prunes (S S' : Pool K V) : Prop where
  subset : S' ⊆ S
  better : ∀ p k v, (p, k, v) ∈ S → (p, k, v) ∈ S' ∨ ∃ p' v', (p', k, v') ∈ S' ∧ p' < p

namespace Prunes

variable {S S' S'' T : Pool K V}

theorem refl (S : Pool K V) : Prunes S S := ⟨subset_rfl, fun _ _ _ h => .inl h⟩

theorem trans (h : Prunes S S') (h' : Prunes S' S'') : Prunes S S'' := by
  refine ⟨h'.subset.trans h.subset, fun p k v hmem => ?_⟩
  obtain hmem | ⟨q, w, hmem, hlt⟩ := h.better p k v hmem
  · exact h'.better p k v hmem
  · obtain hmem | ⟨q', w', hmem, hlt'⟩ := h'.better q k w hmem
    · exact .inr ⟨q, w, hmem, hlt⟩
    · exact .inr ⟨q', w', hmem, hlt'.trans hlt⟩

/-- One entry is left out. -/
theorem drop {p q : Nat} {k : K} {v w : V} (hmem : (q, k, w) ∈ S) (hlt : q < p) :
    Prunes (insert (p, k, v) S) S := by
  refine ⟨Set.subset_insert _ _, fun p' k' v' hmem' => ?_⟩
  obtain heq | hmem' := Set.mem_insert_iff.mp hmem'
  · cases heq
    exact .inr ⟨q, w, hmem, hlt⟩
  · exact .inl hmem'

/-- **What counts** stays the same. -/
theorem best_iff (h : Prunes S S') (k : K) (v : V) : Best S k v ↔ Best S' k v := by
  constructor
  · rintro ⟨p, hmem, hmin⟩
    obtain hmem' | ⟨q, w, hmem', hlt⟩ := h.better p k v hmem
    · exact ⟨p, hmem', fun p' v' hp' => hmin p' v' (h.subset hp')⟩
    · have := hmin q w (h.subset hmem')
      omega
  · rintro ⟨p, hmem, hmin⟩
    refine ⟨p, h.subset hmem, fun p' v' hp' => ?_⟩
    obtain hp' | ⟨q, w, hq, hlt⟩ := h.better p' k v' hp'
    · exact hmin p' v' hp'
    · have := hmin q w hq
      omega

end Prunes

/-- A source that is better than all others counts for the keys it has. -/
theorem best_union {S T : Pool K V} {p : Nat} (hS : ∀ x ∈ S, x.1 = p) (hT : ∀ x ∈ T, p < x.1)
    (k : K) (v : V) :
    Best (S ∪ T) k v ↔ (p, k, v) ∈ S ∨ (∀ w, (p, k, w) ∉ S) ∧ Best T k v := by
  constructor
  · rintro ⟨q, hmem, hmin⟩
    obtain hmem | hmem := hmem
    · have hq : q = p := hS _ hmem
      subst hq
      exact .inl hmem
    · refine .inr ⟨fun w hw => ?_, q, hmem, fun p' v' hp' => hmin p' v' (.inr hp')⟩
      have hle := hmin p w (.inl hw)
      have hlt : p < q := hT _ hmem
      omega
  · rintro (hmem | ⟨hnone, q, hmem, hmin⟩)
    · refine ⟨p, .inl hmem, fun p' v' hp' => ?_⟩
      obtain hp' | hp' := hp'
      · exact (hS _ hp').ge
      · exact (hT _ hp').le
    · refine ⟨q, .inr hmem, fun p' v' hp' => ?_⟩
      obtain hp' | hp' := hp'
      · have hp : p' = p := hS _ hp'
        subst hp
        exact absurd hp' (hnone v')
      · exact hmin p' v' hp'

end GoQrl.Priority
