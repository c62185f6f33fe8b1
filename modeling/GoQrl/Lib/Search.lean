import Mathlib.Order.Basic

/-!
# GoQrl.Lib.Search

Binary search for the first point where a predicate holds.

The predicate may change a state while it is asked.  What it answers must not depend on the state;
then the search ends at the first point where it holds, and what every question keeps of the state
holds in the end (`search_spec`).
-/

namespace GoQrl.Search

variable {S : Type}

/-- Searching between `i` and `j`. -/
def search (f : Nat → S → Bool × S) : Nat → Nat → Nat → S → Nat × S
  | 0, i, _, s => (i, s)
  | fuel + 1, i, j, s =>
    if i < j then
      match f ((i + j) / 2) s with
      | (false, s) => search f fuel ((i + j) / 2 + 1) j s
      | (true, s) => search f fuel i ((i + j) / 2) s
    else (i, s)

/-- **The first point** where the predicate holds is `k`.  The invariant `I i j` of the state is
kept by every question between `i` and `j`. -/
theorem search_spec {f : Nat → S → Bool × S} {g : Nat → S → S} {k : Nat} {I : Nat → Nat → S → Prop}
    (hf : ∀ h s, f h s = (decide (k ≤ h), g h s))
    (hbelow : ∀ {i j h s}, i ≤ h → h < j → h < k → I i j s → I (h + 1) j (g h s))
    (habove : ∀ {i j h s}, i ≤ h → h < j → k ≤ h → I i j s → I i h (g h s))
    {fuel i j : Nat} (hfuel : j - i ≤ fuel) (hi : i ≤ k) (hj : k ≤ j) {s : S} (hs : I i j s) :
    (search f fuel i j s).1 = k ∧ I k k (search f fuel i j s).2 := by
  induction fuel generalizing i j s with
  | zero =>
    obtain rfl : i = k := by omega
    obtain rfl : j = i := by omega
    exact ⟨rfl, hs⟩
  | succ fuel ih =>
    rw [search]
    split
    next hlt =>
      rw [hf]
      by_cases hk : k ≤ (i + j) / 2
      · rw [decide_eq_true hk]
        exact ih (by omega) hi hk (habove (by omega) (by omega) hk hs)
      · rw [decide_eq_false hk]
        exact ih (by omega) (by omega) hj (hbelow (by omega) (by omega) (by omega) hs)
    next hge =>
      obtain rfl : i = k := by omega
      obtain rfl : j = i := by omega
      exact ⟨rfl, hs⟩

end GoQrl.Search
