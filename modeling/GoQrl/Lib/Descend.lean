import Mathlib.Data.List.AList

/-!
# GoQrl.Lib.Descend

What lies below a point when every point has a list of children, and taking all of it out of a map.

`Within children n a x` says that `x` is reached from `a` in fewer than `n` steps.  Where the
children rank higher than their parents, the number of steps is bounded by the ranks
(`within_rank`), so that what is reached is closed under children (`within_child`).  `eraseBelow`
takes out of a map all that is reached (`lookup_eraseBelow`).
-/

namespace GoQrl.Descend

variable {A V : Type}

/-- Reached in fewer than `n` steps. -/
def Within (children : A → List A) : Nat → A → A → Prop
  | 0, _, _ => False
  | n + 1, a, x => x = a ∨ ∃ c ∈ children a, Within children n c x

variable {children : A → List A} {n : Nat} {a x : A}

theorem Within.mono {m : Nat} (hle : n ≤ m) (h : Within children n a x) :
    Within children m a x := by
  induction n generalizing m a with
  | zero => cases h
  | succ n ih =>
    obtain ⟨m, rfl⟩ : ∃ k, m = k + 1 := ⟨m - 1, by omega⟩
    obtain rfl | ⟨c, hc, hx⟩ := h
    · exact .inl rfl
    · exact .inr ⟨c, hc, ih (by omega) hx⟩

theorem Within.snoc {y : A} (h : Within children n a x) (hy : y ∈ children x) :
    Within children (n + 1) a y := by
  induction n generalizing a with
  | zero => cases h
  | succ n ih =>
    obtain rfl | ⟨c, hc, hx⟩ := h
    · exact .inr ⟨y, hy, .inl rfl⟩
    · exact .inr ⟨c, hc, ih hx⟩

/-- What is reached is the start or a child of what is reached. -/
theorem Within.eq_or_child (h : Within children n a x) :
    x = a ∨ ∃ c, Within children n a c ∧ x ∈ children c := by
  induction n generalizing a with
  | zero => cases h
  | succ n ih =>
    obtain rfl | ⟨c, hc, hx⟩ := h
    · exact .inl rfl
    · obtain rfl | ⟨y, hy, hchild⟩ := ih hx
      · exact .inr ⟨a, .inl rfl, hc⟩
      · exact .inr ⟨y, .inr ⟨c, hc, hy⟩, hchild⟩

section

variable (rank : A → Nat) (hrank : ∀ a c, c ∈ children a → rank a < rank c)

include hrank

/-- As many steps as there are ranks are enough. -/
theorem within_rank {n : Nat} {a x : A} (h : Within children n a x) :
    rank a ≤ rank x ∧ Within children (rank x - rank a + 1) a x := by
  induction n generalizing a with
  | zero => cases h
  | succ n ih =>
    obtain rfl | ⟨c, hc, hx⟩ := h
    · exact ⟨le_refl _, .inl rfl⟩
    · obtain ⟨hle, hwithin⟩ := ih hx
      have hlt := hrank a c hc
      exact ⟨by omega, .inr ⟨c, hc, hwithin.mono (by omega)⟩⟩

/-- **Closed**: with as many steps as there are ranks, the children of what is reached are reached.
-/
theorem within_child {n : Nat} {a x y : A} (hn : rank y < n) (h : Within children n a x)
    (hy : y ∈ children x) :
    Within children n a y := by
  obtain ⟨-, hx⟩ := within_rank rank hrank h
  have hlt := hrank x y hy
  exact (hx.snoc hy).mono (by omega)

end

variable [DecidableEq A]

/-- A key and all that is below it are taken out of a map. -/
def eraseBelow (children : A → List A) : Nat → A → AList (fun _ : A => V) → AList fun _ : A => V
  | 0, _, m => m
  | n + 1, a, m => (children a).foldl (fun m c => eraseBelow children n c m) (m.erase a)

/-- Erasing what is below several keys. -/
theorem lookup_foldl_eraseBelow {v : V} (hone : ∀ (a : A) (m : AList fun _ : A => V),
      (eraseBelow children n a m).lookup x = some v ↔ ¬Within children n a x ∧
        m.lookup x = some v) (l : List A)
    (m : AList fun _ : A => V) :
    (l.foldl (fun m c => eraseBelow children n c m) m).lookup x = some v ↔
      (∀ c ∈ l, ¬Within children n c x) ∧ m.lookup x = some v := by
  induction l generalizing m with
  | nil => simp
  | cons a l ih =>
    rw [List.foldl_cons, ih, hone]
    simp [and_assoc, and_left_comm]

/-- **What is left** is what is not reached. -/
theorem lookup_eraseBelow (n : Nat) (a x : A) (v : V) (m : AList fun _ : A => V) :
    (eraseBelow children n a m).lookup x = some v ↔ ¬Within children n a x ∧
      m.lookup x = some v := by
  induction n generalizing a m with
  | zero => simp [eraseBelow, Within]
  | succ n ih =>
    rw [eraseBelow, lookup_foldl_eraseBelow fun a m => ih a m]
    simp only [Within, not_or, not_exists, not_and]
    by_cases hx : x = a
    · subst hx
      simp
    · rw [AList.lookup_erase_ne hx]
      tauto

end GoQrl.Descend
