import Mathlib.Data.List.Basic
import Mathlib.Data.List.Flatten

/-!
# GoQrl.Lib.Records

Files as lists: files of records of one width, and runs that lie at an
offset of a file.
-/

namespace GoQrl.Records

open List

variable {α β : Type*}

/-! ## records of one width -/

section Fixed

variable {enc : α → List β} {w : ℕ} (hw : ∀ a, (enc a).length = w)
include hw

/-- The length of a file of records. -/
theorem length_flatMap (l : List α) : (l.flatMap enc).length = l.length * w := by
  induction l with
  | nil => simp
  | cons a l ih => simp [hw, ih, Nat.succ_mul, Nat.add_comm]

/-- Cutting the front of the file cuts the front of the records. -/
theorem drop_flatMap (l : List α) (n : ℕ) :
    (l.flatMap enc).drop (n * w) = (l.drop n).flatMap enc := by
  induction n generalizing l with
  | zero => simp
  | succ n ih =>
    cases l with
    | nil => simp
    | cons a l =>
      have h : (n + 1) * w = (enc a).length + n * w := by rw [hw, Nat.succ_mul, Nat.add_comm]
      rw [flatMap_cons, h, drop_length_add_append, ih, drop_succ_cons]

/-- Keeping the front of the file keeps the front of the records. -/
theorem take_flatMap (l : List α) (n : ℕ) :
    (l.flatMap enc).take (n * w) = (l.take n).flatMap enc := by
  have h := take_append_drop (n * w) (l.flatMap enc)
  rw [drop_flatMap hw] at h
  refine append_cancel_right (h.trans ?_)
  rw [← flatMap_append, take_append_drop]

/-- The bytes of record `i`. -/
theorem take_drop_flatMap {l : List α} {i : ℕ} {a : α} (h : l[i]? = some a) :
    ((l.flatMap enc).drop (i * w)).take w = enc a := by
  obtain ⟨hi, rfl⟩ := List.getElem?_eq_some_iff.mp h
  rw [drop_flatMap hw, drop_eq_getElem_cons hi]
  exact take_left' (hw _)

end Fixed

/-! ## runs at an offset -/

/-- The run `x` lies at offset `s` of the file `f`. -/
def At (f : List β) (s : ℕ) (x : List β) : Prop := x <+: f.drop s

namespace At

variable {f g x y : List β} {s n : ℕ}

/-- The empty run lies everywhere. -/
theorem nil : At f s [] := nil_prefix

/-- What is appended to a file lies at its old end. -/
theorem append_self : At (f ++ x) f.length x := by simp [At]

/-- The bytes that a read of the run gives. -/
theorem read (h : At f s x) : (f.drop s).take x.length = x :=
  (prefix_iff_eq_take.mp h).symm

/-- A run that is not empty ends within the file. -/
theorem le_length (h : At f s x) (hx : x ≠ []) : s + x.length ≤ f.length := by
  have hl := h.length_le
  have hp := length_pos_iff.mpr hx
  rw [length_drop] at hl
  omega

/-- Adjacent runs lie there as one run. -/
theorem append (hx : At f s x) (hy : At f (s + x.length) y) : At f s (x ++ y) := by
  obtain ⟨r, hr⟩ := hx
  obtain ⟨q, hq⟩ := hy
  refine ⟨q, ?_⟩
  rw [append_assoc, hq, ← drop_drop, ← hr, drop_left]

/-- A run stays where it is when the file grows. -/
theorem grow (h : At f s x) : At (f ++ g) s x := by
  rw [At, drop_append]
  exact h.trans (prefix_append _ _)

/-- A run stays where it is when the file is cut behind it. -/
theorem take (h : At f s x) (hn : s + x.length ≤ n) : At (f.take n) s x := by
  rw [At, drop_take, prefix_take_iff]
  exact ⟨h, by omega⟩

end At

end GoQrl.Records
