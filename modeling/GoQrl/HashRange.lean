import Mathlib.Algebra.Group.Nat.Defs
import Mathlib.Data.Nat.Basic

/-!
# GoQrl.HashRange

Chunks of the hash space, `qrl/protocols/snap/range.go`.

A hash is a number of 256 bits.  Walking a range gives intervals that follow one another up to the
last hash (`Tiles`), at most as many as were asked for (`walk_newHashRange`).  The whole space as
one chunk has a step of `2 ^ 256`, which is stored as zero: the walk does not end (`walk_whole`).
-/

namespace GoQrl

/-- The intervals are not empty, each begins after the end of the one before, and the last ends with
`m`. -/
inductive Tiles (m : Nat) : Nat → List (Nat × Nat) → Prop
  | last {a : Nat} : a ≤ m → Tiles m a [(a, m)]
  | cons {a e : Nat} {l : List (Nat × Nat)} :
    a ≤ e → e < m → Tiles m (e + 1) l → Tiles m a ((a, e) :: l)

namespace Tiles

variable {m a : Nat} {l : List (Nat × Nat)}

theorem le_start (h : Tiles m a l) : ∀ i ∈ l, a ≤ i.1 ∧ i.1 ≤ i.2 := by
  induction h with
  | last hle => simpa
  | cons hle _ _ ih =>
    exact List.forall_mem_cons.mpr ⟨⟨le_rfl, hle⟩, fun i hi => by have := ih i hi; omega⟩

/-- **Tiles** are disjoint, and cover what comes from their start on. -/
theorem cover (h : Tiles m a l) :
    l.Pairwise (fun i j => i.2 < j.1) ∧ ∀ x, a ≤ x ∧ x ≤ m ↔ ∃ i ∈ l, i.1 ≤ x ∧ x ≤ i.2 := by
  induction h with
  | last => simp
  | cons hle hlt h ih =>
    refine ⟨List.pairwise_cons.mpr ⟨fun j hj => (h.le_start j hj).1, ih.1⟩, fun x => ?_⟩
    simp only [List.mem_cons, exists_eq_or_imp, ← ih.2 x]
    omega

end Tiles

/-- `hashRange` -/
structure HashRange where
  current : BitVec 256
  step : BitVec 256

/-- `newHashRange`: the step is a quotient of unbounded numbers, stored in 256 bits.  A division by
zero panics. -/
def newHashRange (start : BitVec 256) (num : UInt64) : Option HashRange :=
  let left := 2 ^ 256 - start.toNat
  if num = 0 then none else
  let step := (left + (num - 1).toNat) / num.toNat
  some ⟨start, BitVec.ofNat 256 step⟩

namespace HashRange

/-- `AddOverflow` of the current hash and the step. -/
def addOverflow (r : HashRange) : BitVec 256 × Bool :=
  (r.current + r.step, decide (2 ^ 256 ≤ r.current.toNat + r.step.toNat))

/-- `Next`, which is false at the end. -/
def next (r : HashRange) : Option HashRange :=
  match r.addOverflow with
  | (_, true) => none
  | (next, false) => some { r with current := next }

/-- `Start` -/
def start (r : HashRange) : BitVec 256 := r.current

/-- `End` -/
def «end» (r : HashRange) : BitVec 256 :=
  match r.addOverflow with
  | (_, true) => BitVec.allOnes 256
  | (next, false) => next - 1

/-- The intervals until `Next` is false, or `none` if there are more than `fuel`. -/
def walk : Nat → HashRange → Option (List (Nat × Nat))
  | 0, _ => none
  | fuel + 1, r =>
    match r.next with
    | none => some [(r.start.toNat, r.end.toNat)]
    | some r' => (walk fuel r').map ((r.start.toNat, r.end.toNat) :: ·)

/-- **Walking a range** whose steps reach the end of the space. -/
theorem walk_spec {num : Nat} {r : HashRange} (hstep : 0 < r.step.toNat)
    (hnum : 2 ^ 256 ≤ r.current.toNat + num * r.step.toNat) :
    ∃ l, walk num r = some l ∧ l.length ≤ num ∧ Tiles (2 ^ 256 - 1) r.current.toNat l := by
  have hlt := r.current.isLt
  induction num generalizing r with
  | zero => omega
  | succ num ih =>
    by_cases hover : 2 ^ 256 ≤ r.current.toNat + r.step.toNat
    · have hadd : r.addOverflow = (r.current + r.step, true) := by
        rw [addOverflow, decide_eq_true hover]
      have hend : r.end.toNat = 2 ^ 256 - 1 := by simp only [«end», hadd, BitVec.toNat_allOnes]
      refine ⟨[(r.start.toNat, r.end.toNat)], by simp only [walk, next, hadd], by simp, ?_⟩
      rw [hend]
      exact .last (by omega)
    · have hadd : r.addOverflow = (r.current + r.step, false) := by
        rw [addOverflow, decide_eq_false hover]
      have hsum : (r.current + r.step).toNat = r.current.toNat + r.step.toNat := by
        rw [BitVec.toNat_add, Nat.mod_eq_of_lt (by omega)]
      have hend : r.end.toNat = r.current.toNat + r.step.toNat - 1 := by
        simp only [«end», hadd]
        rw [BitVec.toNat_sub_of_le (by simp only [BitVec.le_def]; simp; omega), hsum]
        rfl
      obtain ⟨l, hwalk, hlen, htiles⟩ := @ih { r with current := r.current + r.step } hstep
        (by simp only [hsum]; rw [Nat.add_mul] at hnum; omega) (BitVec.isLt _)
      refine ⟨(r.start.toNat, r.end.toNat) :: l, by simp only [walk, next, hadd, hwalk,
        Option.map_some], by simpa using hlen, ?_⟩
      rw [hend]
      refine .cons (by omega) (by omega) ?_
      rwa [Nat.sub_add_cancel (by omega), ← hsum]

/-- **Chunks of the hash space.**  Unless the whole space is to be one chunk, the walk ends after at
most `num` intervals, which are consecutive and cover what comes from the start on. -/
theorem walk_newHashRange (start : BitVec 256) (num : UInt64) (hnum : 1 ≤ num)
    (hwhole : ¬ (start = 0 ∧ num = 1)) :
    ∃ r l, newHashRange start num = some r ∧ walk num.toNat r = some l ∧ l.length ≤ num.toNat ∧
      Tiles (2 ^ 256 - 1) start.toNat l ∧ (∀ i ∈ l, i.1 ≤ i.2) ∧ l.Pairwise (fun i j => i.2 < j.1) ∧
      ∀ x, start.toNat ≤ x ∧ x ≤ 2 ^ 256 - 1 ↔ ∃ i ∈ l, i.1 ≤ x ∧ x ≤ i.2 := by
  have hstart := start.isLt
  have hpos : 1 ≤ num.toNat := hnum
  have hne : num ≠ 0 := fun h0 => by simp [h0] at hpos
  have hpred : (num - 1).toNat = num.toNat - 1 := UInt64.toNat_sub_of_le _ _ hnum
  have hone : num.toNat = 1 → start.toNat ≠ 0 := fun hn hs =>
    hwhole ⟨BitVec.eq_of_toNat_eq hs, UInt64.toNat_inj.mp hn⟩
  generalize hx : 2 ^ 256 - start.toNat + (num.toNat - 1) = x
  have hdiv := Nat.div_add_mod x num.toNat
  have hmod := Nat.mod_lt x hpos
  have hlt : x / num.toNat < 2 ^ 256 := (Nat.div_lt_iff_lt_mul hpos).mpr (by omega)
  have hstep : (BitVec.ofNat 256 (x / num.toNat)).toNat = x / num.toNat := by
    rw [BitVec.toNat_ofNat, Nat.mod_eq_of_lt hlt]
  obtain ⟨l, hwalk, hlen, htiles⟩ :=
    @walk_spec num.toNat ⟨start, BitVec.ofNat 256 (x / num.toNat)⟩
      (by rw [hstep]; exact Nat.div_pos (by omega) hpos)
      (by rw [hstep]; show _ ≤ start.toNat + _; omega)
  exact ⟨_, l, by rw [newHashRange, if_neg hne, hpred, hx], hwalk, hlen, htiles,
    fun i hi => (htiles.le_start i hi).2, htiles.cover⟩

theorem walk_newHashRange_sample : ∃ r l, newHashRange 0 2 = some r ∧ walk 2 r = some l ∧
    Tiles (2 ^ 256 - 1) 0 l := by
  obtain ⟨r, l, hnew, hwalk, -, htiles, -⟩ := walk_newHashRange 0 2 (by decide) (by decide)
  exact ⟨r, l, hnew, hwalk, htiles⟩

/-- **One chunk for the whole space** is walked forever. -/
theorem walk_whole : ∃ r, newHashRange 0 1 = some r ∧ r.next = some r ∧
    ∀ fuel, walk fuel r = none := by
  have hnext : next ⟨0, 0⟩ = some ⟨0, 0⟩ := rfl
  refine ⟨⟨0, 0⟩, rfl, hnext, fun fuel => ?_⟩
  induction fuel with
  | zero => rfl
  | succ fuel ih => simp only [walk, hnext, ih, Option.map_none]

end HashRange

end GoQrl
