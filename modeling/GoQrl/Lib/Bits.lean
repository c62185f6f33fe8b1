import Mathlib.Data.Nat.Bitwise

/-!
# GoQrl.Lib.Bits

Byte strings as strings of bits, and the writes to them that may be out of range.
-/

namespace Bits

open List

/-- Bit `i` of a byte string, from the lowest bit of its first byte on. -/
def get (bs : List UInt8) (i : Nat) : Bool := (bs.getD (i / 8) 0).toNat.testBit (i % 8)

/-- `bs[i] |= b`, unless the index is out of range. -/
def orAt (bs : List UInt8) (i : Nat) (b : UInt8) : Option (List UInt8) :=
  if i < bs.length then some (bs.modify i (· ||| b)) else none

/-- `bs[i] = b`, unless the index is out of range. -/
def setAt (bs : List UInt8) (i : Nat) (b : UInt8) : Option (List UInt8) :=
  if i < bs.length then some (bs.set i b) else none

variable {bs bs' : List UInt8} {b : UInt8} {i j k : Nat}

@[simp] theorem get_replicate_zero (n i : Nat) : get (replicate n 0) i = false := by
  have hbyte : (replicate n (0 : UInt8)).getD (i / 8) 0 = 0 := by grind
  rw [get, hbyte]
  simp

theorem testBit_one_shiftLeft :
    ∀ k < 8, ∀ j < 8, ((1 : UInt8) <<< UInt8.ofNat k).toNat.testBit j = decide (j = k) := by
  decide

/-- A mask of one bit selects it. -/
theorem and_one_shiftLeft (hk : k < 8) :
    b &&& (1 : UInt8) <<< UInt8.ofNat k ≠ 0 ↔ b.toNat.testBit k = true := by
  have hmask : ((1 : UInt8) <<< UInt8.ofNat k).toNat = 2 ^ k := by
    revert k
    decide
  rw [ne_eq, ← UInt8.toNat_inj, UInt8.toNat_and, hmask, Nat.and_two_pow]
  cases b.toNat.testBit k <;> simp

theorem orAt_of_lt (h : i < bs.length) (b : UInt8) :
    ∃ bs', orAt bs i b = some bs' ∧ bs'.length = bs.length ∧
      ∀ j, get bs' j = (get bs j || (decide (j / 8 = i) && b.toNat.testBit (j % 8))) := by
  refine ⟨_, if_pos h, length_modify _ _ _, fun j => ?_⟩
  rw [get, get, getD_eq_getElem?_getD, getD_eq_getElem?_getD, getElem?_modify]
  by_cases hj : i = j / 8
  · subst hj
    rw [getElem?_eq_getElem h]
    simp
  · simp [hj, Ne.symm hj]

/-- Overwriting a byte with no bit set sets the bits of the new one. -/
theorem setAt_of_clear (h : i < bs.length) (hclear : ∀ j, j / 8 = i → get bs j = false)
    (b : UInt8) :
    ∃ bs', setAt bs i b = some bs' ∧ bs'.length = bs.length ∧
      ∀ j, get bs' j = (get bs j || (decide (j / 8 = i) && b.toNat.testBit (j % 8))) := by
  refine ⟨_, if_pos h, length_set, fun j => ?_⟩
  by_cases hj : j / 8 = i
  · subst hj
    rw [hclear j rfl, get]
    simp [h]
  · rw [get, get]
    simp [hj, Ne.symm hj]

/-- Byte strings of one length with the same bits are equal. -/
theorem ext (hlen : bs.length = bs'.length) (h : ∀ i < 8 * bs.length, get bs i = get bs' i) :
    bs = bs' := by
  refine ext_getElem hlen fun n hn hn' => UInt8.toNat_inj.mp (Nat.eq_of_testBit_eq fun k => ?_)
  by_cases hk : k < 8
  · have := h (8 * n + k) (by omega)
    rw [get, get, show (8 * n + k) / 8 = n by omega, show (8 * n + k) % 8 = k by omega] at this
    simpa [hn, hn'] using this
  · have hlarge : ∀ b : UInt8, b.toNat.testBit k = false := fun b => by
      refine Nat.testBit_lt_two_pow (lt_of_lt_of_le b.toNat_lt ?_)
      exact Nat.pow_le_pow_right (by decide) (by omega)
    rw [hlarge, hlarge]

end Bits
