import Mathlib.Order.Basic
import Mathlib.Data.Nat.Basic

/-!
# GoQrl.BaseFee

The base fee of a block, `consensus/misc/eip1559/eip1559.go` and `verifyHeader` of
`consensus/beacon/consensus.go`.

The base fee changes by at most an eighth, unless that is less than one (`baseFee_step`).  A parent
with an odd gas limit can use one more than twice its target, and the eighth is then taken of a
little more (`baseFee_odd`).

The simulated delays and failures of the tests are left out.
-/

namespace GoQrl.BaseFee

/-- `params.MinGasLimit` -/
def minGasLimit : Nat := 5000

/-- `params.MaxGasLimit` -/
def maxGasLimit : Nat := 20000000

/-- `DefaultElasticityMultiplier` -/
def elasticityMultiplier : Nat := 2

/-- `DefaultBaseFeeChangeDenominator` -/
def baseFeeChangeDenominator : Nat := 8

/-- The fields of `types.Header` that are verified here. -/
structure Header where
  extra : List UInt8
  time : Nat
  number : Nat
  gasLimit : Nat
  gasUsed : Nat
  baseFee : Option Nat
  hasWithdrawalsHash : Bool

inductive HeaderError
  | extraTooLong
  | invalidTimestamp
  | invalidGasLimit
  | invalidGasUsed
  | invalidNumber
  | gasLimitBeyond
  | gasLimitBelow
  | missingBaseFee
  | invalidBaseFee
  | missingWithdrawalsHash
  /-- a nil base fee of the parent, or a division by zero -/
  | panicked

/-- `big.Int.Div` -/
def div (x y : Nat) : Except HeaderError Nat := if y = 0 then .error .panicked else .ok (x / y)

/-- An eighth of the part of the base fee by which the gas used is off the target. -/
def baseFeeDelta (gasUsedDelta baseFee parentGasTarget : Nat) : Except HeaderError Nat :=
  match div (gasUsedDelta * baseFee) parentGasTarget with
  | .error e => .error e
  | .ok num => div num baseFeeChangeDenominator

/-- `CalcBaseFee`; a difference below zero is zero. -/
def calcBaseFee (parent : Header) : Except HeaderError Nat :=
  let parentGasTarget := parent.gasLimit / elasticityMultiplier
  match parent.baseFee with
  | none => .error .panicked
  | some baseFee =>
    if parent.gasUsed = parentGasTarget then .ok baseFee
    else if parent.gasUsed > parentGasTarget then
      (baseFeeDelta (parent.gasUsed - parentGasTarget) baseFee parentGasTarget).map fun num =>
        if num < 1 then baseFee + 1 else baseFee + num
    else (baseFeeDelta (parentGasTarget - parent.gasUsed) baseFee parentGasTarget).map fun num =>
      baseFee - num

/-- `VerifyGaslimit` -/
def verifyGaslimit (headerGasLimit : Nat) : Option HeaderError :=
  if headerGasLimit > maxGasLimit then some .gasLimitBeyond
  else if headerGasLimit < minGasLimit then some .gasLimitBelow
  else none

/-- `VerifyEIP1559Header` -/
def verifyEIP1559Header (parent header : Header) : Option HeaderError :=
  (verifyGaslimit header.gasLimit).or
    (match header.baseFee, calcBaseFee parent with
    | none, _ => some .missingBaseFee
    | _, .error e => some e
    | some baseFee, .ok expectedBaseFee =>
      if baseFee ≠ expectedBaseFee then some .invalidBaseFee else none)

/-- `verifyHeader` -/
def verifyHeader (header parent : Header) : Option HeaderError :=
  if header.extra.length > 32 then some .extraTooLong
  else if header.time ≤ parent.time then some .invalidTimestamp
  else if header.gasLimit > maxGasLimit then some .invalidGasLimit
  else if header.gasUsed > header.gasLimit then some .invalidGasUsed
  else if header.number ≠ parent.number + 1 then some .invalidNumber
  else (verifyEIP1559Header parent header).or
    (if header.hasWithdrawalsHash then none else some .missingWithdrawalsHash)

variable {header parent child : Header} {fee : Nat}

/-- What is known of a header that was accepted. -/
theorem verifyHeader_inv (h : verifyHeader header parent = none) :
    header.gasUsed ≤ header.gasLimit ∧ minGasLimit ≤ header.gasLimit ∧
      ∃ fee, header.baseFee = some fee ∧ calcBaseFee parent = .ok fee := by
  unfold verifyHeader verifyEIP1559Header verifyGaslimit at h
  grind [Option.or_eq_none_iff]

/-- The change of the base fee for a difference to the gas target. -/
def change (target fee delta : Nat) : Nat := delta * fee / target / 8

theorem baseFeeDelta_eq {delta target : Nat} (htarget : 0 < target) :
    baseFeeDelta delta fee target = .ok (change target fee delta) := by
  simp [baseFeeDelta, div, baseFeeChangeDenominator, change, htarget.ne']

theorem change_mono (target : Nat) {delta delta' : Nat} (h : delta ≤ delta') :
    change target fee delta ≤ change target fee delta' :=
  Nat.div_le_div_right (Nat.div_le_div_right (Nat.mul_le_mul_right fee h))

/-- **The base fee** after a parent with a gas target. -/
theorem calcBaseFee_eq {target : Nat} (htarget : parent.gasLimit / 2 = target) (hpos : 0 < target)
    (hfee : parent.baseFee = some fee) : calcBaseFee parent = .ok (
      if parent.gasUsed ≤ target then fee - change target fee (target - parent.gasUsed)
      else fee + max 1 (change target fee (parent.gasUsed - target))) := by
  simp only [calcBaseFee, hfee, elasticityMultiplier, htarget, baseFeeDelta_eq hpos, Except.map]
  obtain hlt | heq | hgt := lt_trichotomy parent.gasUsed target
  · rw [if_neg hlt.ne, if_neg hlt.not_gt, if_pos hlt.le]
  · simp [heq, change]
  · rw [if_neg hgt.ne', if_pos hgt, if_neg hgt.not_ge]
    split <;> simp <;> omega

/-- **The step of the base fee.**  It is an eighth of the fee, or one.  If the parent has used all
of an odd gas limit, it is an eighth of the fee for one more than the target.  More gas used never
lowers the fee. -/
theorem baseFee_step {grandparent parent child : Header} {fee : Nat}
    (hparent : verifyHeader parent grandparent = none)
    (hfee : parent.baseFee = some fee) (hpos : 1 ≤ fee)
    (hchild : verifyHeader child parent = none) :
    ∃ fee', calcBaseFee parent = .ok fee' ∧ child.baseFee = some fee' ∧ 1 ≤ fee' ∧
      fee ≤ fee' + max 1 (fee / 8) ∧
      (parent.gasUsed < parent.gasLimit ∨ parent.gasLimit % 2 = 0 → fee' ≤ fee + max 1 (fee / 8)) ∧
      fee' ≤ fee + max 1 (change (parent.gasLimit / 2) fee (parent.gasLimit / 2 + 1)) ∧
      ∀ used fee'', parent.gasUsed ≤ used →
        calcBaseFee { parent with gasUsed := used } = .ok fee'' → fee' ≤ fee'' := by
  obtain ⟨hused, hlimit, -⟩ := verifyHeader_inv hparent
  obtain ⟨-, -, fee', hchild, hcalc⟩ := verifyHeader_inv hchild
  refine ⟨fee', hcalc, hchild, ?_⟩
  generalize ht : parent.gasLimit / 2 = target
  have htarget : 0 < target := by
    rw [minGasLimit] at hlimit
    omega
  rw [calcBaseFee_eq ht htarget hfee, Except.ok.injEq] at hcalc
  have hfull : change target fee target = fee / 8 := by
    rw [change, Nat.mul_div_cancel_left _ htarget]
  have hlow := @change_mono fee target (target - parent.gasUsed) target (Nat.sub_le _ _)
  have hodd := @change_mono fee target (parent.gasUsed - target) (target + 1) (by omega)
  refine ⟨by split at hcalc <;> omega, by split at hcalc <;> omega,
    fun heven => ?_, by split at hcalc <;> omega,
    fun used fee'' hle hcalc' => ?_⟩
  · have hhigh := @change_mono fee target (parent.gasUsed - target) target (by omega)
    split at hcalc <;> omega
  · rw [@calcBaseFee_eq { parent with gasUsed := used } fee target ht htarget hfee,
      Except.ok.injEq] at hcalc'
    have hup := @change_mono fee target (parent.gasUsed - target) (used - target) (by omega)
    have hdown := @change_mono fee target (target - used) (target - parent.gasUsed) (by omega)
    dsimp only at hcalc'
    split at hcalc <;> split at hcalc' <;> omega

/-- A header that was accepted, and those that are accepted above it. -/
inductive Accepted (first : Header) : Header → Prop
  | first {parent : Header} : verifyHeader first parent = none → Accepted first first
  | next {parent child : Header} :
    Accepted first parent → verifyHeader child parent = none → Accepted first child

/-- **The floor of the base fee:** on a chain of accepted headers it never falls below 7, or below
where it was. -/
theorem baseFee_floor {first header : Header} {fee : Nat} (h : Accepted first header)
    (hfee : first.baseFee = some fee) :
    minGasLimit ≤ header.gasLimit ∧ ∃ fee', header.baseFee = some fee' ∧ min fee 7 ≤ fee' := by
  induction h with
  | first hfirst => exact ⟨(verifyHeader_inv hfirst).2.1, fee, hfee, Nat.min_le_left _ _⟩
  | @next parent child _ hchild ih =>
    obtain ⟨hlimit, fee', hfee', hle⟩ := ih
    obtain ⟨-, hlimit', fee'', hfee'', hcalc⟩ := verifyHeader_inv hchild
    generalize ht : parent.gasLimit / 2 = target at hcalc
    have htarget : 0 < target := ht ▸ Nat.div_pos (Nat.le_trans (by decide) hlimit) (by decide)
    rw [calcBaseFee_eq ht htarget hfee', Except.ok.injEq] at hcalc
    -- no more than an eighth of the fee is taken off
    have hlow := @change_mono fee' target (target - parent.gasUsed) target (Nat.sub_le _ _)
    have hfull : change target fee' target = fee' / 8 := by
      rw [change, Nat.mul_div_cancel_left _ htarget]
    exact ⟨hlimit', fee'', hfee'', by split at hcalc <;> omega⟩

/-- A header with the given gas and base fee. -/
def sampleHeader (number gasLimit gasUsed baseFee : Nat) :
    Header := ⟨[], number, number, gasLimit, gasUsed, some baseFee, true⟩

theorem baseFee_step_sample :
    ∃ fee', calcBaseFee (sampleHeader 1 5000 5000 800) = .ok fee' ∧ fee' ≤ 900 := by
  obtain ⟨fee', hcalc, -, -, -, hle, -, -⟩ :=
    @baseFee_step (sampleHeader 0 5000 2500 800) (sampleHeader 1 5000 5000 800)
    (sampleHeader 2 5000 0 900) 800 rfl rfl (by decide) rfl
  exact ⟨fee', hcalc, hle (.inr rfl)⟩

theorem baseFee_floor_sample : minGasLimit ≤ (sampleHeader 2 5000 0 7).gasLimit ∧
    ∃ fee', (sampleHeader 2 5000 0 7).baseFee = some fee' ∧ min 8 7 ≤ fee' :=
  baseFee_floor (.next
    (@Accepted.first (sampleHeader 1 5000 0 8) (sampleHeader 0 5000 2500 8) rfl) rfl) rfl

/-- **An odd gas limit:** the base fee rises by more than an eighth. -/
theorem baseFee_odd :
    verifyHeader (sampleHeader 1 5001 5001 20000) (sampleHeader 0 5000 2500 20000) = none ∧
    verifyHeader (sampleHeader 2 5000 0 22501) (sampleHeader 1 5001 5001 20000) = none ∧
      20000 + max 1 (20000 / 8) < 22501 :=
  ⟨rfl, rfl, by decide⟩

end GoQrl.BaseFee
