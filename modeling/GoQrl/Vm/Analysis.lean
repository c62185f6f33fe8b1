import GoQrl.GoMap
import GoQrl.Lib.Bits
import Mathlib.Tactic

/-!
# GoQrl.Vm.Analysis

The analysis of jump destinations: the bit vector of a contract's code that tells the operands of
the PUSH instructions from the instructions, and the caches it is kept in, one shared between the
frames of a call.

A write behind the end of the vector is `none`.  The writes to the next byte overwrite it; they are
right because all bits from the position on are unset (`Spread.clear`).
-/

namespace GoQrl.Vm

open Bits State Bool

/-- `bitvec`: a set bit is a byte of data. -/
abbrev Bitvec := Bytes

def set1 (bits : Bitvec) (pos : Nat) :
    Option Bitvec := orAt bits (pos / 8) (1 <<< UInt8.ofNat (pos % 8))

def setN (flag : UInt16) (bits : Bitvec) (pos : Nat) : Option Bitvec := do
  let a := flag <<< UInt16.ofNat (pos % 8)
  let bits ← orAt bits (pos / 8) a.toUInt8
  let b := (a >>> 8).toUInt8
  if b ≠ 0 then setAt bits (pos / 8 + 1) b else some bits

def set8 (bits : Bitvec) (pos : Nat) : Option Bitvec := do
  let a : UInt8 := 0xFF <<< UInt8.ofNat (pos % 8)
  let bits ← orAt bits (pos / 8) a
  setAt bits (pos / 8 + 1) (~~~a)

def set16 (bits : Bitvec) (pos : Nat) : Option Bitvec := do
  let a : UInt8 := 0xFF <<< UInt8.ofNat (pos % 8)
  let bits ← orAt bits (pos / 8) a
  let bits ← setAt bits (pos / 8 + 1) 0xFF
  setAt bits (pos / 8 + 2) (~~~a)

def codeSegment (bits : Bitvec) (pos : Nat) : Option Bool :=
  bits[pos / 8]?.map fun b => (b >>> UInt8.ofNat (pos % 8)) &&& 1 == 0

def PUSH1 : UInt8 := 0x60
def JUMPDEST : UInt8 := 0x5b

/-- `for ; numbits >= n; numbits -= n`, with `pc` moved by `n` in every round. -/
def setLoop (n : Nat) (set : Bitvec → Nat → Option Bitvec) :
    Nat → Bitvec → Nat → Nat → Option (Bitvec × Nat × Nat)
  | 0, bits, pc, numbits => some (bits, pc, numbits)
  | fuel + 1, bits, pc, numbits =>
    if n ≤ numbits then do setLoop n set fuel (← set bits pc) (pc + n) (numbits - n) else some
      (bits, pc, numbits)

/-- The `switch` for what is left: the masks `set2BitsMask` to `set7BitsMask`. -/
def setRest (bits : Bitvec) (pc : Nat) : Nat → Option Bitvec
  | 1 => set1 bits pc
  | 2 => setN 0b11 bits pc
  | 3 => setN 0b111 bits pc
  | 4 => setN 0b1111 bits pc
  | 5 => setN 0b11111 bits pc
  | 6 => setN 0b111111 bits pc
  | 7 => setN 0b1111111 bits pc
  | _ => some bits

/-- The two loops: steps of 16 bits, then of 8. -/
def setWhole (bits : Bitvec) (pc numbits : Nat) : Option (Bitvec × Nat × Nat) :=
  if 8 ≤ numbits then do
    let (bits, pc, numbits) ← setLoop 16 set16 numbits bits pc numbits
    setLoop 8 set8 numbits bits pc numbits
  else some (bits, pc, numbits)

/-- The body of the loop of `codeBitmapInternal` behind the opcode; the new bits and `pc`. -/
def setOperands (bits : Bitvec) (pc numbits : Nat) : Option (Bitvec × Nat) := do
  let (bits, pc, numbits) ← setWhole bits pc numbits
  some (← setRest bits pc numbits, pc + numbits)

/-- `codeBitmapInternal` from `pc` on.  Every round moves `pc`, so the length of the code bounds the
rounds. -/
def codeBitmapInternal (code : Bytes) : Nat → Nat → Bitvec → Option Bitvec
  | 0, _, bits => some bits
  | fuel + 1, pc, bits =>
    match code[pc]? with
    | none => some bits
    | some op =>
      if op.toInt8 < PUSH1.toInt8 then codeBitmapInternal code fuel (pc + 1) bits
      else do
        let (bits, pc) ← setOperands bits (pc + 1) (op - PUSH1 + 1).toNat
        codeBitmapInternal code fuel pc bits

def codeBitmap (code : Bytes) : Option Bitvec :=
  codeBitmapInternal code code.length 0 (List.replicate (code.length / 8 + 1 + 4) 0)

/-! ## the linear scan -/

/-- The number of operand bytes of an instruction: PUSH1 to PUSH32 have some. -/
def operands (op : UInt8) : Nat := if 0x60 ≤ op.toNat ∧ op.toNat ≤ 0x7f then op.toNat - 0x5f else 0

/-- Where the `k`-th instruction starts. -/
def instr (code : Bytes) : Nat → Nat
  | 0 => 0
  | k + 1 => instr code k + 1 + operands (code.getD (instr code k) 0)

/-- The byte at `p` is an operand of the instruction it follows. -/
def IsOperand (code : Bytes) (p : Nat) : Prop := ∃ k, instr code k < p ∧ p < instr code (k + 1)

variable {code : Bytes} {bits bits' bits'' : Bitvec} {p pos pos' pos'' n fuel : Nat}

/-- Every instruction is behind the one before. -/
theorem instr_strictMono : StrictMono (instr code) :=
  strictMono_nat_of_lt_succ fun k => by rw [instr]; omega

/-- Every position is one of an instruction or of an operand, not both. -/
theorem exists_instr_iff : (∃ k, instr code k = p) ↔ ¬ IsOperand code p := by
  constructor
  · rintro ⟨k, rfl⟩ ⟨i, hlt, hgt⟩
    have hik := instr_strictMono.lt_iff_lt.mp hlt
    have hki := instr_strictMono.lt_iff_lt.mp hgt
    omega
  · intro hno
    have hex : ∃ k, p ≤ instr code k := ⟨p, instr_strictMono.le_apply⟩
    cases hk : Nat.find hex with
    | zero => exact ⟨0, le_antisymm (Nat.zero_le _) (hk ▸ Nat.find_spec hex)⟩
    | succ k =>
      have hlt : instr code k < p := not_le.mp (Nat.find_min hex (by omega))
      exact ⟨k + 1, le_antisymm (not_lt.mp fun hgt => hno ⟨k, hlt, hgt⟩) (hk ▸ Nat.find_spec hex)⟩

/-! ## what the writes do -/

/-- The second vector has also the bits from `pos` up to `pos'` set. -/
structure Spread (bits : Bitvec) (pos : Nat) (bits' : Bitvec) (pos' : Nat) : Prop where
  length : bits'.length = bits.length
  le : pos ≤ pos'
  get : ∀ j, Bits.get bits' j = (Bits.get bits j || decide (pos ≤ j ∧ j < pos'))

/-- No bit from `pos` on is set. -/
def Clear (bits : Bitvec) (pos : Nat) : Prop := ∀ j, pos ≤ j → Bits.get bits j = false

theorem Spread.refl : Spread bits pos bits pos := ⟨rfl, le_rfl, fun j => by simp⟩

/-- Setting the bits of two stretches sets those of both. -/
theorem Spread.trans (h : Spread bits pos bits' pos') (h' : Spread bits' pos' bits'' pos'') :
    Spread bits pos bits'' pos'' := by
  refine ⟨h'.length.trans h.length, h.le.trans h'.le, fun j => ?_⟩
  have := h.le
  have := h'.le
  rw [h'.get, h.get, Bool.or_assoc, ← decide_or]
  congr 2
  exact propext (by omega)

/-- The bits behind the stretch stay clear. -/
theorem Spread.clear (h : Spread bits pos bits' pos') (hclear : Clear bits pos) :
    Clear bits' pos' := by
  intro j hj
  have := h.le
  rw [h.get, hclear j (by omega)]
  simp
  omega

/-- A write sets `n` bits, if there is room for them and all bits from there on are unset. -/
def Sets (n : Nat) (set : Bitvec → Nat → Option Bitvec) : Prop :=
  ∀ {bits pos}, pos + n < 8 * bits.length → Clear bits pos →
    ∃ bits', set bits pos = some bits' ∧ Spread bits pos bits' (pos + n)

/-- The bits of a byte of ones that is shifted across a byte boundary. -/
theorem testBit_ones_shiftLeft :
    ∀ k < 8, ∀ j < 8, ((0xFF : UInt8) <<< UInt8.ofNat k).toNat.testBit j = decide (k ≤ j) ∧
    (~~~((0xFF : UInt8) <<< UInt8.ofNat k)).toNat.testBit j = decide (j < k) ∧
    (0xFF : UInt8).toNat.testBit j = true := by
  decide

/-- The bits of a mask of `n` ones that is shifted across a byte boundary. -/
theorem testBit_mask_shiftLeft : ∀ n < 8, ∀ k < 8, ∀ j < 8,
    (UInt16.ofNat (2 ^ n - 1) <<< UInt16.ofNat k).toUInt8.toNat.testBit j =
      decide (k ≤ j ∧ j < k + n) ∧
    ((UInt16.ofNat (2 ^ n - 1) <<< UInt16.ofNat k) >>> 8).toUInt8.toNat.testBit j =
      decide (j + 8 < k + n) ∧
    (((UInt16.ofNat (2 ^ n - 1) <<< UInt16.ofNat k) >>> 8).toUInt8 ≠ 0 → 8 < k + n) := by
  decide +kernel

/-- `set1` sets one bit. -/
theorem sets_set1 : Sets 1 set1 := by
  intro bits pos hroom hclear
  obtain ⟨bits', hset, hlen, hget⟩ :=
    orAt_of_lt (show pos / 8 < bits.length by omega) (1 <<< UInt8.ofNat (pos % 8))
  refine ⟨bits', hset, hlen, by omega, fun j => ?_⟩
  rw [hget, testBit_one_shiftLeft _ (by omega) _ (by omega), ← decide_and]
  congr 2
  exact propext (by omega)

/-- Two bytes that have together the `n` bits from `pos` on. -/
theorem spread_of_masks {a b : UInt8}
    (ha : ∀ j < 8, a.toNat.testBit j = decide (pos % 8 ≤ j ∧ j < pos % 8 + n))
    (hb : ∀ j < 8, b.toNat.testBit j = decide (j + 8 < pos % 8 + n)) (hn : n ≤ 8)
    (hroom : pos / 8 < bits.length) (hclear : Clear bits pos) :
    ∃ bits1, orAt bits (pos / 8) a = some bits1 ∧ (b = 0 → Spread bits pos bits1 (pos + n)) ∧
      (pos / 8 + 1 < bits.length → ∃ bits2, setAt bits1 (pos / 8 + 1) b = some bits2 ∧
        Spread bits pos bits2 (pos + n)) := by
  obtain ⟨bits1, h1, hlen1, hget1⟩ := orAt_of_lt hroom a
  have hmark : ∀ j, (decide (j / 8 = pos / 8) && a.toNat.testBit (j % 8) ||
      decide (j / 8 = pos / 8 + 1) && b.toNat.testBit (j % 8)) = decide (pos ≤ j ∧ j < pos + n) :=
        fun j => by
    rw [ha _ (by omega), hb _ (by omega), ← decide_and, ← decide_and, ← decide_or]
    exact decide_eq_decide.mpr (by omega)
  refine ⟨bits1, h1, fun hzero => ⟨hlen1, by omega, fun j => ?_⟩, fun hroom' => ?_⟩
  · rw [hget1, ← hmark, hzero]
    simp
  · obtain ⟨bits2, h2, hlen2, hget2⟩ := setAt_of_clear (show pos / 8 + 1 < bits1.length by omega)
      (fun j hj => by rw [hget1, hclear j (by omega)]; simp; omega) b
    exact ⟨bits2, h2, by omega, by omega, fun j => by rw [hget2, hget1, Bool.or_assoc, hmark]⟩

/-- `setN` sets as many bits as its mask has. -/
theorem sets_setN (hn : n < 8) : Sets n (setN (UInt16.ofNat (2 ^ n - 1))) := by
  intro bits pos hroom hclear
  have hmask := testBit_mask_shiftLeft n hn (pos % 8) (by omega)
  obtain ⟨bits1, h1, hzero, hstore⟩ :=
    spread_of_masks (fun j hj => (hmask j hj).1) (fun j hj => (hmask j hj).2.1) hn.le
    (by omega) hclear
  by_cases hb : ((UInt16.ofNat (2 ^ n - 1) <<< UInt16.ofNat (pos % 8)) >>> 8).toUInt8 = 0
  · exact ⟨bits1, by simp [setN, h1, hb], hzero hb⟩
  · have hroom' := (hmask 0 (by decide)).2.2 hb
    obtain ⟨bits2, h2, hspread⟩ := hstore (by omega)
    exact ⟨bits2, by simp [setN, h1, h2, hb], hspread⟩

/-- `set8` sets eight bits, across two bytes. -/
theorem sets_set8 : Sets 8 set8 := by
  intro bits pos hroom hclear
  have hmask := testBit_ones_shiftLeft (pos % 8) (by omega)
  obtain ⟨bits1, h1, -, hstore⟩ := spread_of_masks
    (fun j hj => (hmask j hj).1.trans (decide_eq_decide.mpr (by omega)))
    (fun j hj => (hmask j hj).2.1.trans (decide_eq_decide.mpr (by omega))) le_rfl (by omega) hclear
  obtain ⟨bits2, h2, hspread⟩ := hstore (by omega)
  exact ⟨bits2, by simp [set8, h1, h2], hspread⟩

/-- `set16` sets sixteen bits, across three bytes. -/
theorem sets_set16 : Sets 16 set16 := by
  intro bits pos hroom hclear
  obtain ⟨bits1, h1, hlen1, hget1⟩ :=
    orAt_of_lt (show pos / 8 < bits.length by omega) (0xFF <<< UInt8.ofNat (pos % 8))
  obtain ⟨bits2, h2, hlen2, hget2⟩ := setAt_of_clear (show pos / 8 + 1 < bits1.length by omega)
    (fun j hj => by rw [hget1, hclear j (by omega)]; simp; omega) 0xFF
  obtain ⟨bits3, h3, hlen3, hget3⟩ := setAt_of_clear (show pos / 8 + 2 < bits2.length by omega)
    (fun j hj => by rw [hget2, hget1, hclear j (by omega)]; simp; omega)
      (~~~(0xFF <<< UInt8.ofNat (pos % 8)))
  refine ⟨bits3, by simp [set16, h1, h2, h3], by omega, by omega, fun j => ?_⟩
  obtain ⟨hlow, hhigh, hones⟩ := testBit_ones_shiftLeft (pos % 8) (by omega) (j % 8) (by omega)
  rw [hget3, hget2, hget1, hlow, hhigh, hones, Bool.and_true, ← decide_and, ← decide_and,
    Bool.or_assoc, Bool.or_assoc, ← decide_or, ← decide_or]
  congr 2
  exact propext (by omega)

/-- The loop sets whole groups of bits and leaves less than one group. -/
theorem setLoop_spec {set : Bitvec → Nat → Option Bitvec} (hset : Sets n set) (hn : 0 < n)
    {fuel numbits : Nat}
    (hfuel : numbits ≤ fuel) (hroom : pos + numbits < 8 * bits.length) (hclear : Clear bits pos) :
    ∃ bits' pos' numbits', setLoop n set fuel bits pos numbits = some (bits', pos', numbits') ∧
      numbits' < n ∧ pos' + numbits' = pos + numbits ∧ Spread bits pos bits' pos' := by
  induction fuel generalizing bits pos numbits with
  | zero => exact ⟨bits, pos, numbits, rfl, by omega, rfl, .refl⟩
  | succ fuel ih =>
    by_cases hle : n ≤ numbits
    · obtain ⟨bits1, h1, hspread⟩ := hset (by omega) hclear
      obtain ⟨bits2, pos2, rest, h2, hlt, hsum, hspread2⟩ := ih (show numbits - n ≤ fuel by omega)
        (by rw [hspread.length]; omega) (hspread.clear hclear)
      exact ⟨bits2, pos2, rest, by simp [setLoop, hle, h1, h2], hlt, by omega,
        hspread.trans hspread2⟩
    · exact ⟨bits, pos, numbits, by simp [setLoop, hle], by omega, rfl, .refl⟩

/-- The rest of the operands is set by the function for its length. -/
theorem sets_setRest (hn : n < 8) : Sets n (setRest · · n) := by
  interval_cases n
  · exact fun _ _ => ⟨_, rfl, .refl⟩
  · exact sets_set1
  all_goals exact sets_setN (by decide)

/-- **The operands** of one instruction are set. -/
theorem setOperands_spec {numbits : Nat} (hroom : pos + numbits < 8 * bits.length)
    (hclear : Clear bits pos) :
    ∃ bits', setOperands bits pos numbits = some (bits', pos + numbits) ∧
      Spread bits pos bits' (pos + numbits) := by
  have hwhole : ∃ bits' pos' rest, setWhole bits pos numbits = some (bits', pos', rest) ∧ rest < 8 ∧
      pos' + rest = pos + numbits ∧ Spread bits pos bits' pos' := by
    rw [setWhole]
    split
    next hlarge =>
      obtain ⟨bits1, pos1, rest1, h1, -, hsum1, hspread1⟩ :=
        setLoop_spec sets_set16 (by decide) le_rfl hroom hclear
      obtain ⟨bits2, pos2, rest2, h2, hlt, hsum2, hspread2⟩ :=
        setLoop_spec sets_set8 (by decide) (le_refl rest1)
        (by rw [hspread1.length]; omega) (hspread1.clear hclear)
      exact ⟨bits2, pos2, rest2, by simp [h1, h2], hlt, by omega, hspread1.trans hspread2⟩
    next hsmall => exact ⟨bits, pos, numbits, rfl, by omega, rfl, .refl⟩
  obtain ⟨bits1, pos1, rest, hset, hlt, hsum, hspread⟩ := hwhole
  obtain ⟨bits2, hset2, hspread2⟩ :=
    sets_setRest hlt (by rw [hspread.length]; omega) (hspread.clear hclear)
  rw [← hsum]
  exact ⟨bits2, by simp [setOperands, hset, hset2], hspread.trans hspread2⟩

/-! ## the bit vector of a code -/

/-- The signed comparison of the source tells the opcodes without operands. -/
theorem toInt8_lt_iff (op : UInt8) : op.toInt8 < PUSH1.toInt8 ↔ operands op = 0 := by
  have hall : ∀ n < 256, (UInt8.ofNat n).toInt8 < PUSH1.toInt8 ↔ operands (UInt8.ofNat n) = 0 := by
    decide +kernel
  simpa using hall op.toNat op.toNat_lt

/-- The subtraction of the source gives the number of operands. -/
theorem toNat_numbits {op : UInt8} (h : operands op ≠ 0) :
    (op - PUSH1 + 1).toNat = operands op := by
  have hall : ∀ n < 256, operands (UInt8.ofNat n) ≠ 0 →
      (UInt8.ofNat n - PUSH1 + 1).toNat = operands (UInt8.ofNat n) := by
    decide +kernel
  simpa [h] using hall op.toNat op.toNat_lt

/-- The set bits are the operands of the first `k` instructions. -/
def Scanned (code : Bytes) (k : Nat) (bits : Bitvec) : Prop :=
  bits.length = code.length / 8 + 1 + 4 ∧
    ∀ j, get bits j = true ↔ ∃ i < k, instr code i < j ∧ j < instr code (i + 1)

/-- The scan goes on from an instruction to the end of the code, and never leaves the bit vector. -/
theorem codeBitmapInternal_spec {k : Nat} (hfuel : code.length ≤ instr code k + fuel)
    (h : Scanned code k bits) :
    ∃ bits' k', codeBitmapInternal code fuel (instr code k) bits = some bits' ∧
      code.length ≤ instr code k' ∧ Scanned code k' bits' := by
  induction fuel generalizing k bits with
  | zero => exact ⟨bits, k, rfl, hfuel, h⟩
  | succ fuel ih =>
    cases hop : code[instr code k]? with
    | none => exact ⟨bits, k, by simp [codeBitmapInternal, hop],
      List.getElem?_eq_none_iff.mp hop, h⟩
    | some op =>
      have hnext : instr code (k + 1) = instr code k + 1 + operands op := by simp [instr, hop]
      have hlt := index_lt hop
      have hclear : Clear bits (instr code k + 1) := fun j hj => by
        refine eq_false_iff.mpr fun htrue => ?_
        obtain ⟨i, hi, -, hji⟩ := (h.2 j).mp htrue
        have := instr_strictMono.monotone (show i + 1 ≤ k from hi) (f := instr code)
        omega
      have hsize : operands op ≤ 32 := by rw [operands]; split <;> omega
      obtain ⟨bits', hstep, hspread⟩ : ∃ bits',
        codeBitmapInternal code (fuel + 1) (instr code k) bits =
          codeBitmapInternal code fuel (instr code (k + 1)) bits' ∧
          Spread bits (instr code k + 1) bits' (instr code (k + 1)) := by
        rw [hnext, codeBitmapInternal, hop]
        by_cases hzero : operands op = 0
        · exact ⟨bits, by simp [toInt8_lt_iff, hzero], by rw [hzero]; exact .refl⟩
        · have hroom : instr code k + 1 + operands op < 8 * bits.length := by rw [h.1]; omega
          obtain ⟨bits', hset, hspread⟩ := setOperands_spec hroom hclear
          exact ⟨bits', by simp [toInt8_lt_iff, hzero, toNat_numbits hzero, hset], hspread⟩
      have hscanned : Scanned code (k + 1) bits' := by
        refine ⟨hspread.length.trans h.1, fun j => ?_⟩
        rw [hspread.get, or_eq_true, h.2, decide_eq_true_eq, Nat.exists_lt_succ_right]
        rfl
      obtain ⟨bits2, k2, hrun, hend, hscanned2⟩ := ih (by omega) hscanned
      exact ⟨bits2, k2, hstep.trans hrun, hend, hscanned2⟩

/-- A position is code if its bit is not set. -/
theorem codeSegment_eq (h : p < 8 * bits.length) : codeSegment bits p = some !get bits p := by
  have hall : ∀ n < 256, ∀ k < 8,
      ((UInt8.ofNat n >>> UInt8.ofNat k) &&& 1 == 0) = !(UInt8.ofNat n).toNat.testBit k := by
    decide +kernel
  have hlt : p / 8 < bits.length := by omega
  simpa [codeSegment, Bits.get,
    hlt] using (hall bits[p / 8].toNat bits[p / 8].toNat_lt (p % 8) (by omega))

/-- **The analysis** stays inside its vector and finds the operands. -/
theorem codeBitmap_spec (code : Bytes) : ∃ bits, codeBitmap code = some bits ∧
    ∀ p < code.length, ∃ b, codeSegment bits p = some b ∧ (b = true ↔ ¬ IsOperand code p) := by
  obtain ⟨bits, k, hrun, hend, hlen, hbits⟩ :=
    codeBitmapInternal_spec (k := 0) (show code.length ≤ 0 + code.length by omega)
    ⟨List.length_replicate, fun j => by rw [get_replicate_zero]; simp⟩
  refine ⟨bits, hrun, fun p hp => ⟨_, codeSegment_eq (by omega), ?_⟩⟩
  rw [not_eq_true', ← not_eq_true, hbits]
  refine not_congr ⟨fun ⟨i, _, hi⟩ => ⟨i, hi⟩, fun ⟨i, hi⟩ => ⟨i, ?_, hi⟩⟩
  exact instr_strictMono.lt_iff_lt.mp (show instr code i < instr code k by omega)

/-! ## the contracts of a call and their caches -/

/-- `Contract`, as far as jumps use it. -/
structure Contract where
  analysis : Option Bitvec
  code : Slice
  codeHash : Hash

/-- The contracts that refer to one map `jumpdests`. -/
structure Frames where
  jumpdests : GoMap Hash Bitvec
  contracts : List Contract

/-- `NewContract`, with the code set: the map is the one of a caller that is a contract, or a new
one. -/
def newContract (caller : Option Frames) (code : Slice) (codeHash : Hash) : Frames :=
  match caller with
  | some parent => { parent with contracts := parent.contracts ++ [⟨none, code, codeHash⟩] }
  | none => ⟨∅, [⟨none, code, codeHash⟩]⟩

/-- `isCode`, and the contract and the map after it. -/
def Contract.isCode (c : Contract) (jumpdests : GoMap Hash Bitvec) (udest : Nat) :
    Option (Bool × Contract × GoMap Hash Bitvec) :=
  match c.analysis with
  | some analysis => do some (← codeSegment analysis udest, c, jumpdests)
  | none => do
    let (analysis, jumpdests) ←
      if c.codeHash ≠ Hash.zero then
        match jumpdests.lookup c.codeHash with
        | some analysis => some (analysis, jumpdests)
        | none => do
          let analysis ← codeBitmap c.code.bytes
          some (analysis, jumpdests.insert c.codeHash analysis)
      else do some (← codeBitmap c.code.bytes, jumpdests)
    some (← codeSegment analysis udest, { c with analysis := some analysis }, jumpdests)

/-- `validJumpdest`, with `Uint64WithOverflow` of the destination. -/
def Contract.validJumpdest (c : Contract) (jumpdests : GoMap Hash Bitvec) (dest : BitVec 256) :
    Option (Bool × Contract × GoMap Hash Bitvec) :=
  let udest := dest.toNat % 2 ^ 64
  if 2 ^ 64 ≤ dest.toNat ∨ c.code.bytes.length ≤ udest then some (false, c, jumpdests)
  else if c.code.bytes[udest]? ≠ some JUMPDEST then some (false, c, jumpdests)
  else c.isCode jumpdests udest

/-- `validJumpdest` of the `i`-th contract. -/
def Frames.validJumpdest (s : Frames) (i : Nat) (dest : BitVec 256) : Option (Bool × Frames) := do
  let c ← s.contracts[i]?
  let (valid, c, jumpdests) ← c.validJumpdest s.jumpdests dest
  some (valid, ⟨jumpdests, s.contracts.set i c⟩)

/-- The frames that calls and jumps lead to; `codeOf` is the code of a hash. -/
inductive Runs (codeOf : Hash → Bytes) : Frames → Prop
  | call {caller : Option Frames} {code : Slice} {codeHash : Hash} : (∀ s ∈ caller, Runs codeOf s) →
      (codeHash ≠ Hash.zero → code.bytes = codeOf codeHash) →
        Runs codeOf (newContract caller code codeHash)
  | jump {s s' : Frames} {i : Nat} {dest : BitVec 256} {valid : Bool} :
      Runs codeOf s → s.validJumpdest i dest = some (valid, s') → Runs codeOf s'

variable {codeOf : Hash → Bytes} {c : Contract} {m : GoMap Hash Bitvec} {s : Frames}

/-- A contract has the code of its hash and no analysis but that of its code. -/
structure Contract.OK (codeOf : Hash → Bytes) (c : Contract) : Prop where
  code : c.codeHash ≠ Hash.zero → c.code.bytes = codeOf c.codeHash
  analysis : ∀ bits, c.analysis = some bits → codeBitmap c.code.bytes = some bits

/-- A map of analyses of the codes. -/
def MapOK (codeOf : Hash → Bytes) (m : GoMap Hash Bitvec) : Prop :=
  ∀ h bits, m.lookup h = some bits → codeBitmap (codeOf h) = some bits

/-- `isCode` analyses the code at most once, and keeps what the map has. -/
theorem Contract.OK.isCode (hc : c.OK codeOf) (hm : MapOK codeOf m) (hp : p < c.code.bytes.length) :
    ∃ b bits m', c.isCode m p = some (b, { c with analysis := some bits }, m') ∧
      (b = true ↔ ¬ IsOperand c.code.bytes p) ∧
      codeBitmap c.code.bytes = some bits ∧ MapOK codeOf m' := by
  obtain ⟨bits, hbits, hsegment⟩ := codeBitmap_spec c.code.bytes
  obtain ⟨b, hb, hiff⟩ := hsegment p hp
  refine ⟨b, bits, ?_⟩
  obtain ⟨analysis, code, codeHash⟩ := c
  cases analysis with
  | some analysis =>
    cases hbits.symm.trans (hc.analysis analysis rfl)
    exact ⟨m, by simp [Contract.isCode, hb], hiff, hbits, hm⟩
  | none =>
    by_cases hzero : codeHash = Hash.zero
    · exact ⟨m, by simp_all [Contract.isCode], hiff, hbits, hm⟩
    · have hcode := hc.code hzero
      cases hlook : m.lookup codeHash with
      | some cached =>
        cases hbits.symm.trans ((congrArg codeBitmap hcode).trans (hm _ _ hlook))
        exact ⟨m, by simp_all [Contract.isCode], hiff, hbits, hm⟩
      | none =>
        refine ⟨m.insert codeHash bits, by simp_all [Contract.isCode], hiff, hbits,
          fun h bits' hlook' => ?_⟩
        obtain ⟨rfl, rfl⟩ | hlook' := lookup_insert_cases hlook'
        · rw [← hcode, hbits]
        · exact hm _ _ hlook'

/-- What holds of the frames of a run. -/
structure Frames.OK (codeOf : Hash → Bytes) (s : Frames) : Prop where
  map : MapOK codeOf s.jumpdests
  contracts : ∀ c ∈ s.contracts, c.OK codeOf

/-- A jump destination is valid if it is an instruction `JUMPDEST`. -/
theorem Frames.OK.validJumpdest {i : Nat} (h : s.OK codeOf) (hc : s.contracts[i]? = some c)
    (dest : BitVec 256) :
    ∃ valid s', s.validJumpdest i dest = some (valid, s') ∧ s'.OK codeOf ∧
      (valid = true ↔ c.code.bytes[dest.toNat]? = some JUMPDEST ∧ ∃ k,
        instr c.code.bytes k = dest.toNat) := by
  have hok := h.contracts c (List.mem_of_getElem? hc)
  have hfits := c.code.fits
  have hvalid : ∃ valid c' m', c.validJumpdest s.jumpdests dest = some (valid, c', m') ∧
      c'.OK codeOf ∧ MapOK codeOf m' ∧
      (valid = true ↔ c.code.bytes[dest.toNat]? = some JUMPDEST ∧ ∃ k,
        instr c.code.bytes k = dest.toNat) := by
    rw [Contract.validJumpdest]
    split
    next hout =>
      have hnone : c.code.bytes[dest.toNat]? = none := List.getElem?_eq_none_iff.mpr (by omega)
      exact ⟨false, c, _, rfl, hok, h.map, by simp [hnone]⟩
    next hin =>
      rw [Nat.mod_eq_of_lt (by omega)] at hin ⊢
      split
      next hop => exact ⟨false, c, _, rfl, hok, h.map, by simp [hop]⟩
      next hop =>
        obtain ⟨b, bits, m', hcode, hiff, hbits, hm'⟩ :=
          hok.isCode h.map (by omega : dest.toNat < _)
        refine ⟨b, _, m', hcode, ⟨hok.code, fun _ h => Option.some.inj h ▸ hbits⟩, hm', ?_⟩
        rw [hiff, ← exists_instr_iff, and_iff_right (not_not.mp hop)]
  obtain ⟨valid, c', m', hexec, hc', hm', hiff⟩ := hvalid
  refine ⟨valid, ⟨m', s.contracts.set i c'⟩, by simp [Frames.validJumpdest, hc, hexec],
    ⟨hm', fun x hx => ?_⟩, hiff⟩
  obtain hold | rfl := List.mem_or_eq_of_mem_set hx
  · exact h.contracts x hold
  · exact hc'

/-- The analyses that are kept are right in every run. -/
theorem Runs.ok (h : Runs codeOf s) : s.OK codeOf := by
  induction h with
  | @call caller code codeHash _ hcode ih =>
    have hnew : Contract.OK codeOf ⟨none, code, codeHash⟩ := ⟨hcode, by simp⟩
    cases caller with
    | none => exact ⟨fun h bits
      hlook => by simp [newContract] at hlook, by simpa [newContract] using hnew⟩
    | some parent =>
      refine ⟨(ih parent rfl).map, fun c hmem => ?_⟩
      obtain hold | hlast := List.mem_append.mp hmem
      · exact (ih parent rfl).contracts c hold
      · rwa [List.mem_singleton.mp hlast]
  | @jump s s' i dest valid _ hjump ih =>
    cases hc : s.contracts[i]? with
    | none => simp [Frames.validJumpdest, hc] at hjump
    | some c =>
      obtain ⟨_, _, hjump', hok, -⟩ := ih.validJumpdest hc dest
      cases hjump.symm.trans hjump'
      exact hok

/-- **Jump destinations.**  The analysis of every code is made inside its vector and finds the
operands of the PUSH instructions; in every run a jump is valid just if it is to a JUMPDEST that is
an instruction. -/
theorem jumpdests_correct (codeOf : Hash → Bytes) :
    (∀ code : Bytes, ∃ bits, codeBitmap code = some bits ∧
      ∀ p < code.length, ∃ b, codeSegment bits p = some b ∧ (b = true ↔ ¬ IsOperand code p)) ∧
    ∀ s i c dest, Runs codeOf s → s.contracts[i]? = some c →
      ∃ valid s', s.validJumpdest i dest = some (valid, s') ∧
      (valid = true ↔ c.code.bytes[dest.toNat]? = some JUMPDEST ∧ ∃ k,
        instr c.code.bytes k = dest.toNat) := by
  refine ⟨codeBitmap_spec, fun s i c dest hrun hc => ?_⟩
  obtain ⟨valid, s', hjump, -, hiff⟩ := hrun.ok.validJumpdest hc dest
  exact ⟨valid, s', hjump, hiff⟩

/-- The code `PUSH1 5b JUMPDEST`. -/
def sampleCode : Slice := ⟨[0x60, 0x5b, 0x5b], by decide⟩

theorem jumpdests_correct_sample :
    ∃ s', (newContract none sampleCode (Hash.ofHead 1)).validJumpdest 0 2 = some (true, s') := by
  have hruns : Runs (fun _ => sampleCode.bytes) (newContract none sampleCode (Hash.ofHead 1)) :=
    .call (fun _ h => by simp at h) fun _ => rfl
  obtain ⟨valid, s', hjump, hiff⟩ := (jumpdests_correct _).2 _ 0 _ 2 hruns rfl
  rw [hiff.mpr ⟨by decide, 1, by decide⟩] at hjump
  exact ⟨s', hjump⟩

end GoQrl.Vm
