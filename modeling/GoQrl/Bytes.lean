import Mathlib.Data.List.Induction
import Mathlib.Tactic.Linarith
import Mathlib.Tactic.Ring

/-!
# GoQrl.Bytes

Byte-string plumbing shared by the RLP and trie layers: byte slices and hashes
as Go has them, and the big-endian integers of the RLP size fields.

Everything here is proved once so that the codec proofs never redo list or
base-256 arithmetic.
-/

namespace GoQrl

open List

/-- Contents of a Go `[]byte`. -/
abbrev Bytes := List UInt8

/-- A `[]byte` that a Go program can hold.  The runtime refuses allocations
above `2 ^ 48` bytes, so the bound leaves room for every derived length (the
hex form of a key, the encoding of a value) to fit into a `uint64`. -/
structure Slice where
  bytes : Bytes
  fits : bytes.length < 2 ^ 62

deriving instance DecidableEq for Slice

@[ext] theorem Slice.ext {a b : Slice} (h : a.bytes = b.bytes) : a = b := by
  cases a; cases b; cases h; rfl

/-- An entry of a list is within its length. -/
theorem index_lt {α : Type} {l : List α} {i : Nat} {x : α} (h : l[i]? = some x) : i < l.length :=
  (List.getElem?_eq_some_iff.mp h).1

/-- `common.Hash`: 32 bytes. -/
structure Hash where
  bytes : Bytes
  length_eq : bytes.length = 32

deriving instance DecidableEq for Hash

@[ext] theorem Hash.ext {a b : Hash} (h : a.bytes = b.bytes) : a = b := by
  cases a; cases b; congr

/-- `Hash.Cmp`: the order of the bytes. -/
instance : LinearOrder Hash where
  le a b := a.bytes ≤ b.bytes
  lt a b := a.bytes < b.bytes
  le_refl a := List.le_refl a.bytes
  le_trans _ _ _ := List.le_trans
  le_antisymm _ _ h h' := Hash.ext (List.le_antisymm h h')
  le_total a b := List.le_total a.bytes b.bytes
  lt_iff_le_not_ge a b :=
    ⟨fun h => ⟨List.le_of_lt h, fun h' => List.not_lt.mpr h' h⟩, fun h => List.not_le.mp h.2⟩
  toDecidableLE a b := inferInstanceAs (Decidable (a.bytes ≤ b.bytes))

@[simp] theorem Hash.length_bytes (h : Hash) : h.bytes.length = 32 := h.length_eq

/-- `common.BytesToHash`: the last 32 bytes, left-padded with zeros. -/
def Hash.ofBytes (b : Bytes) : Hash :=
  ⟨List.replicate (32 - b.length) 0 ++ b.drop (b.length - 32), by
    simp only [List.length_append, List.length_replicate, List.length_drop]; omega⟩

@[simp] theorem Hash.ofBytes_bytes (h : Hash) : Hash.ofBytes h.bytes = h := by
  simp [Hash.ofBytes]

/-- `common.Hash{}`. -/
def Hash.zero : Hash := ⟨List.replicate 32 0, by simp⟩

/-! ## take/drop over appended buffers -/

/-- Taking the length of a prefix from an append gives the prefix. -/
theorem take_append_of_length {α : Type} {xs ys : List α} {k : Nat} (h : xs.length = k) :
    (xs ++ ys).take k = xs := by
  subst h; simp

/-- Dropping the length of a prefix from an append gives the suffix. -/
theorem drop_append_of_length {α : Type} {xs ys : List α} {k : Nat} (h : xs.length = k) :
    (xs ++ ys).drop k = ys := by
  subst h; simp

/-! ## big-endian integers -/

/-- Go's `byte(i)`: truncation to the low eight bits. -/
def byte (i : Nat) : UInt8 := UInt8.ofNat i

@[simp] theorem toNat_byte (i : Nat) : (byte i).toNat = i % 256 := by
  simp [byte]

/-- The number whose big-endian bytes are given. -/
def beNat (bs : Bytes) : Nat := bs.foldl (fun n b => n * 256 + b.toNat) 0

/-- The low `n` bytes of `i`, most significant first. -/
def beBytes : Nat → Nat → Bytes
  | 0, _ => []
  | n + 1, i => beBytes n (i / 256) ++ [byte i]

@[simp] theorem beNat_nil : beNat [] = 0 := rfl

@[simp] theorem beNat_append_singleton (bs : Bytes) (b : UInt8) :
    beNat (bs ++ [b]) = beNat bs * 256 + b.toNat := by
  simp [beNat]

@[simp] theorem length_beBytes (n i : Nat) : (beBytes n i).length = n := by
  induction n generalizing i with
  | zero => rfl
  | succ n ih => simp [beBytes, ih]

/-- Reading back the low bytes of a number that fits into them. -/
theorem beNat_beBytes {n i : Nat} (h : i < 256 ^ n) : beNat (beBytes n i) = i := by
  induction n generalizing i with
  | zero =>
    have : i = 0 := by simpa using h
    simp [beBytes, this]
  | succ n ih =>
    have hdiv : i / 256 < 256 ^ n := by
      rw [Nat.div_lt_iff_lt_mul (by decide)]
      simpa [Nat.pow_succ] using h
    rw [beBytes, beNat_append_singleton, ih hdiv, toNat_byte]
    omega

/-- A byte string is the big-endian form of the number it stands for. -/
theorem beBytes_beNat (bs : Bytes) : beBytes bs.length (beNat bs) = bs := by
  induction bs using reverseRecOn with
  | nil => rfl
  | append_singleton bs b ih =>
    have hb : b.toNat < 256 := b.toNat_lt
    have hdiv : (beNat bs * 256 + b.toNat) / 256 = beNat bs := by omega
    have hmod : byte (beNat bs * 256 + b.toNat) = b := by
      apply UInt8.toNat_inj.mp
      rw [toNat_byte]; omega
    rw [length_append, length_singleton, beBytes, beNat_append_singleton, hdiv, ih, hmod]

theorem beNat_lt (bs : Bytes) : beNat bs < 256 ^ bs.length := by
  induction bs using reverseRecOn with
  | nil => simp
  | append_singleton bs b ih =>
    have hb : b.toNat < 256 := b.toNat_lt
    rw [beNat_append_singleton, length_append, length_singleton]
    omega

theorem beNat_cons (b : UInt8) (bs : Bytes) :
    beNat (b :: bs) = b.toNat * 256 ^ bs.length + beNat bs := by
  induction bs using reverseRecOn with
  | nil => simp [beNat]
  | append_singleton bs c ih =>
    rw [← cons_append, beNat_append_singleton, ih, beNat_append_singleton,
      length_append, length_singleton, Nat.pow_succ]
    ring

/-- A leading non-zero byte fixes the order of magnitude. -/
theorem le_beNat_of_head_ne_zero {b : UInt8} (hb : b ≠ 0) (bs : Bytes) :
    256 ^ bs.length ≤ beNat (b :: bs) := by
  have hpos : 1 ≤ b.toNat := by
    rcases Nat.eq_zero_or_pos b.toNat with h | h
    · exact absurd (UInt8.toNat_inj.mp (by simpa using h)) hb
    · exact h
  rw [beNat_cons]
  nlinarith [Nat.zero_le (beNat bs), Nat.mul_le_mul_right (256 ^ bs.length) hpos]

/-- A number of full magnitude has a non-zero leading byte. -/
theorem head_ne_zero_of_le_beNat {b : UInt8} {bs : Bytes} (h : 256 ^ bs.length ≤ beNat (b :: bs)) :
    b ≠ 0 := by
  rintro rfl
  have hlt := beNat_lt bs
  rw [beNat_cons] at h
  simp only [UInt8.toNat_zero, Nat.zero_mul, zero_add] at h
  omega

/-! ## byte arrays -/

/-- `[n]byte`. -/
def Fixed (n : Nat) : Type := { b : Bytes // b.length = n }

instance (n : Nat) :
    DecidableEq (Fixed n) := inferInstanceAs (DecidableEq { b : Bytes // b.length = n })

/-- A copy into a zero array. -/
def Fixed.ofBytes (n : Nat) (b : Bytes) : Fixed n :=
  ⟨(b ++ List.replicate n 0).take n, by simp⟩

theorem Fixed.ofBytes_val {n : Nat} (b : Fixed n) : Fixed.ofBytes n b.val = b := by
  apply Subtype.ext
  exact take_append_of_length b.property

theorem Fixed.val_ofBytes {n : Nat} {b : Bytes} (h : b.length = n) : (Fixed.ofBytes n b).val = b :=
  take_append_of_length h

/-- An array of 32 bytes as a hash. -/
def Fixed.toHash (b : Fixed 32) : Hash := ⟨b.val, b.property⟩

/-- A byte with zeros behind it. -/
def Hash.ofHead (b : UInt8) : Hash := ⟨b :: List.replicate 31 0, by simp⟩

/-- The bytes of an array. -/
def Fixed.bytes {n : Nat} (b : Fixed n) : Bytes := b.val

/-- `common.Address`. -/
abbrev Address := Fixed 20

end GoQrl
