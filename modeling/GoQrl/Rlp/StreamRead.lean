import GoQrl.Rlp.Stream

/-!
# GoQrl.Rlp.StreamRead

What the calls of a stream read.

`After s c s'` says that `s'` is the stream `s` with the bytes `c` read: they are gone
from the input and taken off the size of the innermost list, modulo `2 ^ 64`.  Each
call is described by two lemmas: what it read if it succeeded (`_ok`), and that it
succeeds on a well-formed input within the limits (`_of`).
-/

namespace GoQrl.Rlp

open List UInt64

namespace Stream

/-! ## streams with bytes read -/

/-- A stream over a byte slice with the input limit in effect. -/
structure Ready (s : Stream) : Prop where
  limited : s.limited = true
  remaining : s.remaining = UInt64.ofNat s.r.length
  small : s.r.length < 2 ^ 62

/-- Takes bytes off the innermost list. -/
def consume (n : Nat) : List UInt64 → List UInt64
  | [] => []
  | limit :: rest => (limit - UInt64.ofNat n) :: rest

/-- The innermost list has room for `n` bytes. -/
def Room (n : Nat) (stack : List UInt64) : Prop := ∀ limit ∈ stack.head?, n ≤ limit.toNat

/-- The bytes `c` were read. -/
structure After (s : Stream) (c : Bytes) (s' : Stream) : Prop where
  input : s.r = c ++ s'.r
  ready : Ready s'
  stack : s'.stack = consume c.length s.stack

variable {s s' s'' : Stream} {size : UInt64} {k : Kind} {n : Nat} {c d rest hd : Bytes}
    {b large tag : UInt8}
  {stack : List UInt64}

theorem toNat_ofNat (h : n < 2 ^ 64) : (ofNat n).toNat = n :=
  toNat_ofNat_of_lt' h

theorem consume_zero (stack : List UInt64) : consume 0 stack = stack := by
  cases stack with
  | nil => rfl
  | cons limit rest => simp [consume]

/-- The limits of the open lists sink by what is read in all. -/
theorem consume_consume (m n : Nat) (stack : List UInt64) :
    consume n (consume m stack) = consume (m + n) stack := by
  cases stack with
  | nil => rfl
  | cons limit rest => simp [consume, sub_sub]

/-- There is room for the rest after a part was read. -/
theorem Room.consume {m : Nat} (h : Room (m + n) stack) (hm : m < 2 ^ 64) :
    Room n (consume m stack) := by
  cases stack with
  | nil => simp [Stream.consume, Room]
  | cons limit rest =>
    have hle : m + n ≤ limit.toNat := h limit rfl
    have hof : ofNat m ≤ limit := by
      rw [le_iff_toNat_le, toNat_ofNat hm]
      omega
    intro l hl
    obtain rfl : limit - ofNat m = l := Option.some.inj hl
    rw [UInt64.toNat_sub_of_le _ _ hof, toNat_ofNat hm]
    omega

theorem room_cons {limit : UInt64} (h : n ≤ limit.toNat) : Room n (limit :: stack) := by
  simpa [Room]

theorem Room.mono {m : Nat} (h : Room n stack) (hmn : m ≤ n) : Room m stack :=
  fun limit hl => le_trans hmn (h limit hl)

/-- What is left of the input. -/
theorem After.rest_eq (h : After s c s') (hr : s.r = c ++ rest) : s'.r = rest :=
  append_cancel_left (h.input.symm.trans hr)

theorem After.refl (h : Ready s) : After s [] s :=
  ⟨rfl, h, (consume_zero s.stack).symm⟩

/-- Reads follow each other. -/
theorem After.trans (h : After s c s') (h' : After s' d s'') : After s (c ++ d) s'' where
  input := by rw [h.input, h'.input, append_assoc]
  ready := h'.ready
  stack := by rw [h'.stack, h.stack, consume_consume, length_append]

theorem After.length_le (h : After s c s') : c.length ≤ s.r.length := by
  rw [h.input, length_append]
  omega

/-- The cached fields do not count. -/
theorem After.congr {t' : Stream} (h : After s c s') (hr : t'.r = s'.r)
    (hrem : t'.remaining = s'.remaining)
    (hst : t'.stack = s'.stack) (hlim : t'.limited = s'.limited) : After s c t' where
  input := by rw [hr]; exact h.input
  ready := ⟨hlim.trans h.ready.limited, by rw [hrem, hr]; exact h.ready.remaining,
    by rw [hr]; exact h.ready.small⟩
  stack := hst.trans h.stack

/-- The stream after `n` bytes. -/
def skip (n : Nat) (s : Stream) : Stream :=
  { s with
    r := s.r.drop n
    remaining := UInt64.ofNat (s.r.length - n)
    stack := consume n s.stack
    kind := none }

section

variable (h : Ready s)
include h

theorem Ready.skip (n : Nat) : Ready (s.skip n) where
  limited := h.limited
  remaining := by simp [Stream.skip]
  small := by
    have := h.small
    simp only [Stream.skip, length_drop]
    omega

/-- Skipping reads the first bytes. -/
theorem after_skip (hn : n ≤ s.r.length) : After s (s.r.take n) (s.skip n) where
  input := (take_append_drop n s.r).symm
  ready := h.skip n
  stack := by
    rw [length_take, min_eq_left hn]
    rfl

/-! ## reading -/

/-- The counter of the remaining bytes is that of the input. -/
theorem remaining_sub (hn : n ≤ s.r.length) : s.remaining - ofNat n = ofNat (s.r.length - n) := by
  have hsplit : s.r.length = (s.r.length - n) + n := by omega
  rw [h.remaining, sub_eq_iff_eq_add, ← ofNat_add, ← hsplit]

/-- Other list sizes, or another kind ahead. -/
theorem Ready.rearm (stack : List UInt64) : Ready { s with kind := none, stack := stack } :=
  { h with }

/-- Bytes are taken if the input has them, and else the end of it is an error. -/
theorem takeRemaining_eq (hn : n < 2 ^ 64) : takeRemaining (ofNat n) s =
    if n ≤ s.r.length then (.ok (), { s with remaining := ofNat (s.r.length - n) })
      else (.error .valueTooLarge, s) := by
  have hgt : ofNat n > s.remaining ↔ ¬ n ≤ s.r.length := by
    rw [h.remaining, gt_iff_lt, lt_iff_toNat_lt, toNat_ofNat hn,
      toNat_ofNat (lt_trans h.small (by decide))]
    omega
  rw [takeRemaining, if_pos h.limited]
  split
  next hle => rw [if_neg (hgt.mp hle)]
  next hle => rw [if_pos (not_not.mp (hgt.not.mp hle)),
    remaining_sub h (not_not.mp (hgt.not.mp hle))]

/-- `willRead` before `n` bytes are read. -/
theorem willRead_iff (hn : n < 2 ^ 64) : willRead (ofNat n) s = (.ok (), s') ↔
    n ≤ s.r.length ∧ Room n s.stack ∧ s' = { s.skip n with r := s.r } := by
  have hrest : ∀ stack,
      takeRemaining (ofNat n) { s with kind := none, stack := stack } = (.ok (), s') ↔
      n ≤ s.r.length ∧ s' = { s.skip n with r := s.r, stack := stack } := by
    intro stack
    rw [takeRemaining_eq (h.rearm stack) hn]
    split
    next hle => simp [skip, eq_comm, hle]
    next hle => simp [hle]
  unfold willRead
  split
  next hst => rw [hrest, hst]; simp [Room, skip, consume, hst]
  next limit rest hst =>
    have hgt : ofNat n > limit ↔ ¬ Room n s.stack := by
      rw [gt_iff_lt, lt_iff_toNat_lt, toNat_ofNat hn, hst]
      simp [Room]
    by_cases hroom : Room n s.stack
    · rw [if_neg (hgt.not.mpr (not_not.mpr hroom)), hrest]
      rw [hst] at hroom
      simp [hroom, skip, consume, hst]
    · rw [if_pos (hgt.mpr hroom)]
      simp [hroom]

/-- A read that succeeds returns the next bytes. -/
theorem readFull_ok (hn : n < 2 ^ 64) (hok : readFull n s = (.ok c, s')) :
    c.length = n ∧ After s c s' ∧ s'.kind = none := by
  unfold readFull at hok
  split at hok
  · cases hok
  next s₁ hw =>
  obtain ⟨hle, -, rfl⟩ := (willRead_iff h hn).mp hw
  rw [if_neg (by exact not_lt.mpr hle)] at hok
  cases hok
  exact ⟨by simpa using hle, after_skip h hle, rfl⟩

/-- A read succeeds if the open list has room for it. -/
theorem readFull_of (hr : s.r = c ++ rest) (hroom : Room c.length s.stack) :
    ∃ s', readFull c.length s = (.ok c, s') ∧ After s c s' ∧ s'.kind = none := by
  have hsmall := h.small
  have hle : c.length ≤ s.r.length := by
    rw [hr, length_append]
    omega
  refine ⟨s.skip c.length, ?_, ?_, rfl⟩
  · rw [readFull, (willRead_iff h (by omega)).mpr ⟨hle, hroom, rfl⟩]
    simp [skip, hr]
  · have := after_skip h hle
    rwa [hr, take_left] at this

end

/-- A byte is read as a buffer of one. -/
theorem readByte_iff : readByte s = (.ok b, s') ↔ readFull 1 s = (.ok [b], s') := by
  unfold readByte readFull
  obtain ⟨e | -, s1⟩ := willRead 1 s
  · simp
  · cases hr : s1.r with
    | nil => simp [hr]
    | cons c rest => simp [hr]

theorem readByte_ok (h : Ready s) (hok : readByte s = (.ok b, s')) :
    After s [b] s' ∧ s'.kind = none :=
  (readFull_ok h (by decide) (readByte_iff.mp hok)).2

theorem readFull_zero (s : Stream) : readFull 0 s = (.ok [], { s with kind := none }) := by
  obtain ⟨r, remaining, size, kinderr, stack, kind, byteval, limited⟩ := s
  cases stack <;> cases limited <;> simp [readFull, willRead, takeRemaining]

/-- `readUint` is a read of all bytes, without a leading zero unless there is only one. -/
theorem readUint_iff {v : UInt64} : readUint n s = (.ok v, s') ↔
    ∃ b, readFull n s = (.ok b, s') ∧ (n = 1 ∨ b.head? ≠ some 0) ∧ v = ofNat (beNat b) := by
  obtain _ | _ | n := n
  · simp [readUint, readFull_zero, and_comm, eq_comm]
  · unfold readUint readByte readFull
    obtain ⟨e | -, s1⟩ := willRead 1 s
    · simp
    · cases hr : s1.r with
      | nil => simp [hr]
      | cons c rest => simp [hr, beNat_cons, and_comm, eq_comm]
  · rw [readUint.eq_3 _ _ (by omega) (by omega)]
    obtain ⟨e | b, s1⟩ := readFull (n + 2) s
    · simp
    · by_cases hz : b.head? = some 0
      · simp [hz]
      · simp [hz, and_comm, eq_comm]

/-! ## headers -/

/-- The header of a value. -/
inductive Header : Kind → UInt64 → Bytes → Prop
  | byte {b : UInt8} (hb : b < 0x80) : Header .byte 0 [b]
  | string (size : UInt64) : Header .string size (puthead 0x80 0xB7 size.toNat)
  | list (size : UInt64) : Header .list size (puthead 0xC0 0xF7 size.toNat)

/-- A size field without a leading zero. -/
theorem ofNat_beNat (hb : b ≠ 0) {bs : Bytes} (hlen : bs.length + 1 ≤ 8) :
    putint (ofNat (beNat (b :: bs))).toNat = b :: bs := by
  have hlt := beNat_lt (b :: bs)
  have hpow : (256 : Nat) ^ (b :: bs).length ≤ 2 ^ 64 :=
    Nat.pow_le_pow_right (by decide) hlen
  rw [toNat_ofNat (by omega), putint_beNat hb hlen]

/-- The size of a long value is in its shortest form, and at least 56. -/
theorem readSizeField_ok (h : Ready s) {k k' : Kind} (hn : 1 ≤ n) (hn8 : n ≤ 8)
    (hok : readSizeField k n s = (.ok (k', size), s')) :
    k' = k ∧ 56 ≤ size.toNat ∧ (putint size.toNat).length = n ∧ After s (putint size.toNat) s' ∧
      s'.kind = none := by
  unfold readSizeField at hok
  split at hok
  · cases hok
  next size' s₁ hread =>
  split at hok
  · cases hok
  next hsize =>
  cases hok
  refine ⟨rfl, by rwa [UInt64.not_lt] at hsize, ?_⟩
  obtain ⟨buffer, hfull, hhead, rfl⟩ := readUint_iff.mp hread
  obtain ⟨hlen, hafter⟩ := readFull_ok h (by omega) hfull
  obtain ⟨b, bs, rfl⟩ := exists_cons_of_length_pos (show 0 < buffer.length by omega)
  have hb : b ≠ 0 := by
    rintro rfl
    obtain rfl | hhead := hhead
    · obtain rfl : bs = [] := by simpa using hlen
      exact hsize (by decide)
    · exact hhead rfl
  rw [ofNat_beNat hb (by rw [length_cons] at hlen; omega)]
  exact ⟨hlen, hafter⟩

/-- The size of a long value is read back. -/
theorem readSizeField_of (h : Ready s) (k : Kind) (h56 : 56 ≤ size.toNat)
    (hr : s.r = putint size.toNat ++ rest) (hroom : Room (putint size.toNat).length s.stack) :
    ∃ s', readSizeField k (putint size.toNat).length s = (.ok (k, size), s') ∧
      After s (putint size.toNat) s' ∧ s'.kind = none := by
  have hsize : ¬ size < 56 := by rwa [UInt64.not_lt]
  have hpos : 0 < size.toNat := by omega
  obtain ⟨b, bs, hput, hb, -⟩ := putint_cons hpos size.toNat_lt
  obtain ⟨s', hfull, hafter⟩ := readFull_of h hr hroom
  have hread : readUint (putint size.toNat).length s = (.ok size, s') :=
    readUint_iff.mpr ⟨_, hfull,
      .inr (by simpa [hput] using hb), by rw [beNat_putint hpos size.toNat_lt, UInt64.ofNat_toNat]⟩
  refine ⟨s', ?_, hafter⟩
  rw [readSizeField, hread]
  simp [if_neg hsize]

/-- A short header is one byte. -/
theorem puthead_small (hle : tag ≤ b) (hlt : b.toNat < tag.toNat + 56) :
    puthead tag large (b - tag).toUInt64.toNat = [b] := by
  have hsub := UInt8.toNat_sub_of_le _ _ hle
  rw [UInt8.toNat_toUInt64, puthead, if_pos (by omega), byte, UInt8.ofNat_toNat, add_sub_cancel]

/-- A long header is a tag and the size. -/
theorem puthead_large {size : Nat} (h56 : 56 ≤ size)
    (hlen : (putint size).length = (b - large).toNat) :
    puthead tag large size = b :: putint size := by
  rw [puthead, if_neg (by omega), hlen, byte, UInt8.ofNat_toNat, add_sub_cancel]

/-- The tags of strings and lists. -/
inductive Tags : Kind → UInt8 → UInt8 → Prop
  | string : Tags .string 0x80 0xB7
  | list : Tags .list 0xC0 0xF7

variable {s₁ : Stream}

theorem Tags.header (h : Tags k tag large) (size : UInt64) :
    Header k size (puthead tag large size.toNat) := by
  cases h <;> constructor

theorem Tags.bounds (h : Tags k tag large) :
    k ≠ .byte ∧ tag.toNat + 55 < 256 ∧ large.toNat + 8 < 256 := by
  cases h <;> decide

/-- Every byte is a value of its own, or starts a short or a long header. -/
theorem tags_cases (b : UInt8) : b < 0x80 ∨ ∃ k tag large, Tags k tag large ∧
    ((tag ≤ b ∧ b.toNat < tag.toNat + 56) ∨ (large < b ∧ b.toNat ≤ large.toNat + 8)) := by
  have hb := b.toNat_lt
  by_cases hlist : b.toNat < 0xC0
  · refine (lt_or_ge b.toNat 0x80).imp_right fun hle => ⟨_, _, _, .string, ?_⟩
    exact (lt_or_ge b.toNat 0xB8).imp (fun hlt => ⟨hle, hlt⟩) fun hge =>
      ⟨hge, Nat.le_of_lt_succ hlist⟩
  · refine .inr ⟨_, _, _, .list, ?_⟩
    exact (lt_or_ge b.toNat 0xF8).imp (fun hlt => ⟨not_lt.mp hlist, hlt⟩) fun hge =>
      ⟨hge, Nat.le_of_lt_succ hb⟩

/-- The tag of a short value has its size. -/
theorem readKind_short (h : Tags k tag large) (hbyte : readByte s = (.ok b, s₁)) (hle : tag ≤ b)
    (hlt : b.toNat < tag.toNat + 56) :
    readKind s = (.ok (k, (b - tag).toUInt64), { s₁ with byteval := 0 }) := by
  rw [readKind]
  simp only [UInt8.lt_iff_toNat_lt, UInt8.le_iff_toNat_le] at hle ⊢
  cases h <;> simp at hle hlt ⊢ <;> grind

/-- The size of a long value follows its tag. -/
theorem readKind_long (h : Tags k tag large) (hbyte : readByte s = (.ok b, s₁)) (hlo : large < b)
    (hhi : b.toNat ≤ large.toNat + 8) :
    readKind s = readSizeField k (b - large).toNat { s₁ with byteval := 0 } := by
  rw [readKind]
  simp only [UInt8.lt_iff_toNat_lt] at hlo ⊢
  cases h <;> simp at hlo hhi ⊢ <;> grind

/-- **What `readKind` reads** is the header of a value. -/
theorem readKind_ok (h : Ready s) (hok : readKind s = (.ok (k, size), s')) :
    ∃ hd, Header k size hd ∧ After s hd s' ∧ (k = .byte → hd = [s'.byteval]) := by
  obtain ⟨b, s₁, hbyte⟩ : ∃ b s₁, readByte s = (.ok b, s₁) := by
    unfold readKind at hok
    split at hok
    · cases hok
    next b s₁ hbyte => exact ⟨b, s₁, hbyte⟩
  obtain ⟨hafter, -⟩ := readByte_ok h hbyte
  have hclear : After s [b] { s₁ with byteval := 0 } := hafter.congr rfl rfl rfl rfl
  obtain hlt | ⟨k', tag, large, htags, ⟨hle, hlt⟩ | ⟨hlo, hhi⟩⟩ := tags_cases b
  · simp only [readKind, hbyte, if_pos hlt] at hok
    cases hok
    exact ⟨[b], .byte hlt, hafter.congr rfl rfl rfl rfl, fun _ => rfl⟩
  · rw [readKind_short htags hbyte hle hlt] at hok
    cases hok
    exact ⟨_, htags.header _, by rw [puthead_small hle hlt]; exact hclear,
      fun hk => absurd hk htags.bounds.1⟩
  · rw [readKind_long htags hbyte hlo hhi] at hok
    have hsub := UInt8.toNat_sub_of_le _ _ (UInt8.le_of_lt hlo)
    have hlt := UInt8.lt_iff_toNat_lt.mp hlo
    obtain ⟨rfl, h56, hlen, hfield, -⟩ := readSizeField_ok hclear.ready (by omega) (by omega) hok
    refine ⟨_, htags.header _, ?_, fun hk => absurd hk htags.bounds.1⟩
    rw [puthead_large h56 hlen]
    exact hclear.trans hfield

/-- The first byte of a header. -/
theorem puthead_eq (tag large : UInt8) (size : UInt64) (htag : tag.toNat + 55 < 256)
    (hlarge : large.toNat + 8 < 256) :
    (∃ b : UInt8, puthead tag large size.toNat = [b] ∧ tag ≤ b ∧ b.toNat < tag.toNat + 56 ∧
      (b - tag).toUInt64 = size) ∨
    ∃ b : UInt8, puthead tag large size.toNat = b :: putint size.toNat ∧ 56 ≤ size.toNat ∧
      large < b ∧ b.toNat ≤ large.toNat + 8 ∧ (b - large).toNat = (putint size.toNat).length := by
  by_cases hsize : size.toNat < 56
  · have hb : (tag + byte size.toNat).toNat = tag.toNat + size.toNat := toNat_tag_add (by omega)
    have hle : tag ≤ tag + byte size.toNat := by
      rw [UInt8.le_iff_toNat_le, hb]
      omega
    refine .inl ⟨_, by rw [puthead, if_pos hsize], hle, by omega, ?_⟩
    rw [← UInt64.toNat_inj, UInt8.toNat_toUInt64, UInt8.toNat_sub_of_le _ _ hle, hb]
    omega
  · have hpos : 0 < size.toNat := by omega
    have hlen := length_putint hpos size.toNat_lt
    have h8 := intsize_le size.toNat_lt
    have h1 := intsize_pos size.toNat
    have hb : (large + byte (putint size.toNat).length).toNat =
        large.toNat + (putint size.toNat).length :=
      toNat_tag_add (by omega)
    have hlt : large < large + byte (putint size.toNat).length := by
      rw [UInt8.lt_iff_toNat_lt, hb]
      omega
    refine .inr ⟨_, by rw [puthead, if_neg hsize], by omega, hlt, by omega, ?_⟩
    rw [UInt8.toNat_sub_of_le _ _ (UInt8.le_of_lt hlt), hb]
    omega

/-- `readKind` reads a header that is there. -/
theorem readKind_of (h : Ready s) (hhd : Header k size hd) (hr : s.r = hd ++ rest)
    (hroom : Room hd.length s.stack) :
    ∃ s', readKind s = (.ok (k, size), s') ∧ After s hd s' ∧ (k = .byte → hd = [s'.byteval]) := by
  -- the first byte
  have hfirst : ∀ {b : UInt8} {bs : Bytes}, hd = b :: bs → ∃ s₁, readByte s = (.ok b, s₁) ∧
      After s [b] { s₁ with byteval := 0 } := by
    rintro b bs rfl
    obtain ⟨s₁, hfull, hafter, -⟩ :=
      readFull_of h (show s.r = [b] ++ (bs ++ rest) from hr) (hroom.mono (by simp))
    exact ⟨s₁, readByte_iff.mpr hfull, hafter.congr rfl rfl rfl rfl⟩
  have hhead : ∀ {tag large : UInt8}, Tags k tag large → hd = puthead tag large size.toNat →
      ∃ s', readKind s = (.ok (k, size), s') ∧ After s hd s' ∧ (k = .byte → hd = [s'.byteval]) := by
    intro tag large htags hhd
    obtain ⟨b, hput, hle, hlt, hval⟩ | ⟨b, hput, h56, hlo, hhi, hlen⟩ :=
      puthead_eq tag large size htags.bounds.2.1 htags.bounds.2.2
    · rw [hput] at hhd
      obtain ⟨s₁, hbyte, hafter⟩ := hfirst hhd
      exact ⟨_, by rw [readKind_short htags hbyte hle hlt, hval], by rwa [hhd],
        fun hk => absurd hk htags.bounds.1⟩
    · rw [hput] at hhd
      obtain ⟨s₁, hbyte, hafter⟩ := hfirst hhd
      subst hhd
      have hroom' : Room (putint size.toNat).length (consume 1 s.stack) :=
        (hroom.mono (by simp; omega)).consume (by simp)
      rw [← show _ = consume 1 s.stack from hafter.stack] at hroom'
      have hrest := hafter.input
      rw [hr] at hrest
      obtain ⟨s', hexec, hafter', -⟩ :=
        readSizeField_of hafter.ready k h56 (List.cons.inj hrest).2.symm hroom'
      exact ⟨s', by rw [readKind_long htags hbyte hlo hhi, hlen, hexec], hafter.trans hafter',
        fun hk => absurd hk htags.bounds.1⟩
  cases hhd with
  | byte hb =>
    obtain ⟨s₁, hbyte, hafter⟩ := hfirst rfl
    simp only [readKind, hbyte, if_pos hb]
    exact ⟨_, rfl, hafter.congr rfl rfl rfl rfl, fun _ => rfl⟩
  | string => exact hhead .string rfl
  | list => exact hhead .list rfl

/-! ## the value ahead -/

/-- The kind and the size of the value ahead are known. -/
structure Ahead (s : Stream) (k : Kind) (size : UInt64) : Prop where
  kind : s.kind = some k
  size : s.size = size
  kinderr : s.kinderr = none

/-- The kind that was read is kept. -/
theorem Ahead.kindAhead (h : Ahead s k size) : s.kindAhead = (.ok (k, size), s) := by
  rw [Stream.kindAhead, h.kind]
  simp [h.kinderr, h.size]

theorem puthead_ne_nil (tag large : UInt8) (size : Nat) : puthead tag large size ≠ [] := by
  unfold puthead
  split <;> simp

theorem Header.ne_nil (h : Header k size hd) : hd ≠ [] := by
  cases h with
  | byte => simp
  | string | list => exact puthead_ne_nil _ _ _

/-- **What `Kind` reads** is the header of a value whose content is within the input. -/
theorem kindAhead_ok (h : Ready s) (hk : s.kind = none) (hok : kindAhead s = (.ok (k, size), s')) :
    ∃ hd, Header k size hd ∧ After s hd s' ∧ Ahead s' k size ∧ size.toNat ≤ s'.r.length ∧
      (k = .byte → hd = [s'.byteval]) := by
  rw [kindAhead, hk] at hok
  simp only at hok
  split at hok
  · cases hok
  split at hok
  · cases hok
  next k' size' s₁ hread =>
  obtain ⟨hd, hhd, hafter, hbyte⟩ := readKind_ok h hread
  split at hok
  · next hnone =>
    cases hok
    refine ⟨hd, hhd, hafter.congr rfl rfl rfl rfl, ⟨rfl, rfl, rfl⟩, ?_, hbyte⟩
    unfold sizeError at hnone
    split at hnone
    · cases hnone
    split at hnone
    · cases hnone
    next hle =>
    have hle : ¬ size > s₁.remaining := fun hgt => hle ⟨hafter.ready.limited, hgt⟩
    have hsmall := hafter.ready.small
    rwa [hafter.ready.remaining, gt_iff_lt, UInt64.not_lt, le_iff_toNat_le,
      toNat_ofNat (by omega)] at hle
  · cases hok

/-- `Kind` reads a header that is there, if the value fits. -/
theorem kindAhead_of (h : Ready s) (hk : s.kind = none) (hhd : Header k size hd)
    (hr : s.r = hd ++ rest)
    (hsize : size.toNat ≤ rest.length) (hroom : Room (hd.length + size.toNat) s.stack) :
    ∃ s', kindAhead s = (.ok (k, size), s') ∧ After s hd s' ∧ Ahead s' k size ∧
      (k = .byte → hd = [s'.byteval]) := by
  obtain ⟨s₁, hread, hafter, hbyte⟩ := readKind_of h hhd hr (hroom.mono (by omega))
  have hpos : 0 < hd.length := length_pos_iff.mpr hhd.ne_nil
  have hopen : s.stack.head? ≠ some 0 := by
    intro h0
    have : hd.length + size.toNat ≤ 0 := hroom 0 h0
    omega
  have hrest : s₁.r = rest := hafter.rest_eq hr
  have herr : sizeError s.stack.head? size s₁ = none := by
    have hsmall := hafter.ready.small
    have hany : ¬ s.stack.head?.any (size > ·) = true := by
      rw [Option.any_eq_true]
      rintro ⟨limit, hmem, hgt⟩
      have hle := hroom limit hmem
      have hgt := lt_iff_toNat_lt.mp (of_decide_eq_true hgt)
      omega
    have hrem : ¬ (s₁.limited = true ∧ size > s₁.remaining) := by
      rintro ⟨-, hgt⟩
      rw [hafter.ready.remaining, gt_iff_lt, lt_iff_toNat_lt, toNat_ofNat (by omega), hrest] at hgt
      omega
    rw [sizeError, if_neg hany, if_neg hrem]
  refine ⟨{ s₁ with kind := some k, size := size, kinderr := none }, ?_,
    hafter.congr rfl rfl rfl rfl, ⟨rfl, rfl, rfl⟩, hbyte⟩
  rw [kindAhead, hk]
  simp [if_neg hopen, hread, herr]

/-- `Kind` reads the header of a payload that is there. -/
theorem kindAhead_puthead (h : Ready s) (hk : s.kind = none) (ht : Tags k tag large) {p : Bytes}
    (hr : s.r = puthead tag large p.length ++ p ++ rest)
    (hroom : Room (puthead tag large p.length ++ p).length s.stack) :
    ∃ s', kindAhead s = (.ok (k, ofNat p.length), s') ∧ After s (puthead tag large p.length) s' ∧
      (ofNat p.length).toNat = p.length := by
  have hsize : (ofNat p.length).toNat = p.length := by
    have hsmall := h.small
    rw [hr, length_append, length_append] at hsmall
    exact toNat_ofNat (by omega)
  have hhd := ht.header (ofNat p.length)
  rw [hsize] at hhd
  rw [append_assoc] at hr
  rw [length_append] at hroom
  obtain ⟨s₁, hkind, hafter, -, -⟩ := kindAhead_of h hk hhd hr (by simp [hsize]) (by rwa [hsize])
  exact ⟨s₁, hkind, hafter, hsize⟩

/-! ## values -/

/-- A call that looks at the value ahead may do so again. -/
theorem bytes_of_kindAhead (h : kindAhead s = (.ok (k, size), s'))
    (ha : Ahead s' k size) : bytes s = bytes s' := by
  unfold bytes
  rw [h, ha.kindAhead]

/-- A list can be entered after its kind was asked for. -/
theorem list_of_kindAhead (h : kindAhead s = (.ok (k, size), s'))
    (ha : Ahead s' k size) : list s = list s' := by
  unfold list
  rw [h, ha.kindAhead]

/-- **What `Bytes` reads** is the encoding of the string. -/
theorem bytes_ok (h : Ready s) (hk : s.kind = none) {b : Bytes} (hok : bytes s = (.ok b, s')) :
    After s (encodeString b) s' ∧ s'.kind = none := by
  unfold bytes at hok
  split at hok
  · cases hok
  · next size s₁ hkind =>
    obtain ⟨hd, hhd, hafter, -, -, hbyte⟩ := kindAhead_ok h hk hkind
    cases hok
    obtain rfl := hbyte rfl
    cases hhd with
    | byte hb =>
      rw [encodeString_single (lt_128_iff.mp hb)]
      exact ⟨hafter.congr rfl rfl rfl rfl, rfl⟩
  · next size s₁ hkind =>
    obtain ⟨hd, hhd, hafter, -, -, -⟩ := kindAhead_ok h hk hkind
    split at hok
    · cases hok
    next b' s2 hfull =>
    obtain ⟨hlen, hafter', hnone⟩ := readFull_ok hafter.ready size.toNat_lt hfull
    split at hok
    · cases hok
    next hcanon =>
    cases hok
    have hlong : ∀ c, b = [c] → ¬ c ≤ 0x7F := by
      rintro c rfl hc
      have hsize : size = 1 := UInt64.toNat_inj.mp hlen.symm
      exact hcanon ⟨hsize, by simpa [lt_128_iff] using hc⟩
    cases hhd with
    | string =>
      rw [encodeString_of_ne hlong, hlen]
      exact ⟨hafter.trans hafter', hnone⟩
  · cases hok

/-- `Bytes` reads the encoding of a string. -/
theorem bytes_of (h : Ready s) (hk : s.kind = none) {b : Bytes} (hr : s.r = encodeString b ++ rest)
    (hroom : Room (encodeString b).length s.stack) :
    ∃ s', bytes s = (.ok b, s') ∧ After s (encodeString b) s' ∧ s'.kind = none := by
  rcases single_or_ne b with ⟨c, rfl, hc⟩ | hlong
  · rw [encodeString_single hc] at hr hroom ⊢
    have hlt : c < 0x80 := lt_128_iff.mpr hc
    obtain ⟨s₁, hkind, hafter, -, hbyte⟩ := kindAhead_of h hk (.byte hlt) hr (by simp) hroom
    refine ⟨{ s₁ with kind := none }, ?_, hafter.congr rfl rfl rfl rfl, rfl⟩
    rw [bytes, hkind]
    simp [← hbyte rfl]
  · rw [encodeString_of_ne hlong] at hr hroom ⊢
    obtain ⟨s₁, hkind, hafter, hsize⟩ := kindAhead_puthead h hk .string hr hroom
    rw [append_assoc] at hr
    rw [length_append] at hroom
    have hroom' : Room b.length s₁.stack := by
      have hle := hafter.length_le
      have hsmall := h.small
      rw [hafter.stack]
      exact hroom.consume (by omega)
    obtain ⟨s2, hfull, hafter', hnone⟩ := readFull_of hafter.ready (hafter.rest_eq hr) hroom'
    have hcanon : ¬ (ofNat b.length = 1 ∧ b.head?.any (· < 128) = true) := by
      rintro ⟨h1, hany⟩
      rw [← UInt64.toNat_inj, hsize] at h1
      obtain ⟨c, rfl⟩ := length_eq_one_iff.mp h1
      exact hlong c rfl (by simpa [lt_128_iff] using hany)
    refine ⟨s2, ?_, hafter.trans hafter', hnone⟩
    rw [bytes, hkind]
    simp [hsize, hfull, if_neg hcanon]

/-- Inside of a list that was entered with the given size. -/
structure Entered (s : Stream) (size : UInt64) (s' : Stream) : Prop where
  after : ∃ s₁, After s (puthead 0xC0 0xF7 size.toNat) s₁ ∧ s'.r = s₁.r ∧
    s'.stack = size :: consume size.toNat s₁.stack
  ready : Ready s'
  kind : s'.kind = none
  size : size.toNat ≤ s'.r.length

/-- A list that is entered starts with its header. -/
theorem list_ok (h : Ready s) (hk : s.kind = none) (hok : list s = (.ok size, s')) :
    Entered s size s' := by
  unfold list at hok
  split at hok
  · cases hok
  · next size' s₁ hkind =>
    obtain ⟨hd, hhd, hafter, -, hle, -⟩ := kindAhead_ok h hk hkind
    cases hok
    cases hhd with
    | list =>
      refine ⟨⟨s₁, hafter, rfl, ?_⟩, { hafter.ready with }, rfl, hle⟩
      cases hst : s₁.stack <;> simp [consume]
  · cases hok

/-- A list can only be left at its end. -/
theorem listEnd_ok (h : Ready s) (hok : listEnd s = (.ok (), s')) :
    s.stack = 0 :: s'.stack ∧ s'.r = s.r ∧ Ready s' ∧ s'.kind = none := by
  unfold listEnd at hok
  split at hok
  · cases hok
  next limit rest hst =>
  split at hok
  · cases hok
  next hpos =>
  cases hok
  have hzero : limit = 0 := by
    rw [UInt64.not_lt] at hpos
    exact UInt64.toNat_inj.mp (Nat.le_zero.mp hpos)
  exact ⟨by rw [hst, hzero], rfl, { h with }, rfl⟩

/-- At its end a list is left without an error. -/
theorem listEnd_of {rest : List UInt64} (hst : s.stack = 0 :: rest) :
    ∃ s', listEnd s = (.ok (), s') := by
  rw [listEnd, hst]
  exact ⟨_, rfl⟩

end Stream

end GoQrl.Rlp
