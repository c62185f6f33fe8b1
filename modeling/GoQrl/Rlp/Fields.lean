import GoQrl.Rlp.Decoder

/-!
# GoQrl.Rlp.Fields

The decoders of the field types of a struct: integers, big integers, byte arrays, byte
slices and pointers that may be nil, and of the structs themselves.

Integers are encoded as the string of their bytes without leading zeros (`natBytes`), so
that the integer decoders are `Bytes` with further checks (`Reads.of_bytes`).  A struct is
a list of its fields, which are read one after the other into a product (`ReadsFields`).
-/

namespace GoQrl.Rlp

open Rlp.Stream List

/-! ## integers without leading zeros -/

/-- The big-endian bytes of a number, without leading zeros. -/
def natBytes (i : Nat) : Bytes := if i = 0 then [] else beBytes (intsize i) i

variable {i : Nat} {b : Bytes} {n : Nat}

/-- The number of bytes of an integer. -/
theorem intsize_bounds (h : 0 < i) : 256 ^ (intsize i - 1) ≤ i ∧ i < 256 ^ intsize i := by
  have hlo : 2 ^ i.log2 ≤ i := Nat.log2_self_le h.ne'
  have hhi : i < 2 ^ (i.log2 + 1) := Nat.lt_log2_self
  have hsize : intsize i = (i.log2 + 1 + 7) / 8 := if_neg h.ne'
  rw [show (256 : Nat) = 2 ^ 8 by rfl, ← Nat.pow_mul, ← Nat.pow_mul]
  constructor
  · exact le_trans (Nat.pow_le_pow_right (by decide) (by omega)) hlo
  · exact lt_of_lt_of_le hhi (Nat.pow_le_pow_right (by decide) (by omega))

/-- The bytes of an integer are read back. -/
theorem beNat_natBytes (i : Nat) : beNat (natBytes i) = i := by
  unfold natBytes
  split
  · next h => rw [h, beNat_nil]
  · next h => exact beNat_beBytes (intsize_bounds (Nat.pos_of_ne_zero h)).2

/-- There are no leading zeroes. -/
theorem natBytes_head (i : Nat) : (natBytes i).head? ≠ some 0 := by
  by_cases hi : i = 0
  · simp [natBytes, hi]
  cases hb : natBytes i with
  | nil => simp
  | cons c cs =>
    have hbound := (intsize_bounds (Nat.pos_of_ne_zero hi)).1
    have hlen := congrArg List.length hb
    rw [natBytes, if_neg hi, length_beBytes] at hlen
    have hnat := beNat_natBytes i
    rw [hb] at hnat
    rw [hlen, ← hnat] at hbound
    simpa using head_ne_zero_of_le_beNat hbound

/-- A string without a leading zero is the bytes of the number it spells. -/
theorem natBytes_beNat (h : b.head? ≠ some 0) : natBytes (beNat b) = b := by
  cases b with
  | nil => rfl
  | cons c cs =>
    have hc : c ≠ 0 := by simpa using h
    obtain ⟨hpos, hsize⟩ := intsize_beNat hc cs
    rw [natBytes, if_neg hpos.ne', hsize]
    exact beBytes_beNat (c :: cs)

/-- The bytes of an integer are the only ones without leading zeroes. -/
theorem natBytes_eq_iff : natBytes i = b ↔ b.head? ≠ some 0 ∧ i = beNat b := by
  constructor
  · rintro rfl
    exact ⟨natBytes_head i, (beNat_natBytes i).symm⟩
  · rintro ⟨hb, rfl⟩
    exact natBytes_beNat hb

/-- `putint` writes the same bytes. -/
theorem putint_eq_natBytes (h0 : 0 < i) (h : i < 2 ^ 64) : putint i = natBytes i := by
  rw [(putint_eq h0 h).1, natBytes, if_neg h0.ne']

theorem length_natBytes_le (h : i < 2 ^ 64) : (natBytes i).length ≤ 8 := by
  unfold natBytes
  split
  · simp
  · rw [length_beBytes]
    exact intsize_le h

/-- A number below 256 has one byte. -/
theorem natBytes_single {c : UInt8} (hc : c ≠ 0) : natBytes c.toNat = [c] := by
  have h := natBytes_beNat (b := [c]) (by simpa using hc)
  rwa [beNat_cons, beNat_nil, length_nil, Nat.pow_zero, Nat.mul_one, add_zero] at h

/-! ## decoders -/

namespace Stream

/-- `uint`. -/
def uint (maxbits : Nat) : StreamM UInt64 := fun s =>
  match kindAhead s with
  | (.error e, s) => (.error e, s)
  | (.ok (.byte, _), s) =>
    if s.byteval = 0 then (.error .canonInt, s)
    else (.ok s.byteval.toUInt64, { s with kind := none })
  | (.ok (.string, size), s) =>
    if size > UInt64.ofNat (maxbits / 8) then (.error .uintOverflow, s)
    else
      match readUint size.toNat s with
      | (.error .canonSize, s) => (.error .canonInt, s)
      | (.error e, s) => (.error e, s)
      | (.ok v, s) => if size > 0 ∧ v < 128 then (.error .canonSize, s) else (.ok v, s)
  | (.ok (.list, _), s) => (.error .expectedString, s)

/-- The bytes that `decodeBigInt` reads.  Only buffers of up to 32 bytes are checked to
need a header. -/
def bigIntBuffer : StreamM Bytes := fun s =>
  match kindAhead s with
  | (.error e, s) => (.error e, s)
  | (.ok (.list, _), s) => (.error .expectedString, s)
  | (.ok (.byte, _), s) => (.ok [s.byteval], { s with kind := none })
  | (.ok (.string, size), s) =>
    if size = 0 then (.ok [], { s with kind := none })
    else
      match readFull size.toNat s with
      | (.error e, s) => (.error e, s)
      | (.ok buffer, s) =>
        if size ≤ 32 ∧ size = 1 ∧ buffer.head?.any (· < 128) then (.error .canonSize, s)
        else (.ok buffer, s)

/-- `Stream.decodeBigInt`. -/
def decodeBigInt : StreamM Nat := fun s =>
  match bigIntBuffer s with
  | (.error e, s) => (.error e, s)
  | (.ok buffer, s) =>
    if buffer.head? = some 0 then (.error .canonInt, s) else (.ok (beNat buffer), s)

/-- `ReadBytes` into a buffer of `n` bytes. -/
def readBytes (n : Nat) : StreamM Bytes := fun s =>
  match kindAhead s with
  | (.error e, s) => (.error e, s)
  | (.ok (.byte, _), s) =>
    if n ≠ 1 then (.error (.wrongSize 1 n), s) else (.ok [s.byteval], { s with kind := none })
  | (.ok (.string, size), s) =>
    if UInt64.ofNat n ≠ size then (.error (.wrongSize size.toNat n), s)
    else
      match readFull n s with
      | (.error e, s) => (.error e, s)
      | (.ok b, s) => if size = 1 ∧
        b.head?.any (· < 128) then (.error .canonSize, s) else (.ok b, s)
  | (.ok (.list, _), s) => (.error .expectedString, s)

end Stream

/-- `decodeUint` for `uint64`. -/
def decodeUint64 : StreamM UInt64 := fun s =>
  match s.uint 64 with
  | (.error e, s) => (.error (wrapStreamError "uint64" e), s)
  | (.ok v, s) => (.ok v, s)

/-- `decodeBigInt`. -/
def decodeBigInt : StreamM Nat := fun s =>
  match s.decodeBigInt with
  | (.error e, s) => (.error (wrapStreamError "*big.Int" e), s)
  | (.ok v, s) => (.ok v, s)

/-- `decodeByteSlice`. -/
def decodeByteSlice : StreamM Bytes := fun s =>
  match s.bytes with
  | (.error e, s) => (.error (wrapStreamError "[]uint8" e), s)
  | (.ok b, s) => (.ok b, s)

/-- `decodeByteArray`. -/
def decodeByteArray (typ : String) (n : Nat) : StreamM (Fixed n) := fun s =>
  match s.kindAhead with
  | (.error e, s) => (.error e, s)
  | (.ok (.byte, _), s) =>
    if n = 0 then (.error (.decode "input string too long" typ []), s)
    else if n > 1 then (.error (.decode "input string too short" typ []), s)
    else (.ok (.ofBytes n [s.byteval]), { s with kind := none })
  | (.ok (.string, size), s) =>
    if UInt64.ofNat n < size then (.error (.decode "input string too long" typ []), s)
    else if UInt64.ofNat n > size then (.error (.decode "input string too short" typ []), s)
    else
      match s.readFull n with
      | (.error e, s) => (.error e, s)
      | (.ok b, s) =>
        if size = 1 ∧ b.head?.any (· < 128) then (.error (wrapStreamError typ .canonSize), s)
        else (.ok (.ofBytes n b), s)
  | (.ok (.list, _), s) => (.error (wrapStreamError typ .expectedString), s)

/-- `Kind.String`. -/
def Kind.name : Kind → String
  | .byte => "Byte"
  | .string => "String"
  | .list => "List"

/-- The decoder of `makeNilPtrDecoder`. -/
def decodeNilPtr {α : Type} (typ : String) (nilKind : Kind) (dec : StreamM α) :
    StreamM (Option α) :=
  fun s =>
    match s.kindAhead with
    | (.error e, s) => (.error (wrapStreamError typ e), s)
    | (.ok (kind, size), s) =>
      if kind ≠ .byte ∧ size = 0 then
        if kind ≠ nilKind then
          (.error (.decode ("wrong kind of empty value (got " ++ kind.name ++ ", want " ++
            nilKind.name ++ ")") typ []), s)
        else (.ok none, { s with kind := none })
      else
        match dec s with
        | (.error e, s) => (.error e, s)
        | (.ok a, s) => (.ok (some a), s)

/-- The loop of a struct decoder: one field and those after it. -/
def decodeField {α β : Type} (typ name : String) (dec : StreamM α) (rest : StreamM β) :
    StreamM (α × β) :=
  fun s =>
    match dec s with
    | (.error .eol, s) => (.error (.decode "too few elements" typ []), s)
    | (.error e, s) => (.error (addErrorContext ("." ++ name) e), s)
    | (.ok a, s) =>
      match rest s with
      | (.error e, s) => (.error e, s)
      | (.ok b, s) => (.ok (a, b), s)

/-- The loop of a struct decoder after the last field. -/
def decodeNoField : StreamM Unit := fun s => (.ok (), s)

/-- The decoder of `makeStructDecoder`; no field is optional. -/
def decodeStruct {α : Type} (typ : String) (fields : StreamM α) : StreamM α := fun s =>
  match s.list with
  | (.error e, s) => (.error (wrapStreamError typ e), s)
  | (.ok _, s) =>
    match fields s with
    | (.error e, s) => (.error e, s)
    | (.ok a, s) =>
      match s.listEnd with
      | (.error e, s) => (.error (wrapStreamError typ e), s)
      | (.ok (), s) => (.ok a, s)

/-! ## integers and byte strings -/

variable {s s' : Stream} {e : RlpError} {fuel : Nat} {α β : Type} {dec : StreamM α}
    {enc : α → Bytes}

/-- With less fuel a decoder reads shorter inputs. -/
theorem Reads.mono {fuel' : Nat} (h : Reads fuel dec enc) (hle : fuel' ≤ fuel) :
    Reads fuel' dec enc := by
  have hstart : ∀ {s : Stream}, Start fuel' s → Start fuel s := fun hs =>
    ⟨hs.ready, hs.kind, lt_of_lt_of_le hs.fuel hle⟩
  exact ⟨fun hs => h.ok (hstart hs), fun hs => h.of (hstart hs), fun hs => h.fails (hstart hs),
    fun hs => h.atEnd (hstart hs), h.ne_nil⟩

theorem encodeString_ne_nil (b : Bytes) : encodeString b ≠ [] := by
  rcases single_or_ne b with ⟨c, rfl, hc⟩ | hne
  · rw [encodeString_single hc]
    simp
  · rw [encodeString_of_ne hne]
    exact fun h => puthead_ne_nil _ _ _ (append_eq_nil_iff.mp h).1

/-- A decoder that accepts what `Bytes` does, if it is of a certain form. -/
theorem Reads.of_bytes {g : α → Bytes} (hiff : ∀ {s s' : Stream} {a : α}, Ready s → s.kind = none →
      (dec s = (.ok a, s') ↔ s.bytes = (.ok (g a), s')))
    (hfails : ∀ {s s' : Stream} {e : RlpError}, s.kind = none → dec s = (.error e, s') →
      Fails s e s')
    (hend : ∀ {s : Stream}, s.kindAhead = (.error .eol, s) → dec s = (.error .eol, s)) :
    Reads fuel dec fun a => encodeString (g a) where
  ok hs hok := bytes_ok hs.ready hs.kind ((hiff hs.ready hs.kind).mp hok)
  of hs hr hroom := by
    obtain ⟨s', hb, -⟩ := bytes_of hs.ready hs.kind hr hroom
    exact ⟨s', (hiff hs.ready hs.kind).mpr hb⟩
  fails hs herr := hfails hs.kind herr
  atEnd hs hend' := hend (kindAhead_atEnd hs.kind hend')
  ne_nil a := encodeString_ne_nil _

/-- The buffer of `decodeBigInt` is what `Bytes` reads. -/
theorem bigIntBuffer_eq : bigIntBuffer = bytes := by
  funext s
  unfold bigIntBuffer bytes
  match kindAhead s with
  | (.error e, s) => rfl
  | (.ok (.byte, _), s) => rfl
  | (.ok (.list, _), s) => rfl
  | (.ok (.string, size), s) =>
    by_cases h0 : size = 0
    · subst h0
      simp [readFull_zero]
    · have hiff : ∀ p : Prop, size ≤ 32 ∧ size = 1 ∧ p ↔ size = 1 ∧ p := by
        intro p
        constructor
        · exact fun h => h.2
        · rintro ⟨rfl, hp⟩
          exact ⟨by decide, rfl, hp⟩
      dsimp only
      rw [if_neg h0]
      cases readFull size.toNat s with
      | mk r s =>
        cases r with
        | error e => rfl
        | ok buffer => simp only [hiff]

/-- A big integer is a string without leading zeroes. -/
theorem decodeBigInt_iff : decodeBigInt s = (.ok i, s') ↔ s.bytes = (.ok (natBytes i), s') := by
  unfold decodeBigInt Stream.decodeBigInt
  rw [bigIntBuffer_eq]
  match s.bytes with
  | (.error e, s1) => simp
  | (.ok b, s1) =>
    by_cases hz : b.head? = some 0
    · simp only [if_pos hz, Prod.mk.injEq, reduceCtorEq, false_and, Except.ok.injEq,
        false_iff, not_and]
      rintro rfl
      exact absurd hz (natBytes_head i)
    · simp only [if_neg hz, Prod.mk.injEq, Except.ok.injEq, eq_comm (b := natBytes i),
        natBytes_eq_iff]
      simp [hz, eq_comm]

/-- A failure at a big integer is the end of the list, or hard. -/
theorem decodeBigInt_fails (hk : s.kind = none) (h : decodeBigInt s = (.error e, s')) :
    Fails s e s' := by
  unfold decodeBigInt Stream.decodeBigInt at h
  rw [bigIntBuffer_eq] at h
  cases hb : s.bytes with
  | mk res s1 =>
    rw [hb] at h
    cases res with
    | error e' =>
      cases h
      exact (bytes_error hk hb).wrap _
    | ok b =>
      by_cases hz : b.head? = some 0
      · simp only [if_pos hz] at h
        cases h
        exact .inr (by decide)
      · simp only [if_neg hz] at h
        cases h

/-- The decoder of big integers reads what the encoder writes, and nothing else. -/
theorem reads_decodeBigInt : Reads fuel decodeBigInt fun i => encodeString (natBytes i) :=
  .of_bytes (fun _ _ => decodeBigInt_iff) decodeBigInt_fails fun hend => by
    simp [decodeBigInt, Stream.decodeBigInt, bigIntBuffer, hend, wrapStreamError]

theorem reads_decodeByteSlice : Reads fuel decodeByteSlice encodeString := by
  refine .of_bytes (fun {s s' b} _ _ => ?_) (fun {s s' e} hk h => ?_) fun {s} hend => ?_
  · unfold decodeByteSlice
    match s.bytes with
    | (.error e, s1) => simp
    | (.ok b, s1) => simp
  · unfold decodeByteSlice at h
    split at h
    · next hb =>
      cases h
      exact (bytes_error hk hb).wrap _
    · cases h
  · simp [decodeByteSlice, bytes, hend, wrapStreamError]

theorem beNat_lt_of_length_le (h : b.length ≤ 8) : beNat b < 2 ^ 64 := by
  have hpow : (256 : Nat) ^ b.length ≤ 256 ^ 8 := Nat.pow_le_pow_right (by decide) h
  exact lt_of_lt_of_le (beNat_lt b) hpow

/-- The checks of `uint` are those of `Bytes` and that there is no leading zero. -/
theorem uint_canonical {size : UInt64} (hlen : b.length = size.toNat) (h8 : b.length ≤ 8) :
    (size.toNat = 1 ∨ b.head? ≠ some 0) ∧ ¬ (size > 0 ∧ UInt64.ofNat (beNat b) < 128) ↔
      b.head? ≠ some 0 ∧ ¬ (size = 1 ∧ b.head?.any (· < 128)) := by
  have hnat : (UInt64.ofNat (beNat b)).toNat = beNat b := toNat_ofNat (beNat_lt_of_length_le h8)
  have hsize : size = 1 ↔ b.length = 1 := by
    rw [hlen, ← UInt64.toNat_inj]
    rfl
  have hpos : size > 0 ↔ 0 < b.length := by
    rw [hlen]
    rfl
  rw [← hlen, hpos, hsize, UInt64.lt_iff_toNat_lt, hnat]
  match b with
  | [] => simp
  | [c] =>
    have hc : beNat [c] = c.toNat := by simp [beNat_cons]
    have hzero : c = 0 → c.toNat < 128 := by
      rintro rfl
      decide
    simp only [hc, length_singleton, head?_cons, Option.any_some, decide_eq_true_eq,
      UInt8.lt_iff_toNat_lt]
    grind
  | c :: d :: cs =>
    simp only [length_cons, head?_cons, ne_eq, Option.some.injEq]
    constructor
    · rintro ⟨h | h, -⟩
      · omega
      · exact ⟨h, fun h => by omega⟩
    · rintro ⟨h, -⟩
      refine ⟨.inr h, fun hlt => ?_⟩
      have hle := le_beNat_of_head_ne_zero h (d :: cs)
      have h256 : 256 ^ 1 ≤ 256 ^ (d :: cs).length := Nat.pow_le_pow_right (by decide) (by simp)
      have : beNat (c :: d :: cs) < 128 := hlt.2
      omega

/-- An unsigned integer is a string of at most eight bytes without leading zeroes. -/
theorem uint_iff {v : UInt64} (hr : Ready s) (hk : s.kind = none) :
    s.uint 64 = (.ok v, s') ↔ s.bytes = (.ok (natBytes v.toNat), s') := by
  unfold uint bytes
  match hkind : kindAhead s with
  | (.error e, s1) => simp
  | (.ok (.list, size), s1) => simp
  | (.ok (.byte, size), s1) =>
    by_cases hz : s1.byteval = 0
    · have hne : ¬ [0] = natBytes v.toNat := fun h => natBytes_head v.toNat (by rw [← h]; rfl)
      simp [hz, hne]
    · have hv : s1.byteval.toUInt64 = v ↔ [s1.byteval] = natBytes v.toNat := by
        rw [← natBytes_single hz, ← UInt64.toNat_inj, UInt8.toNat_toUInt64]
        constructor
        · exact fun h => congrArg natBytes h
        · intro h
          rw [← beNat_natBytes s1.byteval.toNat, h, beNat_natBytes]
      simp [hz, hv]
  | (.ok (.string, size), s1) =>
    obtain ⟨hd, -, hafter, -⟩ := kindAhead_ok hr hk hkind
    have hlen : ∀ {b s2}, readFull size.toNat s1 = (.ok b, s2) → b.length = size.toNat := fun h =>
      (readFull_ok hafter.ready size.toNat_lt h).1
    constructor
    · intro h
      simp only at h ⊢
      split at h
      · cases h
      next hle =>
      split at h
      · cases h
      · cases h
      next v' s2 hu =>
      split at h
      · cases h
      next hcanon =>
      cases h
      obtain ⟨b, hfull, hz, rfl⟩ := readUint_iff.mp hu
      have h8 : b.length ≤ 8 := by
        rw [UInt64.not_lt] at hle
        rwa [hlen hfull]
      obtain ⟨hhead, hcanon⟩ := (uint_canonical (hlen hfull) h8).mp ⟨hz, hcanon⟩
      rw [hfull]
      simp only [if_neg hcanon]
      rw [toNat_ofNat (beNat_lt_of_length_le h8), natBytes_beNat hhead]
    · intro h
      simp only at h ⊢
      split at h
      · cases h
      next b s2 hfull =>
      split at h
      · cases h
      next hcanon =>
      cases h
      have h8 := length_natBytes_le v.toNat_lt
      have hle : ¬ size > UInt64.ofNat (64 / 8) := by
        rwa [UInt64.not_lt, UInt64.le_iff_toNat_le, ← hlen hfull]
      obtain ⟨hz, hcanon⟩ := (uint_canonical (hlen hfull) h8).mpr ⟨natBytes_head _, hcanon⟩
      rw [if_neg hle, readUint_iff.mpr ⟨_, hfull, hz, rfl⟩]
      simp only [if_neg hcanon]
      rw [beNat_natBytes, UInt64.ofNat_toNat]

/-- A failure at an unsigned integer is the end of the list, or hard. -/
theorem uint_fails (hk : s.kind = none) (h : s.uint 64 = (.error e, s')) : Fails s e s' := by
  unfold uint at h
  split at h
  · next hkind =>
    cases h
    exact kindAhead_error hk hkind
  · split at h
    · cases h
      exact .inr (by decide)
    · cases h
  · split at h
    · cases h
      exact .inr (by decide)
    split at h
    · cases h
      exact .inr (by decide)
    · next hu =>
      cases h
      exact .inr (readUint_error hu)
    · split at h
      · cases h
        exact .inr (by decide)
      · cases h
  · cases h
    exact .inr (by decide)

theorem reads_decodeUint64 : Reads fuel decodeUint64 fun v => encodeString (natBytes v.toNat) := by
  refine .of_bytes (fun {s s' v} hr hk => ?_) (fun {s s' e} hk h => ?_) fun {s} hend => ?_
  · rw [← uint_iff hr hk]
    unfold decodeUint64
    match s.uint 64 with
    | (.error e, s1) => simp
    | (.ok v, s1) => simp
  · unfold decodeUint64 at h
    split at h
    · next hu =>
      cases h
      exact (uint_fails hk hu).wrap _
    · cases h
  · simp [decodeUint64, uint, hend, wrapStreamError]

/-! ## byte arrays -/

/-- An array is a string of its length. -/
theorem decodeByteArray_iff {typ : String} (hn : n < 2 ^ 62) {b : Fixed n} (hr : Ready s)
    (hk : s.kind = none) : decodeByteArray typ n s = (.ok b, s') ↔ s.bytes = (.ok b.val, s') := by
  have hval : ∀ {c : Bytes}, c.length = n → (Fixed.ofBytes n c = b ↔ c = b.val) := by
    intro c hc
    constructor
    · rintro rfl
      exact (Fixed.val_ofBytes hc).symm
    · rintro rfl
      exact Fixed.ofBytes_val b
  unfold decodeByteArray bytes
  rcases hkind : kindAhead s with ⟨e | ⟨_ | _ | _, size⟩, s1⟩
  · simp
  · by_cases h1 : n = 1
    · subst h1
      simp [hval]
    · have hne : ¬ [s1.byteval] = b.val := fun h => h1 (by rw [← b.property, ← h]; rfl)
      by_cases h0 : n = 0
      · simp [h0, hne]
      · have hgt : n > 1 := by omega
        simp [h0, hgt, hne]
  · obtain ⟨hd, -, hafter, -⟩ := kindAhead_ok hr hk hkind
    have hlen : ∀ {c s2}, readFull size.toNat s1 = (.ok c, s2) → c.length = size.toNat := fun h =>
      (readFull_ok hafter.ready size.toNat_lt h).1
    have hnat : (UInt64.ofNat n).toNat = n := toNat_ofNat (by omega)
    by_cases hsize : size.toNat = n
    · have hlt : ¬ UInt64.ofNat n < size := by
        rw [UInt64.lt_iff_toNat_lt]
        omega
      have hgt : ¬ UInt64.ofNat n > size := by
        rw [gt_iff_lt, UInt64.lt_iff_toNat_lt]
        omega
      simp only [if_neg hlt, if_neg hgt]
      rw [hsize] at hlen ⊢
      rcases hfull : readFull n s1 with ⟨e | c, s2⟩
      · simp
      · by_cases hcanon : size = 1 ∧ c.head?.any (· < 128)
        · simp [hcanon]
        · simp [hcanon, hval (hlen hfull)]
    · have hne : ∀ {c s2}, readFull size.toNat s1 = (.ok c, s2) → c ≠ b.val := fun h hc =>
        hsize (by rw [← hlen h, hc, b.property])
      constructor
      · intro h
        simp only at h
        split at h
        · cases h
        next hge =>
        rw [if_pos] at h
        · cases h
        · rw [UInt64.lt_iff_toNat_lt] at hge
          rw [gt_iff_lt, UInt64.lt_iff_toNat_lt]
          omega
      · intro h
        simp only at h
        split at h
        · cases h
        next hfull =>
        split at h
        · cases h
        · cases h
          exact absurd rfl (hne hfull)
  · simp

/-- A failure at an array is the end of the list, or hard. -/
theorem decodeByteArray_fails {typ : String} (hk : s.kind = none)
    (h : decodeByteArray typ n s = (.error e, s')) : Fails s e s' := by
  have hdecode : ∀ msg, Hard (.decode msg typ []) := fun msg => ⟨by simp, by simp⟩
  unfold decodeByteArray at h
  split at h
  · next hkind =>
    cases h
    exact kindAhead_error hk hkind
  · split at h
    · cases h
      exact .inr (hdecode _)
    split at h
    · cases h
      exact .inr (hdecode _)
    · cases h
  · split at h
    · cases h
      exact .inr (hdecode _)
    split at h
    · cases h
      exact .inr (hdecode _)
    split at h
    · next hfull =>
      cases h
      exact .inr (readFull_error hfull)
    split at h
    · cases h
      exact .inr (hdecode _)
    · cases h
  · cases h
    exact .inr (hdecode _)

theorem reads_decodeByteArray (typ : String) (hn : n < 2 ^ 62) :
    Reads fuel (decodeByteArray typ n) fun b => encodeString b.val :=
  .of_bytes (fun hr hk => decodeByteArray_iff hn hr hk) decodeByteArray_fails fun hend => by
    simp [decodeByteArray, hend]

/-! ## pointers -/

/-- The encoding of a pointer to a value that is encoded as a string. -/
def encodeNilPtr (enc : α → Bytes) : Option α → Bytes
  | none => [0x80]
  | some a => enc a

/-- What follows the header of a value. -/
theorem header_string_zero {hd : Bytes} (h : Header .string 0 hd) : hd = [0x80] := by
  cases h
  rfl

/-- The header of a string that is read. -/
theorem kindAhead_of_bytes (hr : Ready s) (hk : s.kind = none) (h : s.bytes = (.ok b, s')) :
    ∃ k size s1, s.kindAhead = (.ok (k, size), s1) ∧ k ≠ .list ∧
      (b ≠ [] → ¬ (k ≠ .byte ∧ size = 0)) ∧
      (b.length ≠ 1 → k = .string ∧ size.toNat = b.length) := by
  unfold bytes at h
  split at h
  · cases h
  · next size s1 hkind =>
    cases h
    exact ⟨.byte, size, s1, hkind, by simp⟩
  · next size s1 hkind =>
    obtain ⟨hd, -, hafter, -⟩ := kindAhead_ok hr hk hkind
    split at h
    · cases h
    next c s2 hfull =>
    split at h
    · cases h
    cases h
    have hlen := (readFull_ok hafter.ready size.toNat_lt hfull).1
    refine ⟨.string, size, s1, hkind, by simp, fun hb hzero => ?_, fun _ => ⟨rfl, hlen.symm⟩⟩
    rw [hzero.2] at hlen
    exact hb (length_eq_zero_iff.mp hlen)
  · cases h

/-- **Pointers that may be nil**: the empty string is nil, so no value may be encoded as the
empty string or list. -/
theorem Reads.nilPtr {g : α → Bytes} (h : Reads fuel dec fun a => encodeString (g a)) (typ : String)
    (hahead : ∀ {s s' : Stream} {k : Kind} {size : UInt64}, s.kindAhead = (.ok (k, size), s') →
      Ahead s' k size → dec s' = dec s)
    (hg : ∀ a, g a ≠ []) :
    Reads fuel (decodeNilPtr typ .string dec) (encodeNilPtr fun a => encodeString (g a)) where
  ok {s s' p} hs hok := by
    unfold decodeNilPtr at hok
    split at hok
    · cases hok
    next k size s1 hkind =>
    obtain ⟨hd, hhd, hafter, hahd, -⟩ := kindAhead_ok hs.ready hs.kind hkind
    split at hok
    · next hempty =>
      split at hok
      · cases hok
      next hk =>
      cases hok
      obtain rfl : k = .string := Decidable.not_not.mp hk
      obtain ⟨-, rfl⟩ := hempty
      obtain rfl := header_string_zero hhd
      exact ⟨hafter.congr rfl rfl rfl rfl, rfl⟩
    · split at hok
      · cases hok
      next hdec =>
      cases hok
      rw [hahead hkind hahd] at hdec
      exact h.ok hs hdec
  of {s p rest} hs hr hroom := by
    cases p with
    | none =>
      obtain ⟨s1, hkind, -⟩ :=
        kindAhead_of hs.ready hs.kind (Header.string 0) hr (Nat.zero_le _) hroom
      unfold decodeNilPtr
      rw [hkind]
      exact ⟨_, rfl⟩
    | some a =>
      obtain ⟨s', hdec⟩ := h.of hs hr hroom
      obtain ⟨t, hb, -⟩ := bytes_of hs.ready hs.kind hr hroom
      obtain ⟨k, size, s1, hkind, -, hsize, -⟩ := kindAhead_of_bytes hs.ready hs.kind hb
      obtain ⟨-, -, -, hahd, -⟩ := kindAhead_ok hs.ready hs.kind hkind
      unfold decodeNilPtr
      rw [hkind]
      simp only [if_neg (hsize (hg a)), hahead hkind hahd, hdec]
      exact ⟨s', rfl⟩
  fails {s s' e} hs herr := by
    unfold decodeNilPtr at herr
    split at herr
    · next hkind =>
      cases herr
      exact (kindAhead_error hs.kind hkind).wrap _
    next k size s1 hkind =>
    obtain ⟨-, -, -, hahd, -⟩ := kindAhead_ok hs.ready hs.kind hkind
    split at herr
    · split at herr
      · cases herr
        exact .inr ⟨by simp, by simp⟩
      · cases herr
    · split at herr
      · next hdec =>
        cases herr
        rw [hahead hkind hahd] at hdec
        exact h.fails hs hdec
      · cases herr
  atEnd {s} hs hend := by
    unfold decodeNilPtr
    rw [kindAhead_atEnd hs.kind hend]
    rfl
  ne_nil p := by
    cases p with
    | none => simp [encodeNilPtr]
    | some a => exact encodeString_ne_nil _

/-! ## structs -/

/-- The fields of a struct, read one after the other inside its list. -/
structure ReadsFields {α : Type} (fuel : Nat) (dec : StreamM α) (enc : α → Bytes) : Prop where
  ok : ∀ {s s' : Stream} {a : α}, Start fuel s → dec s = (.ok a, s') →
    After s (enc a) s' ∧ s'.kind = none
  of : ∀ {s : Stream} {a : α} {rest : Bytes}, Start fuel s → s.r = enc a ++ rest →
    Room (enc a).length s.stack → ∃ s', dec s = (.ok a, s')
  fails : ∀ {s s' : Stream} {e : RlpError}, Start fuel s → dec s = (.error e, s') → Hard e

theorem readsFields_nil : ReadsFields fuel decodeNoField fun _ => [] where
  ok hs hok := by
    cases hok
    exact ⟨.refl hs.ready, hs.kind⟩
  of {s _ _} _ _ _ := ⟨s, rfl⟩
  fails _ herr := by cases herr

/-- One more field in front. -/
theorem ReadsFields.cons {rest : StreamM β} {enc' : β → Bytes} (h' : ReadsFields fuel rest enc')
    (h : Reads fuel dec enc) (typ name : String) :
    ReadsFields fuel (decodeField typ name dec rest) fun p => enc p.1 ++ enc' p.2 where
  ok {s s' p} hs hok := by
    unfold decodeField at hok
    split at hok
    · cases hok
    · cases hok
    next a s1 hdec =>
    split at hok
    · cases hok
    next b s2 hrest =>
    cases hok
    obtain ⟨hafter, hk⟩ := h.ok hs hdec
    obtain ⟨hafter', hk'⟩ := h'.ok (hs.after hafter hk) hrest
    exact ⟨hafter.trans hafter', hk'⟩
  of {s p tail} hs hr hroom := by
    rw [append_assoc] at hr
    rw [length_append] at hroom
    obtain ⟨s1, hdec⟩ := h.of hs hr (hroom.mono (by omega))
    obtain ⟨hafter, hk⟩ := h.ok hs hdec
    have hlen := hafter.length_le
    have hsmall := hs.ready.small
    have hr1 : s1.r = enc' p.2 ++ tail := hafter.rest_eq hr
    have hroom1 : Room (enc' p.2).length s1.stack := by
      rw [hafter.stack]
      exact hroom.consume (by omega)
    obtain ⟨s', hrest⟩ := h'.of (hs.after hafter hk) hr1 hroom1
    unfold decodeField
    rw [hdec]
    simp only [hrest]
    exact ⟨s', rfl⟩
  fails {s s' e} hs herr := by
    unfold decodeField at herr
    split at herr
    · cases herr
      exact ⟨by simp, by simp⟩
    · next hne hdec =>
      cases herr
      rcases h.fails hs hdec with ⟨rfl, -⟩ | hhard
      · exact (hne rfl).elim
      · exact hhard.context _
    next a s1 hdec =>
    split at herr
    · next hrest =>
      cases herr
      obtain ⟨hafter, hk⟩ := h.ok hs hdec
      exact h'.fails (hs.after hafter hk) hrest
    · cases herr

/-- **Structs**: a list of the fields. -/
theorem ReadsFields.struct (h : ReadsFields fuel dec enc) (typ : String) :
    Reads (fuel + 1) (decodeStruct typ dec) fun a => encodeList (enc a) where
  ok {s s' a} hs hok := by
    unfold decodeStruct at hok
    split at hok
    · cases hok
    next size s1 hlist =>
    split at hok
    · cases hok
    next a' s2 hfields =>
    split at hok
    · cases hok
    next s3 hend =>
    cases hok
    exact bracket_ok hs.ready hs.kind hlist (h.ok (list_shrinks hs hlist) hfields).1 hend
  of {s a rest} hs hr hroom := by
    obtain ⟨s1, limit, stack, hlist, hready, hkind, hin, hst, hlimit, hlt, hend⟩ :=
      bracket_of hs.ready hs.kind hr hroom
    have hs1 := list_shrinks hs hlist
    obtain ⟨s2, hfields⟩ := h.of hs1 hin (hst ▸ room_cons hlimit.ge)
    obtain ⟨s', hend⟩ := hend (h.ok hs1 hfields).1
    unfold decodeStruct
    rw [hlist]
    simp only [hfields, hend]
    exact ⟨s', rfl⟩
  fails {s s' e} hs herr := by
    unfold decodeStruct at herr
    split at herr
    · next hlist =>
      cases herr
      exact (list_error hs.kind hlist).wrap typ
    next size s1 hlist =>
    split at herr
    · next hfields =>
      cases herr
      exact .inr (h.fails (list_shrinks hs hlist) hfields)
    split at herr
    · next hend =>
      cases herr
      exact .inr ((listEnd_error hend).wrap _)
    · cases herr
  atEnd {s} hs hend := by
    unfold decodeStruct
    rw [list_atEnd hs.kind hend]
    rfl
  ne_nil a := encodeList_ne_nil _

/-- A decoder followed by a change of representation. -/
def mapDecoder (f : α → β) (dec : StreamM α) : StreamM β := fun s =>
  match dec s with
  | (.error e, s) => (.error e, s)
  | (.ok a, s) => (.ok (f a), s)

/-- A decoder for the other side of a bijection. -/
theorem Reads.map (h : Reads fuel dec enc) (f : α → β) (g : β → α) (hfg : ∀ b, f (g b) = b)
    (hgf : ∀ a, g (f a) = a) : Reads fuel (mapDecoder f dec) fun b => enc (g b) where
  ok {s s' b} hs hok := by
    unfold mapDecoder at hok
    split at hok
    · cases hok
    next hdec =>
    cases hok
    rw [hgf]
    exact h.ok hs hdec
  of {s b rest} hs hr hroom := by
    obtain ⟨s', hdec⟩ := h.of hs hr hroom
    unfold mapDecoder
    rw [hdec]
    exact ⟨s', by simp [hfg]⟩
  fails {s s' e} hs herr := by
    unfold mapDecoder at herr
    split at herr
    · next hdec =>
      cases herr
      exact h.fails hs hdec
    · cases herr
  atEnd {s} hs hend := by
    unfold mapDecoder
    rw [h.atEnd hs hend]
  ne_nil b := h.ne_nil _

/-- `DecodeBytes` of a mapped decoder maps its result. -/
theorem decodeBytes_map (typ : String) (f : α → β) (dec : StreamM α) (b : Bytes) :
    decodeBytes typ (mapDecoder f dec) b = (decodeBytes typ dec b).map f := by
  unfold decodeBytes mapDecoder
  match dec (.reset b (UInt64.ofNat b.length)) with
  | (.error e, s) => rfl
  | (.ok a, s) =>
    simp only
    split <;> rfl

/-- **A struct that is decoded from bytes**, with a change of representation. -/
theorem ReadsFields.decodeBytes_iff (h : ReadsFields (b.length + 1) dec enc)
    (hlen : b.length < 2 ^ 62) (typ : String) (f : α → β) {v : β} :
    decodeBytes typ (mapDecoder f (decodeStruct typ dec)) b = .ok v ↔
      ∃ a, f a = v ∧ encodeList (enc a) = b := by
  obtain ⟨hiff, -⟩ := ((h.struct typ).mono (Nat.le_succ _)).decodeBytes hlen typ (by
    rintro rfl
    rfl)
  rw [decodeBytes_map]
  constructor
  · intro hok
    cases hdec : decodeBytes typ (decodeStruct typ dec) b with
    | error e =>
      rw [hdec] at hok
      cases hok
    | ok a =>
      rw [hdec] at hok
      exact ⟨a, Except.ok.inj hok, (hiff a).mp hdec⟩
  · rintro ⟨a, rfl, henc⟩
    rw [(hiff a).mpr henc]
    rfl

end GoQrl.Rlp
