import GoQrl.Bytes

/-!
# GoQrl.Rlp.Encode

The RLP encoder of `rlp/encode.go` and `rlp/encbuffer.go`.

The encoder writes string data into `str` and remembers, for every list, only
the place of its header; `copyTo` lays the headers out after the fact.  A
writer is therefore described by what it *emits*: `Emits f p` says that `f`,
run on any buffer, makes the final output continue with the bytes `p`.  The
rules `Emits.comp` and `Emits.list` compose such facts along the calls of the
encoder, and the pure encodings

```
encodeString b = head 0x80 0xB7 |b| ++ b      (or the byte itself)
encodeList p   = head 0xC0 0xF7 |p| ++ p
```

are what `writeBytes` and a bracketed list emit.
-/

namespace GoQrl.Rlp

open List

/-! ## integers and headers -/

/-- `putint`: big endian, using the least number of bytes. -/
def putint (i : Nat) : Bytes :=
  if i < 2 ^ 8 then [byte i]
  else if i < 2 ^ 16 then [byte (i >>> 8), byte i]
  else if i < 2 ^ 24 then [byte (i >>> 16), byte (i >>> 8), byte i]
  else if i < 2 ^ 32 then [byte (i >>> 24), byte (i >>> 16), byte (i >>> 8), byte i]
  else if i < 2 ^ 40 then
    [byte (i >>> 32), byte (i >>> 24), byte (i >>> 16), byte (i >>> 8), byte i]
  else if i < 2 ^ 48 then
    [byte (i >>> 40), byte (i >>> 32), byte (i >>> 24), byte (i >>> 16), byte (i >>> 8), byte i]
  else if i < 2 ^ 56 then
    [byte (i >>> 48), byte (i >>> 40), byte (i >>> 32), byte (i >>> 24), byte (i >>> 16),
      byte (i >>> 8), byte i]
  else
    [byte (i >>> 56), byte (i >>> 48), byte (i >>> 40), byte (i >>> 32), byte (i >>> 24),
      byte (i >>> 16), byte (i >>> 8), byte i]

/-- `intsize`: the number of bytes `putint` needs (`bits.Len64` of a positive
number is `log2 + 1`). -/
def intsize (i : Nat) : Nat := if i = 0 then 1 else (i.log2 + 1 + 7) / 8

/-- `headsize`: the size of a list or string header. -/
def headsize (size : Nat) : Nat := if size < 56 then 1 else 1 + intsize size

/-- `puthead`: a list or string header. -/
def puthead (smalltag largetag : UInt8) (size : Nat) : Bytes :=
  if size < 56 then [smalltag + byte size]
  else (largetag + byte (putint size).length) :: putint size

variable {i b e : Nat} {f : EncBuffer → EncBuffer} {p : Bytes}

theorem intsize_eq {k : Nat} (hlo : 2 ^ (8 * k) ≤ i) (hhi : i < 2 ^ (8 * k + 8)) :
    intsize i = k + 1 := by
  have hi : i ≠ 0 := by
    have : 0 < 2 ^ (8 * k) := Nat.two_pow_pos _
    omega
  have h1 : 8 * k ≤ i.log2 := (Nat.le_log2 hi).mpr hlo
  have h2 : i.log2 < 8 * k + 8 := (Nat.log2_lt hi).mpr hhi
  rw [intsize, if_neg hi]
  omega

/-- Each case of `putint` writes the bytes of a number of that magnitude. -/
theorem putint_cases (h0 : 0 < i) (h : i < 2 ^ 64) :
    ∃ k, 2 ^ (8 * k) ≤ i ∧ i < 2 ^ (8 * k + 8) ∧ putint i = beBytes (k + 1) i := by
  unfold putint
  simp only [Nat.shiftRight_eq_div_pow]
  split
  · next h8 => exact ⟨0, by omega, by omega, by simp [beBytes]⟩
  split
  · next h8 h16 => exact ⟨1, by omega, by omega, by simp [beBytes]⟩
  split
  · next h16 h24 => exact ⟨2, by omega, by omega, by simp [beBytes, Nat.div_div_eq_div_mul]⟩
  split
  · next h24 h32 => exact ⟨3, by omega, by omega, by simp [beBytes, Nat.div_div_eq_div_mul]⟩
  split
  · next h32 h40 => exact ⟨4, by omega, by omega, by simp [beBytes, Nat.div_div_eq_div_mul]⟩
  split
  · next h40 h48 => exact ⟨5, by omega, by omega, by simp [beBytes, Nat.div_div_eq_div_mul]⟩
  split
  · next h48 h56 => exact ⟨6, by omega, by omega, by simp [beBytes, Nat.div_div_eq_div_mul]⟩
  · next h56 => exact ⟨7, by omega, by omega, by simp [beBytes, Nat.div_div_eq_div_mul]⟩

/-- `putint` is the minimal big-endian form, `intsize` bytes long. -/
theorem putint_eq (h0 : 0 < i) (h : i < 2 ^ 64) :
    putint i = beBytes (intsize i) i ∧ 256 ^ (intsize i - 1) ≤ i ∧ i < 256 ^ intsize i := by
  obtain ⟨k, hlo, hhi, hp⟩ := putint_cases h0 h
  rw [intsize_eq hlo hhi, show (256 : Nat) = 2 ^ 8 by rfl, ← Nat.pow_mul, ← Nat.pow_mul]
  exact ⟨hp, by simpa using hlo, by simpa [Nat.mul_add] using hhi⟩

theorem length_putint (h0 : 0 < i) (h : i < 2 ^ 64) : (putint i).length = intsize i := by
  rw [(putint_eq h0 h).1, length_beBytes]

theorem beNat_putint (h0 : 0 < i) (h : i < 2 ^ 64) : beNat (putint i) = i := by
  obtain ⟨hp, -, hlt⟩ := putint_eq h0 h
  rw [hp, beNat_beBytes hlt]

theorem intsize_pos (i : Nat) : 0 < intsize i := by
  unfold intsize; split <;> omega

theorem intsize_le (h : i < 2 ^ 64) : intsize i ≤ 8 := by
  unfold intsize
  split
  · omega
  · next h0 =>
    have := (Nat.log2_lt h0).mpr h
    omega

/-- The size field of a long header: one to eight bytes without a leading zero. -/
theorem putint_cons (h0 : 0 < i) (h : i < 2 ^ 64) :
    ∃ b bs, putint i = b :: bs ∧ b ≠ 0 ∧ bs.length + 1 = intsize i := by
  obtain ⟨-, hlo, -⟩ := putint_eq h0 h
  have hlen := length_putint h0 h
  have hpos := intsize_pos i
  cases hp : putint i with
  | nil => rw [hp, length_nil] at hlen; omega
  | cons b bs =>
    rw [hp, length_cons] at hlen
    refine ⟨b, bs, rfl, ?_, hlen⟩
    refine head_ne_zero_of_le_beNat (?_ : 256 ^ bs.length ≤ _)
    rw [← hp, beNat_putint h0 h]
    rwa [← hlen, Nat.add_sub_cancel] at hlo

theorem intsize_beNat {b : UInt8} (hb : b ≠ 0) (bs : Bytes) :
    0 < beNat (b :: bs) ∧ intsize (beNat (b :: bs)) = bs.length + 1 := by
  have hlo := le_beNat_of_head_ne_zero hb bs
  refine ⟨lt_of_lt_of_le (Nat.pow_pos (by decide)) hlo, intsize_eq (by rwa [Nat.pow_mul]) ?_⟩
  rw [show 8 * bs.length + 8 = 8 * (bs.length + 1) by ring, Nat.pow_mul]
  simpa using beNat_lt (b :: bs)

/-- A size field without a leading zero is the one `putint` writes. -/
theorem putint_beNat {b : UInt8} (hb : b ≠ 0) {bs : Bytes} (hlen : bs.length + 1 ≤ 8) :
    putint (beNat (b :: bs)) = b :: bs := by
  obtain ⟨hpos, hsize⟩ := intsize_beNat hb bs
  have hhi := beNat_lt (b :: bs)
  have hpow : (256 : Nat) ^ (b :: bs).length ≤ 2 ^ 64 :=
    Nat.pow_le_pow_right (by decide) hlen
  rw [(putint_eq hpos (by omega)).1, hsize]
  exact beBytes_beNat (b :: bs)

theorem length_puthead (s l : UInt8) {size : Nat} (h : size < 2 ^ 64) :
    (puthead s l size).length = headsize size := by
  unfold puthead headsize
  split
  · rfl
  · rw [length_cons, length_putint (by omega) h]; omega

/-! ## the encoder buffer -/

/-- `listhead`: where a list header goes and how much data it announces. -/
structure ListHead where
  offset : Nat
  size : Nat

/-- `listhead.encode`. -/
def ListHead.encode (head : ListHead) : Bytes := puthead 0xC0 0xF7 head.size

/-- `encBuffer`: string data without list headers, the headers, and the sum of
the sizes of all encoded headers. -/
structure EncBuffer where
  str : Bytes
  lheads : List ListHead
  lhsize : Nat

namespace EncBuffer

/-- The buffer after `reset`. -/
def empty : EncBuffer := ⟨[], [], 0⟩

/-- `encBuffer.size`: the length of the encoded data. -/
def size (buf : EncBuffer) : Nat := buf.str.length + buf.lhsize

/-- The loop of `copyTo` from string position `strpos` on, where `str` is the
string data not yet copied. -/
def copyFrom (strpos : Nat) (str : Bytes) : List ListHead → Bytes
  | [] => str
  | head :: heads =>
    str.take (head.offset - strpos) ++ head.encode ++
      copyFrom head.offset (str.drop (head.offset - strpos)) heads

/-- `encBuffer.copyTo`. -/
def copyTo (buf : EncBuffer) : Bytes := copyFrom 0 buf.str buf.lheads

/-- `encBuffer.makeBytes`: the copy, in an allocation of `size` bytes. -/
def makeBytes (buf : EncBuffer) : Bytes :=
  (buf.copyTo ++ List.replicate (buf.size - buf.copyTo.length) 0).take buf.size

/-- `encBuffer.Write`: append raw bytes. -/
def write (b : Bytes) (buf : EncBuffer) : EncBuffer := { buf with str := buf.str ++ b }

/-- `encBuffer.encodeStringHeader`. -/
def encodeStringHeader (size : Nat) (buf : EncBuffer) : EncBuffer :=
  if size < 56 then { buf with str := buf.str ++ [0x80 + byte size] }
  else { buf with str := buf.str ++ (0xB7 + byte (putint size).length) :: putint size }

/-- `encBuffer.writeBytes`. -/
def writeBytes (b : Bytes) (buf : EncBuffer) : EncBuffer :=
  match b with
  | [c] => if c ≤ 0x7F then buf.write [c] else (buf.encodeStringHeader 1).write [c]
  | b => (buf.encodeStringHeader b.length).write b

/-- `encBuffer.list`: open a list; the size field holds the header bytes so far. -/
def list (buf : EncBuffer) : Nat × EncBuffer :=
  (buf.lheads.length, { buf with lheads := buf.lheads ++ [⟨buf.str.length, buf.lhsize⟩] })

/-- `encBuffer.listEnd`: fix the size of the header opened at `index`. -/
def listEnd (index : Nat) (buf : EncBuffer) : EncBuffer :=
  match buf.lheads[index]? with
  | none => buf
  | some lh =>
    let size := buf.size - lh.offset - lh.size
    { buf with
      lheads := buf.lheads.set index { lh with size := size }
      lhsize := if size < 56 then buf.lhsize + 1 else buf.lhsize + (1 + intsize size) }

end EncBuffer

open EncBuffer

/-! ## pure encodings -/

/-- The encoding of a byte string. -/
def encodeString (b : Bytes) : Bytes :=
  match b with
  | [c] => if c ≤ 0x7F then [c] else puthead 0x80 0xB7 1 ++ [c]
  | b => puthead 0x80 0xB7 b.length ++ b

theorem encodeString_single {c : UInt8} (hc : c ≤ 0x7F) : encodeString [c] = [c] := by
  simp [encodeString, hc]

/-- All strings but single bytes up to `0x7F` are encoded behind a header. -/
theorem encodeString_of_ne {b : Bytes} (h : ∀ c, b = [c] → ¬ c ≤ 0x7F) :
    encodeString b = puthead 0x80 0xB7 b.length ++ b := by
  unfold encodeString
  split
  · next c => rw [if_neg (h c rfl)]; rfl
  · rfl

/-- A string is either its own encoding or encoded behind a header. -/
theorem single_or_ne (b : Bytes) : (∃ c, b = [c] ∧ c ≤ 0x7F) ∨ ∀ c, b = [c] → ¬ c ≤ 0x7F := by
  by_cases h : ∃ c, b = [c] ∧ c ≤ 0x7F
  · exact .inl h
  · exact .inr fun c hc hle => h ⟨c, hc, hle⟩

/-- The encoding of a list with the given payload. -/
def encodeList (payload : Bytes) : Bytes := puthead 0xC0 0xF7 payload.length ++ payload

theorem length_lt_encodeList (p : Bytes) : p.length < (encodeList p).length := by
  have hpos : 0 < (puthead 0xC0 0xF7 p.length).length := by
    unfold puthead; split <;> simp
  rw [encodeList, length_append]
  omega

theorem length_le_encodeString (b : Bytes) : b.length ≤ (encodeString b).length := by
  rcases single_or_ne b with ⟨c, rfl, hc⟩ | hne
  · rw [encodeString_single hc]
  · rw [encodeString_of_ne hne, length_append]
    exact Nat.le_add_left _ _

theorem length_encodeString_le (b : Bytes) (h : b.length < 2 ^ 64) :
    (encodeString b).length ≤ b.length + 9 := by
  rcases single_or_ne b with ⟨c, rfl, hc⟩ | hne
  · simp [encodeString_single hc]
  · have := intsize_le h
    rw [encodeString_of_ne hne, length_append, length_puthead _ _ h, headsize]
    split <;> omega

theorem length_encodeString_hash (h : Hash) : (encodeString h.bytes).length = 33 := by
  have hne : ∀ c, h.bytes = [c] → ¬ c ≤ 0x7F := fun c hc => by
    have := congrArg List.length hc
    simp at this
  rw [encodeString_of_ne hne, length_append, h.length_bytes]
  rfl

/-! ## what a writer emits -/

/-- The headers sit inside the string data from `b` to `e`, in order. -/
def Within (b e : Nat) : List ListHead → Prop
  | [] => b ≤ e
  | head :: heads => b ≤ head.offset ∧ Within head.offset e heads

/-- `f` appends string data and headers whose layout is `p`. -/
def Emits (f : EncBuffer → EncBuffer) (p : Bytes) : Prop :=
  ∀ buf : EncBuffer, ∃ str heads hsize,
    f buf = ⟨buf.str ++ str, buf.lheads ++ heads, buf.lhsize + hsize⟩ ∧
    Within buf.str.length (buf.str.length + str.length) heads ∧
    copyFrom buf.str.length str heads = p ∧ p.length = str.length + hsize

theorem Within.le {heads : List ListHead} (h : Within b e heads) : b ≤ e := by
  induction heads generalizing b with
  | nil => exact h
  | cons head heads ih => exact le_trans h.1 (ih h.2)

theorem Within.append {m : Nat} {hs hs' : List ListHead} (h : Within b m hs) (h' : Within m e hs') :
    Within b e (hs ++ hs') := by
  induction hs generalizing b with
  | nil =>
    cases hs' with
    | nil => exact le_trans h h'
    | cons head hs' => exact ⟨le_trans h h'.1, h'.2⟩
  | cons head hs ih => exact ⟨h.1, ih h.2⟩

/-- Layouts of consecutive stretches of string data concatenate. -/
theorem copyFrom_append {s s' : Bytes} {hs hs' : List ListHead} (h : Within b (b + s.length) hs)
    (h' : Within (b + s.length) e hs') :
    copyFrom b (s ++ s') (hs ++ hs') = copyFrom b s hs ++ copyFrom (b + s.length) s' hs' := by
  induction hs generalizing b s with
  | nil =>
    cases hs' with
    | nil => rfl
    | cons head hs' =>
      have hle : b + s.length ≤ head.offset := h'.1
      have hsub : head.offset - b = s.length + (head.offset - (b + s.length)) := by omega
      simp only [nil_append, copyFrom, hsub, append_assoc]
      rw [take_length_add_append, drop_length_add_append, append_assoc]
  | cons head hs ih =>
    obtain ⟨hb, hrest⟩ := h
    have hle := hrest.le
    have hd : head.offset - b ≤ s.length := by omega
    have hlen : b + s.length = head.offset + (s.drop (head.offset - b)).length := by
      rw [length_drop]; omega
    simp only [cons_append, copyFrom]
    rw [take_append_of_le_length hd, drop_append_of_le_length hd,
      ih (by rwa [hlen] at hrest) (by rwa [hlen] at h'), ← hlen]
    simp

/-- Raw bytes are emitted as they are. -/
theorem emits_write (b : Bytes) : Emits (EncBuffer.write b) b := by
  intro buf
  exact ⟨b, [], 0, by simp [write], Nat.le_add_right _ _, rfl, rfl⟩

/-- One writer after another. -/
theorem Emits.comp {g : EncBuffer → EncBuffer} {q : Bytes} (hf : Emits f p) (hg : Emits g q) :
    Emits (fun buf => g (f buf)) (p ++ q) := by
  intro buf
  obtain ⟨s, hs, n, hfe, hfw, hfc, hfl⟩ := hf buf
  obtain ⟨s', hs', n', hge, hgw, hgc, hgl⟩ := hg (f buf)
  rw [hfe] at hge hgw hgc
  simp only [length_append] at hgw hgc
  refine ⟨s ++ s', hs ++ hs', n + n', ?_, ?_, ?_, ?_⟩
  · show g (f buf) = _
    rw [hfe, hge]; simp [add_assoc]
  · rw [length_append, ← add_assoc]
    exact hfw.append hgw
  · rw [copyFrom_append hfw hgw, hfc, hgc]
  · rw [length_append, length_append, hfl, hgl]; omega

/-- A writer that leaves the buffer alone emits nothing. -/
theorem emits_id : Emits (fun buf => buf) [] := by
  intro buf
  exact ⟨[], [], 0, by simp, by simp [Within], rfl, rfl⟩

/-- **Deferred headers**: a bracketed writer emits its payload behind the
header that announces it. -/
theorem Emits.list (hf : Emits f p) (hp : p.length < 2 ^ 64) :
    Emits (fun buf => (f buf.list.2).listEnd buf.list.1) (encodeList p) := by
  intro buf
  obtain ⟨s, hs, n, hfe, hfw, hfc, hfl⟩ := hf buf.list.2
  simp only [EncBuffer.list] at hfe hfw hfc
  have hget : (buf.lheads ++ [⟨buf.str.length, buf.lhsize⟩] ++ hs)[buf.lheads.length]? =
      some ⟨buf.str.length, buf.lhsize⟩ := by simp
  have hsize : (buf.str ++ s).length + (buf.lhsize + n) - buf.str.length - buf.lhsize =
      p.length := by
    rw [length_append, hfl]; omega
  refine ⟨s, ⟨buf.str.length, p.length⟩ :: hs, headsize p.length + n, ?_, ⟨le_refl _, hfw⟩, ?_, ?_⟩
  · simp only [EncBuffer.list]
    rw [hfe]
    simp only [listEnd, hget, size, hsize, headsize]
    have hset : (buf.lheads ++ [(⟨buf.str.length, buf.lhsize⟩ : ListHead)] ++ hs).set
        buf.lheads.length ⟨buf.str.length, p.length⟩ =
        buf.lheads ++ ⟨buf.str.length, p.length⟩ :: hs := by
      simp
    congr 1
    split <;> omega
  · simp [copyFrom, ListHead.encode, hfc, encodeList]
  · rw [encodeList, length_append, length_puthead _ _ hp, hfl]; omega

/-- `encodeStringHeader` emits the string header. -/
theorem emits_encodeStringHeader (size : Nat) :
    Emits (encodeStringHeader size) (puthead 0x80 0xB7 size) := by
  have : encodeStringHeader size = write (puthead 0x80 0xB7 size) := by
    unfold encodeStringHeader write puthead
    split <;> rfl
  rw [this]
  exact emits_write _

/-- `writeBytes` emits the encoding of the string. -/
theorem emits_writeBytes (b : Bytes) : Emits (EncBuffer.writeBytes b) (encodeString b) := by
  unfold writeBytes encodeString
  split
  · split
    · exact emits_write _
    · exact (emits_encodeStringHeader 1).comp (emits_write _)
  · exact (emits_encodeStringHeader _).comp (emits_write _)

/-- The output of a writer run on a fresh buffer is what it emits. -/
theorem Emits.makeBytes (hf : Emits f p) : (f EncBuffer.empty).makeBytes = p := by
  obtain ⟨s, hs, n, hfe, -, hfc, hfl⟩ := hf empty
  simp only [empty, nil_append, length_nil, zero_add] at hfe hfc
  rw [empty, hfe]
  simp only [EncBuffer.makeBytes, EncBuffer.copyTo, EncBuffer.size, hfc]
  rw [← hfl]
  simp

end GoQrl.Rlp
