import GoQrl.Rlp.Encode

/-!
# GoQrl.Rlp.Raw

The slice-based RLP parser of `rlp/raw.go`: `readKind`, `Split` and its
variants, and `CountValues`.  Lengths are natural numbers: every one of them is
checked against the input slice before it is used, so no `uint64` operation of
the source wraps.

The read-back lemmas `split_encodeString` and `split_encodeList` are what the
trie node decoder is built on.
-/

namespace GoQrl.Rlp

open List

/-- The errors of the package. -/
inductive RlpError
  /-- "rlp: end of list" -/
  | eol
  /-- "rlp: expected String or Byte" -/
  | expectedString
  /-- "rlp: expected List" -/
  | expectedList
  /-- "rlp: non-canonical integer format" -/
  | canonInt
  /-- "rlp: non-canonical size information" -/
  | canonSize
  /-- "rlp: element is larger than containing list" -/
  | elemTooLarge
  /-- "rlp: value size exceeds available input length" -/
  | valueTooLarge
  /-- "rlp: input contains more than one value" -/
  | moreThanOneValue
  /-- "rlp: call of ListEnd outside of any list" -/
  | notInList
  /-- "rlp: call of ListEnd not positioned at EOL" -/
  | notAtEOL
  /-- "rlp: uint overflow" -/
  | uintOverflow
  /-- "rlp: cannot encode negative big.Int" -/
  | negativeBigInt
  /-- "input value has wrong size …, want …" -/
  | wrongSize (size want : Nat)
  /-- A `decodeError`: the message, the type that is decoded into, and the context,
  innermost first. -/
  | decode (msg typ : String) (ctx : List String)
  /-- The error of a type's own decoder. -/
  | other (msg : String)
  /-- `io.EOF` -/
  | eof
  /-- `io.ErrUnexpectedEOF` -/
  | unexpectedEOF
  /-- The evaluation budget of the model is used up; not an error of the package. -/
  | outOfFuel
  deriving DecidableEq, Repr

/-- `Kind`: the kind of value contained in an RLP stream. -/
inductive Kind
  | byte
  | string
  | list
  deriving DecidableEq, Repr

/-- `readSize`: the size field of a long header.  The source spells out the
shifts for each of the eight widths. -/
def readSize (b : Bytes) (slen : Nat) : Except RlpError Nat :=
  if slen > b.length then .error .unexpectedEOF
  else
    let s := beNat (b.take slen)
    if s < 56 ∨ b.head? = some 0 then .error .canonSize else .ok s

/-- The tag of the first value: its kind, the size of its tag and of its
content, before the content is compared with the input. -/
def readTag : Bytes → Except RlpError (Kind × Nat × Nat)
  | [] => .error .unexpectedEOF
  | c :: rest =>
    let b := c.toNat
    if b < 0x80 then .ok (.byte, 0, 1)
    else if b < 0xB8 then
      -- reject strings that should've been single bytes
      if b - 0x80 = 1 ∧ rest.head?.any (· < 128) then
        .error .canonSize
      else .ok (.string, 1, b - 0x80)
    else if b < 0xC0 then
      match readSize rest (b - 0xB7) with
      | .error e => .error e
      | .ok s => .ok (.string, b - 0xB7 + 1, s)
    else if b < 0xF8 then .ok (.list, 1, b - 0xC0)
    else
      match readSize rest (b - 0xF7) with
      | .error e => .error e
      | .ok s => .ok (.list, b - 0xF7 + 1, s)

/-- `readKind`: the kind, tag size and content size of the first value. -/
def readKind (buf : Bytes) : Except RlpError (Kind × Nat × Nat) :=
  match readTag buf with
  | .error e => .error e
  | .ok (k, tagsize, contentsize) =>
    if contentsize > buf.length - tagsize then .error .valueTooLarge
    else .ok (k, tagsize, contentsize)

/-- `Split`: the content of the first value and the bytes after it. -/
def split (b : Bytes) : Except RlpError (Kind × Bytes × Bytes) :=
  match readKind b with
  | .error e => .error e
  | .ok (k, ts, cs) => .ok (k, (b.drop ts).take cs, b.drop (ts + cs))

/-- `SplitString`: the content of a string and the bytes after it. -/
def splitString (b : Bytes) : Except RlpError (Bytes × Bytes) :=
  match split b with
  | .error e => .error e
  | .ok (.list, _, _) => .error .expectedString
  | .ok (_, content, rest) => .ok (content, rest)

/-- `SplitList`: the content of a list and the bytes after it. -/
def splitList (b : Bytes) : Except RlpError (Bytes × Bytes) :=
  match split b with
  | .error e => .error e
  | .ok (.list, content, rest) => .ok (content, rest)
  | .ok (_, _, _) => .error .expectedList

/-- The loop of `CountValues` with `i` values counted so far. -/
def countLoop : Nat → Nat → Bytes → Except RlpError Nat
  | _, i, [] => .ok i
  | 0, _, _ => .error .outOfFuel
  | fuel + 1, i, b =>
    match readKind b with
    | .error e => .error e
    | .ok (_, tagsize, size) => countLoop fuel (i + 1) (b.drop (tagsize + size))

/-- `CountValues`: the number of encoded values in `b`.  Every value has at
least one byte, so the length of the input bounds the iterations. -/
def countValues (b : Bytes) : Except RlpError Nat := countLoop b.length 0 b

/-! ## reading back headers -/

theorem toNat_tag_add {t : UInt8} {n : Nat} (h : t.toNat + n < 256) :
    (t + byte n).toNat = t.toNat + n := by
  rw [UInt8.toNat_add, toNat_byte]; omega

/-- The kind a header tag pair stands for. -/
def IsTag (k : Kind) (small large : UInt8) : Prop :=
  (k = .string ∧ small = 0x80 ∧ large = 0xB7) ∨ (k = .list ∧ small = 0xC0 ∧ large = 0xF7)

theorem isTag_string : IsTag .string 0x80 0xB7 := .inl ⟨rfl, rfl, rfl⟩
theorem isTag_list : IsTag .list 0xC0 0xF7 := .inr ⟨rfl, rfl, rfl⟩

theorem readSize_putint {size : Nat} (h56 : 56 ≤ size) (h : size < 2 ^ 64) (rest : Bytes) :
    readSize (putint size ++ rest) (putint size).length = .ok size := by
  obtain ⟨b, bs, hp, hb, -⟩ := putint_cons (by omega) h
  have hn := beNat_putint (by omega) h
  unfold readSize
  rw [take_append_of_length rfl, hn, hp]
  simp [hb, h56]

/-- A header is read back, unless it announces a single byte below 128. -/
theorem readTag_puthead {k : Kind} {s l : UInt8} (ht : IsTag k s l) {size : Nat}
    (h : size < 2 ^ 64) (rest : Bytes)
    (hone : k = .string → size = 1 → ∀ d, rest.head? = some d → ¬ d < 128) :
    readTag (puthead s l size ++ rest) = .ok (k, headsize size, size) := by
  by_cases h56 : size < 56
  · simp only [puthead, if_pos h56, headsize, cons_append, nil_append, readTag]
    rcases ht with ⟨rfl, rfl, rfl⟩ | ⟨rfl, rfl, rfl⟩
    · have htag : ((0x80 : UInt8) + byte size).toNat = 0x80 + size :=
        toNat_tag_add (show 128 + size < 256 by omega)
      rw [htag, if_neg (by omega), if_pos (by omega), Nat.add_sub_cancel_left, if_neg]
      rintro ⟨hsize, h2⟩
      obtain ⟨d, hd, hlt⟩ := Option.any_eq_true .. |>.mp h2
      exact hone rfl hsize d hd (by simpa using hlt)
    · have htag : ((0xC0 : UInt8) + byte size).toNat = 0xC0 + size :=
        toNat_tag_add (show 192 + size < 256 by omega)
      rw [htag, if_neg (by omega), if_neg (by omega), if_neg (by omega), if_pos (by omega),
        Nat.add_sub_cancel_left]
  · have hlen := length_putint (by omega) h
    have hle := intsize_le h
    have hpos := intsize_pos size
    simp only [puthead, if_neg h56, headsize, cons_append, readTag]
    rcases ht with ⟨rfl, rfl, rfl⟩ | ⟨rfl, rfl, rfl⟩
    · have htag : ((0xB7 : UInt8) + byte (putint size).length).toNat =
          0xB7 + (putint size).length :=
        toNat_tag_add (show 183 + (putint size).length < 256 by omega)
      rw [htag, if_neg (by omega), if_neg (by omega), if_pos (by omega), Nat.add_sub_cancel_left,
        readSize_putint (by omega) h, hlen, add_comm 1]
    · have htag : ((0xF7 : UInt8) + byte (putint size).length).toNat =
          0xF7 + (putint size).length :=
        toNat_tag_add (show 247 + (putint size).length < 256 by omega)
      rw [htag, if_neg (by omega), if_neg (by omega), if_neg (by omega), if_neg (by omega),
        Nat.add_sub_cancel_left, readSize_putint (by omega) h, hlen, add_comm 1]

/-- The kind of an encoded string. -/
def stringKind : Bytes → Kind
  | [c] => if c ≤ 0x7F then .byte else .string
  | _ => .string

variable {b : Bytes} {p : Bytes}

theorem stringKind_of_ne (h : ∀ c, b = [c] → ¬ c ≤ 0x7F) : stringKind b = .string := by
  unfold stringKind
  split
  · next c => rw [if_neg (h c rfl)]
  · rfl

theorem lt_128_iff {c : UInt8} : c < 128 ↔ c ≤ 0x7F :=
  Nat.lt_succ_iff

/-- The sizes of an encoded string are read back. -/
theorem readKind_encodeString (h : b.length < 2 ^ 64) (rest : Bytes) :
    ∃ ts, readKind (encodeString b ++ rest) = .ok (stringKind b, ts, b.length) ∧
      ts + b.length = (encodeString b).length ∧ (encodeString b).drop ts = b := by
  rcases single_or_ne b with ⟨c, rfl, hc⟩ | hne
  · have hlt : c.toNat < 0x80 := UInt8.lt_iff_toNat_lt.mp (lt_128_iff.mpr hc)
    rw [encodeString_single hc]
    exact ⟨0, by simp [readKind, readTag, hlt, stringKind, hc], rfl, rfl⟩
  · have htag := readTag_puthead isTag_string h (b ++ rest) (fun _ h1 d hd hlt => by
      cases b with
      | nil => simp at h1
      | cons c b =>
        simp only [length_cons, Nat.add_eq_right, length_eq_zero_iff] at h1
        simp only [cons_append, head?_cons, Option.some.injEq] at hd
        exact hne d (by rw [h1, hd]) (lt_128_iff.mp hlt))
    rw [encodeString_of_ne hne, stringKind_of_ne hne]
    refine ⟨headsize b.length, ?_, ?_, ?_⟩
    · rw [append_assoc, readKind, htag]
      simp [length_puthead _ _ h]
    · rw [length_append, length_puthead _ _ h]
    · exact drop_append_of_length (length_puthead _ _ h)

/-- The sizes of an encoded list are read back. -/
theorem readKind_encodeList (h : p.length < 2 ^ 64) (rest : Bytes) :
    readKind (encodeList p ++ rest) = .ok (.list, headsize p.length, p.length) := by
  rw [encodeList, append_assoc, readKind,
    readTag_puthead isTag_list h (p ++ rest) (fun hk => by cases hk)]
  simp [length_puthead _ _ h]

theorem length_encodeList (h : p.length < 2 ^ 64) :
    (encodeList p).length = headsize p.length + p.length := by
  rw [encodeList, length_append, length_puthead _ _ h]

theorem length_encodeList_le (h : p.length < 2 ^ 64) : (encodeList p).length ≤ p.length + 9 := by
  have hint := intsize_le h
  rw [length_encodeList h, headsize]
  split <;> omega

/-- **Read-back of a string** from the front of a buffer. -/
theorem split_encodeString (h : b.length < 2 ^ 64) (rest : Bytes) :
    split (encodeString b ++ rest) = .ok (stringKind b, b, rest) := by
  obtain ⟨ts, hk, hlen, hdrop⟩ := readKind_encodeString h rest
  have hts : ts ≤ (encodeString b).length := by omega
  simp only [split, hk]
  rw [drop_append_of_le_length hts, hdrop, take_append_of_length rfl,
    drop_append_of_length hlen.symm]

/-- **Read-back of a list** from the front of a buffer. -/
theorem split_encodeList (h : p.length < 2 ^ 64) (rest : Bytes) :
    split (encodeList p ++ rest) = .ok (.list, p, rest) := by
  have hlen := length_encodeList h
  simp only [split, readKind_encodeList h]
  rw [drop_append_of_length hlen, encodeList, append_assoc,
    drop_append_of_length (length_puthead _ _ h), take_append_of_length rfl]

theorem stringKind_ne_list (b : Bytes) : stringKind b ≠ .list := by
  unfold stringKind
  split
  · split <;> simp
  · simp

theorem splitString_encodeString (h : b.length < 2 ^ 64) (rest : Bytes) :
    splitString (encodeString b ++ rest) = .ok (b, rest) := by
  have hk := stringKind_ne_list b
  simp [splitString, split_encodeString h]

theorem splitList_encodeList (h : p.length < 2 ^ 64) (rest : Bytes) :
    splitList (encodeList p ++ rest) = .ok (p, rest) := by
  simp [splitList, split_encodeList h]

end GoQrl.Rlp
