import GoQrl.Rlp.Fields

/-!
# GoQrl.Rlp.Write

The writers of the field types of a struct and of the structs themselves.  `Writes w p`
says that the writer succeeds and emits the encoding `p`; the only writer that can fail is
the one of a negative big integer.
-/

namespace GoQrl.Rlp

open List Nat EncBuffer

variable {α : Type} {enc : α → Bytes}

namespace EncBuffer

/-- `writeUint64`. -/
def writeUint64 (i : Nat) (buf : EncBuffer) : EncBuffer :=
  if i = 0 then buf.write [0x80]
  else if i < 128 then buf.write [byte i]
  else buf.write ((0x80 + byte (putint i).length) :: putint i)

/-- `BitLen` of a big integer. -/
def bitLen (i : Nat) : Nat := if i = 0 then 0 else i.log2 + 1

/-- `writeBigInt`. -/
def writeBigInt (i : Nat) (buf : EncBuffer) : EncBuffer :=
  if bitLen i ≤ 64 then buf.writeUint64 i
  else
    let length := (bitLen i + 7) / 8
    (buf.encodeStringHeader length).write (beBytes length i)

/-- The writers of `makeByteArrayWriter`. -/
def writeByteArray {n : Nat} (b : Fixed n) (buf : EncBuffer) : EncBuffer :=
  match b.val with
  | [] => buf.write [0x80]
  | [c] => if c ≤ 0x7F then buf.write [c] else buf.write [0x81, c]
  | b => (buf.encodeStringHeader b.length).write b

/-- `writeTo`: the bytes that are written from string position `strpos` on. -/
def writeFrom (strpos : Nat) (str : Bytes) : List ListHead → Bytes
  | [] => if str.length > 0 then str else []
  | head :: heads =>
    (if head.offset - strpos > 0 then str.take (head.offset - strpos) else []) ++ head.encode ++
      writeFrom head.offset (str.drop (head.offset - strpos)) heads

/-- `encBuffer.writeTo`. -/
def writeTo (buf : EncBuffer) : Bytes := writeFrom 0 buf.str buf.lheads

end EncBuffer

/-- A writer: `func(reflect.Value, *encBuffer) error`, for one value. -/
abbrev Writer := EncBuffer → Except RlpError EncBuffer

/-- `writeBigIntPtr`. -/
def writeBigIntPtr : Option Int → Writer
  | none => fun buf => .ok (buf.write [0x80])
  | some i => fun buf => if i < 0 then .error .negativeBigInt else .ok (buf.writeBigInt i.toNat)

/-- The writer of a pointer whose nil is the empty string. -/
def writeNilPtr (write : α → EncBuffer → EncBuffer) : Option α → Writer
  | none => fun buf => .ok (buf.write [0x80])
  | some a => fun buf => .ok (write a buf)

/-- The loops of the struct and slice writers. -/
def writeAll : List Writer → Writer
  | [], buf => .ok buf
  | w :: ws, buf =>
    match w buf with
    | .error e => .error e
    | .ok buf => writeAll ws buf

/-- The writer of `makeStructWriter` for structs without optional fields. -/
def writeStruct (fields : List Writer) : Writer := fun buf =>
  match writeAll fields buf.list.2 with
  | .error e => .error e
  | .ok buf' => .ok (buf'.listEnd buf.list.1)

/-- The writer of `makeSliceWriter`. -/
def writeSlice (elems : List Writer) : Writer :=
  if elems.length = 0 then fun buf => .ok (buf.write [0xC0]) else writeStruct elems

/-- `Encode`: what is written to the output. -/
def encode (w : Writer) : Except RlpError Bytes :=
  match w .empty with
  | .error e => .error e
  | .ok buf => .ok buf.writeTo

/-- A writer that fails makes a list with it fail. -/
theorem encode_writeSlice_error {w : Writer} {elems : List Writer} (hw : w ∈ elems)
    (hfail : ∀ buf, ∃ e, w buf = .error e) : ∃ e, encode (writeSlice elems) = .error e := by
  have hall : ∀ buf, ∃ e, writeAll elems buf = .error e := by
    induction elems with
    | nil => cases hw
    | cons a elems ih =>
      intro buf
      obtain rfl | hw := List.mem_cons.mp hw
      · obtain ⟨e, he⟩ := hfail buf
        exact ⟨e, by rw [writeAll, he]⟩
      · rw [writeAll]
        cases a buf with
        | error e => exact ⟨e, rfl⟩
        | ok buf => exact ih hw buf
  obtain ⟨e, he⟩ := hall EncBuffer.empty.list.2
  have hlen : elems.length ≠ 0 := (List.length_pos_of_mem hw).ne'
  exact ⟨e, by rw [encode, writeSlice, if_neg hlen, writeStruct, he]⟩

/-! ## what the writers emit -/

/-- The writer succeeds and emits the encoding. -/
def Writes (w : Writer) (p : Bytes) : Prop := ∃ f, w = (fun buf => .ok (f buf)) ∧ Emits f p

theorem emits_writeUint64 {i : Nat} (h : i < 2 ^ 64) :
    Emits (writeUint64 i) (encodeString (natBytes i)) := by
  by_cases h0 : i = 0
  · subst h0
    exact emits_write _
  by_cases hlt : i < 128
  · have hwrite : writeUint64 i = write [byte i] := by
      funext buf
      rw [writeUint64, if_neg h0, if_pos hlt]
    have hnat : (byte i).toNat = i := by rw [toNat_byte, mod_eq_of_lt (by omega)]
    have hne : byte i ≠ 0 := fun hz => h0 (by rw [← hnat, hz]; rfl)
    have hsmall : byte i ≤ 0x7F := by
      rw [UInt8.le_iff_toNat_le, hnat]
      exact le_of_lt_succ hlt
    have henc : encodeString (natBytes i) = [byte i] := by
      have hbytes := natBytes_single hne
      rw [hnat] at hbytes
      rw [hbytes, encodeString_single hsmall]
    rw [hwrite, henc]
    exact emits_write _
  · have hput := putint_eq_natBytes (pos_of_ne_zero h0) h
    have hwrite : writeUint64 i = write (puthead 0x80 0xB7 (natBytes i).length ++ natBytes i) := by
      funext buf
      have h56 : (natBytes i).length < 56 := lt_of_le_of_lt (length_natBytes_le h) (by decide)
      rw [writeUint64, if_neg h0, if_neg hlt, hput, puthead, if_pos h56]
      rfl
    have hlong : ∀ c, natBytes i = [c] → ¬ c ≤ 0x7F := by
      intro c hc hle
      have hnat := beNat_natBytes i
      rw [hc, beNat_cons, beNat_nil, length_nil, pow_zero, mul_one, add_zero] at hnat
      rw [UInt8.le_iff_toNat_le, hnat] at hle
      exact hlt (lt_succ_of_le hle)
    rw [hwrite, encodeString_of_ne hlong]
    exact emits_write _

theorem emits_writeBigInt (i : Nat) : Emits (writeBigInt i) (encodeString (natBytes i)) := by
  by_cases hbits : bitLen i ≤ 64
  · have hwrite : writeBigInt i = writeUint64 i := by
      funext buf
      rw [writeBigInt, if_pos hbits]
    have hlt : i < 2 ^ 64 := by
      unfold bitLen at hbits
      split at hbits
      · next h0 =>
        rw [h0]
        decide
      · next h0 => exact (log2_lt h0).mp hbits
    rw [hwrite]
    exact emits_writeUint64 hlt
  · have h0 : i ≠ 0 := by
      rintro rfl
      exact hbits (by decide)
    have hsize : (bitLen i + 7) / 8 = intsize i := by
      rw [bitLen, if_neg h0, intsize, if_neg h0]
    have hlen : (natBytes i).length = intsize i := by rw [natBytes, if_neg h0, length_beBytes]
    have hlong : ∀ c, natBytes i = [c] → ¬ c ≤ 0x7F := by
      intro c hc
      rw [hc, length_singleton] at hlen
      omega
    have hwrite : writeBigInt i = fun buf =>
        (buf.encodeStringHeader (natBytes i).length).write (natBytes i) := by
      funext buf
      rw [writeBigInt, if_neg hbits, hsize, hlen, natBytes, if_neg h0]
    rw [hwrite, encodeString_of_ne hlong]
    exact (emits_encodeStringHeader _).comp (emits_write _)

theorem emits_writeByteArray {n : Nat} (b : Fixed n) :
    Emits (writeByteArray b) (encodeString b.val) := by
  have hwrite : writeByteArray b = writeBytes b.val := by
    unfold writeByteArray writeBytes
    match b.val with
    | [] => simp [encodeStringHeader, write, byte]
    | [c] =>
      split
      · next h => cases h
      · next h =>
        cases h
        simp only
        split
        · rfl
        · simp [encodeStringHeader, write, byte]
      · next h h' => exact absurd rfl (h' c)
    | c :: d :: cs => rfl
  rw [hwrite]
  exact emits_writeBytes _

theorem writes_of_emits {f : EncBuffer → EncBuffer} {p : Bytes} (h : Emits f p) :
    Writes (fun buf => .ok (f buf)) p :=
  ⟨f, rfl, h⟩

theorem writes_bigIntPtr (i : Nat) :
    Writes (writeBigIntPtr (some i)) (encodeString (natBytes i)) := by
  refine ⟨writeBigInt i, ?_, emits_writeBigInt i⟩
  funext buf
  simp [writeBigIntPtr]

theorem writes_nilPtr {write : α → EncBuffer → EncBuffer} (h : ∀ a, Emits (write a) (enc a))
    (p : Option α) :
    Writes (writeNilPtr write p) (encodeNilPtr enc p) := by
  cases p with
  | none => exact writes_of_emits (emits_write _)
  | some a => exact writes_of_emits (h a)

/-- The loop over all fields or elements. -/
theorem writes_all {ws : List (Writer × Bytes)} (h : ∀ w ∈ ws, Writes w.1 w.2) :
    Writes (writeAll (ws.map Prod.fst)) (ws.flatMap Prod.snd) := by
  induction ws with
  | nil => exact ⟨fun buf => buf, rfl, emits_id⟩
  | cons w ws ih =>
    obtain ⟨f, hf, hemits⟩ := h w mem_cons_self
    obtain ⟨g, hg, hemits'⟩ := ih fun w' hw' => h w' (mem_cons_of_mem _ hw')
    refine ⟨fun buf => g (f buf), ?_, ?_⟩
    · funext buf
      rw [map_cons, writeAll, hf]
      rw [hg]
    · exact hemits.comp hemits'

theorem writes_struct (ws : List (Writer × Bytes)) (h : ∀ w ∈ ws, Writes w.1 w.2)
    (hlen : (ws.flatMap Prod.snd).length < 2 ^ 64) :
    Writes (writeStruct (ws.map Prod.fst)) (encodeList (ws.flatMap Prod.snd)) := by
  obtain ⟨f, hf, hemits⟩ := writes_all h
  refine ⟨_, ?_, hemits.list hlen⟩
  funext buf
  rw [writeStruct, hf]

theorem writes_slice (ws : List (Writer × Bytes)) (h : ∀ w ∈ ws, Writes w.1 w.2)
    (hlen : (ws.flatMap Prod.snd).length < 2 ^ 64) :
    Writes (writeSlice (ws.map Prod.fst)) (encodeList (ws.flatMap Prod.snd)) := by
  unfold writeSlice
  split
  · next hnil =>
    rw [length_map] at hnil
    rw [length_eq_zero_iff.mp hnil]
    exact writes_of_emits (emits_write _)
  · exact writes_struct ws h hlen

theorem writeFrom_eq (strpos : Nat) (str : Bytes) (heads : List ListHead) :
    writeFrom strpos str heads = copyFrom strpos str heads := by
  induction heads generalizing strpos str with
  | nil =>
    unfold writeFrom copyFrom
    split
    · rfl
    · next h => exact (length_eq_zero_iff.mp (le_zero.mp (not_lt.mp h))).symm
  | cons head heads ih =>
    rw [writeFrom, copyFrom, ih]
    split
    · rfl
    · next h =>
      rw [le_zero.mp (not_lt.mp h), take_zero]

/-- The output of `Encode`. -/
theorem Writes.encode {w : Writer} {p : Bytes} (h : Writes w p) : encode w = .ok p := by
  obtain ⟨f, rfl, hemits⟩ := h
  obtain ⟨str, heads, n, hf, -, hcopy, -⟩ := hemits empty
  simp only [empty, nil_append, length_nil, zero_add] at hf hcopy
  rw [Rlp.encode]
  simp [empty, hf, writeTo, writeFrom_eq, hcopy]

end GoQrl.Rlp
