import GoQrl.Rlp.Write

/-!
# GoQrl.Rlp.Reader

The encoder buffer over all sequences of operations, with the reader of `EncodeToReader`.

List headers are kept apart from the string data.  `copyTo`, `writeTo` and the reader put
them back in, and produce the recursive encoding of what was written (`encodings_agree`).
-/

namespace GoQrl.Rlp

open EncBuffer List Option

/-! ## the operations -/

namespace EncBuffer

/-- `writeBool`. -/
def writeBool (b : Bool) (buf : EncBuffer) : EncBuffer :=
  if b then buf.write [0x01] else buf.write [0x80]

/-- `writeUint256`: the last bytes of the 32 behind a header that is put in front of them. -/
def writeUint256 (z : Nat) (buf : EncBuffer) : EncBuffer :=
  if bitLen z ≤ 64 then buf.writeUint64 z
  else
    let nBytes := (bitLen z + 7) / 8
    buf.write ((0x80 + byte nBytes) :: (beBytes 32 z).drop (32 - nBytes))

end EncBuffer

/-- A well-bracketed sequence of operations: the operations between `list` and `listEnd`
are those of the list. -/
inductive EncOp
  | writeBytes (b : Bytes)
  | writeUint64 (i : UInt64)
  | writeBool (b : Bool)
  | writeUint256 (z : Fin (2 ^ 256))
  | write (b : Bytes)
  | list (ops : List EncOp)

mutual

/-- An operation on the buffer. -/
def EncOp.run : EncOp → EncBuffer → EncBuffer
  | .writeBytes b, buf => buf.writeBytes b
  | .writeUint64 i, buf => buf.writeUint64 i.toNat
  | .writeBool b, buf => buf.writeBool b
  | .writeUint256 z, buf => buf.writeUint256 z
  | .write b, buf => buf.write b
  | .list ops, buf => (EncOp.runAll ops buf.list.2).listEnd buf.list.1

/-- A sequence of operations. -/
def EncOp.runAll : List EncOp → EncBuffer → EncBuffer
  | [], buf => buf
  | op :: ops, buf => EncOp.runAll ops (op.run buf)

end

mutual

/-- The encoding of what an operation writes. -/
def EncOp.enc : EncOp → Bytes
  | .writeBytes b => encodeString b
  | .writeUint64 i => encodeString (natBytes i.toNat)
  | .writeBool b => encodeString (natBytes b.toNat)
  | .writeUint256 z => encodeString (natBytes z)
  | .write b => b
  | .list ops => encodeList (EncOp.encAll ops)

def EncOp.encAll : List EncOp → Bytes
  | [] => []
  | op :: ops => op.enc ++ EncOp.encAll ops

end

theorem beBytes_add (m n i : Nat) : beBytes (m + n) i = beBytes m (i / 256 ^ n) ++ beBytes n i := by
  induction n generalizing i with
  | zero => simp [beBytes]
  | succ n ih =>
    rw [← add_assoc, beBytes, beBytes, ih, Nat.div_div_eq_div_mul, ← Nat.pow_succ', append_assoc]

theorem emits_writeUint256 {z : Nat} (hz : z < 2 ^ 256) :
    Emits (writeUint256 z) (encodeString (natBytes z)) := by
  have hwrite : writeUint256 z = writeBigInt z := by
    funext buf
    unfold writeUint256 writeBigInt
    split
    · rfl
    · have hn : (bitLen z + 7) / 8 ≤ 32 := by
        have : bitLen z ≤ 256 := by
          unfold bitLen
          split
          · exact Nat.zero_le _
          · next h0 => exact (Nat.log2_lt h0).mpr hz
        omega
      have hbytes := beBytes_add (32 - (bitLen z + 7) / 8) ((bitLen z + 7) / 8) z
      rw [Nat.sub_add_cancel hn] at hbytes
      dsimp only
      rw [hbytes, encodeStringHeader, if_pos (by omega)]
      simp [write]
  rw [hwrite]
  exact emits_writeBigInt z

theorem emits_writeBool (b : Bool) :
    Emits (EncBuffer.writeBool b) (encodeString (natBytes b.toNat)) := by
  cases b with
  | false => exact emits_write [0x80]
  | true => exact emits_write [0x01]

mutual

/-- Every operation emits its encoding. -/
theorem EncOp.emits_run : ∀ op : EncOp, op.enc.length < 2 ^ 64 → Emits op.run op.enc
  | .writeBytes b, _ => by
    simpa [EncOp.enc, EncOp.run, Emits] using emits_writeBytes b
  | .writeUint64 i, _ => by
    simpa [EncOp.enc, EncOp.run, Emits] using emits_writeUint64 i.toNat_lt
  | .writeBool b, _ => by
    simpa [EncOp.enc, EncOp.run, Emits] using emits_writeBool b
  | .writeUint256 z, _ => by
    simpa [EncOp.enc, EncOp.run, Emits] using emits_writeUint256 z.isLt
  | .write b, _ => by
    simpa [EncOp.enc, EncOp.run, Emits] using emits_write b
  | .list ops, h => by
    rw [EncOp.enc] at h
    have hlt := length_lt_encodeList (EncOp.encAll ops)
    simpa [EncOp.enc, EncOp.run, Emits] using (EncOp.emits_runAll ops (by omega)).list (by omega)

theorem EncOp.emits_runAll : ∀ ops : List EncOp, (EncOp.encAll ops).length < 2 ^ 64 →
    Emits (EncOp.runAll ops) (EncOp.encAll ops)
  | [], _ => by
    simpa [EncOp.encAll, EncOp.runAll, Emits] using emits_id
  | op :: ops, h => by
    rw [EncOp.encAll, length_append] at h
    simpa [EncOp.encAll, EncOp.runAll, Emits] using (op.emits_run (by omega)).comp
      (EncOp.emits_runAll ops (by omega))

end

/-! ## the reader -/

/-- A piece of data to be read: string data, or a part of the auxiliary buffer. -/
inductive Piece
  | str (b : Bytes)
  | header (low high : Nat)

/-- The piece without its first `n` bytes. -/
def Piece.skip (n : Nat) : Piece → Piece
  | .str b => .str (b.drop n)
  | .header low high => .header (low + n) high

/-- `encReader`, with the auxiliary buffer of its encoder buffer, which headers are written to. -/
structure EncReader where
  buf : Option EncBuffer
  lhpos : Nat
  strpos : Nat
  piece : Option Piece
  sizebuf : Bytes

namespace EncReader

/-- The reader that `EncodeToReader` returns. -/
def new (buf : EncBuffer) : EncReader := ⟨some buf, 0, 0, none, List.replicate 9 0⟩

/-- The bytes of a piece. -/
def data (r : EncReader) : Piece → Bytes
  | .str b => b
  | .header low high => (r.sizebuf.take high).drop low

/-- `next`: the next piece of data to be read, if there is one. -/
def next (r : EncReader) : Option Piece × EncReader :=
  match r.buf, r.piece with
  | none, _ => (none, r)
  | some _, some piece => (some piece, r)
  | some buf, none =>
    match buf.lheads[r.lhpos]? with
    | some head =>
      if head.offset - r.strpos > 0 then
        (some (.str ((buf.str.take head.offset).drop r.strpos)), { r with strpos := head.offset })
      else
        let enc := head.encode
        (some (.header 0 enc.length),
          { r with lhpos := r.lhpos + 1, sizebuf := enc ++ r.sizebuf.drop enc.length })
    | none =>
      if r.strpos < buf.str.length then
        (some (.str (buf.str.drop r.strpos)), { r with strpos := buf.str.length })
      else (none, r)

/-- The loop of `Read` with room for `n` bytes: the bytes that are read, and whether the end was
reached. -/
def readLoop : Nat → Nat → EncReader → Option ((Bytes × Bool) × EncReader)
  | 0, _, _ => none
  | fuel + 1, n, r =>
    match r.next with
    | (none, r) => some (([], true), { r with piece := none, buf := none })
    | (some piece, r) =>
      if n < (r.data piece).length then
        -- the piece does not fit, its rest is for the next call
        some (((r.data piece).take n, false), { r with piece := some (piece.skip n) })
      else
        match readLoop fuel (n - (r.data piece).length) { r with piece := none } with
        | none => none
        | some ((b, eof), r') => some ((r.data piece ++ b, eof), r')

/-- What is still to be read. -/
def pending (r : EncReader) : Bytes :=
  match r.buf with
  | none => []
  | some buf => r.piece.elim [] r.data ++ copyFrom r.strpos (buf.str.drop r.strpos)
    (buf.lheads.drop r.lhpos)

/-- `Read` into a buffer of `n` bytes.  No piece is empty, which bounds the iterations. -/
def read (n : Nat) (r : EncReader) :
    Option ((Bytes × Bool) × EncReader) := readLoop (r.pending.length + 1) n r

/-- Calls of `Read` with buffers of the given sizes: all bytes, and whether a call reached the end.
-/
def reads : List Nat → EncReader → Option (Bytes × Bool)
  | [], _ => some ([], false)
  | n :: sizes, r =>
    match r.read n with
    | none => none
    | some ((b, eof), r) =>
      match reads sizes r with
      | none => none
      | some (bs, eofs) => some (b ++ bs, eof || eofs)

/-- The headers to come are ahead in the string data, and no piece is empty. -/
def Ok (r : EncReader) : Prop :=
  ∀ buf, r.buf = some buf → Within r.strpos buf.str.length (buf.lheads.drop r.lhpos) ∧
    ∀ piece, r.piece = some piece → r.data piece ≠ []

variable {r r' : EncReader} {piece : Piece}

theorem data_skip (n : Nat) : r.data (piece.skip n) = (r.data piece).drop n := by
  cases piece with
  | str b => rfl
  | header low high => rw [Piece.skip, data, data, drop_drop]

theorem encode_ne_nil (head : ListHead) : head.encode ≠ [] := by
  unfold ListHead.encode puthead
  split <;> simp

theorem ok_at {buf : EncBuffer} {lhpos strpos : Nat} {sizebuf : Bytes}
    (hw : Within strpos buf.str.length (buf.lheads.drop lhpos)) :
    Ok ⟨some buf, lhpos, strpos, none, sizebuf⟩ := by
  intro buf' hbuf
  cases hbuf
  exact ⟨hw, by simp⟩

/-- **What `next` returns** is the front of what is still to be read. -/
theorem Ok.next_some (h : r.Ok) (hnext : r.next = (some piece, r')) :
    r'.data piece ≠ [] ∧ r.pending = r'.data piece ++ { r' with piece := none }.pending ∧
      { r' with piece := none }.Ok ∧ r'.buf ≠ none := by
  obtain ⟨buf, lhpos, strpos, p, sizebuf⟩ := r
  cases buf with
  | none => cases hnext
  | some buf =>
    obtain ⟨hw, hne⟩ := h buf rfl
    cases p with
    | some p =>
      cases hnext
      exact ⟨hne _ rfl, rfl, ok_at hw, by simp⟩
    | none =>
      simp only [next] at hnext
      cases hhead : buf.lheads[lhpos]? with
      | none =>
        have hnil : buf.lheads.drop lhpos = [] :=
          drop_eq_nil_iff.mpr (getElem?_eq_none_iff.mp hhead)
        simp only [hhead] at hnext
        split at hnext
        · next hlt =>
          cases hnext
          exact ⟨by simp [data, hlt], by simp [pending, hnil, data, copyFrom],
            ok_at (by simp [hnil, Within]), by simp⟩
        · cases hnext
      | some head =>
        have hcons : buf.lheads.drop lhpos = head :: buf.lheads.drop (lhpos + 1) := by
          obtain ⟨hlt, rfl⟩ := List.getElem?_eq_some_iff.mp hhead
          exact drop_eq_getElem_cons hlt
        simp only [hcons] at hw
        obtain ⟨hle, hrest⟩ := hw
        have hlen := hrest.le
        simp only [hhead] at hnext
        split at hnext
        · next hlt =>
          cases hnext
          refine ⟨?_, ?_, ok_at (by rw [hcons]; exact ⟨le_refl _, hrest⟩), by simp⟩
          · rw [data, ← length_pos_iff, length_drop, length_take]
            omega
          · simp [pending, hcons, data, copyFrom, Nat.add_sub_cancel' hle, drop_take]
        · next hge =>
          cases hnext
          have hoff : head.offset = strpos := by omega
          exact ⟨by simp [data, encode_ne_nil], by simp [pending, hcons, data, copyFrom, hoff],
            ok_at (by rw [← hoff]; exact hrest), by simp⟩

theorem next_none (hnext : r.next = (none, r')) : r.pending = [] := by
  obtain ⟨buf, lhpos, strpos, p, sizebuf⟩ := r
  cases buf with
  | none => rfl
  | some buf =>
    cases p with
    | some p => cases hnext
    | none =>
      simp only [next] at hnext
      cases hhead : buf.lheads[lhpos]? with
      | none =>
        simp only [hhead] at hnext
        split at hnext
        · cases hnext
        · next hge =>
          simp [pending, copyFrom, drop_eq_nil_iff.mpr (getElem?_eq_none_iff.mp hhead),
            not_lt.mp hge]
      | some head =>
        simp only [hhead] at hnext
        split at hnext <;> cases hnext

/-- **The loop of `Read`** fills the buffer with what is still to be read, and reports the end if
nothing is left. -/
theorem Ok.readLoop {fuel : Nat} (n : Nat) (h : r.Ok) (hfuel : r.pending.length < fuel) :
    ∃ r', readLoop fuel n r = some ((r.pending.take n, decide (r.pending.length ≤ n)), r') ∧ r'.Ok ∧
      r'.pending = r.pending.drop n := by
  induction fuel generalizing n r with
  | zero => exact absurd hfuel (Nat.not_lt_zero _)
  | succ fuel ih =>
    rw [EncReader.readLoop]
    rcases hnext : r.next with ⟨_ | piece, r1⟩
    · rw [next_none hnext]
      exact ⟨⟨none, r1.lhpos, r1.strpos, none, r1.sizebuf⟩, by simp,
        (fun _ hbuf => by cases hbuf), by simp [pending]⟩
    · obtain ⟨hne, hpend, hok, hbuf⟩ := h.next_some hnext
      have hpos := length_pos_iff.mpr hne
      rw [hpend, length_append] at hfuel ⊢
      dsimp only
      split
      · next hlt =>
        refine ⟨{ r1 with piece := some (piece.skip n) }, ?_, ?_, ?_⟩
        · rw [take_append_of_le_length hlt.le, decide_eq_false (by omega)]
        · refine fun buf hbuf => ⟨(hok buf hbuf).1, fun p hp => ?_⟩
          cases hp
          rw [data_skip, ← length_pos_iff, length_drop]
          exact Nat.sub_pos_of_lt hlt
        · cases hb : r1.buf with
          | none => exact absurd hb hbuf
          | some buf =>
            rw [drop_append_of_le_length hlt.le]
            simp only [pending, elim_some, elim_none, nil_append, data_skip]
            rfl
      · next hge =>
        obtain ⟨r2, hread, hok2, hpend2⟩ := ih (n - (r1.data piece).length) hok (by omega)
        refine ⟨r2, ?_, hok2, ?_⟩
        · rw [hread, take_append, take_of_length_le (not_lt.mp hge)]
          simp only [some.injEq, Prod.mk.injEq, decide_eq_decide, and_true, true_and]
          omega
        · rw [hpend2, drop_append, drop_of_length_le (not_lt.mp hge), nil_append]

/-- **All calls of `Read` together** read off what is still to be read. -/
theorem Ok.reads (h : r.Ok) {sizes : List Nat} (hsizes : sizes ≠ []) :
    r.reads sizes = some (r.pending.take sizes.sum, decide (r.pending.length ≤ sizes.sum)) := by
  induction sizes generalizing r with
  | nil => exact absurd rfl hsizes
  | cons n sizes ih =>
    obtain ⟨r1, hread, hok, hpend⟩ := h.readLoop n (Nat.lt_succ_self _)
    have hread : r.read n = _ := hread
    rw [EncReader.reads, hread]
    dsimp only
    by_cases hnil : sizes = []
    · subst hnil
      simp [EncReader.reads]
    · rw [ih hok hnil, hpend, sum_cons, take_add]
      simp only [length_drop, ← Bool.decide_or, some.injEq, Prod.mk.injEq,
        decide_eq_decide, true_and]
      omega

end EncReader

/-- **Deferred list headers:** for every well-bracketed sequence of operations, `copyTo`,
`makeBytes`, `writeTo` and the reader, with any sequence of buffer sizes, produce the recursive
encoding of what was written, and `size` is its length. -/
theorem encodings_agree (ops : List EncOp) (hfits : (EncOp.encAll ops).length < 2 ^ 63) :
    (EncOp.runAll ops .empty).copyTo = EncOp.encAll ops ∧
    (EncOp.runAll ops .empty).makeBytes = EncOp.encAll ops ∧
    (EncOp.runAll ops .empty).writeTo = EncOp.encAll ops ∧
    (EncOp.runAll ops .empty).size = (EncOp.encAll ops).length ∧
    ∀ sizes : List Nat, sizes ≠ [] → (EncReader.new (EncOp.runAll ops .empty)).reads sizes =
      some ((EncOp.encAll ops).take sizes.sum, decide ((EncOp.encAll ops).length ≤ sizes.sum)) := by
  have hemits := EncOp.emits_runAll ops (by omega)
  obtain ⟨str, heads, n, hrun, hw, hcopy, hlen⟩ := hemits EncBuffer.empty
  have hmake := hemits.makeBytes
  simp only [EncBuffer.empty, nil_append, length_nil, Nat.zero_add] at hrun hw hcopy hlen
  simp only [EncBuffer.empty, hrun] at hmake ⊢
  refine ⟨hcopy, hmake, (writeFrom_eq 0 str heads).trans hcopy, hlen.symm, fun sizes hsizes => ?_⟩
  have hok : (EncReader.new ⟨str, heads, n⟩).Ok := EncReader.ok_at hw
  rw [hok.reads hsizes]
  have hpend : (EncReader.new ⟨str, heads, n⟩).pending = EncOp.encAll ops := hcopy
  rw [hpend]

/-- A list of a string and an empty list behind a number, read one and two bytes at a time. -/
theorem encodings_agree_sample :
    (EncReader.new (EncOp.runAll [.writeUint64 5,
      .list [.writeBytes [0x64], .list []]] .empty)).reads [1, 2, 2] =
      some ([0x05, 0xC2, 0x64, 0xC0], true) :=
  ((encodings_agree [.writeUint64 5, .list [.writeBytes [0x64], .list []]]
    (by decide +kernel)).2.2.2.2
    [1, 2, 2] (by simp)).trans (by decide +kernel)

end GoQrl.Rlp
