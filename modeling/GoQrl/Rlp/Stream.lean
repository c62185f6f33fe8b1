import GoQrl.Rlp.Raw
import Mathlib.Data.UInt

/-!
# GoQrl.Rlp.Stream

The streaming RLP decoder of `rlp/decode.go`, reading from a byte slice.

A stream keeps the kind and size of the value ahead, the sizes left in the lists
it is in, and the number of bytes left in the input.  The sizes are `uint64`, and
the size of a list is taken off the size left in the list around it *before* it is
known to fit, so that this subtraction may wrap.
-/

namespace GoQrl.Rlp

/-- `Stream`.  The innermost list is the first of the stack; no kind is `-1`.  The
auxiliary buffer for integers is left out, since nothing is read from it that was
not written in the same call. -/
structure Stream where
  r : Bytes
  remaining : UInt64
  size : UInt64
  kinderr : Option RlpError
  stack : List UInt64
  kind : Option Kind
  byteval : UInt8
  limited : Bool

/-- A call on a stream. -/
abbrev StreamM (α : Type) := Stream → Except RlpError α × Stream

namespace Stream

/-- `Stream.Reset` for a byte slice. -/
def reset (r : Bytes) (inputLimit : UInt64) : Stream :=
  ⟨r, inputLimit, 0, none, [], none, 0, decide (inputLimit > 0)⟩

/-! ## reading -/

/-- The part of `willRead` that checks the input limit. -/
def takeRemaining (n : UInt64) : StreamM Unit := fun s =>
  if s.limited then
    if n > s.remaining then (.error .valueTooLarge, s)
    else (.ok (), { s with remaining := s.remaining - n })
  else (.ok (), s)

/-- `willRead`: checks `n` against the limits and updates them. -/
def willRead (n : UInt64) : StreamM Unit := fun s =>
  match s.stack with
  | [] => takeRemaining n { s with kind := none }
  | limit :: rest =>
    if n > limit then (.error .elemTooLarge, { s with kind := none })
    else takeRemaining n { s with kind := none, stack := (limit - n) :: rest }

/-- `readByte`. -/
def readByte : StreamM UInt8 := fun s =>
  match willRead 1 s with
  | (.error e, s) => (.error e, s)
  | (.ok (), s) =>
    match s.r with
    | [] => (.error .unexpectedEOF, s)
    | b :: rest => (.ok b, { s with r := rest })

/-- `readFull` into a buffer of `n` bytes. -/
def readFull (n : Nat) : StreamM Bytes := fun s =>
  match willRead (UInt64.ofNat n) s with
  | (.error e, s) => (.error e, s)
  | (.ok (), s) =>
    if s.r.length < n then (.error .unexpectedEOF, { s with r := [] })
    else (.ok (s.r.take n), { s with r := s.r.drop n })

/-- `readUint`: at most eight bytes, big endian, without a leading zero if there are
more than one. -/
def readUint (size : Nat) : StreamM UInt64 := fun s =>
  match size with
  | 0 => (.ok 0, { s with kind := none })
  | 1 =>
    match readByte s with
    | (.error e, s) => (.error e, s)
    | (.ok b, s) => (.ok b.toUInt64, s)
  | size =>
    match readFull size s with
    | (.error e, s) => (.error e, s)
    | (.ok buffer, s) =>
      if buffer.head? = some 0 then (.error .canonSize, s)
      else (.ok (UInt64.ofNat (beNat buffer)), s)

/-- The size field of a long header. -/
def readSizeField (k : Kind) (size : Nat) : StreamM (Kind × UInt64) := fun s =>
  match readUint size s with
  | (.error e, s) => (.error e, s)
  | (.ok size, s) => if size < 56 then (.error .canonSize, s) else (.ok (k, size), s)

/-- At top level a missing tag is the end of the input. -/
def topLevelError (stack : List UInt64) (e : RlpError) : RlpError :=
  match stack, e with
  | [], .unexpectedEOF => .eof
  | [], .valueTooLarge => .eof
  | _, e => e

/-- `readKind`. -/
def readKind : StreamM (Kind × UInt64) := fun s =>
  match readByte s with
  | (.error e, s) => (.error (topLevelError s.stack e), s)
  | (.ok b, s) =>
    let s := { s with byteval := 0 }
    if b < 0x80 then (.ok (.byte, 0), { s with byteval := b })
    else if b < 0xB8 then (.ok (.string, (b - 0x80).toUInt64), s)
    else if b < 0xC0 then readSizeField .string (b - 0xB7).toNat s
    else if b < 0xF8 then (.ok (.list, (b - 0xC0).toUInt64), s)
    else readSizeField .list (b - 0xF7).toNat s

/-- The check of the size ahead in `Kind`, against the limit of the list before the
tag was read. -/
def sizeError (listLimit : Option UInt64) (size : UInt64) (s : Stream) : Option RlpError :=
  if listLimit.any (size > ·) then some .elemTooLarge
  else if s.limited ∧ size > s.remaining then some .valueTooLarge
  else none

/-- `Kind`: the kind and size of the next value, which are kept until it is read.  A
failed `readKind` leaves kind `0`, or that of the header whose size is wrong; with an
error kept, only the error is looked at. -/
def kindAhead : StreamM (Kind × UInt64) := fun s =>
  match s.kind with
  | some k =>
    match s.kinderr with
    | none => (.ok (k, s.size), s)
    | some e => (.error e, s)
  | none =>
    if s.stack.head? = some 0 then (.error .eol, s)
    else
      match readKind s with
      | (.error e, s') => (.error e, { s' with kind := some .byte, size := 0, kinderr := some e })
      | (.ok (k, size), s') =>
        match sizeError s.stack.head? size s' with
        | none => (.ok (k, size), { s' with kind := some k, size := size, kinderr := none })
        | some e => (.error e, { s' with kind := some k, size := size, kinderr := some e })

/-- `Bytes`. -/
def bytes : StreamM Bytes := fun s =>
  match kindAhead s with
  | (.error e, s) => (.error e, s)
  | (.ok (.byte, _), s) => (.ok [s.byteval], { s with kind := none })
  | (.ok (.string, size), s) =>
    match readFull size.toNat s with
    | (.error e, s) => (.error e, s)
    | (.ok b, s) =>
      if size = 1 ∧ b.head?.any (· < 128) then (.error .canonSize, s) else (.ok b, s)
  | (.ok (.list, _), s) => (.error .expectedString, s)

/-- `List`: enters a list. -/
def list : StreamM UInt64 := fun s =>
  match kindAhead s with
  | (.error e, s) => (.error e, s)
  | (.ok (.list, size), s) =>
    -- the size may exceed what is left after the header
    let stack := match s.stack with
      | [] => []
      | limit :: rest => (limit - size) :: rest
    (.ok size, { s with stack := size :: stack, kind := none, size := 0 })
  | (.ok (_, _), s) => (.error .expectedList, s)

/-- `ListEnd`: returns to the enclosing list. -/
def listEnd : StreamM Unit := fun s =>
  match s.stack with
  | [] => (.error .notInList, s)
  | limit :: rest =>
    if limit > 0 then (.error .notAtEOL, s)
    else (.ok (), { s with stack := rest, kind := none, size := 0 })

end Stream

/-! ## decoders -/

/-- `wrapStreamError`. -/
def wrapStreamError (typ : String) : RlpError → RlpError
  | .canonInt => .decode "non-canonical integer (leading zero bytes)" typ []
  | .canonSize => .decode "non-canonical size information" typ []
  | .expectedList => .decode "expected input list" typ []
  | .expectedString => .decode "expected input string or byte" typ []
  | .uintOverflow => .decode "input string too long" typ []
  | .notAtEOL => .decode "input list has too many elements" typ []
  | e => e

/-- `addErrorContext`. -/
def addErrorContext (ctx : String) : RlpError → RlpError
  | .decode msg typ ctxs => .decode msg typ (ctxs ++ [ctx])
  | e => e

/-- The loop of `decodeSliceElems` from index `i` on. -/
def decodeSliceElems {α : Type} (elemdec : StreamM α) : Nat → Nat → StreamM (List α)
  | 0, _, s => (.error .outOfFuel, s)
  | fuel + 1, i, s =>
    match elemdec s with
    | (.error .eol, s) => (.ok [], s)
    | (.error e, s) => (.error (addErrorContext s!"[{i}]" e), s)
    | (.ok a, s) =>
      match decodeSliceElems elemdec fuel (i + 1) s with
      | (.error e, s) => (.error e, s)
      | (.ok as, s) => (.ok (a :: as), s)

/-- `decodeListSlice`. -/
def decodeListSlice {α : Type} (typ : String) (elemdec : StreamM α) (fuel : Nat) :
    StreamM (List α) :=
  fun s =>
    match s.list with
    | (.error e, s) => (.error (wrapStreamError typ e), s)
    | (.ok size, s) =>
      if size = 0 then
        match s.listEnd with
        | (.error e, s) => (.error e, s)
        | (.ok (), s) => (.ok [], s)
      else
        match decodeSliceElems elemdec fuel 0 s with
        | (.error e, s) => (.error e, s)
        | (.ok as, s) =>
          match s.listEnd with
          | (.error e, s) => (.error e, s)
          | (.ok (), s) => (.ok as, s)

/-- What `Decode` adds to the context of an error: the type of the target. -/
def addErrorTarget (typ : String) : RlpError → RlpError
  | .decode msg t (ctx :: ctxs) => .decode msg t (ctx :: ctxs ++ ["(" ++ typ ++ ")"])
  | e => e

/-- `DecodeBytes` with the decoder of a type. -/
def decodeBytes {α : Type} (typ : String) (dec : StreamM α) (b : Bytes) : Except RlpError α :=
  match dec (.reset b (UInt64.ofNat b.length)) with
  | (.error e, _) => .error (addErrorTarget typ e)
  | (.ok a, s) => if s.r.length > 0 then .error .moreThanOneValue else .ok a

end GoQrl.Rlp
