import GoQrl.Rlp.Raw
import GoQrl.Trie.Encoding
import Mathlib.Data.List.FinRange

/-!
# GoQrl.Trie.Node

Trie nodes (`trie/node.go`) and their RLP form (`trie/node_enc.go`).

The source uses one set of Go types for two things: live nodes with hex keys,
and *collapsed* nodes with compact keys that exist only to be encoded.  Here
they are two types, `Node` and `Collapsed`.  A Go `nil` node is the constructor
`nil`.

The hash function is a parameter (`Keccak`): it is `golang.org/x/crypto/sha3`.
-/

namespace GoQrl.Mpt

open Rlp

/-- `crypto.Keccak256`, the hash of the trie. -/
class Keccak where
  hash : Bytes → Hash

/-- A digest for worked examples that keeps strings of up to 31 bytes apart. -/
def sampleHash (b : Bytes) : Hash :=
  if h : b.length ≤ 31 then
    ⟨b ++ List.replicate (31 - b.length) 0 ++ [byte (b.length + 1)], by simp; omega⟩
  else ⟨List.replicate 32 0xff, by simp⟩

@[reducible] def Keccak.sample : Keccak := ⟨sampleHash⟩

/-- A digest for worked examples that also keeps strings of 32 bytes apart from each other. -/
@[reducible] def Keccak.wide : Keccak := ⟨fun b => if h : b.length = 32 then ⟨b, h⟩ else sampleHash b⟩

theorem Keccak.wide_hash (b : Bytes) :
    @Keccak.hash Keccak.wide b = if h : b.length = 32 then ⟨b, h⟩ else sampleHash b := rfl

theorem sampleHash_of_le {b : Bytes} (h : b.length ≤ 31) :
    (sampleHash b).bytes = b ++ List.replicate (31 - b.length) 0 ++ [byte (b.length + 1)] := by
  rw [sampleHash, dif_pos h]

theorem sampleHash_of_lt {b : Bytes} (h : 31 < b.length) :
    (sampleHash b).bytes = List.replicate 32 0xff := by
  rw [sampleHash, dif_neg (not_le.mpr h)]

/-- Hashes that are no digests, by their last byte. -/
theorem sampleHash_ne (b : Bytes) {h : Hash} {x : UInt8} (hx : h.bytes.getLast? = some x)
    (h0 : x.toNat = 0 ∨ x.toNat = 33) : sampleHash b ≠ h := by
  rintro rfl
  by_cases hlen : b.length ≤ 31
  · rw [sampleHash_of_le hlen, List.getLast?_concat] at hx
    rw [← Option.some.inj hx, toNat_byte] at h0
    omega
  · rw [sampleHash_of_lt (Nat.lt_of_not_le hlen)] at hx
    rw [← Option.some.inj hx] at h0
    revert h0
    decide

/-- `nodeFlag`: the cached hash and whether the node must be written. -/
structure NodeFlag where
  hash : Option Hash
  dirty : Bool
  deriving DecidableEq

/-- A live trie node. -/
inductive Node
  | nil
  | full (children : Nibble → Node) (flags : NodeFlag)
  | short (key : Hex) (val : Node) (flags : NodeFlag)
  | hash (h : Hash)
  | value (v : Bytes)

namespace Node

/-- `node.cache`. -/
def cache : Node → Option Hash × Bool
  | full _ flags => (flags.hash, flags.dirty)
  | short _ _ flags => (flags.hash, flags.dirty)
  | _ => (none, true)

/-- `n == nil`. -/
def isNil : Node → Bool
  | nil => true
  | _ => false

@[simp] theorem isNil_iff {n : Node} : n.isNil = true ↔ n = nil := by
  cases n <;> simp [isNil]

/-- The node's children with the one at `i` replaced. -/
def setChild (children : Nibble → Node) (i : Nibble) (n : Node) : Nibble → Node :=
  Function.update children i n

end Node

/-- A node in the form in which it is encoded: compact keys, and children that
are hashes, values, embedded nodes or pre-encoded bytes (`rawNode`). -/
inductive Collapsed
  | nil
  | full (children : Nibble → Collapsed)
  | short (key : Bytes) (val : Collapsed)
  | hash (h : Hash)
  | value (v : Bytes)
  | raw (b : Bytes)

namespace Collapsed

/-- `node.encode`: `fullNode`, `shortNode`, `hashNode`, `valueNode`, `rawNode`,
and `rlp.EmptyString` for a missing child. -/
def encode : Collapsed → EncBuffer → EncBuffer
  | nil, w => w.write [0x80]
  | full children, w =>
    let (offset, w) := w.list
    ((List.finRange 17).foldl (fun w i => (children i).encode w) w).listEnd offset
  | short key val, w =>
    let (offset, w) := w.list
    (val.encode (w.writeBytes key)).listEnd offset
  | hash h, w => w.writeBytes h.bytes
  | value v, w => w.writeBytes v
  | raw b, w => w.write b

/-- `nodeToBytes`. -/
def nodeToBytes (n : Collapsed) : Bytes := (n.encode EncBuffer.empty).makeBytes

/-- The encoding without its buffer. -/
def bytes : Collapsed → Bytes
  | nil => [0x80]
  | full children => encodeList ((List.finRange 17).flatMap fun i => (children i).bytes)
  | short key val => encodeList (encodeString key ++ val.bytes)
  | hash h => encodeString h.bytes
  | value v => encodeString v
  | raw b => b

/-- Every list payload of the encoding fits into a `uint64` size field. -/
def Small : Collapsed → Prop
  | full children => (∀ i, (children i).Small) ∧
      ((List.finRange 17).flatMap fun i => (children i).bytes).length < 2 ^ 64
  | short key val => val.Small ∧ (encodeString key ++ val.bytes).length < 2 ^ 64
  | _ => True

theorem emits_foldl {ι : Type} (f : ι → EncBuffer → EncBuffer) (p : ι → Bytes) (l : List ι)
    (h : ∀ i, Emits (f i) (p i)) : Emits (fun w => l.foldl (fun w i => f i w) w) (l.flatMap p) := by
  induction l with
  | nil => exact emits_id
  | cons i l ih => exact (h i).comp ih

/-- The encoder writes exactly `bytes`. -/
theorem emits_encode {n : Collapsed} (h : n.Small) : Emits n.encode n.bytes := by
  induction n with
  | nil => exact emits_write _
  | full children ih =>
    have hpay := emits_foldl (fun i => (children i).encode) (fun i => (children i).bytes)
      (List.finRange 17) (fun i => ih i (h.1 i))
    exact hpay.list h.2
  | short key val ih => exact ((emits_writeBytes key).comp (ih h.1)).list h.2
  | hash | value => exact emits_writeBytes _
  | raw b => exact emits_write _

theorem nodeToBytes_eq {n : Collapsed} (h : n.Small) : n.nodeToBytes = n.bytes :=
  (emits_encode h).makeBytes

end Collapsed

/-! ## decoding -/

/-- The errors of `decodeNode`, with the messages of the source. -/
inductive DecodeError
  /-- `io.ErrUnexpectedEOF`, for an empty buffer. -/
  | unexpectedEOF
  /-- "decode error: %v" -/
  | notList (e : RlpError)
  /-- "invalid number of list elements: %v" -/
  | count (c : Nat)
  /-- "invalid value node: %v" -/
  | value (e : RlpError)
  /-- an error of the RLP parser, as it is -/
  | rlp (e : RlpError)
  /-- "oversized embedded node (size is %d bytes, want size < %d)" -/
  | oversized (size : Nat)
  /-- "invalid RLP string size %d (want 0 or 32)" -/
  | stringSize (size : Nat)
  /-- "%v (decode path: %s)": the path to the invalid child, innermost first. -/
  | at (what : DecodeError) (stack : List String)
  /-- The evaluation budget of the model is used up; not an error of the source. -/
  | outOfFuel

/-- `wrapError`. -/
def wrapError (err : DecodeError) (ctx : String) : DecodeError :=
  match err with
  | .at what stack => .at what (stack ++ [ctx])
  | err => .at err [ctx]

/-- `decodeRef`: a child reference.  `decode` is `decodeNode(nil, _)` for an
embedded child. -/
def decodeRef (decode : Bytes → Except DecodeError Node) (buf : Bytes) :
    Except DecodeError (Node × Bytes) :=
  match split buf with
  | .error e => .error (.rlp e)
  | .ok (.list, _, rest) =>
    -- the encoding of an embedded node must be smaller than a hash
    if buf.length - rest.length > 32 then .error (.oversized (buf.length - rest.length))
    else
      match decode buf with
      | .error e => .error e
      | .ok n => .ok (n, rest)
  | .ok (.byte, val, _) => .error (.stringSize val.length)
  | .ok (.string, val, rest) =>
    if val.length = 0 then .ok (.nil, rest)
    else if h : val.length = 32 then .ok (.hash ⟨val, h⟩, rest)
    else .error (.stringSize val.length)

/-- `decodeShort`. -/
def decodeShort (decode : Bytes → Except DecodeError Node) (hash : Option Hash) (elems : Bytes) :
    Except DecodeError Node :=
  match splitString elems with
  | .error e => .error (.rlp e)
  | .ok (kbuf, rest) =>
    let key := compactToHex kbuf
    if hasTerm key then
      match splitString rest with
      | .error e => .error (.value e)
      | .ok (val, _) => .ok (.short key (.value val) ⟨hash, false⟩)
    else
      match decodeRef decode rest with
      | .error e => .error (wrapError e "val")
      | .ok (r, _) => .ok (.short key r ⟨hash, false⟩)

/-- The loop of `decodeFull` over the first sixteen children: `i` is the index
of the next one and `n` the number that is left. -/
def decodeChildren (decode : Bytes → Except DecodeError Node) :
    Nat → Nat → Bytes → Except DecodeError (List Node × Bytes)
  | _, 0, elems => .ok ([], elems)
  | i, n + 1, elems =>
    match decodeRef decode elems with
    | .error e => .error (wrapError e ("[" ++ toString i ++ "]"))
    | .ok (cld, rest) =>
      match decodeChildren decode (i + 1) n rest with
      | .error e => .error e
      | .ok (clds, rest) => .ok (cld :: clds, rest)

/-- `decodeFull`. -/
def decodeFull (decode : Bytes → Except DecodeError Node) (hash : Option Hash) (elems : Bytes) :
    Except DecodeError Node :=
  match decodeChildren decode 0 16 elems with
  | .error e => .error e
  | .ok (clds, rest) =>
    match splitString rest with
    | .error e => .error (.rlp e)
    | .ok (val, _) =>
      let last := if val.length > 0 then Node.value val else Node.nil
      .ok (.full (fun i => if i = term then last else clds.getD i.val .nil) ⟨hash, false⟩)

/-- `decodeNodeUnsafe`, with a bound on the nesting of embedded nodes. -/
def decodeNodeFuel : Nat → Option Hash → Bytes → Except DecodeError Node
  | 0, _, _ => .error .outOfFuel
  | fuel + 1, hash, buf =>
    if buf.length = 0 then .error .unexpectedEOF
    else
      match splitList buf with
      | .error e => .error (.notList e)
      | .ok (elems, _) =>
        -- an error of CountValues counts as zero elements
        match (countValues elems).toOption.getD 0 with
        | 2 =>
          match decodeShort (decodeNodeFuel fuel none) hash elems with
          | .error e => .error (wrapError e "short")
          | .ok n => .ok n
        | 17 =>
          match decodeFull (decodeNodeFuel fuel none) hash elems with
          | .error e => .error (wrapError e "full")
          | .ok n => .ok n
        | c => .error (.count c)

/-- `decodeNode`.  An embedded node is shorter than the list around it, so the
length of the buffer bounds the nesting. -/
def decodeNode (hash : Option Hash) (buf : Bytes) : Except DecodeError Node :=
  decodeNodeFuel (buf.length + 1) hash buf

end GoQrl.Mpt
