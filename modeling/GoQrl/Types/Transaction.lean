import GoQrl.Rlp.Write
import GoQrl.Trie.Node

/-!
# GoQrl.Types.Transaction

Transactions and their codec, `core/types/transaction.go` and
`core/types/tx_dynamic_fee.go`.

A typed transaction is the type byte followed by the RLP list of the fields.  The binary
form is canonical: `UnmarshalBinary` accepts exactly what `MarshalBinary` writes, so that
size and hash of a decoded transaction are those of the input (`transaction_codec`).
-/

namespace GoQrl.Types

open Rlp Mpt

/-! ## transaction data -/

/-- `AccessTuple`. -/
structure AccessTuple where
  address : Address
  storageKeys : List Hash
  deriving DecidableEq

/-- `DynamicFeeTx`.  A nil pointer is `none`; a nil slice is the empty one. -/
structure DynamicFeeTx where
  chainID : Option Int
  nonce : UInt64
  gasTipCap : Option Int
  gasFeeCap : Option Int
  gas : UInt64
  /-- The field `To`. -/
  recipient : Option Address
  value : Option Int
  data : Bytes
  accessList : List AccessTuple
  descriptor : Fixed 3
  extraParams : Bytes
  signature : Bytes
  publicKey : Bytes
  deriving DecidableEq

/-- The length of an ML-DSA-87 public key. -/
def mldsa87PublicKeyLength : Nat := 2592

/-- The length of an ML-DSA-87 signature. -/
def mldsa87SignatureLength : Nat := 4627

/-- `DynamicFeeTx.copy`: all pointers are set, and the public key and the signature have
the lengths of the scheme. -/
def DynamicFeeTx.copy (tx : DynamicFeeTx) : DynamicFeeTx :=
  { tx with
    value := some (tx.value.getD 0)
    chainID := some (tx.chainID.getD 0)
    gasTipCap := some (tx.gasTipCap.getD 0)
    gasFeeCap := some (tx.gasFeeCap.getD 0)
    publicKey := (Fixed.ofBytes mldsa87PublicKeyLength tx.publicKey).val
    signature := (Fixed.ofBytes mldsa87SignatureLength tx.signature).val }

/-! ### RLP -/

/-- A hash as a byte array. -/
def hashArray (h : Hash) : Fixed 32 := ⟨h.bytes, h.length_eq⟩

/-- The writer of `common.Hash`. -/
def writeHash (h : Hash) : Writer := fun buf => .ok (buf.writeByteArray (hashArray h))

/-- The writer of an access tuple. -/
def AccessTuple.write (tuple : AccessTuple) : Writer :=
  writeStruct [fun buf => .ok (buf.writeByteArray tuple.address),
    writeSlice (tuple.storageKeys.map writeHash)]

/-- The writer of a dynamic fee transaction. -/
def DynamicFeeTx.write (tx : DynamicFeeTx) : Writer :=
  writeStruct [
    writeBigIntPtr tx.chainID,
    fun buf => .ok (buf.writeUint64 tx.nonce.toNat),
    writeBigIntPtr tx.gasTipCap,
    writeBigIntPtr tx.gasFeeCap,
    fun buf => .ok (buf.writeUint64 tx.gas.toNat),
    writeNilPtr (fun a => EncBuffer.writeByteArray a) tx.recipient,
    writeBigIntPtr tx.value,
    fun buf => .ok (buf.writeBytes tx.data),
    writeSlice (tx.accessList.map AccessTuple.write),
    fun buf => .ok (buf.writeByteArray tx.descriptor),
    fun buf => .ok (buf.writeBytes tx.extraParams),
    fun buf => .ok (buf.writeBytes tx.signature),
    fun buf => .ok (buf.writeBytes tx.publicKey)]

/-- The decoder of `common.Hash`. -/
def decodeHash : StreamM Hash :=
  mapDecoder Fixed.toHash (decodeByteArray "common.Hash" 32)

/-- The decoder of an access tuple. -/
def decodeAccessTuple (fuel : Nat) : StreamM AccessTuple :=
  mapDecoder (fun p => ⟨p.1, p.2.1⟩) <| decodeStruct "types.AccessTuple" <|
    decodeField "types.AccessTuple" "Address" (decodeByteArray "common.Address" 20) <|
    decodeField "types.AccessTuple" "StorageKeys" (decodeListSlice "[]common.Hash" decodeHash fuel)
    decodeNoField

/-- The values of the fields that can be decoded. -/
abbrev TxFields := Nat × UInt64 × Nat × Nat × UInt64 × Option Address × Nat × Bytes ×
  List AccessTuple × Fixed 3 × Bytes × Bytes × Bytes × Unit

/-- The transaction with these fields. -/
def DynamicFeeTx.ofFields : TxFields → DynamicFeeTx
  | (chainID, nonce, gasTipCap, gasFeeCap, gas, recipient, value, data, accessList, descriptor,
      extraParams, signature, publicKey, ()) =>
    { chainID := some chainID, gasTipCap := some gasTipCap, gasFeeCap := some gasFeeCap,
      value := some value, nonce, gas, recipient, data, accessList, descriptor, extraParams,
      signature, publicKey }

/-- The fields of a dynamic fee transaction, in the order of the struct. -/
def decodeTxFields (fuel : Nat) : StreamM TxFields :=
  let typ := "types.DynamicFeeTx"
  decodeField typ "ChainID" decodeBigInt <|
  decodeField typ "Nonce" decodeUint64 <|
  decodeField typ "GasTipCap" decodeBigInt <|
  decodeField typ "GasFeeCap" decodeBigInt <|
  decodeField typ "Gas" decodeUint64 <|
  decodeField typ "To"
    (decodeNilPtr "*common.Address" .string (decodeByteArray "common.Address" 20)) <|
  decodeField typ "Value" decodeBigInt <|
  decodeField typ "Data" decodeByteSlice <|
  decodeField typ "AccessList" (decodeListSlice "types.AccessList" (decodeAccessTuple fuel) fuel) <|
  decodeField typ "Descriptor" (decodeByteArray "[3]uint8" 3) <|
  decodeField typ "ExtraParams" decodeByteSlice <|
  decodeField typ "Signature" decodeByteSlice <|
  decodeField typ "PublicKey" decodeByteSlice
  decodeNoField

/-- `DynamicFeeTx.decode`. -/
def DynamicFeeTx.decode (input : Bytes) : Except RlpError DynamicFeeTx :=
  decodeBytes "types.DynamicFeeTx"
    (mapDecoder DynamicFeeTx.ofFields
      (decodeStruct "types.DynamicFeeTx" (decodeTxFields (input.length + 1)))) input

/-! ## transactions -/

/-- `Transaction`: the contents and the cached hash and size.  The time and the cached
sender do not take part in the codec. -/
structure Transaction where
  inner : Option DynamicFeeTx
  hashCache : Option Hash
  sizeCache : Option UInt64

/-- `new(Transaction)`. -/
def Transaction.zero : Transaction := ⟨none, none, none⟩

/-- `DynamicFeeTxType`. -/
def dynamicFeeTxType : UInt8 := 0x02

/-- `errShortTypedTx`. -/
def errShortTypedTx : RlpError := .other "typed transaction too short"

/-- `ErrTxTypeNotSupported`. -/
def errTxTypeNotSupported : RlpError := .other "transaction type not supported"

/-- A call on a transaction without contents panics. -/
def errNilDereference : RlpError := .other "nil pointer dereference"

/-- `setDecoded`. -/
def Transaction.setDecoded (tx : Transaction) (inner : DynamicFeeTx) (size : UInt64) :
    Transaction :=
  { tx with inner := some inner, sizeCache := if size > 0 then some size else tx.sizeCache }

/-- `NewTx`. -/
def newTx (inner : DynamicFeeTx) : Transaction := Transaction.zero.setDecoded inner.copy 0

/-- `encodeTyped`. -/
def Transaction.encodeTyped (tx : Transaction) : Except RlpError Bytes :=
  match tx.inner with
  | none => .error errNilDereference
  | some inner =>
    match encode inner.write with
    | .error e => .error e
    | .ok b => .ok (dynamicFeeTxType :: b)

/-- `MarshalBinary`. -/
def Transaction.marshalBinary (tx : Transaction) : Except RlpError Bytes := tx.encodeTyped

/-- `EncodeRLP`. -/
def Transaction.encodeRLP (tx : Transaction) : Writer := fun buf =>
  match tx.encodeTyped with
  | .error e => .error e
  | .ok b => .ok (buf.writeBytes b)

/-- `decodeTyped`. -/
def decodeTyped (b : Bytes) : Except RlpError DynamicFeeTx :=
  match b with
  | [] => .error errShortTypedTx
  | [_] => .error errShortTypedTx
  | typ :: input =>
    if typ = dynamicFeeTxType then DynamicFeeTx.decode input else .error errTxTypeNotSupported

/-- `UnmarshalBinary`. -/
def Transaction.unmarshalBinary (tx : Transaction) (b : Bytes) : Except RlpError Transaction :=
  match decodeTyped b with
  | .error e => .error e
  | .ok inner => .ok (tx.setDecoded inner (UInt64.ofNat b.length))

/-- `math.MaxInt`. -/
def maxInt : UInt64 := 0x7FFFFFFFFFFFFFFF

/-- `DecodeRLP`; `getPooledBuffer` refuses sizes above `math.MaxInt`. -/
def Transaction.decodeRLP (tx : Transaction) : StreamM Transaction := fun s =>
  match s.kindAhead with
  | (.error e, s) => (.error e, s)
  | (.ok (.byte, _), s) => (.error errShortTypedTx, s)
  | (.ok (_, size), s) =>
    if size > maxInt then (.error (.other ("can't get buffer of size " ++ toString size)), s)
    else
      match s.readBytes size.toNat with
      | (.error e, s) => (.error e, s)
      | (.ok b, s) =>
        match decodeTyped b with
        | .error e => (.error e, s)
        | .ok inner => (.ok (tx.setDecoded inner size), s)

/-- `Size`: the cached size, or one more than what `rlp.Encode` writes of the contents. -/
def Transaction.size (tx : Transaction) : Except RlpError (UInt64 × Transaction) :=
  match tx.sizeCache with
  | some size => .ok (size, tx)
  | none =>
    match tx.inner with
    | none => .error errNilDereference
    | some inner =>
      let written := match encode inner.write with
        | .error _ => 0
        | .ok b => b.length
      let size := UInt64.ofNat written + 1
      .ok (size, { tx with sizeCache := some size })

/-- `Hash`: the cached hash, or that of the type byte and what `rlp.Encode` writes. -/
def Transaction.hash [Keccak] (tx : Transaction) : Except RlpError (Hash × Transaction) :=
  match tx.hashCache with
  | some h => .ok (h, tx)
  | none =>
    match tx.inner with
    | none => .error errNilDereference
    | some inner =>
      let written := match encode inner.write with
        | .error _ => []
        | .ok b => b
      let h := Keccak.hash (dynamicFeeTxType :: written)
      .ok (h, { tx with hashCache := some h })

end GoQrl.Types
