import GoQrl.Rlp.Write
import GoQrl.Trie.Trie

/-!
# GoQrl.Types.Account

Accounts as they are stored in the account trie and in the snapshots,
`core/types/state_account.go`.  The decoder accepts exactly what the encoder writes
(`StateAccount.decode_iff`).
-/

namespace GoQrl.Types

open Rlp Mpt List

/-! ## accounts -/

/-- `StateAccount`. -/
structure StateAccount where
  nonce : UInt64
  balance : Int
  root : Hash
  codeHash : Bytes
  deriving DecidableEq

/-- `EmptyCodeHash`. -/
def emptyCodeHash [Keccak] : Hash := Keccak.hash []

/-- `NewEmptyStateAccount`. -/
def newEmptyStateAccount [Keccak] : StateAccount := ⟨0, 0, emptyRootHash, emptyCodeHash.bytes⟩

/-- `StateAccount.EncodeRLP`, as generated. -/
def StateAccount.write (acc : StateAccount) : Writer :=
  writeStruct [
    fun buf => .ok (buf.writeUint64 acc.nonce.toNat),
    writeBigIntPtr (some acc.balance),
    fun buf => .ok (buf.writeBytes acc.root.bytes),
    fun buf => .ok (buf.writeBytes acc.codeHash)]

/-- `rlp.EncodeToBytes` of an account. -/
def StateAccount.encode (acc : StateAccount) : Except RlpError Bytes := Rlp.encode acc.write

/-- The values of the fields that can be decoded. -/
abbrev AccountFields := UInt64 × Nat × Fixed 32 × Bytes × Unit

/-- The account with these fields. -/
def StateAccount.ofFields : AccountFields → StateAccount
  | (nonce, balance, root, codeHash, ()) => ⟨nonce, balance, root.toHash, codeHash⟩

/-- `rlp.DecodeBytes` into an account. -/
def StateAccount.decode (b : Bytes) : Except RlpError StateAccount :=
  let typ := "types.StateAccount"
  decodeBytes typ (mapDecoder StateAccount.ofFields <| decodeStruct typ <|
    decodeField typ "Nonce" decodeUint64 <|
    decodeField typ "Balance" decodeBigInt <|
    decodeField typ "Root" (decodeByteArray "common.Hash" 32) <|
    decodeField typ "CodeHash" decodeByteSlice
    decodeNoField) b

/-! ## slim accounts -/

/-- `SlimAccount`: the empty root and the empty code hash are left out. -/
structure SlimAccount where
  nonce : UInt64
  balance : Int
  root : Bytes
  codeHash : Bytes
  deriving DecidableEq

/-- The slim form of an account. -/
def StateAccount.slim [Keccak] (acc : StateAccount) : SlimAccount where
  nonce := acc.nonce
  balance := acc.balance
  root := if acc.root ≠ emptyRootHash then acc.root.bytes else []
  codeHash := if acc.codeHash ≠ emptyCodeHash.bytes then acc.codeHash else []

/-- The writer of a slim account. -/
def SlimAccount.write (acc : SlimAccount) : Writer :=
  writeStruct [
    fun buf => .ok (buf.writeUint64 acc.nonce.toNat),
    writeBigIntPtr (some acc.balance),
    fun buf => .ok (buf.writeBytes acc.root),
    fun buf => .ok (buf.writeBytes acc.codeHash)]

/-- `SlimAccountRLP`; an error panics. -/
def slimAccountRLP [Keccak] (acc : StateAccount) :
    Except RlpError Bytes := Rlp.encode acc.slim.write

/-! ## encodings -/

/-- The encoding of the four fields of an account; root and code hash are strings. -/
def encodeAccount (nonce : UInt64) (balance : Nat) (root codeHash : Bytes) : Bytes :=
  encodeList (encodeString (natBytes nonce.toNat) ++ (encodeString (natBytes balance) ++
    (encodeString root ++ (encodeString codeHash ++ []))))

/-- The encoding of an account. -/
def StateAccount.enc (acc : StateAccount) : Bytes :=
  encodeAccount acc.nonce acc.balance.toNat acc.root.bytes acc.codeHash

/-- The account can be encoded into a slice. -/
structure StateAccount.Encodable (acc : StateAccount) : Prop where
  nonneg : 0 ≤ acc.balance
  fits : acc.enc.length < 2 ^ 62

/-- The four fields are written one after the other. -/
theorem writes_account (nonce : UInt64) {balance : Int} (hb : 0 ≤ balance) {root codeHash : Bytes}
    (hlen : (encodeAccount nonce balance.toNat root codeHash).length < 2 ^ 64) :
    Writes (writeStruct [ fun buf => .ok (buf.writeUint64 nonce.toNat),
      writeBigIntPtr (some balance), fun buf => .ok (buf.writeBytes root),
        fun buf => .ok (buf.writeBytes codeHash)])
      (encodeAccount nonce balance.toNat root codeHash) := by
  have hbal : Writes (writeBigIntPtr (some balance)) (encodeString (natBytes balance.toNat)) := by
    have h := writes_bigIntPtr balance.toNat
    rwa [Int.toNat_of_nonneg hb] at h
  refine writes_struct [(_, _), (_, _), (_, _), (_, _)] ?_ (lt_trans (length_lt_encodeList _) hlen)
  simp only [mem_cons, not_mem_nil, or_false, forall_eq_or_imp, forall_eq]
  exact ⟨writes_of_emits (emits_writeUint64 nonce.toNat_lt), hbal,
    writes_of_emits (emits_writeBytes _), writes_of_emits (emits_writeBytes _)⟩

variable {acc : StateAccount}

theorem StateAccount.encode_eq (h : acc.Encodable) : acc.encode = .ok acc.enc :=
  (writes_account acc.nonce h.nonneg (lt_trans h.fits (by decide))).encode

/-- **Accounts** are decoded from their encoding, and from nothing else. -/
theorem StateAccount.decode_iff {b : Bytes} (hlen : b.length < 2 ^ 62) :
    StateAccount.decode b = .ok acc ↔ acc.Encodable ∧ acc.enc = b := by
  have hfields := ((((@readsFields_nil (b.length + 1)).cons reads_decodeByteSlice
    "types.StateAccount" "CodeHash").cons (@reads_decodeByteArray 32 _ "common.Hash" (by decide))
    "types.StateAccount" "Root").cons reads_decodeBigInt "types.StateAccount" "Balance").cons
    reads_decodeUint64 "types.StateAccount" "Nonce"
  refine (hfields.decodeBytes_iff hlen "types.StateAccount" StateAccount.ofFields).trans ?_
  constructor
  · rintro ⟨⟨nonce, balance, root, codeHash, ⟨⟩⟩, rfl, henc⟩
    have henc : (StateAccount.ofFields (nonce, balance, root, codeHash, ())).enc = b := henc
    exact ⟨⟨Int.natCast_nonneg balance, by rw [henc]; exact hlen⟩, henc⟩
  · rintro ⟨hok, henc⟩
    refine ⟨(acc.nonce, acc.balance.toNat, ⟨acc.root.bytes, acc.root.length_eq⟩, acc.codeHash, ()),
      ?_, henc⟩
    simp [StateAccount.ofFields, Fixed.toHash, Int.toNat_of_nonneg hok.nonneg]

theorem StateAccount.decode_enc (h : acc.Encodable) : decode acc.enc = .ok acc :=
  (decode_iff h.fits).mpr ⟨h, rfl⟩

theorem StateAccount.enc_ne_nil (acc : StateAccount) : acc.enc ≠ [] := encodeList_ne_nil _

/-! ## encodings of slim accounts -/

section

variable [Keccak]

/-- The encoding of the slim form of an account. -/
def StateAccount.slimEnc (acc : StateAccount) : Bytes :=
  encodeAccount acc.nonce acc.balance.toNat acc.slim.root acc.slim.codeHash

omit [Keccak] in
/-- Leaving a field out does not make the encoding longer. -/
theorem length_encodeString_ite (p : Prop) [Decidable p] (b : Bytes) :
    (encodeString (if p then b else [])).length ≤ (encodeString b).length := by
  split
  · exact le_refl _
  · exact length_pos_iff.mpr (encodeString_ne_nil b)

omit [Keccak] in
theorem length_encodeList_lt {p : Bytes} (h : p.length < 2 ^ 62) :
    (encodeList p).length < 2 ^ 64 := by
  have hint := intsize_le (lt_trans h (by decide : 2 ^ 62 < 2 ^ 64))
  rw [length_encodeList (lt_trans h (by decide)), headsize]
  split <;> omega

variable {acc : StateAccount}

theorem StateAccount.length_slimEnc (h : acc.Encodable) : acc.slimEnc.length < 2 ^ 64 := by
  have hroot : (encodeString acc.slim.root).length ≤ (encodeString acc.root.bytes).length :=
    length_encodeString_ite _ _
  have hcode : (encodeString acc.slim.codeHash).length ≤ (encodeString acc.codeHash).length :=
    length_encodeString_ite _ _
  have hfull := lt_trans (length_lt_encodeList _) h.fits
  refine length_encodeList_lt ?_
  simp only [length_append, length_nil] at hfull ⊢
  omega

theorem slimAccountRLP_eq (h : acc.Encodable) : slimAccountRLP acc = .ok acc.slimEnc :=
  (writes_account acc.nonce h.nonneg (StateAccount.length_slimEnc h)).encode

theorem slimAccountRLP_negative (h : acc.balance < 0) :
    slimAccountRLP acc = .error .negativeBigInt := by
  simp [slimAccountRLP, encode, SlimAccount.write, StateAccount.slim, writeStruct, writeAll,
    writeBigIntPtr, h]

end

end GoQrl.Types
