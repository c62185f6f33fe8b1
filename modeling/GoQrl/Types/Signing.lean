import GoQrl.Types.Codec

/-!
# GoQrl.Types.Signing

Signing transactions, `core/types/transaction_signing.go`.

What is signed is the hash of the type byte and a list of the fields that is written apart from
the encoding of the transaction.  This list determines the fields (`signList_inj`), because it is
the list of the fields of a transaction whose signature and public key were left out.  `Sender`
accepts a transaction only with the chain ID of the signer and without extra parameters
(`sender_ok`), and what `SignTx` returns has the sender that the wallet stands for
(`signTx_sender`).

The verification of signatures, the descriptors of wallets and the derivation of addresses belong
to another library and are parameters (`PostQuantum`).
-/

namespace GoQrl.Types

open Rlp Mpt List Option DynamicFeeTx

/-! ## the library for wallets -/

/-- `descriptor.Descriptor`. -/
abbrev Descriptor := Fixed 3

/-- What is used of the library for post-quantum wallets. -/
class PostQuantum where
  /-- `descriptor.FromBytes` -/
  descriptorFromBytes : Bytes → Option Descriptor
  /-- `Descriptor.Type` -/
  descriptorType : Descriptor → UInt8
  /-- `wallettype.ML_DSA_87` -/
  mldsa87 : UInt8
  /-- `walletmldsa87.BytesToPK`: whether the public key is accepted. -/
  bytesToPK : Bytes → Bool
  /-- `walletmldsa87.Verify`, by message, signature and public key. -/
  verify : Bytes → Bytes → Bytes → Bool
  /-- `GetAddressFromPKAndDescriptor` -/
  addressOf : Bytes → Descriptor → Option Address

/-- `wallet.Wallet`. -/
structure Wallet where
  descriptor : Descriptor
  pk : Bytes
  /-- `Sign` -/
  sign : Bytes → Option Bytes

/-- What signing and the recovery of a sender fail with. -/
inductive SignError
  /-- `ErrInvalidChainId` -/
  | invalidChainId (have_ want : Int)
  /-- "non-empty extraParams not supported" -/
  | extraParams
  /-- The descriptor cannot be read. -/
  | badDescriptor
  /-- "unsupported wallet type in descriptor" -/
  | unsupportedType (typ : UInt8)
  /-- `ErrBadSignature`: "bad length" -/
  | signatureLength
  /-- The public key is not accepted. -/
  | badPublicKey
  /-- `ErrBadSignature`: "verification failed" -/
  | badSignature
  /-- No address can be derived. -/
  | noAddress
  /-- "wrong size for ml-dsa-87 signature" -/
  | signatureSize (got : Nat)
  /-- "wrong size for ml-dsa-87 publickey" -/
  | publicKeySize (got : Nat)
  /-- "wrong size for descriptor" -/
  | descriptorSize (got : Nat)
  /-- The wallet cannot sign. -/
  | wallet
  /-- a nil pointer dereference -/
  | panicked
  deriving DecidableEq

/-! ## the list that is signed -/

/-- The list that is signed. -/
def signList (chainId : Int) (tx : DynamicFeeTx) (tip feeCap value : Int)
    (descriptor extraParams : Bytes) : Writer :=
  writeSlice [
    writeBigIntPtr (some chainId),
    fun buf => .ok (buf.writeUint64 tx.nonce.toNat),
    writeBigIntPtr (some tip),
    writeBigIntPtr (some feeCap),
    fun buf => .ok (buf.writeUint64 tx.gas.toNat),
    writeNilPtr (fun a => EncBuffer.writeByteArray a) tx.recipient,
    writeBigIntPtr (some value),
    fun buf => .ok (buf.writeBytes tx.data),
    writeSlice (tx.accessList.map AccessTuple.write),
    fun buf => .ok (buf.writeBytes descriptor),
    fun buf => .ok (buf.writeBytes extraParams)]

/-- The encodings of the fields that are signed. -/
def encodeSigned : TxFields → Bytes
  | (chainID, nonce, gasTipCap, gasFeeCap, gas, recipient, value, data, accessList, descriptor,
    extraParams, _) =>
    encodeString (natBytes chainID) ++ (encodeString (natBytes nonce.toNat) ++
    (encodeString (natBytes gasTipCap) ++ (encodeString (natBytes gasFeeCap) ++
    (encodeString (natBytes gas.toNat) ++
    (encodeNilPtr (fun a => encodeString a.val) recipient ++ (encodeString (natBytes value) ++
    (encodeString data ++ (encodeList (accessList.flatMap AccessTuple.enc) ++
    (encodeString descriptor.val ++ (encodeString extraParams ++ []))))))))))

/-- The signature and the public key among the fields. -/
def authFields : TxFields → Bytes × Bytes
  | (_, _, _, _, _, _, _, _, _, _, _, signature, publicKey, ()) => (signature, publicKey)

/-- The fields with another signature and public key. -/
def setAuthFields (f : TxFields) (auth : Bytes × Bytes) : TxFields :=
  match f with
  | (chainID, nonce, gasTipCap, gasFeeCap, gas, recipient, value, data, accessList, descriptor,
    extraParams, _) =>
    (chainID, nonce, gasTipCap, gasFeeCap, gas, recipient, value, data, accessList, descriptor,
      extraParams, auth.1, auth.2, ())

/-- A transaction is encoded as what is signed, the signature and the public key. -/
theorem encodeFields_setAuthFields (f : TxFields) (auth : Bytes × Bytes) :
    encodeFields (setAuthFields f auth) = encodeSigned f ++
      (encodeString auth.1 ++ encodeString auth.2) := by
  simp [setAuthFields, encodeFields, encodeSigned]

theorem setAuthFields_self (f : TxFields) : setAuthFields f (authFields f) = f := rfl

/-- **What is signed** determines the fields but for the signature and the public key. -/
theorem encodeSigned_inj {f g : TxFields} (hlen : (encodeList (encodeFields f)).length < 2 ^ 62)
    (h : encodeSigned f = encodeSigned g) : f = setAuthFields g (authFields f) := by
  have henc : encodeFields (setAuthFields g (authFields f)) = encodeFields f := by
    have hself := encodeFields_setAuthFields f (authFields f)
    rw [setAuthFields_self] at hself
    rw [hself, encodeFields_setAuthFields, h]
  have hf := (decode_iff hlen).mpr ⟨f, rfl, rfl⟩
  have hg := (decode_iff hlen).mpr ⟨setAuthFields g (authFields f), rfl, congrArg encodeList henc⟩
  exact congrArg toFields (Except.ok.inj (hf.symm.trans hg))

/-- The list that is signed is written like the fields of a transaction. -/
theorem signList_encode (f : TxFields) (hlen : (encodeList (encodeSigned f)).length < 2 ^ 64) :
    match f with
    | (chainID, _, gasTipCap, gasFeeCap, _, _, value, _, _, descriptor, extraParams, _) =>
      encode (signList chainID (ofFields f) gasTipCap gasFeeCap value descriptor.val extraParams) =
        .ok (encodeList (encodeSigned f)) := by
  have hall : (encodeSigned f).length < 2 ^ 64 := lt_trans (length_lt_encodeList _) hlen
  obtain ⟨chainID, nonce, gasTipCap, gasFeeCap, gas, recipient, value, data, accessList, descriptor,
    extraParams, signature, publicKey, ⟨⟩⟩ := f
  have htuples : (encodeList (accessList.flatMap AccessTuple.enc)).length < 2 ^ 64 := by
    simp only [encodeSigned, length_append] at hall
    omega
  refine Writes.encode
    (writes_slice [(_, _), (_, _), (_, _), (_, _), (_, _), (_, _), (_, _), (_, _), (_, _),
    (_, _), (_, _)] ?_ hall)
  simp only [mem_cons, not_mem_nil, or_false, forall_eq_or_imp, forall_eq]
  exact ⟨writes_bigIntPtr _, writes_uint64 _, writes_bigIntPtr _, writes_bigIntPtr _,
    writes_uint64 _,
    writes_recipient _, writes_bigIntPtr _, writes_bytes _, writes_accessList htuples,
      writes_bytes _, writes_bytes _⟩

instance (tx : DynamicFeeTx) : Decidable tx.Nonneg :=
  decidable_of_iff (0 ≤ tx.chainID.getD 0 ∧ 0 ≤ tx.gasTipCap.getD 0 ∧ 0 ≤ tx.gasFeeCap.getD 0 ∧
    0 ≤ tx.value.getD 0) ⟨fun ⟨h₁, h₂, h₃, h₄⟩ => ⟨h₁, h₂, h₃, h₄⟩,
      fun h => ⟨h.chainID, h.gasTipCap, h.gasFeeCap, h.value⟩⟩

/-- The message whose hash is signed: only the type, if an amount is negative. -/
def DynamicFeeTx.signedBytes (tx : DynamicFeeTx) : Bytes :=
  dynamicFeeTxType :: if tx.Nonneg then encodeList (encodeSigned tx.toFields) else []

theorem DynamicFeeTx.Fits.length_fields {tx : DynamicFeeTx} (h : tx.Fits) :
    (encodeList (encodeFields tx.toFields)).length < 2 ^ 62 := by
  have hbinary := h.length_binary
  rw [binary, length_cons] at hbinary
  omega

theorem length_encodeSigned_le (f : TxFields) :
    (encodeSigned f).length ≤ (encodeFields f).length := by
  rw [← setAuthFields_self f, encodeFields_setAuthFields, length_append]
  exact Nat.le_add_right _ _

/-! ## the signer -/

variable [Keccak]

/-- `prefixedRlpHash`: an error of the encoder is ignored, and nothing is written then. -/
def prefixedRlpHash (pre : UInt8) (w : Writer) : Hash :=
  Keccak.hash (pre :: match encode w with
    | .ok b => b
    | .error _ => [])

/-- `ZondSigner`. -/
structure ZondSigner where
  chainId : Int

/-- `ZondSigner.Hash`; the accessors panic on a nil amount. -/
def ZondSigner.hash (s : ZondSigner) (tx : DynamicFeeTx) (descriptor extraParams : Bytes) :
    Option Hash :=
  match tx.gasTipCap, tx.gasFeeCap, tx.value with
  | some tip, some feeCap, some value =>
    some (prefixedRlpHash dynamicFeeTxType
      (signList s.chainId tx tip feeCap value descriptor extraParams))
  | _, _, _ => none

section

variable [PostQuantum]

/-- `MLDSA87VerifySignature`. -/
def mldsa87VerifySignature (sig msg pk : Bytes) : Except SignError Bool :=
  if sig.length ≠ mldsa87SignatureLength then .error .signatureLength
  else if PostQuantum.bytesToPK pk then .ok (PostQuantum.verify msg sig pk)
  else .error .badPublicKey

/-- `ZondSigner.Sender`. -/
def ZondSigner.sender (s : ZondSigner) (tx : Transaction) : Except SignError Address :=
  match tx.inner with
  | none => .error .panicked
  | some inner =>
    match inner.chainID with
    | none => .error .panicked
    | some chainID =>
      if chainID ≠ s.chainId then .error (.invalidChainId chainID s.chainId)
      else if inner.extraParams.length ≠ 0 then .error .extraParams
      else
        match s.hash inner inner.descriptor.val inner.extraParams with
        | none => .error .panicked
        | some msg =>
          match PostQuantum.descriptorFromBytes inner.descriptor.val with
          | none => .error .badDescriptor
          | some desc =>
            if PostQuantum.descriptorType desc = PostQuantum.mldsa87 then
              match mldsa87VerifySignature inner.signature msg.bytes inner.publicKey with
              | .error e => .error e
              | .ok false => .error .badSignature
              | .ok true =>
                match PostQuantum.addressOf inner.publicKey desc with
                | none => .error .noAddress
                | some addr => .ok addr
            else .error (.unsupportedType (PostQuantum.descriptorType desc))

end

/-- `ZondSigner.AuthValues`: the values are copied. -/
def ZondSigner.authValues (s : ZondSigner) (tx : Transaction) (sig pk desc extraParams : Bytes) :
    Except SignError (Bytes × Bytes × Descriptor × Bytes) :=
  match tx.inner.bind DynamicFeeTx.chainID with
  | none => .error .panicked
  | some chainID =>
    if chainID ≠ 0 ∧ chainID ≠ s.chainId then .error (.invalidChainId chainID s.chainId)
    else if sig.length ≠ mldsa87SignatureLength then .error (.signatureSize sig.length)
    else if pk.length ≠ mldsa87PublicKeyLength then .error (.publicKeySize pk.length)
    else if h : desc.length = 3 then .ok (sig, pk, ⟨desc, h⟩, extraParams)
    else .error (.descriptorSize desc.length)

/-- `DynamicFeeTx.setAuthValues`. -/
def DynamicFeeTx.setAuthValues (tx : DynamicFeeTx) (chainID : Int) (sig pk : Bytes)
    (desc : Descriptor) (extraParams : Bytes) : DynamicFeeTx :=
  { tx with
    chainID := some chainID, descriptor := desc, extraParams := extraParams, publicKey := pk,
    signature := sig }

/-- `WithAuthValues`. -/
def Transaction.withAuthValues (tx : Transaction) (s : ZondSigner)
    (sig pk desc extraParams : Bytes) :
    Except SignError Transaction :=
  match s.authValues tx sig pk desc extraParams with
  | .error e => .error e
  | .ok (sig, pk, desc, extraParams) =>
    match tx.inner with
    | none => .error .panicked
    | some inner =>
      .ok ⟨some (inner.copy.setAuthValues s.chainId sig pk desc extraParams), none, none⟩

/-- `pqcrypto.Sign` of a hash. -/
def Wallet.signHash (w : Wallet) (h : Hash) : Except SignError Bytes :=
  match w.sign h.bytes with
  | none => .error .wallet
  | some sig => .ok sig

/-- The part that `SignTx` and `SignNewTx` share. -/
def signWith (tx : Transaction) (s : ZondSigner) (w : Wallet) : Except SignError Transaction :=
  match tx.inner with
  | none => .error .panicked
  | some inner =>
    match s.hash inner w.descriptor.val [] with
    | none => .error .panicked
    | some h =>
      match w.signHash h with
      | .error e => .error e
      | .ok sig => tx.withAuthValues s sig w.pk w.descriptor.val []

/-- `SignTx`. -/
def signTx (tx : Transaction) (s : ZondSigner) (w : Wallet) : Except SignError Transaction :=
  match tx.inner.bind DynamicFeeTx.chainID with
  | none => .error .panicked
  | some chainID =>
    if chainID ≠ 0 ∧
      chainID ≠ s.chainId then .error (.invalidChainId chainID s.chainId) else signWith tx s w

omit [Keccak] in
/-- The list that is signed is not encoded if an amount is negative. -/
theorem signList_negative {chainId tip feeCap value : Int} (tx : DynamicFeeTx) (desc params : Bytes)
    (h : chainId < 0 ∨ tip < 0 ∨ feeCap < 0 ∨ value < 0) :
    ∃ e, encode (signList chainId tx tip feeCap value desc params) = .error e := by
  have hfail {i : Int} (hi : i < 0) (buf : EncBuffer) : ∃ e,
      writeBigIntPtr (some i) buf = .error e :=
    ⟨_, if_pos hi⟩
  obtain h | h | h | h := h <;> exact encode_writeSlice_error (by simp) (hfail h)

/-- **What is hashed** to be signed. -/
theorem ZondSigner.hash_eq {s : ZondSigner} {tx : DynamicFeeTx} {msg : Hash}
    (hid : tx.chainID = some s.chainId) (hfits : tx.Fits)
    (h : s.hash tx tx.descriptor.val tx.extraParams = some msg) :
    msg = Keccak.hash tx.signedBytes := by
  have hlist := length_lt_encodeList (encodeFields tx.toFields)
  have hfields := hfits.length_fields
  have hle := length_encodeSigned_le tx.toFields
  have hsigned := length_encodeList_le (p := encodeSigned tx.toFields) (by omega)
  have hencode := signList_encode tx.toFields (by omega)
  unfold ZondSigner.hash at h
  split at h
  · next tip feeCap value htip hcap hvalue =>
    rw [← some.inj h, prefixedRlpHash, signedBytes]
    by_cases hnonneg : tx.Nonneg
    swap
    · have hneg : s.chainId < 0 ∨ tip < 0 ∨ feeCap < 0 ∨ value < 0 := by
        by_contra hno
        simp only [not_or, not_lt] at hno
        obtain ⟨h₁, h₂, h₃, h₄⟩ := hno
        exact hnonneg ⟨by rwa [hid], by rwa [htip], by rwa [hcap], by rwa [hvalue]⟩
      obtain ⟨e, he⟩ := signList_negative tx tx.descriptor.val tx.extraParams hneg
      rw [he, if_neg hnonneg]
    have hsame : signList s.chainId tx tip feeCap value tx.descriptor.val tx.extraParams =
        signList (tx.chainID.getD 0).toNat (.ofFields tx.toFields) (tx.gasTipCap.getD 0).toNat
          (tx.gasFeeCap.getD 0).toNat (tx.value.getD 0).toNat tx.descriptor.val tx.extraParams := by
      rw [Int.toNat_of_nonneg hnonneg.chainID, Int.toNat_of_nonneg hnonneg.gasTipCap,
        Int.toNat_of_nonneg hnonneg.gasFeeCap, Int.toNat_of_nonneg hnonneg.value, hid, htip,
          hcap, hvalue]
      rfl
    rw [hsame, show encode _ = .ok _ from hencode, if_pos hnonneg]
  · cases h

/-! ## senders -/

section

variable [PostQuantum]

/-- The hash that `Sender` verifies the signature of. -/
def ZondSigner.signingHash (s : ZondSigner) (tx : Transaction) : Option Hash :=
  tx.inner.bind fun inner => s.hash inner inner.descriptor.val inner.extraParams

/-- What `Sender` checks. -/
structure ZondSigner.Accepts (s : ZondSigner) (inner : DynamicFeeTx) (msg : Hash) (addr : Address) :
    Prop where
  chainID : inner.chainID = some s.chainId
  extraParams : inner.extraParams = []
  hash : s.hash inner inner.descriptor.val inner.extraParams = some msg
  verified : mldsa87VerifySignature inner.signature msg.bytes inner.publicKey = .ok true
  address : ∃ desc, PostQuantum.descriptorFromBytes inner.descriptor.val = some desc ∧
    PostQuantum.descriptorType desc = PostQuantum.mldsa87 ∧
      PostQuantum.addressOf inner.publicKey desc = some addr

variable {s : ZondSigner} {msg : Hash} {addr : Address} {tx : DynamicFeeTx}

/-- **`Sender`** returns an address only if all checks pass, and then it does. -/
theorem ZondSigner.sender_ok {tx : Transaction} :
    s.sender tx = .ok addr ↔ ∃ inner msg, tx.inner = some inner ∧ s.Accepts inner msg addr := by
  constructor
  · intro h
    unfold ZondSigner.sender at h
    split at h
    · cases h
    next inner hinner =>
    split at h
    · cases h
    next chainID hid =>
    split at h
    · cases h
    next hchain =>
    split at h
    · cases h
    next hparams =>
    split at h
    · cases h
    next msg hhash =>
    split at h
    · cases h
    next desc hdesc =>
    split at h
    · next htyp =>
      split at h
      · cases h
      · cases h
      next hverified =>
      split at h
      · cases h
      next addr' haddr =>
      cases h
      exact ⟨inner, msg, hinner, by rw [hid, not_not.mp hchain],
        length_eq_zero_iff.mp (not_not.mp hparams), hhash, hverified,
        desc, hdesc, htyp, haddr⟩
    · cases h
  · rintro ⟨inner, msg, hinner, h⟩
    obtain ⟨desc, hdesc, htyp, haddr⟩ := h.address
    have hparams : ¬ inner.extraParams.length ≠ 0 := by simp [h.extraParams]
    simp [ZondSigner.sender, hinner, h.chainID, h.hash, hdesc, htyp, h.verified, haddr, hparams]

/-- The transactions agree on all that is signed. -/
structure SameSigned (tx tx' : DynamicFeeTx) : Prop where
  chainID : tx.chainID = tx'.chainID
  nonce : tx.nonce = tx'.nonce
  gasTipCap : tx.gasTipCap = tx'.gasTipCap
  gasFeeCap : tx.gasFeeCap = tx'.gasFeeCap
  gas : tx.gas = tx'.gas
  recipient : tx.recipient = tx'.recipient
  value : tx.value = tx'.value
  data : tx.data = tx'.data
  accessList : tx.accessList = tx'.accessList
  descriptor : tx.descriptor = tx'.descriptor

omit [PostQuantum] in
/-- Without its amounts a transaction cannot be hashed. -/
theorem ZondSigner.amounts_of_hash {desc params : Bytes} (h : s.hash tx desc params = some msg) :
    tx.gasTipCap = some (tx.gasTipCap.getD 0) ∧ tx.gasFeeCap = some (tx.gasFeeCap.getD 0) ∧
      tx.value = some (tx.value.getD 0) := by
  unfold ZondSigner.hash at h
  split at h
  · next htip hcap hvalue => simp [htip, hcap, hvalue]
  · cases h

/-- Accepted transactions whose signed messages are the same agree on all that is signed. -/
theorem sameSigned_of_signedBytes {tx' : DynamicFeeTx} {msg msg' : Hash} {addr' : Address}
    (h : s.Accepts tx msg addr) (h' : s.Accepts tx' msg' addr') (hn : tx.Nonneg ∨ tx'.Nonneg)
    (hfits : tx.Fits) (hbytes : tx.signedBytes = tx'.signedBytes) (hfits' : tx'.Fits) :
    SameSigned tx tx' := by
  -- the message of a transaction with a negative amount is shorter than any other
  have hlist := (List.cons.inj hbytes).2
  obtain ⟨hn, hn'⟩ : tx.Nonneg ∧ tx'.Nonneg := by
    by_cases h₁ : tx.Nonneg <;> by_cases h₂ : tx'.Nonneg <;>
      simp_all [encodeList_ne_nil, (encodeList_ne_nil _).symm]
  rw [if_pos hn, if_pos hn'] at hlist
  have hsplit := fun (tx : DynamicFeeTx) (hfits : tx.Fits) =>
      split_encodeList (p := encodeSigned tx.toFields) (by
    have := length_encodeSigned_le tx.toFields
    have := length_lt_encodeList (encodeFields tx.toFields)
    have := hfits.length_fields
    omega) []
  have hsigned : encodeSigned tx.toFields = encodeSigned tx'.toFields := by
    have heq := hsplit tx hfits
    rw [hlist, hsplit tx' hfits'] at heq
    simpa using heq.symm
  have hfields := encodeSigned_inj hfits.length_fields hsigned
  simp only [toFields, setAuthFields, Prod.mk.injEq] at hfields
  obtain ⟨-, hnonce, htip, hcap, hgas, hto, hvalue, hdata, hlist, hdesc, -⟩ := hfields
  have hinj : ∀ {a b : Int}, 0 ≤ a → 0 ≤ b → a.toNat = b.toNat → a = b := by omega
  obtain ⟨htip1, hcap1, hvalue1⟩ := ZondSigner.amounts_of_hash h.hash
  obtain ⟨htip2, hcap2, hvalue2⟩ := ZondSigner.amounts_of_hash h'.hash
  exact {
    chainID := h.chainID.trans h'.chainID.symm
    nonce := hnonce
    gasTipCap := by rw [htip1, htip2, hinj hn.gasTipCap hn'.gasTipCap htip]
    gasFeeCap := by rw [hcap1, hcap2, hinj hn.gasFeeCap hn'.gasFeeCap hcap]
    gas := hgas
    recipient := hto
    value := by rw [hvalue1, hvalue2, hinj hn.value hn'.value hvalue]
    data := hdata
    accessList := hlist
    descriptor := hdesc }

/-! ## signing -/

/-- The wallet is one for ML-DSA-87, and the library reads its descriptor back. -/
structure Wallet.IsMLDSA87 (w : Wallet) : Prop where
  pk : w.pk.length = mldsa87PublicKeyLength
  descriptor : PostQuantum.descriptorFromBytes w.descriptor.val = some w.descriptor
  typ : PostQuantum.descriptorType w.descriptor = PostQuantum.mldsa87

omit [PostQuantum] in
/-- Signing does not change what is hashed. -/
theorem ZondSigner.hash_setAuthValues {desc params : Bytes} (h : s.hash tx desc params = some msg)
    (chainID : Int) (sig pk : Bytes) (d : Descriptor) (e : Bytes) :
    s.hash (tx.copy.setAuthValues chainID sig pk d e) desc params = some msg := by
  obtain ⟨htip, hcap, hvalue⟩ := amounts_of_hash h
  rw [← h]
  unfold ZondSigner.hash
  rw [htip, hcap, hvalue]
  rfl

/-- **A signed transaction** has the sender that the wallet stands for. -/
theorem signTx_ok {w : Wallet} {tx : Transaction} {inner : DynamicFeeTx} {sig : Bytes}
    (hw : w.IsMLDSA87)
    (hinner : tx.inner = some inner) (hid : inner.chainID = some 0 ∨ inner.chainID = some s.chainId)
    (hmsg : s.hash inner w.descriptor.val [] = some msg) (hsig : w.sign msg.bytes = some sig)
    (hverified : mldsa87VerifySignature sig msg.bytes w.pk = .ok true)
    (haddr : PostQuantum.addressOf w.pk w.descriptor = some addr) :
    ∃ tx', signTx tx s w = .ok tx' ∧ s.sender tx' = .ok addr := by
  have hlen : sig.length = mldsa87SignatureLength := by
    unfold mldsa87VerifySignature at hverified
    split at hverified
    · cases hverified
    · next hlen => exact not_not.mp hlen
  obtain ⟨chainID, hchain, hok⟩ : ∃ chainID, inner.chainID = some chainID ∧
    ¬ (chainID ≠ 0 ∧ chainID ≠ s.chainId) := by
    obtain hid | hid := hid
    · exact ⟨0, hid, by simp⟩
    · exact ⟨s.chainId, hid, by simp⟩
  have hauth : s.authValues tx sig w.pk w.descriptor.val [] =
      .ok (sig, w.pk, w.descriptor, []) := by
    simp only [ZondSigner.authValues, hinner, bind_some, hchain, if_neg hok, hlen, hw.pk, ne_eq,
      not_true_eq_false, if_false, dif_pos w.descriptor.property]
    rfl
  refine ⟨⟨some (inner.copy.setAuthValues s.chainId sig w.pk w.descriptor []), none, none⟩, ?_, ?_⟩
  · simp [signTx, hinner, hchain, if_neg hok, signWith, hmsg, Wallet.signHash, hsig,
      Transaction.withAuthValues, hauth]
  · exact ZondSigner.sender_ok.mpr ⟨_, msg, rfl, rfl, rfl,
      ZondSigner.hash_setAuthValues hmsg _ _ _ _ _, hverified,
      w.descriptor, hw.descriptor, hw.typ, haddr⟩

/-- **Signatures bind** every field.  Transactions that `Sender` accepts, not both with a negative
amount, and that have the same signing hash agree on all fields that are signed, unless the two
signed messages are a collision of the hash; other chain IDs and extra parameters are rejected; and
`SignTx` gives a transaction with the address of the wallet as its sender. -/
theorem signatures_bind (s : ZondSigner) :
    (∀ (tx tx' : Transaction) (inner inner' : DynamicFeeTx) (addr addr' : Address),
      tx.inner = some inner →
      tx'.inner = some inner' → s.sender tx = .ok addr → s.sender tx' = .ok addr' →
      inner.Nonneg ∨ inner'.Nonneg → inner.Fits → inner'.Fits →
      (Keccak.hash inner.signedBytes = Keccak.hash inner'.signedBytes →
        inner.signedBytes = inner'.signedBytes) →
      s.signingHash tx = s.signingHash tx' → SameSigned inner inner') ∧
    (∀ (tx : Transaction) (inner : DynamicFeeTx), tx.inner = some inner →
      inner.chainID ≠ some s.chainId ∨ inner.extraParams ≠ [] → ∀ addr, s.sender tx ≠ .ok addr) ∧
    (∀ (w : Wallet) (tx : Transaction) (inner : DynamicFeeTx) (msg : Hash) (sig : Bytes)
      (addr : Address), w.IsMLDSA87 → tx.inner = some inner → inner.chainID = some 0 ∨
        inner.chainID = some s.chainId →
      s.hash inner w.descriptor.val [] = some msg → w.sign msg.bytes = some sig →
      mldsa87VerifySignature sig msg.bytes w.pk = .ok true →
        PostQuantum.addressOf w.pk w.descriptor = some addr →
      ∃ tx', signTx tx s w = .ok tx' ∧ s.sender tx' = .ok addr) := by
  refine ⟨?_, ?_, fun w tx inner msg sig addr hw hinner hid hmsg hsig hver haddr =>
    signTx_ok hw hinner hid hmsg hsig hver haddr⟩
  · intro tx tx' inner inner' addr addr' hinner hinner' hs hs' hn hfits hfits' hinj hhash
    obtain ⟨i, msg, hi, hacc⟩ := ZondSigner.sender_ok.mp hs
    obtain ⟨i', msg', hi', hacc'⟩ := ZondSigner.sender_ok.mp hs'
    obtain rfl := some.inj (hinner.symm.trans hi)
    obtain rfl := some.inj (hinner'.symm.trans hi')
    have hmsg := ZondSigner.hash_eq hacc.chainID hfits hacc.hash
    have hmsg' := ZondSigner.hash_eq hacc'.chainID hfits' hacc'.hash
    simp only [ZondSigner.signingHash, hinner, hinner', bind_some, hacc.hash, hacc'.hash,
      some.injEq] at hhash
    exact sameSigned_of_signedBytes hacc hacc' hn hfits
      (hinj (by rw [← hmsg, ← hmsg', hhash])) hfits'
  · intro tx inner hinner hbad addr hs
    obtain ⟨i, msg, hi, hacc⟩ := ZondSigner.sender_ok.mp hs
    obtain rfl := some.inj (hinner.symm.trans hi)
    obtain hbad | hbad := hbad
    · exact hbad hacc.chainID
    · exact hbad hacc.extraParams

end

/-! ### examples -/

/-- A library that accepts every signature. -/
@[reducible] def PostQuantum.permissive : PostQuantum where
  descriptorFromBytes b := if h : b.length = 3 then some ⟨b, h⟩ else none
  descriptorType d := d.val.headD 0
  mldsa87 := 1
  bytesToPK _ := true
  verify _ _ _ := true
  addressOf _ _ := some (Fixed.ofBytes 20 [7])

/-- A transfer with a signature that repeats a byte. -/
def signedTransfer (value : Int) (b : UInt8) : DynamicFeeTx :=
  (transfer value).copy.copy.setAuthValues 1 (List.replicate mldsa87SignatureLength b)
    (List.replicate mldsa87PublicKeyLength 0) (transfer value).descriptor []

theorem signingHash_signedTransfer (value : Int) (b : UInt8) :
    (ZondSigner.mk 1).signingHash ⟨some (signedTransfer value b), none, none⟩ =
      (ZondSigner.mk 1).hash (transfer value).copy (transfer value).descriptor.val [] :=
  ZondSigner.hash_setAuthValues rfl _ _ _ _ _

omit [Keccak] in
theorem signedBytes_signedTransfer (value : Int) (b : UInt8) :
    (signedTransfer value b).signedBytes = (transfer value).copy.signedBytes := by
  have hiff : (signedTransfer value b).Nonneg ↔ (transfer value).copy.Nonneg :=
    ⟨fun h => ⟨Int.one_nonneg, h.2, h.3, h.4⟩, fun h => ⟨Int.one_nonneg, h.2, h.3, h.4⟩⟩
  rw [signedBytes, signedBytes, if_congr hiff rfl rfl]
  simp [signedTransfer, toFields, setAuthValues, copy, encodeSigned, transfer]

omit [Keccak] in
theorem signedTransfer_nonneg (b : UInt8) : (signedTransfer 5 b).Nonneg :=
  ⟨Int.one_nonneg, Int.le_refl 0, Int.natCast_nonneg 1000, Int.natCast_nonneg 5⟩

theorem sender_signedTransfer (value : Int) (b : UInt8) :
    letI := PostQuantum.permissive
    (ZondSigner.mk 1).sender ⟨some (signedTransfer value b), none, none⟩ =
      .ok (Fixed.ofBytes 20 [7]) := by
  let _ := PostQuantum.permissive
  refine ZondSigner.sender_ok.mpr ⟨signedTransfer value b, _, rfl, rfl, rfl, rfl, ?_,
    (transfer value).descriptor, rfl, rfl, rfl⟩
  have hlen : ¬ (signedTransfer value b).signature.length ≠ mldsa87SignatureLength :=
    not_not.mpr (length_replicate ..)
  rw [mldsa87VerifySignature, if_neg hlen]
  rfl

omit [Keccak] in
theorem signatures_bind_transfer :
    letI := Keccak.sample
    letI := PostQuantum.permissive
    SameSigned (signedTransfer 5 0) (signedTransfer 5 1) ∧
      ∃ tx, signTx (newTx (transfer 5)) ⟨1⟩ ⟨(transfer 5).descriptor,
        List.replicate mldsa87PublicKeyLength 0,
          fun _ => some (List.replicate mldsa87SignatureLength 1)⟩ = .ok tx ∧
        (ZondSigner.mk 1).sender tx = .ok (Fixed.ofBytes 20 [7]) := by
  let _ := Keccak.sample
  let _ := PostQuantum.permissive
  have hfits : ∀ b ∈ [0, 1], (signedTransfer 5 b).Fits := by
    unfold DynamicFeeTx.Fits
    decide +kernel
  obtain ⟨hbind, -, hsign⟩ := signatures_bind ⟨1⟩
  refine ⟨hbind ⟨some (signedTransfer 5 0), none, none⟩ ⟨some (signedTransfer 5 1), none,
    none⟩ _ _ _ _ rfl rfl
    (sender_signedTransfer 5 0) (sender_signedTransfer 5 1)
    (.inl (signedTransfer_nonneg 0)) (hfits 0 (by simp)) (hfits 1 (by simp))
      (fun _ => by rw [signedBytes_signedTransfer, signedBytes_signedTransfer])
    (by rw [signingHash_signedTransfer, signingHash_signedTransfer]), ?_⟩
  refine hsign _ _ _ _ _ _ ⟨length_replicate .., rfl, rfl⟩ rfl (.inr rfl) rfl rfl ?_ rfl
  rw [mldsa87VerifySignature, if_neg (not_not.mpr (length_replicate ..))]
  rfl

omit [Keccak] in
/-- An encoder that fails writes nothing, so all transactions with a negative amount have the same
signing hash. -/
theorem signatures_bind_negative :
    letI := Keccak.sample
    letI := PostQuantum.permissive
    ∃ tx tx' : DynamicFeeTx,
      (ZondSigner.mk 1).sender ⟨some tx, none, none⟩ = .ok (Fixed.ofBytes 20 [7]) ∧
      (ZondSigner.mk 1).sender ⟨some tx', none, none⟩ = .ok (Fixed.ofBytes 20 [7]) ∧
      (ZondSigner.mk 1).signingHash ⟨some tx, none, none⟩ = (ZondSigner.mk 1).signingHash
        ⟨some tx', none, none⟩ ∧ tx.value = some (-1) ∧ tx'.value = some (-2) := by
  let _ := Keccak.sample
  exact ⟨signedTransfer (-1) 0, signedTransfer (-2) 0, sender_signedTransfer (-1) 0,
    sender_signedTransfer (-2) 0,
    by rw [signingHash_signedTransfer, signingHash_signedTransfer]; rfl, rfl, rfl⟩

end GoQrl.Types
