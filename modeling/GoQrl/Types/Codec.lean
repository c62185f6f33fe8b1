import GoQrl.Types.Transaction

/-!
# GoQrl.Types.Codec

The codec of transactions is canonical.  The decoders of the fields accept exactly the
encodings of the fields, and the writers emit them, so the list of the fields
(`encodeFields`) is both what is read and what is written.
-/

namespace GoQrl.Types

open Rlp Rlp.Stream Mpt DynamicFeeTx Transaction
open List hiding nil get insert

/-! ## encodings -/

/-- The encoding of a list of hashes. -/
def encodeHashes (hs : List Hash) : Bytes := encodeList (hs.flatMap fun h => encodeString h.bytes)

/-- The encoding of an access tuple. -/
def AccessTuple.enc (tuple : AccessTuple) : Bytes :=
  encodeList (encodeString tuple.address.val ++ (encodeHashes tuple.storageKeys ++ []))

/-- The encodings of the fields, one after the other. -/
def encodeFields : TxFields → Bytes
  | (chainID, nonce, gasTipCap, gasFeeCap, gas, recipient, value, data, accessList, descriptor,
      extraParams, signature, publicKey, ()) =>
      encodeString (natBytes chainID) ++ (encodeString (natBytes nonce.toNat) ++
      (encodeString (natBytes gasTipCap) ++ (encodeString (natBytes gasFeeCap) ++
      (encodeString (natBytes gas.toNat) ++
      (encodeNilPtr (fun a => encodeString a.val) recipient ++ (encodeString (natBytes value) ++
      (encodeString data ++ (encodeList (accessList.flatMap AccessTuple.enc) ++
      (encodeString descriptor.val ++ (encodeString extraParams ++ (encodeString signature ++
      (encodeString publicKey ++ []))))))))))))

/-! ## decoding -/

variable {fuel : Nat}

theorem reads_decodeHash : Reads fuel decodeHash fun h => encodeString h.bytes :=
  (reads_decodeByteArray "common.Hash" (by decide)).map _ hashArray (fun _ => rfl) fun _ => rfl

/-- An access tuple is read back, and nothing else is accepted. -/
theorem reads_decodeAccessTuple : Reads fuel (decodeAccessTuple fuel) AccessTuple.enc := by
  have hkeys : Reads fuel (decodeListSlice "[]common.Hash" decodeHash fuel) encodeHashes :=
    (reads_decodeHash.slice _).mono (Nat.le_succ _)
  have haddress : Reads fuel (decodeByteArray "common.Address" 20) fun a => encodeString a.val :=
    reads_decodeByteArray _ (by decide)
  have hfields := (readsFields_nil.cons hkeys "types.AccessTuple" "StorageKeys").cons haddress
    "types.AccessTuple" "Address"
  exact ((hfields.struct "types.AccessTuple").map _ (fun t : AccessTuple =>
    (t.address, t.storageKeys, ()))
    (fun _ => rfl) fun _ => rfl).mono (Nat.le_succ _)

/-- An array can be read after its kind was asked for. -/
theorem decodeByteArray_ahead {n : Nat} {typ : String} {s s' : Stream} {k : Kind} {size : UInt64}
    (h : s.kindAhead = (.ok (k, size), s')) (ha : Ahead s' k size) :
    decodeByteArray typ n s' = decodeByteArray typ n s := by
  unfold decodeByteArray
  rw [h, ha.kindAhead]

/-- A recipient is an address or the empty string. -/
theorem reads_decodeRecipient :
    Reads fuel (decodeNilPtr "*common.Address" .string (decodeByteArray "common.Address" 20))
      (encodeNilPtr fun a => encodeString a.val) := by
  refine (reads_decodeByteArray "common.Address" (by decide)).nilPtr _ decodeByteArray_ahead
    fun a h => ?_
  have hlen := a.property
  rw [h] at hlen
  exact absurd hlen (by decide)

/-- **The fields** are read in the order of the struct. -/
theorem reads_decodeTxFields : ReadsFields fuel (decodeTxFields fuel) encodeFields := by
  have hlist : Reads fuel (decodeListSlice "types.AccessList" (decodeAccessTuple fuel) fuel)
      fun ts => encodeList (ts.flatMap AccessTuple.enc) :=
    (reads_decodeAccessTuple.slice _).mono (Nat.le_succ _)
  have hdesc : Reads fuel (decodeByteArray "[3]uint8" 3) fun b => encodeString b.val :=
    reads_decodeByteArray _ (by decide)
  exact (((((((((((((readsFields_nil.cons reads_decodeByteSlice _ _).cons
    reads_decodeByteSlice _ _).cons
    reads_decodeByteSlice _ _).cons hdesc _ _).cons hlist _ _).cons reads_decodeByteSlice _ _).cons
    reads_decodeBigInt _ _).cons reads_decodeRecipient _ _).cons reads_decodeUint64 _ _).cons
    reads_decodeBigInt _ _).cons reads_decodeBigInt _ _).cons reads_decodeUint64 _ _).cons
    reads_decodeBigInt _ _)

variable {tx : DynamicFeeTx} {inner : DynamicFeeTx}

/-- **`DynamicFeeTx.decode`** accepts exactly the lists of fields. -/
theorem DynamicFeeTx.decode_iff {input : Bytes} (hlen : input.length < 2 ^ 62) :
    decode input = .ok tx ↔ ∃ f, ofFields f = tx ∧ encodeList (encodeFields f) = input :=
  reads_decodeTxFields.decodeBytes_iff hlen _ _

/-! ## encoding -/

theorem length_le_flatMap {α : Type} {as : List α} {a : α} (h : a ∈ as) (enc : α → Bytes) :
    (enc a).length ≤ (as.flatMap enc).length := by
  induction as with
  | nil => cases h
  | cons b as ih =>
    rw [flatMap_cons, length_append]
    rcases mem_cons.mp h with rfl | hmem
    · exact Nat.le_add_right _ _
    · exact le_trans (ih hmem) (Nat.le_add_left _ _)

/-- A slice of values of one type. -/
theorem writes_slice_map {α : Type} {write : α → Writer} {enc : α → Bytes} {as : List α}
    (h : ∀ a ∈ as, Writes (write a) (enc a)) (hlen : (as.flatMap enc).length < 2 ^ 64) :
    Writes (writeSlice (as.map write)) (encodeList (as.flatMap enc)) := by
  have hflat : (as.map fun a => (write a, enc a)).flatMap Prod.snd = as.flatMap enc := by
    rw [flatMap_map]
  have hws := writes_slice (as.map fun a => (write a, enc a)) (fun w hw => by
      obtain ⟨a, ha, rfl⟩ := mem_map.mp hw
      exact h a ha)
    (by rwa [hflat])
  rwa [hflat, map_map] at hws

/-- An access tuple is written as the list of its fields. -/
theorem AccessTuple.writes (t : AccessTuple) (hlen : t.enc.length < 2 ^ 64) :
    Writes t.write t.enc := by
  have hfields :=
    length_lt_encodeList (encodeString t.address.val ++ (encodeHashes t.storageKeys ++ []))
  have hkeys := length_lt_encodeList (t.storageKeys.flatMap fun h => encodeString h.bytes)
  simp only [AccessTuple.enc, encodeHashes, length_append] at hlen hfields hkeys
  have haddr : Writes (fun buf => .ok (buf.writeByteArray t.address))
      (encodeString t.address.val) :=
    writes_of_emits (emits_writeByteArray _)
  have hslice : Writes (writeSlice (t.storageKeys.map writeHash)) (encodeHashes t.storageKeys) :=
    writes_slice_map (fun h _ => writes_of_emits (emits_writeByteArray (hashArray h))) (by omega)
  refine writes_struct [(fun buf => .ok (buf.writeByteArray t.address), encodeString t.address.val),
    (writeSlice (t.storageKeys.map writeHash), encodeHashes t.storageKeys)] ?_ ?_
  · intro w hw
    rcases mem_cons.mp hw with rfl | hw
    · exact haddr
    · obtain rfl := mem_singleton.mp hw
      exact hslice
  · simp only [encodeHashes, flatMap_cons, flatMap_nil, length_append]
    omega

theorem writes_accessList {accessList : List AccessTuple}
    (hlen : (encodeList (accessList.flatMap AccessTuple.enc)).length < 2 ^ 64) :
    Writes (writeSlice (accessList.map AccessTuple.write))
      (encodeList (accessList.flatMap AccessTuple.enc)) := by
  have hlist := length_lt_encodeList (accessList.flatMap AccessTuple.enc)
  exact writes_slice_map (fun t ht => t.writes (by
    have := length_le_flatMap ht AccessTuple.enc
    omega)) (by omega)

theorem writes_bytes (b : Bytes) : Writes (fun buf => .ok (buf.writeBytes b)) (encodeString b) :=
  writes_of_emits (emits_writeBytes b)

theorem writes_uint64 (v : UInt64) :
    Writes (fun buf => .ok (buf.writeUint64 v.toNat)) (encodeString (natBytes v.toNat)) :=
  writes_of_emits (emits_writeUint64 v.toNat_lt)

/-- A missing recipient is written as the empty string. -/
theorem writes_recipient (recipient : Option Address) :
    Writes (writeNilPtr (fun a => EncBuffer.writeByteArray a) recipient)
      (encodeNilPtr (fun a => encodeString a.val) recipient) :=
  writes_nilPtr (fun a => emits_writeByteArray a) recipient

/-- **The writer** emits the list of the fields. -/
theorem DynamicFeeTx.writes (f : TxFields) (hlen : (encodeList (encodeFields f)).length < 2 ^ 64) :
    Writes (ofFields f).write (encodeList (encodeFields f)) := by
  have hall : (encodeFields f).length < 2 ^ 64 := lt_trans (length_lt_encodeList _) hlen
  obtain ⟨chainID, nonce, gasTipCap, gasFeeCap, gas, recipient, value, data, accessList, descriptor,
    extraParams, signature, publicKey, ⟨⟩⟩ := f
  have htuples : (encodeList (accessList.flatMap AccessTuple.enc)).length < 2 ^ 64 := by
    simp only [encodeFields, length_append] at hall
    omega
  have hdesc : Writes (fun buf => .ok (buf.writeByteArray descriptor))
      (encodeString descriptor.val) :=
    writes_of_emits (emits_writeByteArray _)
  refine writes_struct [(_, _), (_, _), (_, _), (_, _), (_, _), (_, _), (_, _), (_, _), (_, _),
    (_, _), (_, _), (_, _), (_, _)] ?_ hall
  simp only [mem_cons, not_mem_nil, or_false, forall_eq_or_imp, forall_eq]
  exact ⟨writes_bigIntPtr _, writes_uint64 _, writes_bigIntPtr _, writes_bigIntPtr _,
    writes_uint64 _,
    writes_recipient _, writes_bigIntPtr _, writes_bytes _, writes_accessList htuples, hdesc,
      writes_bytes _, writes_bytes _, writes_bytes _⟩

/-! ## transactions -/

/-- The fields of a transaction whose integers are not negative. -/
def DynamicFeeTx.toFields (tx : DynamicFeeTx) : TxFields :=
  ((tx.chainID.getD 0).toNat, tx.nonce, (tx.gasTipCap.getD 0).toNat,
    (tx.gasFeeCap.getD 0).toNat, tx.gas,
    tx.recipient, (tx.value.getD 0).toNat, tx.data, tx.accessList, tx.descriptor, tx.extraParams,
    tx.signature, tx.publicKey, ())

/-- No integer is negative; nil counts as zero. -/
structure DynamicFeeTx.Nonneg (tx : DynamicFeeTx) : Prop where
  chainID : 0 ≤ tx.chainID.getD 0
  gasTipCap : 0 ≤ tx.gasTipCap.getD 0
  gasFeeCap : 0 ≤ tx.gasFeeCap.getD 0
  value : 0 ≤ tx.value.getD 0

/-- The binary encoding. -/
def DynamicFeeTx.binary (tx : DynamicFeeTx) : Bytes :=
  dynamicFeeTxType :: encodeList (encodeFields tx.toFields)

/-- The encodings fit into a slice. -/
def DynamicFeeTx.Fits (tx : DynamicFeeTx) : Prop := (encodeString tx.binary).length < 2 ^ 62

/-- A transaction is determined by its fields. -/
theorem DynamicFeeTx.ofFields_toFields (h : tx.Nonneg) : ofFields tx.copy.toFields = tx.copy := by
  simp [ofFields, toFields, copy, Int.toNat_of_nonneg h.chainID, Int.toNat_of_nonneg h.gasTipCap,
    Int.toNat_of_nonneg h.gasFeeCap, Int.toNat_of_nonneg h.value]

theorem two_le_length_binary (tx : DynamicFeeTx) : 2 ≤ tx.binary.length := by
  have := length_pos_iff.mpr (encodeList_ne_nil (encodeFields tx.toFields))
  rw [binary, length_cons]
  omega

/-- **`decodeTyped`** accepts exactly the binary encodings. -/
theorem decodeTyped_iff {b : Bytes} (hlen : b.length < 2 ^ 62) :
    decodeTyped b = .ok tx ↔ ofFields tx.toFields = tx ∧ tx.binary = b := by
  have htwo := two_le_length_binary tx
  match b with
  | [] =>
    refine iff_of_false (by simp [decodeTyped]) fun h => ?_
    rw [h.2] at htwo
    exact absurd htwo (by decide)
  | [c] =>
    refine iff_of_false (by simp [decodeTyped]) fun h => ?_
    rw [h.2] at htwo
    exact absurd htwo (by simp)
  | typ :: c :: rest =>
    rw [decodeTyped]
    · by_cases htyp : typ = dynamicFeeTxType
      · rw [if_pos htyp, decode_iff (by rw [length_cons] at hlen; omega), htyp]
        constructor
        · rintro ⟨f, rfl, henc⟩
          exact ⟨rfl, congrArg (dynamicFeeTxType :: ·) henc⟩
        · rintro ⟨htx, hbin⟩
          exact ⟨tx.toFields, htx, (List.cons.inj hbin).2⟩
      · rw [if_neg htyp]
        refine iff_of_false (by simp) fun h => htyp ?_
        exact ((List.cons.inj h.2).1).symm
    · simp

/-- Binary form, size and hash of a transaction belong together. -/
structure Transaction.Encoded [Keccak] (tx : Transaction) (b : Bytes) : Prop where
  marshal : tx.marshalBinary = .ok b
  size : tx.size.map Prod.fst = .ok (UInt64.ofNat b.length)
  hash : tx.hash.map Prod.fst = .ok (Keccak.hash b)

/-- A transaction without a cached hash, and with no cached size or the right one. -/
theorem encoded_of_inner [Keccak] {tx : Transaction} (hinner : tx.inner = some inner)
    (hfields : ofFields inner.toFields = inner) (hlen : inner.binary.length < 2 ^ 62)
    (hhash : tx.hashCache = none)
    (hsize : tx.sizeCache = none ∨ tx.sizeCache = some (UInt64.ofNat inner.binary.length)) :
    tx.Encoded inner.binary := by
  have hwrite : encode inner.write = .ok (encodeList (encodeFields inner.toFields)) := by
    have hwrites := writes inner.toFields (by
      rw [binary, length_cons] at hlen
      omega)
    rw [hfields] at hwrites
    exact hwrites.encode
  refine ⟨?_, ?_, ?_⟩
  · simp [marshalBinary, encodeTyped, hinner, hwrite, binary]
  · unfold Transaction.size
    rcases hsize with hnone | hsome
    · rw [hnone, hinner]
      simp only [hwrite, binary, length_cons]
      rw [UInt64.ofNat_add]
      rfl
    · rw [hsome]
      rfl
  · unfold Transaction.hash
    rw [hhash, hinner]
    simp only [hwrite]
    rfl

/-- What a decoded transaction is set to. -/
theorem encoded_setDecoded [Keccak] {tx : Transaction}
    (hfields : ofFields inner.toFields = inner) (hlen : inner.binary.length < 2 ^ 62)
    (hhash : tx.hashCache = none) :
    (tx.setDecoded inner (UInt64.ofNat inner.binary.length)).Encoded inner.binary := by
  refine encoded_of_inner rfl hfields hlen hhash (.inr ?_)
  have htwo := two_le_length_binary inner
  have hpos : UInt64.ofNat inner.binary.length > 0 := by
    rw [gt_iff_lt, UInt64.lt_iff_toNat_lt, toNat_ofNat (by omega)]
    exact lt_of_lt_of_le (by decide) htwo
  exact if_pos hpos

/-! ### the RLP string -/

/-- `ReadBytes` of the size ahead is `Bytes`. -/
theorem readBytes_eq {s s' : Rlp.Stream} {size : UInt64}
    (hkind : s.kindAhead = (.ok (.string, size), s'))
    (ha : Ahead s' .string size) : s'.readBytes size.toNat = s.bytes := by
  unfold readBytes bytes
  rw [hkind, ha.kindAhead]
  exact if_neg (not_not.mpr UInt64.ofNat_toNat)

/-- The binary form of a transaction that fits is not too long either. -/
theorem DynamicFeeTx.Fits.length_binary (h : tx.Fits) : tx.binary.length < 2 ^ 62 :=
  lt_of_le_of_lt (length_le_encodeString _) h

/-- **`DecodeRLP`** of the string that holds the binary encoding. -/
theorem decodeRLP_of {tx : Transaction}
    (hfields : ofFields inner.toFields = inner) (hfits : inner.Fits) :
    decodeBytes "types.Transaction" tx.decodeRLP (encodeString inner.binary) =
      .ok (tx.setDecoded inner (UInt64.ofNat inner.binary.length)) := by
  have htwo := two_le_length_binary inner
  have hs := start_reset (encodeString_ne_nil inner.binary) hfits
  generalize hstream : Rlp.Stream.reset (encodeString inner.binary)
    (UInt64.ofNat (encodeString inner.binary).length) = s at hs
  have hr : s.r = encodeString inner.binary ++ [] := by rw [← hstream, append_nil]; rfl
  have hroom : Room (encodeString inner.binary).length s.stack := by
    rw [← hstream]
    simp [Room, Rlp.Stream.reset]
  obtain ⟨s', hb, hafter, -⟩ := bytes_of hs.ready hs.kind hr hroom
  obtain ⟨k, size, s1, hkind, -, -, hstring⟩ := kindAhead_of_bytes hs.ready hs.kind hb
  obtain ⟨rfl, hsize⟩ := hstring (by omega)
  obtain ⟨-, -, -, ha, -⟩ := kindAhead_ok hs.ready hs.kind hkind
  have hnil : s'.r = [] := by
    have := hafter.input
    rw [hr] at this
    exact (append_cancel_left this).symm
  have hlen := hfits.length_binary
  have hmax : ¬ size > maxInt := by
    rw [gt_iff_lt, UInt64.lt_iff_toNat_lt]
    have : maxInt.toNat = 2 ^ 63 - 1 := rfl
    omega
  have hofNat : size = UInt64.ofNat inner.binary.length := by rw [← hsize, UInt64.ofNat_toNat]
  rw [decodeBytes, hstream, decodeRLP, hkind]
  simp only [if_neg hmax, readBytes_eq hkind ha, hb,
    (decodeTyped_iff hlen).mpr ⟨hfields, rfl⟩, hnil]
  rw [← hofNat]
  rfl

/-! ## round trips -/

/-- **Accepted inputs**: a receiver without a cached hash is set to the transaction of
which the input is the binary form. -/
theorem unmarshalBinary_encoded [Keccak] {tx tx' : Transaction} {b : Slice}
    (hhash : tx.hashCache = none)
    (h : tx.unmarshalBinary b.bytes = .ok tx') : tx'.Encoded b.bytes := by
  unfold unmarshalBinary at h
  split at h
  · cases h
  next inner hdec =>
  cases h
  obtain ⟨hfields, hbin⟩ := (decodeTyped_iff b.fits).mp hdec
  rw [← hbin]
  exact encoded_setDecoded hfields (by rw [hbin]; exact b.fits) hhash

/-- **The codec of transactions is canonical.** -/
theorem transaction_codec [Keccak] :
    (∀ (tx tx' : Transaction) (b : Slice), tx.hashCache = none →
      tx.unmarshalBinary b.bytes = .ok tx' → tx'.Encoded b.bytes) ∧
    ∀ (inner : DynamicFeeTx) (tx : Transaction), inner.Nonneg → inner.copy.Fits →
      tx.hashCache = none →
      ∃ b r tx₁ tx₂, (newTx inner).Encoded b ∧ encode (newTx inner).encodeRLP = .ok r ∧
        tx.unmarshalBinary b = .ok tx₁ ∧ tx₁.inner = (newTx inner).inner ∧ tx₁.Encoded b ∧
        decodeBytes "types.Transaction" tx.decodeRLP r = .ok tx₂ ∧ tx₂.inner = (newTx inner).inner ∧
        tx₂.Encoded b := by
  refine ⟨fun _ _ _ => unmarshalBinary_encoded, fun inner tx hnonneg hfits hhash => ?_⟩
  have hfields := DynamicFeeTx.ofFields_toFields hnonneg
  have hlen := hfits.length_binary
  have hnew : (newTx inner).Encoded inner.copy.binary :=
    encoded_of_inner rfl hfields hlen rfl (.inl rfl)
  have hdecoded := encoded_setDecoded hfields hlen hhash
  have hunmarshal : tx.unmarshalBinary inner.copy.binary =
      .ok (tx.setDecoded inner.copy (UInt64.ofNat inner.copy.binary.length)) := by
    rw [Transaction.unmarshalBinary, (decodeTyped_iff hlen).mpr ⟨hfields, rfl⟩]
  refine ⟨inner.copy.binary, encodeString inner.copy.binary, _, _, hnew, ?_, hunmarshal,
    rfl, hdecoded, decodeRLP_of hfields hfits, rfl, hdecoded⟩
  have hmarshal : (newTx inner).encodeTyped = .ok inner.copy.binary := hnew.marshal
  have hwrites : Writes (newTx inner).encodeRLP (encodeString inner.copy.binary) := by
    refine ⟨EncBuffer.writeBytes inner.copy.binary, ?_, emits_writeBytes _⟩
    funext buf
    rw [Transaction.encodeRLP, hmarshal]
  exact hwrites.encode

/-! ### a transaction -/

/-- A transfer of the given amount, without a recipient. -/
def transfer (value : Int) : DynamicFeeTx where
  chainID := some 1
  nonce := 7
  gasTipCap := none
  gasFeeCap := some 1000
  gas := 21000
  recipient := none
  value := some value
  data := []
  accessList := []
  descriptor := Fixed.ofBytes 3 [1, 2, 3]
  extraParams := []
  signature := []
  publicKey := []

theorem transfer_nonneg : (transfer 5).Nonneg := by
  constructor <;> decide

theorem transfer_fits : (transfer 5).copy.Fits := by
  unfold Fits
  decide +kernel

theorem transaction_codec_transfer :
    letI := Keccak.sample
    ∃ b tx, (newTx (transfer 5)).Encoded b ∧ Transaction.zero.unmarshalBinary b = .ok tx ∧
      tx.inner = (newTx (transfer 5)).inner ∧ tx.Encoded b := by
  let _ := Keccak.sample
  obtain ⟨b, r, tx₁, tx₂, hnew, -, h, hinner, henc, -⟩ :=
    transaction_codec.2 (transfer 5) Transaction.zero transfer_nonneg transfer_fits rfl
  exact ⟨b, tx₁, hnew, h, hinner, henc⟩

/-- A negative amount cannot be marshalled, and a receiver that has been hashed keeps its hash. -/
theorem transaction_codec_fails :
    letI := Keccak.sample
    (newTx (transfer (-1))).marshalBinary = .error .negativeBigInt ∧
    ∃ (hash : Hash) (tx tx' : Transaction) (b : Slice), (newTx (transfer 9)).hash = .ok (hash, tx) ∧
      tx.unmarshalBinary b.bytes = .ok tx' ∧ tx'.hash.map Prod.fst ≠ .ok (Keccak.hash b.bytes) := by
  let _ := Keccak.sample
  let inner := DynamicFeeTx.ofFields (transfer 5).toFields
  have hlen : inner.binary.length < 2 ^ 62 := by decide +kernel
  have henc : (newTx (transfer 9)).Encoded (transfer 9).copy.binary :=
    encoded_of_inner rfl rfl (by decide +kernel) rfl (.inl rfl)
  obtain ⟨hash, htx⟩ : ∃ hash, (newTx (transfer 9)).hash =
      .ok (hash, { newTx (transfer 9) with hashCache := some hash }) := ⟨_, rfl⟩
  refine ⟨rfl, hash, _,
    Transaction.setDecoded { newTx (transfer 9) with hashCache := some hash } inner
    (UInt64.ofNat inner.binary.length), ⟨inner.binary, hlen⟩, htx, ?_, fun h => ?_⟩
  · rw [Transaction.unmarshalBinary, (decodeTyped_iff hlen).mpr ⟨rfl, rfl⟩]
  · have hold := henc.hash
    rw [htx] at hold
    have heq : sampleHash (transfer 9).copy.binary = sampleHash inner.binary :=
      (Except.ok.inj hold).symm.trans (Except.ok.inj h)
    revert heq
    decide +kernel
end GoQrl.Types
