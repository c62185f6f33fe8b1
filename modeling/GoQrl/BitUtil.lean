import GoQrl.Bytes
import GoQrl.Lib.Bits

/-!
# GoQrl.BitUtil

The compression of sparse byte strings (`common/bitutil/compress.go`).

A string is stored as its non-zero bytes, behind the compressed bitset of their positions.  The
decoder accepts exactly what the encoder gives (`bitsetDecodePartialBytes_sound`,
`bitsetDecodePartialBytes_encode`), so that every byte of an accepted input is accounted for.

The size of the output is given by the caller, and it is allocated before the input is looked at:
`alloc` is the number of bytes that `make` can allocate, and the decoder panics above it
(`decompressBytes_spec`).  What the encoder needs is less than three times the data that it was
given, and is taken to be there.
-/

namespace GoQrl.BitUtil

open Bits List

/-- The errors of the decoder; `panicked` is an index out of range, or memory that cannot be
allocated. -/
inductive CompressError
  /-- "missing bytes on input" -/
  | missingData
  /-- "extra bytes on input" -/
  | unreferencedData
  /-- "target data size exceeded" -/
  | exceededTarget
  /-- "zero byte in input content" -/
  | zeroContent
  | panicked

/-! ## the encoder -/

/-- The loop of `bitsetEncodeBytes`, from index `i` on. -/
def gather : Nat → Bytes → Bytes → Bytes → Except CompressError (Bytes × Bytes)
  | _, [], nonZeroBitset, nonZeroBytes => .ok (nonZeroBitset, nonZeroBytes)
  | i, b :: data, nonZeroBitset, nonZeroBytes =>
    if b ≠ 0 then
      match orAt nonZeroBitset (i / 8) (1 <<< UInt8.ofNat (7 - i % 8)) with
      | none => .error .panicked
      | some nonZeroBitset => gather (i + 1) data nonZeroBitset (nonZeroBytes ++ [b])
    else gather (i + 1) data nonZeroBitset nonZeroBytes

/-- Bit `i` of a bitset, which starts with the highest bit of its first byte. -/
def flag (bitset : Bytes) (i : Nat) : Bool := get bitset (i / 8 * 8 + (7 - i % 8))

/-- Whether a byte of the data is set. -/
def isSet (b : UInt8) : Bool := decide (b ≠ 0)

/-- The bitset has the positions of the bytes that are set. -/
structure Marks (bitset x : Bytes) : Prop where
  length : bitset.length = (x.length + 7) / 8
  flags : ∀ i, flag bitset i = isSet (x.getD i 0)

theorem gather_spec {i : Nat} {done data bitset bytes : Bytes} (hi : done.length = i)
    (hlen : i + data.length ≤ 8 * bitset.length)
    (hflags : ∀ j, flag bitset j = isSet (done.getD j 0)) :
    ∃ bitset', gather i data bitset bytes = .ok (bitset', bytes ++ data.filter isSet) ∧
      bitset'.length = bitset.length ∧ ∀ j, flag bitset' j = isSet ((done ++ data).getD j 0) := by
  induction data generalizing i done bitset bytes with
  | nil => exact ⟨bitset, by simp [gather], rfl, by simpa using hflags⟩
  | cons b data ih =>
    rw [length_cons] at hlen
    have hcons : done ++ b :: data = done ++ [b] ++ data := by simp
    rw [gather, hcons]
    by_cases hb : b ≠ 0
    · obtain ⟨bitset1, hor, hlen1, hget1⟩ :=
        orAt_of_lt (show i / 8 < bitset.length by omega) (1 <<< UInt8.ofNat (7 - i % 8))
      have hflags1 : ∀ j, flag bitset1 j = isSet ((done ++ [b]).getD j 0) := by
        intro j
        rw [flag, hget1, testBit_one_shiftLeft _ (by omega) _ (by omega)]
        have := hflags j
        rw [flag] at this
        grind [isSet]
      obtain ⟨bitset', hres, hlen', hflags'⟩ :=
        @ih (i + 1) (done ++ [b]) bitset1 (bytes ++ [b]) (by simp [hi]) (by omega) hflags1
      refine ⟨bitset', ?_, by omega, hflags'⟩
      rw [if_pos hb, hor, filter_cons_of_pos (by simpa [isSet] using hb)]
      simpa using hres
    · rw [if_neg hb, filter_cons_of_neg (by simpa [isSet] using hb)]
      refine ih (by simp [hi]) (by omega) fun j => ?_
      grind [isSet]

theorem length_gather {i : Nat} {data bitset bytes bitset' bytes' : Bytes}
    (h : gather i data bitset bytes = .ok (bitset', bytes')) : bitset'.length = bitset.length := by
  induction data generalizing i bitset bytes with
  | nil =>
    cases h
    rfl
  | cons b data ih =>
    rw [gather] at h
    split at h
    · rw [orAt] at h
      split at h
      · cases h
      · next heq =>
        split at heq
        · rw [ih h, ← Option.some.inj heq, length_modify]
        · cases heq
    · exact ih h

/-- `bitsetEncodeBytes`. -/
def bitsetEncodeBytes (data : Bytes) : Except CompressError Bytes :=
  if data.length = 0 then .ok []
  else if data.length = 1 then if data = [0] then .ok [] else .ok data
  else
    match _hg : gather 0 data (List.replicate ((data.length + 7) / 8) 0) [] with
    | .error e => .error e
    | .ok (nonZeroBitset, nonZeroBytes) =>
      if nonZeroBytes.length = 0 then .ok []
      else
        match bitsetEncodeBytes nonZeroBitset with
        | .error e => .error e
        | .ok out => .ok (out ++ nonZeroBytes)
termination_by data.length
decreasing_by
  have := length_gather _hg
  rw [List.length_replicate] at this
  omega

/-- `CompressBytes`. -/
def compressBytes (data : Bytes) : Except CompressError Bytes :=
  match bitsetEncodeBytes data with
  | .error e => .error e
  | .ok out => if out.length < data.length then .ok out else .ok data

section

variable {x bitset : Bytes}

theorem exists_marks (x : Bytes) : ∃ bitset, Marks bitset x ∧
    gather 0 x (replicate ((x.length + 7) / 8) 0) [] = .ok (bitset, x.filter isSet) := by
  obtain ⟨bitset, hres, hlen, hflags⟩ :=
    @gather_spec 0 [] x (replicate ((x.length + 7) / 8) 0) [] rfl
    (by simp; omega) fun j => by simp [flag, isSet]
  exact ⟨bitset, ⟨by simpa using hlen, hflags⟩, hres⟩

theorem Marks.ext {bitset' : Bytes} (h : Marks bitset x) (h' : Marks bitset' x) :
    bitset = bitset' := by
  refine Bits.ext (h.length.trans h'.length.symm) fun i _ => ?_
  have heq := (h.flags (i / 8 * 8 + (7 - i % 8))).trans (h'.flags _).symm
  rwa [flag, flag, show (i / 8 * 8 + (7 - i % 8)) / 8 * 8 + (7 - (i / 8 * 8 + (7 - i % 8)) % 8) =
    i by omega] at heq

theorem filter_isSet_eq_nil : x.filter isSet = [] ↔ x = List.replicate x.length 0 := by
  simp [isSet, eq_replicate_iff]

/-- Nothing is set in the bitset of a string with nothing set. -/
theorem Marks.filter_eq_nil (h : Marks bitset x) :
    bitset.filter isSet = [] ↔ x.filter isSet = [] := by
  constructor
  · intro hnil
    refine filter_eq_nil_iff.mpr fun b hb => ?_
    obtain ⟨i, hi, rfl⟩ := getElem_of_mem hb
    have hflag := h.flags i
    rw [filter_isSet_eq_nil.mp hnil] at hflag
    simpa [flag, hi] using hflag.symm
  · intro hnil
    refine filter_isSet_eq_nil.mpr (h.ext ⟨by simpa using h.length, fun i => ?_⟩)
    rw [filter_isSet_eq_nil.mp hnil]
    simp [flag, isSet]

/-- What is set nowhere is encoded as nothing. -/
theorem encode_zero (h : x.filter isSet = []) : bitsetEncodeBytes x = .ok [] := by
  obtain ⟨bitset, -, hg⟩ := exists_marks x
  rw [h] at hg
  have hx := filter_isSet_eq_nil.mp h
  rw [bitsetEncodeBytes]
  split
  · rfl
  · split
    · next h1 => rw [if_pos (by rw [hx, h1]; rfl)]
    · split
      · next hg' => cases hg.symm.trans hg'
      · next hg' =>
        cases hg.symm.trans hg'
        rfl

/-- The encoding: the encoded bitset, and the bytes that are set. -/
theorem encode_eq (hm : Marks bitset x) (hlen : 1 < x.length) :
    bitsetEncodeBytes x = (bitsetEncodeBytes bitset).map (· ++ x.filter isSet) := by
  obtain ⟨_, hm', hg⟩ := exists_marks x
  obtain rfl := hm.ext hm'
  by_cases hnil : x.filter isSet = []
  · rw [encode_zero hnil, encode_zero (hm.filter_eq_nil.mpr hnil), hnil]
    rfl
  · rw [bitsetEncodeBytes, if_neg (by omega), if_neg (by omega)]
    split
    · next hg' => cases hg.symm.trans hg'
    · next hg' =>
      cases hg.symm.trans hg'
      rw [if_neg (by simpa using hnil)]
      cases bitsetEncodeBytes bitset <;> rfl

theorem encode_singleton (b : UInt8) : bitsetEncodeBytes [b] = .ok (if b = 0 then [] else [b]) := by
  rw [bitsetEncodeBytes]
  by_cases hb : b = 0 <;> simp [hb]

theorem exists_encode (x : Bytes) : ∃ c, bitsetEncodeBytes x = .ok c := by
  induction hn : x.length using Nat.strong_induction_on generalizing x with
  | _ n ih =>
    match x, hn with
    | [], _ => exact ⟨[], encode_zero rfl⟩
    | [b], _ => exact ⟨_, encode_singleton b⟩
    | a :: b :: x, hn =>
      obtain ⟨bitset, hm, -⟩ := exists_marks (a :: b :: x)
      have hlen := hm.length
      simp only [length_cons] at hn hlen
      obtain ⟨c, hc⟩ := ih bitset.length (by omega) bitset rfl
      exact ⟨_, by rw [encode_eq hm (by simp), hc]; rfl⟩

end

/-! ## the decoder -/

/-- The loop of `bitsetDecodePartialBytes`, with `n` rounds left from index `i` on. -/
def scatter (data nonZeroBitset : Bytes) :
    Nat → Nat → Bytes → Nat → Except CompressError (Bytes × Nat)
  | 0, _, decomp, ptr => .ok (decomp, ptr)
  | n + 1, i, decomp, ptr =>
    match nonZeroBitset[i / 8]? with
    | none => .error .panicked
    | some b =>
      if b &&& (1 <<< UInt8.ofNat (7 - i % 8)) ≠ 0 then
        if ptr ≥ data.length then .error .missingData
        else if i ≥ decomp.length then .error .exceededTarget
        else
          match data[ptr]? with
          | none => .error .panicked
          | some v =>
            if v = 0 then .error .zeroContent
            else scatter data nonZeroBitset n (i + 1) (decomp.set i v) (ptr + 1)
      else scatter data nonZeroBitset n (i + 1) decomp ptr

/-- `bitsetDecodePartialBytes`: the output, and the number of bytes it was read from. -/
def bitsetDecodePartialBytes (alloc : Nat) (data : Bytes) (target : Nat) :
    Except CompressError (Bytes × Nat) :=
  if target = 0 then .ok ([], 0)
  else if alloc < target then .error .panicked
  else
    match data with
    | [] => .ok (List.replicate target 0, 0)
    | b :: _ =>
      if target = 1 then if b ≠ 0 then .ok ([b], 1) else .ok ([b], 0)
      else
        match bitsetDecodePartialBytes alloc data ((target + 7) / 8) with
        | .error e => .error e
        | .ok (nonZeroBitset, ptr) =>
          scatter data nonZeroBitset (8 * nonZeroBitset.length) 0 (List.replicate target 0) ptr
termination_by target
decreasing_by omega

/-- `bitsetDecodeBytes`. -/
def bitsetDecodeBytes (alloc : Nat) (data : Bytes) (target : Nat) : Except CompressError Bytes :=
  match bitsetDecodePartialBytes alloc data target with
  | .error e => .error e
  | .ok (out, size) => if size ≠ data.length then .error .unreferencedData else .ok out

/-- `DecompressBytes`. -/
def decompressBytes (alloc : Nat) (data : Bytes) (target : Int) : Except CompressError Bytes :=
  if data.length > target then .error .exceededTarget
  else if data.length = target then if alloc < data.length then .error .panicked else .ok data
  else bitsetDecodeBytes alloc data target.toNat

section

variable {data bitset out : Bytes} {alloc target size : Nat}

/-- The bit that a round of the loop looks at. -/
theorem flag_iff {i : Nat} (hi : i / 8 < bitset.length) :
    bitset[i / 8] &&& (1 <<< UInt8.ofNat (7 - i % 8)) ≠ 0 ↔ flag bitset i = true := by
  rw [and_one_shiftLeft (by omega), flag, Bits.get,
    show (i / 8 * 8 + (7 - i % 8)) / 8 = i / 8 by omega,
    show (i / 8 * 8 + (7 - i % 8)) % 8 = 7 - i % 8 by omega]
  simp [hi]

theorem flag_of_le {j : Nat} (h : 8 * bitset.length ≤ j) : flag bitset j = false := by
  rw [flag, Bits.get, getD_eq_default _ _ (by omega)]
  simp

/-- **The loop** puts bytes that are set at the positions of the bitset, and nothing else. -/
theorem scatter_iff {n i k ptr : Nat} {done : Bytes} (hi : done.length ≤ i)
    (hk : k ≠ 0 → done.length = i) (hkn : k ≤ n) (hn : i + n = 8 * bitset.length) :
    scatter data bitset n i (done ++ replicate k 0) ptr = .ok (out, size) ↔
      ∃ x : Bytes, x.length = k ∧ out = done ++ x ∧
        (∀ j < n, flag bitset (i + j) = isSet (x.getD j 0)) ∧
        data.drop ptr = x.filter isSet ++ data.drop size ∧
          size = ptr + (x.filter isSet).length := by
  induction n generalizing i k ptr done with
  | zero =>
    obtain rfl : k = 0 := by omega
    simp only [length_eq_zero_iff, exists_eq_left, scatter]
    grind
  | succ n ih =>
    have hlt : i / 8 < bitset.length := by omega
    have hflags : ∀ x : Bytes, (∀ j < n + 1, flag bitset (i + j) = isSet (x.getD j 0)) ↔
        flag bitset i = isSet (x.getD 0 0) ∧
          ∀ j < n, flag bitset (i + 1 + j) = isSet (x.getD (j + 1) 0) := by
      intro x
      rw [Nat.forall_lt_succ_left]
      refine and_congr Iff.rfl (forall₂_congr fun j _ => ?_)
      rw [show i + (j + 1) = i + 1 + j by omega]
    simp only [scatter, getElem?_eq_getElem hlt, flag_iff hlt, hflags]
    cases k with
    | zero =>
      -- behind the target every bit is clear
      have hrest := @ih (i + 1) 0 ptr done (by omega) (by omega) (by omega) (by omega)
      cases hf : flag bitset i with
      | true => grind [isSet]
      | false => simpa [isSet] using hrest
    | succ k =>
      obtain rfl := hk (by omega)
      have hnext := fun v ptr =>
          @ih (done.length + 1) k ptr (done ++ [v]) (by simp) (by simp) (by omega) (by omega)
      have hstep : ∀ v ptr,
          scatter data bitset n (done.length + 1) (done ++ v :: replicate k 0) ptr =
          scatter data bitset n (done.length + 1) (done ++ [v] ++ replicate k 0) ptr := by simp
      have hset : ∀ v, (done ++ replicate (k + 1) 0).set done.length v = done ++
          v :: replicate k 0 := by
        simp [replicate_succ]
      cases hf : flag bitset done.length with
      | true =>
        constructor
        · intro h
          rw [if_pos rfl] at h
          split at h
          · cases h
          · next hp =>
            rw [if_neg (by simp), getElem?_eq_getElem (by omega)] at h
            simp only at h
            split at h
            · cases h
            · next hv =>
              rw [hset, hstep, hnext] at h
              obtain ⟨x, hx, rfl, hfl, hd, hs⟩ := h
              refine ⟨data[ptr] :: x, by simp [hx], by simp, ⟨by simp [isSet, hv], hfl⟩, ?_⟩
              rw [filter_cons_of_pos (by simpa [isSet] using hv),
                drop_eq_getElem_cons (by omega), hd]
              refine ⟨rfl, ?_⟩
              rw [length_cons]
              omega
        · rintro ⟨x, hx, rfl, ⟨h0, hfl⟩, hd, hs⟩
          obtain ⟨v, x, rfl⟩ := exists_cons_of_length_eq_add_one hx
          have hv : isSet v = true := h0.symm
          rw [filter_cons_of_pos hv] at hd
          rw [filter_cons_of_pos hv, length_cons] at hs
          have hp : ptr < data.length := by
            by_contra hge
            rw [drop_eq_nil_of_le (by omega)] at hd
            cases hd
          rw [drop_eq_getElem_cons hp] at hd
          obtain ⟨rfl, htail⟩ := List.cons.inj hd
          have hne : data[ptr] ≠ 0 := by simpa [isSet] using hv
          rw [if_pos rfl, if_neg (by omega), if_neg (by simp), getElem?_eq_getElem hp]
          simp only [if_neg hne]
          rw [hset, hstep, hnext]
          exact ⟨x, by simpa using hx, by simp, hfl, htail, by omega⟩
      | false =>
        have := hnext 0 ptr
        simp only [Bool.false_eq_true, if_false, replicate_succ, hstep, this]
        constructor
        · rintro ⟨x, hx, rfl, hfl, hd, hs⟩
          exact ⟨0 :: x, by simp [hx], by simp, ⟨rfl, hfl⟩, hd, hs⟩
        · rintro ⟨x, hx, rfl, ⟨h0, hfl⟩, hd, hs⟩
          obtain ⟨v, x, rfl⟩ := exists_cons_of_length_eq_add_one hx
          obtain rfl : v = 0 := by simpa [isSet] using h0.symm
          exact ⟨x, by simpa using hx, by simp, hfl, hd, hs⟩

theorem scatter_ne_panicked {n i ptr : Nat} {decomp : Bytes} (hn : i + n = 8 * bitset.length) :
    scatter data bitset n i decomp ptr ≠ .error .panicked := by
  induction n generalizing i ptr decomp with
  | zero => exact nofun
  | succ n ih =>
    rw [scatter]
    grind

/-- **What is decoded** is the encoding of the output. -/
theorem bitsetDecodePartialBytes_sound
    (h : bitsetDecodePartialBytes alloc data target = .ok (out, size)) :
    out.length = target ∧ size ≤ data.length ∧ bitsetEncodeBytes out = .ok (data.take size) := by
  induction target using Nat.strong_induction_on generalizing out size with
  | _ target ih =>
    rw [bitsetDecodePartialBytes.eq_def] at h
    split at h
    · next h0 =>
      cases h
      exact ⟨h0.symm, Nat.zero_le _, encode_zero rfl⟩
    · have hle : ¬ alloc < target := fun hlt => by simp [hlt] at h
      rw [if_neg hle] at h
      split at h
      · cases h
        exact ⟨by simp, le_rfl, encode_zero (by simp [isSet])⟩
      · next b data =>
        split at h
        · next h1 =>
          split at h
          · next hb =>
            cases h
            exact ⟨h1.symm, by simp, by rw [encode_singleton, if_neg hb]; rfl⟩
          · next hb =>
            cases h
            exact ⟨h1.symm, by simp, by rw [encode_singleton, if_pos (not_not.mp hb)]; rfl⟩
        · split at h
          · cases h
          · next bitset ptr hrec =>
            obtain ⟨hlen, hptr, henc⟩ := ih _ (by omega) hrec
            obtain ⟨_, hx, rfl, hfl, hd, hs⟩ :=
              (@scatter_iff (b :: data) bitset out size _ 0 target ptr []
              (le_refl 0) (fun _ => rfl) (by omega) (zero_add _)).mp h
            have hm : Marks bitset out := by
              refine ⟨by rw [hlen, hx], fun j => ?_⟩
              by_cases hj : j < 8 * bitset.length
              · simpa using hfl j hj
              · rw [flag_of_le (by omega), getD_eq_default _ _ (by omega)]
                rfl
            have hlens := congrArg List.length hd
            rw [length_append, length_drop] at hlens
            have htake : (b :: data).take size = (b :: data).take ptr ++ out.filter isSet := by
              rw [hs, take_add, hd, take_left]
            refine ⟨hx, by omega, ?_⟩
            rw [encode_eq hm (by omega), henc, htake]
            rfl

/-- **What is encoded** is read back, with anything behind it. -/
theorem bitsetDecodePartialBytes_encode {x c : Bytes} (h : bitsetEncodeBytes x = .ok c)
    (hx : x.filter isSet ≠ []) (halloc : x.length ≤ alloc) (rest : Bytes) :
    bitsetDecodePartialBytes alloc (c ++ rest) x.length = .ok (x, c.length) := by
  induction hn : x.length using Nat.strong_induction_on generalizing x c rest with
  | _ n ih =>
    match x, hn with
    | [], _ => exact absurd rfl hx
    | [b], hn =>
      have hb : b ≠ 0 := by
        rintro rfl
        exact hx rfl
      rw [encode_singleton] at h
      cases h
      rw [← hn, bitsetDecodePartialBytes.eq_def, if_neg (by simp), if_neg (by omega)]
      simp [hb]
    | a :: b :: x, hn =>
      obtain ⟨bitset, hm, -⟩ := exists_marks (a :: b :: x)
      obtain ⟨c0, hc0⟩ := exists_encode bitset
      rw [encode_eq hm (by simp), hc0] at h
      cases h
      have hlen := hm.length
      rw [hn] at hlen halloc
      rw [length_cons, length_cons] at hn
      have hrec := @ih bitset.length (by omega) bitset c0 hc0 (mt hm.filter_eq_nil.mp hx) (by omega)
        ((a :: b :: x).filter isSet ++ rest) rfl
      rw [← append_assoc, hlen] at hrec
      have hscatter := (@scatter_iff (c0 ++ (a :: b :: x).filter isSet ++ rest) bitset
        (a :: b :: x) _ _ 0 n c0.length [] (le_refl 0) (fun _ => rfl) (by omega) (zero_add _)).mpr
          ⟨a :: b :: x, by simpa using hn, rfl, fun j _ => by rw [zero_add, hm.flags], by simp, rfl⟩
      obtain ⟨d, data, hdata⟩ := exists_cons_of_ne_nil
        (show c0 ++ (a :: b :: x).filter isSet ++ rest ≠ [] by simp [hx])
      rw [bitsetDecodePartialBytes.eq_def, if_neg (by omega), if_neg (by omega)]
      rw [hdata] at hrec hscatter ⊢
      simp only [if_neg (show n ≠ 1 by omega), hrec]
      rwa [length_append]

/-- The decoder panics just if the output cannot be allocated. -/
theorem bitsetDecodePartialBytes_panicked (alloc : Nat) (data : Bytes) (target : Nat) :
    bitsetDecodePartialBytes alloc data target = .error .panicked ↔ alloc < target := by
  induction target using Nat.strong_induction_on with
  | _ target ih =>
    rw [bitsetDecodePartialBytes.eq_def]
    by_cases hlt : alloc < target
    · simp [hlt, show target ≠ 0 by omega]
    · refine ⟨fun h => ?_, fun h => absurd h hlt⟩
      rw [if_neg hlt] at h
      split at h
      · cases h
      · split at h
        · cases h
        · split at h
          · split at h <;> cases h
          · split at h
            · next hrec => exact absurd ((ih _ (by omega)).mp (hrec.trans h)) (by omega)
            · exact absurd h (scatter_ne_panicked (zero_add _))

end

/-- **Compression** is undone by decompression if there is memory for the output. -/
theorem decompressBytes_compress (alloc : Nat) (x : Bytes) : ∃ c, compressBytes x = .ok c ∧
    (decompressBytes alloc c x.length = .ok x ↔ x.length ≤ alloc) := by
  obtain ⟨c, hc⟩ := exists_encode x
  rw [compressBytes, hc]
  by_cases hlt : c.length < x.length
  · refine ⟨c, if_pos hlt, ?_⟩
    rw [decompressBytes, if_neg (by omega), if_neg (by omega), Int.toNat_natCast, bitsetDecodeBytes]
    constructor
    · intro h
      by_contra hle
      rw [(bitsetDecodePartialBytes_panicked ..).mpr (by omega)] at h
      cases h
    · intro hle
      have hdec : bitsetDecodePartialBytes alloc c x.length = .ok (x, c.length) := by
        by_cases hx : x.filter isSet = []
        · rw [encode_zero hx] at hc
          cases hc
          rw [bitsetDecodePartialBytes.eq_def, if_neg (by omega), if_neg (by omega),
            ← filter_isSet_eq_nil.mp hx]
          rfl
        · simpa using bitsetDecodePartialBytes_encode hc hx hle []
      rw [hdec]
      exact if_neg (not_not.mpr rfl)
  · refine ⟨x, if_neg hlt, ?_⟩
    rw [decompressBytes, if_neg (by omega), if_pos rfl]
    by_cases hle : x.length ≤ alloc <;> simp [hle]

/-- **Compression** is undone by decompression, and decompression to any size stays inside its
buffers and gives an error, or a string of that size of which the input is the raw or the encoded
form: both just if the string of that size can be allocated, or is refused at once for being shorter
than the input. -/
theorem decompressBytes_spec (alloc : Nat) :
    (∀ x, ∃ c, compressBytes x = .ok c ∧
      (decompressBytes alloc c x.length = .ok x ↔ x.length ≤ alloc)) ∧
      ∀ d n, ((∃ e, decompressBytes alloc d n = .error e ∧ e ≠ .panicked) ∨
          ∃ out, decompressBytes alloc d n = .ok out ∧ (out.length : Int) = n ∧
            (d = out ∨ bitsetEncodeBytes out = .ok d)) ↔
        n < d.length ∨ n ≤ alloc := by
  refine ⟨decompressBytes_compress alloc, fun d n => ?_⟩
  rw [decompressBytes]
  by_cases hlt : (d.length : Int) > n
  · rw [if_pos hlt]
    exact ⟨fun _ => .inl hlt, fun _ => .inl ⟨_, rfl, nofun⟩⟩
  rw [if_neg hlt]
  by_cases heq : (d.length : Int) = n
  · rw [if_pos heq]
    by_cases hle : alloc < d.length
    · simp [hle]
      omega
    · simp [hle, heq]
      omega
  rw [if_neg heq, bitsetDecodeBytes]
  cases hdec : bitsetDecodePartialBytes alloc d n.toNat with
  | error e =>
    have hpanic := bitsetDecodePartialBytes_panicked alloc d n.toNat
    rw [hdec] at hpanic
    constructor
    · rintro (⟨_, he, hne⟩ | ⟨_, hout, -⟩)
      · cases he
        exact .inr (by by_contra hgt; exact hne (Except.error.inj (hpanic.mpr (by omega))))
      · cases hout
    · intro hn
      refine .inl ⟨e, rfl, fun he => ?_⟩
      have hgt := hpanic.mp (by rw [he])
      omega
  | ok res =>
    obtain ⟨out, size⟩ := res
    have hpanic := bitsetDecodePartialBytes_panicked alloc d n.toNat
    obtain ⟨hlen, -, henc⟩ := bitsetDecodePartialBytes_sound hdec
    refine ⟨fun _ => .inr ?_, fun _ => ?_⟩
    · by_contra hgt
      rw [hpanic.mpr (by omega)] at hdec
      cases hdec
    · by_cases hsize : size = d.length
      · refine .inr ⟨out, if_neg (not_not.mpr hsize), by omega, .inr ?_⟩
        rw [henc, hsize, take_length]
      · exact .inl ⟨_, if_pos hsize, nofun⟩

/-- **A size that cannot be allocated:** without any input, the string of `2 ^ 62` zeros is asked
for. -/
theorem decompressBytes_oversized : decompressBytes (2 ^ 48) [] (2 ^ 62) = .error .panicked := by
  rw [decompressBytes, if_neg (by simp), if_neg (by simp), bitsetDecodeBytes,
    (bitsetDecodePartialBytes_panicked ..).mpr (by decide)]

end GoQrl.BitUtil
