import GoQrl.Rlp.StreamRead

/-!
# GoQrl.Rlp.Decoder

Decoders as inverses of encodings.

`Reads fuel dec enc` says that `dec` accepts exactly the encodings that `enc` writes,
and reads no more than the encoding.  The rule `Reads.slice` carries this from the
elements to the slice, and `Reads.decodeBytes` from the stream to `DecodeBytes`, which
also checks that nothing is left of the input.  The fuel bounds the iterations and the
nesting: every value has at least one byte, so the length of the input is enough.
-/

namespace GoQrl.Rlp

open Rlp.Stream List UInt64

variable {s s' : Stream} {e : RlpError}

/-! ## failures -/

/-- An error that is neither the end of a list nor the end of the budget. -/
def Hard (e : RlpError) : Prop := e ≠ .eol ∧ e ≠ .outOfFuel

instance (e : RlpError) : Decidable (Hard e) := inferInstanceAs (Decidable (_ ∧ _))

/-- How a decoder may fail: at the end of the list, with nothing read, or hard. -/
def Fails (s : Stream) (e : RlpError) (s' : Stream) : Prop :=
  (e = .eol ∧ s.stack.head? = some 0 ∧ s' = s) ∨ Hard e

/-- Inside a list that is not at its end every failure is hard. -/
theorem hard_of_fails (h : Fails s e s') (hopen : s.stack.head? ≠ some 0) : Hard e :=
  h.resolve_left fun h => hopen h.2.1

/-- A value larger than its list is a hard error. -/
theorem willRead_error {n : UInt64} (h : willRead n s = (.error e, s')) : Hard e := by
  have htake : ∀ {t : Stream}, takeRemaining n t = (.error e, s') → Hard e := by
    intro t ht
    unfold takeRemaining at ht
    split at ht
    · split at ht
      · cases ht
        decide
      · cases ht
    · cases ht
  unfold willRead at h
  split at h
  · exact htake h
  · split at h
    · cases h
      decide
    · exact htake h

theorem readByte_error (h : readByte s = (.error e, s')) : Hard e := by
  unfold readByte at h
  split at h
  · next hw =>
    cases h
    exact willRead_error hw
  · split at h
    · cases h
      decide
    · cases h

/-- So is the end of the input. -/
theorem readFull_error {n : Nat} (h : readFull n s = (.error e, s')) : Hard e := by
  unfold readFull at h
  split at h
  · next hw =>
    cases h
    exact willRead_error hw
  · split at h
    · cases h
      decide
    · cases h

theorem readUint_error {n : Nat} (h : readUint n s = (.error e, s')) : Hard e := by
  unfold readUint at h
  split at h
  · cases h
  · split at h
    · next hb =>
      cases h
      exact readByte_error hb
    · cases h
  · split at h
    · next hf =>
      cases h
      exact readFull_error hf
    · split at h
      · cases h
        decide
      · cases h

/-- A size that is not in its shortest form is a hard error. -/
theorem readSizeField_error {k : Kind} {n : Nat} (h : readSizeField k n s = (.error e, s')) :
    Hard e := by
  unfold readSizeField at h
  split at h
  · next hu =>
    cases h
    exact readUint_error hu
  · split at h
    · cases h
      decide
    · cases h

/-- At the top level a hard error stays hard. -/
theorem topLevelError_hard (stack : List UInt64) (h : Hard e) : Hard (topLevelError stack e) := by
  unfold topLevelError
  split
  · decide
  · decide
  · exact h

/-- No header is taken for the end of a list. -/
theorem readKind_error (h : s.readKind = (.error e, s')) : Hard e := by
  unfold Stream.readKind at h
  split at h
  · next hb =>
    cases h
    exact topLevelError_hard _ (readByte_error hb)
  · split at h
    · cases h
    split at h
    · cases h
    split at h
    · exact readSizeField_error h
    split at h
    · cases h
    · exact readSizeField_error h

section

variable (hk : s.kind = none)
include hk

/-- Asking for the kind fails at the end of a list, or is a hard error. -/
theorem kindAhead_error (h : kindAhead s = (.error e, s')) : Fails s e s' := by
  rw [kindAhead, hk] at h
  simp only at h
  split at h
  · next hend =>
    cases h
    exact .inl ⟨rfl, hend, rfl⟩
  split at h
  · next hr =>
    cases h
    exact .inr (readKind_error hr)
  split at h
  · cases h
  · next herr =>
    cases h
    refine .inr ?_
    unfold sizeError at herr
    split at herr
    · cases herr
      decide
    split at herr
    · cases herr
      decide
    · cases herr

theorem kindAhead_atEnd (hend : s.stack.head? = some 0) : kindAhead s = (.error .eol, s) := by
  rw [kindAhead, hk]
  simp [if_pos hend]

/-- Reading a string fails at the end of a list, or is a hard error. -/
theorem bytes_error (h : bytes s = (.error e, s')) : Fails s e s' := by
  unfold bytes at h
  split at h
  · next hkind =>
    cases h
    exact kindAhead_error hk hkind
  · cases h
  · split at h
    · next hf =>
      cases h
      exact .inr (readFull_error hf)
    split at h
    · cases h
      exact .inr (by decide)
    · cases h
  · cases h
    exact .inr (by decide)

/-- Entering a list fails at the end of the outer one, or is a hard error. -/
theorem list_error (h : list s = (.error e, s')) : Fails s e s' := by
  unfold list at h
  split at h
  · next hkind =>
    cases h
    exact kindAhead_error hk hkind
  · cases h
  · cases h
    exact .inr (by decide)

theorem list_atEnd (hend : s.stack.head? = some 0) : list s = (.error .eol, s) := by
  rw [list, kindAhead_atEnd hk hend]

end

/-- Leaving a list too early is a hard error. -/
theorem listEnd_error (h : listEnd s = (.error e, s')) : Hard e := by
  unfold listEnd at h
  split at h
  · cases h
    decide
  · split at h
    · cases h
      decide
    · cases h

/-- Wrapping an error does not make it the end of a list. -/
theorem Hard.wrap (h : Hard e) (typ : String) : Hard (wrapStreamError typ e) := by
  unfold wrapStreamError
  split <;> first | exact h | exact ⟨by simp, by simp⟩

theorem Hard.context (h : Hard e) (ctx : String) : Hard (addErrorContext ctx e) := by
  unfold addErrorContext
  split
  · exact ⟨by simp, by simp⟩
  · exact h

theorem Hard.target (h : Hard e) (typ : String) : Hard (addErrorTarget typ e) := by
  unfold addErrorTarget
  split
  · exact ⟨by simp, by simp⟩
  · exact h

theorem Fails.wrap (h : Fails s e s') (typ : String) : Fails s (wrapStreamError typ e) s' := by
  rcases h with ⟨rfl, hend, rfl⟩ | h
  · exact .inl ⟨rfl, hend, rfl⟩
  · exact .inr (h.wrap typ)

/-! ## decoders and encodings -/

/-- A stream before a value, with enough fuel for what is left. -/
structure Start (fuel : Nat) (s : Stream) : Prop where
  ready : Ready s
  kind : s.kind = none
  fuel : s.r.length < fuel

/-- A decoder can start where another one has ended. -/
theorem Start.after {fuel : Nat} {c : Bytes} (hs : Start fuel s) (h : After s c s')
    (hk : s'.kind = none) :
    Start fuel s' := by
  have hfuel := hs.fuel
  rw [h.input, length_append] at hfuel
  exact ⟨h.ready, hk, by omega⟩

/-- The decoder accepts exactly the encodings. -/
structure Reads {α : Type} (fuel : Nat) (dec : StreamM α) (enc : α → Bytes) : Prop where
  ok : ∀ {s s' : Stream} {a : α}, Start fuel s → dec s = (.ok a, s') →
    After s (enc a) s' ∧ s'.kind = none
  of : ∀ {s : Stream} {a : α} {rest : Bytes}, Start fuel s → s.r = enc a ++ rest →
    Room (enc a).length s.stack → ∃ s', dec s = (.ok a, s')
  fails : ∀ {s s' : Stream} {e : RlpError}, Start fuel s → dec s = (.error e, s') → Fails s e s'
  atEnd : ∀ {s : Stream}, Start fuel s → s.stack.head? = some 0 → dec s = (.error .eol, s)
  ne_nil : ∀ a, enc a ≠ []

variable {α : Type} {fuel : Nat} {dec : StreamM α} {enc : α → Bytes}

/-! ## slices -/

section Slice

variable (h : Reads fuel dec enc)

include h

/-- **What the loop reads** is the encodings of the elements. -/
theorem Reads.elems_ok {n i : Nat} {as : List α} (hs : Start fuel s)
    (hok : decodeSliceElems dec n i s = (.ok as, s')) :
    After s (as.flatMap enc) s' ∧ s'.kind = none := by
  induction n generalizing i s as with
  | zero => cases hok
  | succ n ih =>
    rw [decodeSliceElems] at hok
    split at hok
    · next hd =>
      cases hok
      rcases h.fails hs hd with ⟨-, -, rfl⟩ | hhard
      · exact ⟨.refl hs.ready, hs.kind⟩
      · exact absurd rfl hhard.1
    · cases hok
    · next a s1 hd =>
      split at hok
      · cases hok
      next as' s2 hrest =>
      cases hok
      obtain ⟨hafter, hkind⟩ := h.ok hs hd
      obtain ⟨hafter', hkind'⟩ := ih (hs.after hafter hkind) hrest
      exact ⟨hafter.trans hafter', hkind'⟩

/-- The loop reads the elements up to the end of the list. -/
theorem Reads.elems_of {n i : Nat} {as : List α} {rest : Bytes} {limit : UInt64}
    {stack : List UInt64}
    (hs : Start fuel s) (hn : (as.flatMap enc).length < n) (hr : s.r = as.flatMap enc ++ rest)
    (hst : s.stack = limit :: stack) (hlimit : limit.toNat = (as.flatMap enc).length) :
    ∃ s', decodeSliceElems dec n i s = (.ok as, s') := by
  induction as generalizing n i s limit with
  | nil =>
    obtain ⟨n, rfl⟩ := Nat.exists_eq_add_one_of_ne_zero hn.ne'
    have hzero : limit = 0 := UInt64.toNat_inj.mp hlimit
    have hend : s.stack.head? = some 0 := by rw [hst, hzero, head?_cons]
    rw [decodeSliceElems, h.atEnd hs hend]
    exact ⟨s, rfl⟩
  | cons a as ih =>
    obtain ⟨n, rfl⟩ := Nat.exists_eq_add_one_of_ne_zero (Nat.ne_zero_of_lt hn)
    rw [flatMap_cons, append_assoc] at hr
    rw [flatMap_cons, length_append] at hlimit hn
    have hpos : 0 < (enc a).length := length_pos_iff.mpr (h.ne_nil a)
    have hlt := limit.toNat_lt
    obtain ⟨s1, hd⟩ := h.of hs hr (hst ▸ room_cons (by omega))
    obtain ⟨hafter, hkind⟩ := h.ok hs hd
    have hrest : s1.r = as.flatMap enc ++ rest := hafter.rest_eq hr
    have hle : ofNat (enc a).length ≤ limit := by
      rw [le_iff_toNat_le, toNat_ofNat (by omega)]
      omega
    have hlimit' : (limit - ofNat (enc a).length).toNat = (as.flatMap enc).length := by
      rw [UInt64.toNat_sub_of_le _ _ hle, toNat_ofNat (by omega)]
      omega
    obtain ⟨s2, htail⟩ := ih (n := n) (i := i + 1) (hs.after hafter hkind) (by omega) hrest
      (by rw [hafter.stack, hst]; rfl) hlimit'
    rw [decodeSliceElems, hd]
    simp only [htail]
    exact ⟨s2, rfl⟩

/-- An error at an element of a slice is not taken for its end. -/
theorem Reads.elems_error {n i : Nat} (hs : Start fuel s) (hn : s.r.length < n)
    (herr : decodeSliceElems dec n i s = (.error e, s')) : Hard e := by
  induction n generalizing i s with
  | zero => omega
  | succ n ih =>
    rw [decodeSliceElems] at herr
    split at herr
    · cases herr
    · next hne hd =>
      cases herr
      rcases h.fails hs hd with ⟨rfl, -⟩ | hhard
      · exact (hne rfl).elim
      · exact hhard.context _
    · next a s1 hd =>
      split at herr
      · next htail =>
        cases herr
        obtain ⟨hafter, hkind⟩ := h.ok hs hd
        have hpos : 0 < (enc a).length := length_pos_iff.mpr (h.ne_nil a)
        have hlen : (enc a).length + s1.r.length = s.r.length := by
          rw [hafter.input, length_append]
        exact ih (hs.after hafter hkind) (by omega) htail
      · cases herr

end Slice

/-! ## lists -/

/-- Between entering a list and leaving it, the payload was read. -/
theorem bracket_ok {size : UInt64} {s1 s2 : Stream} {payload : Bytes} (hr : Ready s)
    (hk : s.kind = none) (hlist : list s = (.ok size, s1)) (hbody : After s1 payload s2)
    (hend : listEnd s2 = (.ok (), s')) :
    After s (encodeList payload) s' ∧ s'.kind = none := by
  obtain ⟨⟨s0, hhead, hr1, hst1⟩, hready, -, -⟩ := list_ok hr hk hlist
  obtain ⟨hst2, hr', hready', hkind'⟩ := listEnd_ok hbody.ready hend
  rw [hbody.stack, hst1] at hst2
  obtain ⟨hzero, hst'⟩ := List.cons.inj hst2
  have hlen : payload.length < 2 ^ 62 := lt_of_le_of_lt hbody.length_le hready.small
  have hsize : size.toNat = payload.length := by
    rw [sub_eq_zero.mp hzero, toNat_ofNat (by omega)]
  refine ⟨⟨?_, hready', ?_⟩, hkind'⟩
  · rw [encodeList, append_assoc, hr', ← hbody.input, hr1, ← hsize]
    exact hhead.input
  · rw [← hst', hhead.stack, consume_consume, encodeList, length_append, hsize]

/-- Entering a list that is there. -/
theorem bracket_of {payload rest : Bytes} (hr : Ready s) (hk : s.kind = none)
    (hin : s.r = encodeList payload ++ rest) (hroom : Room (encodeList payload).length s.stack) :
    ∃ s1 limit stack, list s = (.ok limit, s1) ∧ Ready s1 ∧ s1.kind = none ∧
      s1.r = payload ++ rest ∧
      s1.stack = limit :: stack ∧ limit.toNat = payload.length ∧ s1.r.length < s.r.length ∧
      ∀ {s2 : Stream}, After s1 payload s2 → ∃ s', listEnd s2 = (.ok (), s') := by
  obtain ⟨_, hahead, -, -⟩ := kindAhead_puthead hr hk .list hin hroom
  obtain ⟨s1, hlist⟩ : ∃ s1, list s = (.ok (ofNat payload.length), s1) := ⟨_, by rw [list, hahead]⟩
  obtain ⟨⟨s0, hhead, hr1, hst1⟩, hready, hkind, -⟩ := list_ok hr hk hlist
  have hlen : payload.length < 2 ^ 62 := by
    have := hr.small
    rw [hin] at this
    simp only [encodeList, length_append] at this
    omega
  have hsize : (ofNat payload.length).toNat = payload.length := toNat_ofNat (by omega)
  have hin1 : s1.r = payload ++ rest := by
    have := hhead.input
    rw [hin, encodeList, append_assoc, hsize] at this
    rw [hr1]
    exact (append_cancel_left this).symm
  refine ⟨s1, _, _, hlist, hready, hkind, hin1, hst1, hsize, ?_, fun hbody => ?_⟩
  · have := length_lt_encodeList payload
    rw [hin1, hin, length_append, length_append]
    omega
  · have hst2 := hbody.stack
    rw [hst1, consume, sub_self] at hst2
    exact listEnd_of hst2

/-- Entering any list leaves less input. -/
theorem list_shrinks {size : UInt64} {s1 : Stream} (hs : Start (fuel + 1) s)
    (hlist : list s = (.ok size, s1)) :
    Start fuel s1 := by
  obtain ⟨⟨s0, hhead, hr1, -⟩, hready, hkind, -⟩ := list_ok hs.ready hs.kind hlist
  have hpos : 0 < (puthead 0xC0 0xF7 size.toNat).length :=
    length_pos_iff.mpr (Header.list size).ne_nil
  have hfuel := hs.fuel
  refine ⟨hready, hkind, ?_⟩
  rw [hhead.input, length_append] at hfuel
  rw [hr1]
  omega

theorem encodeList_ne_nil (payload : Bytes) : encodeList payload ≠ [] := by
  have := length_lt_encodeList payload
  intro h
  rw [h] at this
  exact absurd this (Nat.not_lt_zero _)

/-- **Slices**: a list of encodings. -/
theorem Reads.slice (h : Reads fuel dec enc) (typ : String) :
    Reads (fuel + 1) (decodeListSlice typ dec fuel) fun as => encodeList (as.flatMap enc) where
  ok {s s' as} hs hok := by
    unfold decodeListSlice at hok
    split at hok
    · cases hok
    next size s1 hlist =>
    have hs1 := list_shrinks hs hlist
    split at hok
    · split at hok
      · cases hok
      next s2 hend =>
      cases hok
      exact bracket_ok hs.ready hs.kind hlist (.refl hs1.ready) hend
    · split at hok
      · cases hok
      next as' s2 helems =>
      split at hok
      · cases hok
      next s3 hend =>
      cases hok
      exact bracket_ok hs.ready hs.kind hlist (h.elems_ok hs1 helems).1 hend
  of {s as rest} hs hr hroom := by
    obtain ⟨s1, limit, stack, hlist, hready, hkind, hin, hst, hlimit, hlt, hend⟩ :=
      bracket_of hs.ready hs.kind hr hroom
    have hs1 := list_shrinks hs hlist
    unfold decodeListSlice
    rw [hlist]
    simp only
    split
    · next hzero =>
      -- an empty payload has no elements
      have hnil : as = [] := by
        cases as with
        | nil => rfl
        | cons a as =>
          have hpos : 0 < (enc a).length := length_pos_iff.mpr (h.ne_nil a)
          rw [hzero, flatMap_cons, length_append] at hlimit
          have : (0 : Nat) = (enc a).length + (as.flatMap enc).length := hlimit
          omega
      subst hnil
      obtain ⟨s', hend⟩ := hend (.refl hready)
      rw [hend]
      exact ⟨s', rfl⟩
    · have hn : (as.flatMap enc).length < fuel := by
        have := hs1.fuel
        rw [hin, length_append] at this
        omega
      obtain ⟨s2, helems⟩ := h.elems_of hs1 hn hin hst hlimit
      obtain ⟨s', hend⟩ := hend (h.elems_ok hs1 helems).1
      rw [helems]
      simp only [hend]
      exact ⟨s', rfl⟩
  fails {s s' e} hs herr := by
    unfold decodeListSlice at herr
    split at herr
    · next hlist =>
      cases herr
      exact (list_error hs.kind hlist).wrap typ
    next size s1 hlist =>
    have hs1 := list_shrinks hs hlist
    refine .inr ?_
    split at herr
    · split at herr
      · next hend =>
        cases herr
        exact listEnd_error hend
      · cases herr
    · split at herr
      · next helems =>
        cases herr
        exact h.elems_error hs1 hs1.fuel helems
      · split at herr
        · next hend =>
          cases herr
          exact listEnd_error hend
        · cases herr
  atEnd {s} hs hend := by
    unfold decodeListSlice
    rw [list_atEnd hs.kind hend]
    rfl
  ne_nil as := encodeList_ne_nil _

/-! ## whole inputs -/

/-- The stream of `DecodeBytes`. -/
theorem start_reset {b : Bytes} (hb : b ≠ []) (hlen : b.length < 2 ^ 62) :
    Start (b.length + 1) (.reset b (ofNat b.length)) where
  ready := by
    refine ⟨decide_eq_true ?_, rfl, hlen⟩
    have hpos := length_pos_iff.mpr hb
    rwa [gt_iff_lt, lt_iff_toNat_lt, toNat_ofNat (by omega)]
  kind := rfl
  fuel := Nat.lt_succ_self _

/-- **`DecodeBytes`** accepts exactly the encodings, and always ends. -/
theorem Reads.decodeBytes {b : Bytes} (h : Reads (b.length + 1) dec enc) (hlen : b.length < 2 ^ 62)
    (typ : String) (hempty : b = [] → decodeBytes typ dec [] = .error .eof) :
    (∀ a, decodeBytes typ dec b = .ok a ↔ enc a = b) ∧
      decodeBytes typ dec b ≠ .error .outOfFuel := by
  by_cases hb : b = []
  · subst hb
    rw [hempty rfl]
    exact ⟨fun a => iff_of_false (by simp) (h.ne_nil a), by simp⟩
  have hs := start_reset hb hlen
  constructor
  · intro a
    constructor
    · intro hok
      unfold Rlp.decodeBytes at hok
      split at hok
      · cases hok
      next a' s' hdec =>
      split at hok
      · cases hok
      next hrest =>
      cases hok
      have hnil : s'.r = [] := length_eq_zero_iff.mp (Nat.le_zero.mp (not_lt.mp hrest))
      have hin := (h.ok hs hdec).1.input
      rw [hnil, append_nil] at hin
      exact hin.symm
    · rintro rfl
      have hall : (reset (enc a) (ofNat (enc a).length)).r = enc a ++ [] :=
        (append_nil _).symm
      obtain ⟨s', hdec⟩ := h.of hs hall (by simp [Room, reset])
      have hin := (h.ok hs hdec).1.input
      have hnil : s'.r = [] := by
        have hin : enc a ++ [] = enc a ++ s'.r := (append_nil _).trans hin
        exact (append_cancel_left hin).symm
      rw [Rlp.decodeBytes, hdec]
      simp [hnil]
  · intro herr
    unfold Rlp.decodeBytes at herr
    split at herr
    · next hdec =>
      exact ((hard_of_fails (h.fails hs hdec) (by simp [reset])).target typ).2
        (Except.error.inj herr)
    · split at herr
      · cases herr
      · cases herr

end GoQrl.Rlp
