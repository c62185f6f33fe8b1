import GoQrl.Rlp.Item

/-!
# GoQrl.Rlp.Slices

The slice parser of `rlp/raw.go`, applied to the contents of lists again and again, accepts
the byte strings that the stream decoder accepts, with the same item (`splitAll_iff`).
-/

namespace GoQrl.Rlp

open List Item

/-! ## what a successful split says -/

variable {b : Bytes} {k : Kind}

theorem readSize_ok {n s : Nat} (h : readSize b n = .ok s) (hn : n ≤ 8) :
    n ≤ b.length ∧ 56 ≤ s ∧ b.take n = putint s := by
  unfold readSize at h
  split at h
  · cases h
  next hlen =>
  dsimp only at h
  split at h
  · cases h
  next hs =>
  cases h
  obtain ⟨h56, hzero⟩ := not_or.mp hs
  refine ⟨not_lt.mp hlen, not_lt.mp h56, ?_⟩
  cases b with
  | nil => simp [beNat] at h56
  | cons c b =>
    cases n with
    | zero => simp [beNat] at h56
    | succ n =>
      rw [take_succ_cons, putint_beNat (fun hc => hzero (by rw [hc]; rfl))]
      rw [length_take]
      omega

/-- A tag is a single byte, or the header of a string or list within the input. -/
theorem readTag_ok {ts cs : Nat} (h : readTag b = .ok (k, ts, cs)) :
    (∃ c rest, b = c :: rest ∧ c < 0x80 ∧ k = .byte ∧ ts = 0 ∧ cs = 1) ∨
    ∃ s l, IsTag k s l ∧ ts ≤ b.length ∧ 0 < ts ∧ b.take ts = puthead s l cs ∧
      (k = .string → cs = 1 → ∀ d, (b.drop ts).head? = some d → ¬ d ≤ 0x7F) := by
  cases b with
  | nil => cases h
  | cons c b =>
    have hc := c.toNat_lt
    have hsmall {s l : UInt8} (hle : s.toNat ≤ c.toNat) (hlt : c.toNat < s.toNat + 56) :
        [c] = puthead s l (c.toNat - s.toNat) := by
      have hput : puthead s l (c - s).toUInt64.toNat = [c] :=
        Stream.puthead_small (UInt8.le_iff_toNat_le.mpr hle) hlt
      rw [UInt8.toNat_toUInt64, UInt8.toNat_sub_of_le _ _ (UInt8.le_iff_toNat_le.mpr hle)] at hput
      exact hput.symm
    have hlarge {s l : UInt8} {size : Nat} (hle : l.toNat ≤ c.toNat) (hlt : c.toNat - l.toNat ≤ 8)
        (hsize : readSize b (c.toNat - l.toNat) = .ok size) :
        c.toNat - l.toNat ≤ b.length ∧ 56 ≤ size ∧
          c :: b.take (c.toNat - l.toNat) = puthead s l size := by
      obtain ⟨hlen, h56, htake⟩ := readSize_ok hsize hlt
      have hsub := UInt8.toNat_sub_of_le c l (UInt8.le_iff_toNat_le.mpr hle)
      refine ⟨hlen, h56, ?_⟩
      rw [htake, Stream.puthead_large h56]
      rw [← htake, length_take]
      omega
    simp only [readTag] at h
    split at h
    · next hlt =>
      cases h
      exact .inl ⟨c, b, rfl, UInt8.lt_iff_toNat_lt.mpr hlt, rfl, rfl, rfl⟩
    split at h
    · split at h
      · cases h
      next hone =>
      cases h
      refine .inr ⟨_, _, isTag_string, by simp, by simp,
        hsmall (by simp; omega) (by simp; omega), ?_⟩
      intro _ h1 d hd hle
      rw [drop_one, tail_cons] at hd
      exact hone ⟨h1, by rw [hd]; exact decide_eq_true (lt_128_iff.mpr hle)⟩
    split at h
    · split at h
      · cases h
      next size hsize =>
      cases h
      obtain ⟨hlen, h56, hput⟩ := hlarge (l := 0xB7) (by simp; omega) (by simp; omega) hsize
      exact .inr ⟨_, _, isTag_string, Nat.succ_le_succ hlen, Nat.succ_pos _, hput, by omega⟩
    split at h
    · cases h
      exact .inr ⟨_, _, isTag_list, by simp, by simp,
        hsmall (by simp; omega) (by simp; omega), by simp⟩
    · split at h
      · cases h
      next size hsize =>
      cases h
      obtain ⟨hlen, h56, hput⟩ := hlarge (l := 0xF7) (by simp; omega) (by simp; omega) hsize
      exact .inr ⟨_, _, isTag_list, Nat.succ_le_succ hlen, Nat.succ_pos _, hput, by omega⟩

/-- The sizes of a value are within the input, and at least one byte. -/
theorem readKind_le {ts cs : Nat} (h : readKind b = .ok (k, ts, cs)) :
    readTag b = .ok (k, ts, cs) ∧ ts + cs ≤ b.length ∧ 0 < ts + cs := by
  unfold readKind at h
  split at h
  · cases h
  next htag =>
  split at h
  · cases h
  cases h
  rcases readTag_ok htag with ⟨c, rest, rfl, -, -, rfl, rfl⟩ | ⟨s, l, -, hle, hpos, -⟩
  · exact ⟨htag, by simp, by simp⟩
  · exact ⟨htag, by omega, by omega⟩

/-- **A split** takes an encoding off the input. -/
theorem split_ok {b content rest : Bytes} (h : split b = .ok (k, content, rest)) :
    b = (if k = .list then encodeList content else encodeString content) ++ rest := by
  unfold split at h
  split at h
  · cases h
  next k ts cs hkind =>
  cases h
  obtain ⟨htag, hle, -⟩ := readKind_le hkind
  have hb : b = b.take ts ++ ((b.drop ts).take cs ++ b.drop (ts + cs)) := by
    rw [← drop_drop, take_append_drop, take_append_drop]
  have hlen : ((b.drop ts).take cs).length = cs := by
    rw [length_take, length_drop]
    omega
  rcases readTag_ok htag with ⟨c, rest, rfl, hc, rfl, rfl, rfl⟩ | ⟨s, l, htag, -, -, hput, hone⟩
  · simp [encodeString_single (lt_128_iff.mp hc)]
  · rw [hput, ← append_assoc] at hb
    rcases htag with ⟨rfl, rfl, rfl⟩ | ⟨rfl, rfl, rfl⟩
    · rw [encodeString_of_ne, hlen]
      · exact hb
      · intro d hd hd7
        rw [hd] at hlen
        refine hone rfl hlen.symm d ?_ hd7
        rw [← hlen, length_singleton, take_one] at hd
        cases hh : (b.drop ts).head? with
        | none => rw [hh] at hd; cases hd
        | some c => rw [hh] at hd; cases hd; rfl
    · rwa [encodeList, hlen]

/-! ## items -/

theorem split_shorter {b content rest : Bytes} (h : split b = .ok (k, content, rest)) :
    rest.length < b.length ∧ (k = .list → content.length < b.length) := by
  have hb := congrArg List.length (split_ok h)
  rw [length_append] at hb
  split at hb
  · have := length_lt_encodeList content
    omega
  · next hk =>
    have := length_pos_iff.mpr (encodeString_ne_nil content)
    exact ⟨by omega, fun h => absurd h hk⟩

/-- The items that are found by splitting the input, and the contents of its lists in turn. -/
def splitItems (b : Bytes) : Except RlpError (List Item) :=
  if b = [] then .ok []
  else
    match _h : split b with
    | .error e => .error e
    | .ok (.list, content, rest) =>
      match splitItems content, splitItems rest with
      | .error e, _ => .error e
      | .ok _, .error e => .error e
      | .ok items, .ok more => .ok (.list items :: more)
    | .ok (_, content, rest) =>
      match splitItems rest with
      | .error e => .error e
      | .ok more => .ok (.str content :: more)
termination_by b.length
decreasing_by
  all_goals
    have := split_shorter _h
    simp_all

/-- The item that is the whole input. -/
def splitAll (b : Bytes) : Except RlpError Item :=
  match split b with
  | .error e => .error e
  | .ok (.list, content, []) =>
    match splitItems content with
    | .error e => .error e
    | .ok items => .ok (.list items)
  | .ok (_, content, []) => .ok (.str content)
  | .ok (_, _, _) => .error .moreThanOneValue

theorem splitItems_ok {items : List Item} (h : splitItems b = .ok items) : encAll items = b := by
  fun_induction splitItems b generalizing items with
  | case1 => cases h; rfl
  | case5 b hne content rest hs items more hmore hitems ih ihr =>
    cases h
    rw [encAll, enc, ih hitems, ihr hmore]
    exact (split_ok hs).symm
  | case7 b hne k content rest hk hs more hmore ih =>
    cases h
    rw [encAll, enc, ih hmore, split_ok hs, if_neg hk]
  | _ => cases h

theorem splitItems_encAll (items : List Item) (hlen : (encAll items).length < 2 ^ 64) :
    splitItems (encAll items) = .ok items := by
  induction hn : (encAll items).length using Nat.strong_induction_on generalizing items with
  | _ n ih =>
    subst hn
    cases items with
    | nil => rw [encAll, splitItems, if_pos rfl]
    | cons item more =>
      have hne : encAll (item :: more) ≠ [] := by simp [encAll, enc_ne_nil]
      rw [splitItems, if_neg hne]
      rw [encAll, length_append] at hlen ih
      have hpos := length_pos_iff.mpr item.enc_ne_nil
      have hmore := ih _ (by omega) more (by omega) rfl
      cases item with
      | str b =>
        have hle := length_le_encodeString b
        rw [enc] at hlen
        have hs := split_encodeString (b := b) (by omega) (encAll more)
        have hk := stringKind_ne_list b
        split <;> next h => rw [encAll, enc, hs] at h; simp_all
      | list inner =>
        have hlt := length_lt_encodeList (encAll inner)
        rw [enc] at hlen ih hpos
        have hinner := ih _ (by omega) inner (by omega) rfl
        have hs := split_encodeList (p := encAll inner) (by omega) (encAll more)
        split <;> next h => rw [encAll, enc, hs] at h; simp_all

/-- `CountValues` counts the items that are encoded. -/
theorem countLoop_encAll (items : List Item) {fuel i : Nat} (hlen : (encAll items).length < 2 ^ 64)
    (hfuel : (encAll items).length ≤ fuel) :
    countLoop fuel i (encAll items) = .ok (i + items.length) := by
  induction items generalizing fuel i with
  | nil => rw [encAll, countLoop, length_nil, add_zero]
  | cons item more ih =>
    have hpos := length_pos_iff.mpr item.enc_ne_nil
    rw [encAll, length_append] at hlen hfuel
    obtain ⟨fuel, rfl⟩ : ∃ f, fuel = f + 1 := ⟨fuel - 1, by omega⟩
    have hread : ∃ k ts cs, readKind (item.enc ++ encAll more) = .ok (k, ts, cs) ∧
        ts + cs = item.enc.length := by
      cases item with
      | str b =>
        have hle := length_le_encodeString b
        rw [enc] at hlen
        obtain ⟨ts, hk, hts, -⟩ := readKind_encodeString (b := b) (by omega) (encAll more)
        exact ⟨_, ts, _, by rw [enc]; exact hk, by rw [enc]; exact hts⟩
      | list inner =>
        have hlt := length_lt_encodeList (encAll inner)
        rw [enc] at hlen
        have hp : (encAll inner).length < 2 ^ 64 := by omega
        exact ⟨_, _, _, readKind_encodeList hp _, (length_encodeList hp).symm⟩
    obtain ⟨k, ts, cs, hk, hsum⟩ := hread
    rw [encAll, countLoop, hk]
    · dsimp only
      rw [hsum, drop_left, ih (by omega) (by omega), length_cons]
      congr 1
      omega
    · simp [item.enc_ne_nil]

/-! ## both parsers -/

/-- What the slice parser accepts. -/
theorem splitAll_eq_ok (hlen : b.length < 2 ^ 64) (item : Item) :
    splitAll b = .ok item ↔ item.enc = b := by
  constructor
  · intro h
    unfold splitAll at h
    split at h
    · cases h
    · next content hs =>
      split at h
      · cases h
      next items hitems =>
      cases h
      rw [enc, splitItems_ok hitems, split_ok hs, if_pos rfl, append_nil]
    · next k content hk hs =>
      cases h
      rw [enc, split_ok hs, if_neg hk, append_nil]
    · cases h
  · rintro rfl
    unfold splitAll
    cases item with
    | str b =>
      have hle := length_le_encodeString b
      have hk := stringKind_ne_list b
      rw [enc] at hlen
      have hs := split_encodeString (b := b) (by omega) []
      rw [append_nil] at hs
      rw [enc, hs]
      split <;> simp_all
    | list items =>
      have hlt := length_lt_encodeList (encAll items)
      rw [enc] at hlen
      have hs := split_encodeList (p := encAll items) (by omega) []
      rw [append_nil] at hs
      rw [enc, hs]
      dsimp only
      rw [splitItems_encAll items (by omega)]

/-- **The two parsers agree** on every slice: they accept it with the same item or both reject it;
`CountValues` of the content of a list is the number of elements that the stream decoder reads from
it; and the sizes that the slice parser cuts with, of the header and of the value, are within its
input. -/
theorem splitAll_iff (b : Slice) :
    (∀ item, splitAll b.bytes = .ok item ↔ decodeItem b.bytes = .ok item) ∧
    (∀ content items, encodeList content = b.bytes → decodeItem b.bytes = .ok (.list items) →
      countValues content = .ok items.length) ∧
    (∀ k ts cs, readTag b.bytes = .ok (k, ts, cs) → ts ≤ b.bytes.length) ∧
    ∀ k ts cs, readKind b.bytes = .ok (k, ts, cs) → ts + cs ≤ b.bytes.length := by
  have hfits := b.fits
  obtain ⟨hdec, -⟩ := (reads_decodeInterface (b.bytes.length + 1)).decodeBytes b.fits _
    (fun hb => by rw [hb]; rfl)
  refine ⟨fun item => (splitAll_eq_ok (by omega) item).trans (hdec item).symm, ?_, ?_, ?_⟩
  · intro content items hcontent hitems
    have henc := (hdec _).mp hitems
    rw [Item.enc] at henc
    have hlt := length_lt_encodeList content
    have hlt' := length_lt_encodeList (Item.encAll items)
    rw [hcontent] at hlt
    rw [henc] at hlt'
    have hsplit := splitList_encodeList (p := content) (by omega) []
    rw [hcontent, ← henc, splitList_encodeList (by omega)] at hsplit
    cases hsplit
    rw [countValues, countLoop_encAll items (by omega) (Nat.le_refl _), Nat.zero_add]
  · intro k ts cs h
    rcases readTag_ok h with ⟨c, rest, -, -, -, rfl, -⟩ | ⟨s, l, -, hle, -⟩
    · exact Nat.zero_le _
    · exact hle
  · exact fun k ts cs h => (readKind_le h).2.1

end GoQrl.Rlp
