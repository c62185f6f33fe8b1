import GoQrl.Rlp.Fields

/-!
# GoQrl.Rlp.Item

RLP items and the empty interface: `EncodeToBytes` and `DecodeBytes` on byte strings
and lists of items of any nesting.  The decoder accepts a byte string exactly if it is
the encoding of an item, and returns this item (`decodeItem_iff`).
-/

namespace GoQrl.Rlp

open Rlp.Stream List

/-- The values of an empty interface: `[]byte` and `[]any`. -/
inductive Item
  | str (b : Bytes)
  | list (items : List Item)

/-! ## encoding -/

mutual

/-- The writer of an item: `writeBytes`, or the writer of a slice. -/
def Item.write : Item → EncBuffer → EncBuffer
  | .str b, buf => buf.writeBytes b
  | .list [], buf => buf.write [0xC0]
  | .list (item :: items), buf =>
    let (index, buf) := buf.list
    (Item.writeAll (item :: items) buf).listEnd index

/-- The loop over the elements of a slice. -/
def Item.writeAll : List Item → EncBuffer → EncBuffer
  | [], buf => buf
  | item :: items, buf => Item.writeAll items (item.write buf)

end

/-- `EncodeToBytes` of an item. -/
def encodeItem (item : Item) : Bytes := (item.write .empty).makeBytes

mutual

/-- The encoding of an item. -/
def Item.enc : Item → Bytes
  | .str b => encodeString b
  | .list items => encodeList (Item.encAll items)

def Item.encAll : List Item → Bytes
  | [] => []
  | item :: items => item.enc ++ Item.encAll items

end

theorem Item.encAll_eq (items : List Item) : Item.encAll items = items.flatMap Item.enc := by
  induction items with
  | nil => rfl
  | cons item items ih => rw [Item.encAll, ih, flatMap_cons]

/-! ## the output of the writer -/

theorem Emits.size {f : EncBuffer → EncBuffer} {p : Bytes} (h : Emits f p) (buf : EncBuffer) :
    (f buf).size = buf.size + p.length := by
  obtain ⟨str, heads, hsize, hf, -, -, hlen⟩ := h buf
  rw [hf]
  simp only [EncBuffer.size, length_append]
  omega

theorem size_list (buf : EncBuffer) : buf.list.2.size = buf.size := rfl

theorem size_le_listEnd (index : Nat) (buf : EncBuffer) : buf.size ≤ (buf.listEnd index).size := by
  unfold EncBuffer.listEnd
  split
  · exact le_refl _
  · have hle : ∀ (c : Prop) [Decidable c] (k : Nat),
        buf.lhsize ≤ if c then buf.lhsize + 1 else buf.lhsize + k := by
      intro c _ k
      split <;> omega
    exact Nat.add_le_add_left (hle _ _) _

theorem length_makeBytes (buf : EncBuffer) : buf.makeBytes.length = buf.size := by
  simp only [EncBuffer.makeBytes, length_take, length_append, length_replicate]
  omega

mutual

/-- Writing only adds to the buffer. -/
theorem Item.size_le_write : ∀ (item : Item) (buf : EncBuffer), buf.size ≤ (item.write buf).size
  | .str b, buf => by
    rw [Item.write, (emits_writeBytes b).size]
    exact Nat.le_add_right _ _
  | .list [], buf => by
    rw [Item.write, (emits_write [0xC0]).size]
    exact Nat.le_add_right _ _
  | .list (item :: items), buf => by
    rw [Item.write]
    have hall := Item.size_le_writeAll (item :: items) buf.list.2
    rw [size_list] at hall
    exact le_trans hall (size_le_listEnd _ _)

theorem Item.size_le_writeAll :
    ∀ (items : List Item) (buf : EncBuffer), buf.size ≤ (Item.writeAll items buf).size
  | [], _ => le_refl _
  | item :: items, buf => by
    rw [Item.writeAll]
    exact le_trans (item.size_le_write buf) (Item.size_le_writeAll items _)

end

/-- The writer emits the encoding, unless it writes more than a size can count. -/
def EmitsOr (f : EncBuffer → EncBuffer) (p : Bytes) : Prop :=
  Emits f p ∨ 2 ^ 64 ≤ p.length ∧ ∀ buf : EncBuffer, buf.size + 2 ^ 64 ≤ (f buf).size

mutual

theorem Item.emits_write : ∀ item : Item, EmitsOr item.write item.enc
  | .str b => by
    have hwrite : Item.write (.str b) = EncBuffer.writeBytes b := by
      funext buf
      rw [Item.write]
    rw [Item.enc, hwrite]
    exact .inl (emits_writeBytes b)
  | .list [] => by
    have hwrite : Item.write (.list []) = EncBuffer.write [0xC0] := by
      funext buf
      rw [Item.write]
    rw [Item.enc, hwrite]
    exact .inl (Rlp.emits_write [0xC0])
  | .list (item :: items) => by
    have hwrite : Item.write (.list (item :: items)) =
        fun buf => (Item.writeAll (item :: items) buf.list.2).listEnd buf.list.1 := by
      funext buf
      rw [Item.write]
    have hbig : 2 ^ 64 ≤ (Item.encAll (item :: items)).length →
        (∀ buf : EncBuffer, buf.size + 2 ^ 64 ≤ (Item.writeAll (item :: items) buf).size) →
        EmitsOr (Item.write (.list (item :: items))) (Item.enc (.list (item :: items))) := by
      intro hlen hbig
      rw [Item.enc, hwrite]
      refine .inr ⟨?_, fun buf => le_trans (hbig buf.list.2) (size_le_listEnd _ _)⟩
      exact le_trans hlen (Nat.le_of_lt (length_lt_encodeList _))
    rcases Item.emits_writeAll (item :: items) with hemits | ⟨hlen, hall⟩
    · by_cases hlen : (Item.encAll (item :: items)).length < 2 ^ 64
      · rw [Item.enc, hwrite]
        exact .inl (hemits.list hlen)
      · refine hbig (not_lt.mp hlen) fun buf => ?_
        rw [hemits.size]
        omega
    · exact hbig hlen hall

theorem Item.emits_writeAll : ∀ items : List Item, EmitsOr (Item.writeAll items) (Item.encAll items)
  | [] => by
    have hwrite : Item.writeAll [] = fun buf => buf := by
      funext buf
      rw [Item.writeAll]
    rw [Item.encAll, hwrite]
    exact .inl emits_id
  | item :: items => by
    have hwrite : Item.writeAll (item :: items) = fun buf =>
        Item.writeAll items (item.write buf) := by
      funext buf
      rw [Item.writeAll]
    rw [Item.encAll, hwrite]
    rcases item.emits_write with hitem | ⟨hlen, hitem⟩
    · rcases Item.emits_writeAll items with hrest | ⟨hlen, hrest⟩
      · exact .inl (hitem.comp hrest)
      · refine .inr ⟨?_, fun buf => le_trans ?_ (hrest _)⟩
        · rw [length_append]
          omega
        · exact Nat.add_le_add_right (item.size_le_write buf) _
    · refine .inr ⟨?_, fun buf => le_trans (hitem buf) (Item.size_le_writeAll items _)⟩
      rw [length_append]
      omega

end

/-- **The encoder** writes the encoding of every item that fits into a slice. -/
theorem encodeItem_eq_iff (item : Item) {b : Bytes} (hb : b.length < 2 ^ 62) :
    encodeItem item = b ↔ item.enc = b := by
  rcases item.emits_write with hemits | ⟨hlen, hbig⟩
  · rw [encodeItem, hemits.makeBytes]
  · have hlong : 2 ^ 64 ≤ (encodeItem item).length := by
      rw [encodeItem, length_makeBytes]
      exact le_trans (Nat.le_add_left _ _) (hbig .empty)
    refine iff_of_false ?_ ?_
    · rintro rfl
      omega
    · rintro rfl
      omega

/-! ## decoding -/

/-- `decodeInterface`. -/
def decodeInterface : Nat → StreamM Item
  | 0, s => (.error .outOfFuel, s)
  | fuel + 1, s =>
    match s.kindAhead with
    | (.error e, s) => (.error e, s)
    | (.ok (.list, _), s) =>
      match decodeListSlice "[]interface {}" (decodeInterface fuel) fuel s with
      | (.error e, s) => (.error e, s)
      | (.ok items, s) => (.ok (.list items), s)
    | (.ok (_, _), s) =>
      match s.bytes with
      | (.error e, s) => (.error e, s)
      | (.ok b, s) => (.ok (.str b), s)

/-- `DecodeBytes` into the empty interface. -/
def decodeItem (b : Bytes) :
    Except RlpError Item := decodeBytes "interface {}" (decodeInterface (b.length + 1)) b

/-! ## round trip -/

theorem Item.enc_ne_nil (item : Item) : item.enc ≠ [] := by
  cases item with
  | str b =>
    exact encodeString_ne_nil b
  | list items =>
    exact encodeList_ne_nil _

section Interface

variable {s s' : Stream} {fuel : Nat}

/-- The branches of `decodeInterface` read the value ahead once more, from the start. -/
theorem decodeInterface_list {size : UInt64} {s1 : Stream} (hs : Start (fuel + 1) s)
    (hkind : s.kindAhead = (.ok (.list, size), s1)) :
    decodeInterface (fuel + 1) s =
      match decodeListSlice "[]interface {}" (decodeInterface fuel) fuel s with
      | (.error e, s) => (.error e, s)
      | (.ok items, s) => (.ok (.list items), s) := by
  obtain ⟨-, -, -, ha, -⟩ := kindAhead_ok hs.ready hs.kind hkind
  rw [decodeInterface, hkind]
  simp [decodeListSlice, list_of_kindAhead hkind ha]

theorem decodeInterface_string {k : Kind} {size : UInt64} {s1 : Stream} (hs : Start (fuel + 1) s)
    (hk : k ≠ .list) (hkind : s.kindAhead = (.ok (k, size), s1)) :
    decodeInterface (fuel + 1) s =
      match s.bytes with
      | (.error e, s) => (.error e, s)
      | (.ok b, s) => (.ok (.str b), s) := by
  obtain ⟨-, -, -, ha, -⟩ := kindAhead_ok hs.ready hs.kind hkind
  rw [decodeInterface, hkind]
  cases k with
  | list => exact absurd rfl hk
  | byte | string => simp [bytes_of_kindAhead hkind ha]

/-- A slice that is read has a list ahead. -/
theorem kindAhead_of_slice {α : Type} {typ : String} {dec : StreamM α} {as : List α}
    (h : decodeListSlice typ dec fuel s = (.ok as, s')) :
    ∃ size s1, s.kindAhead = (.ok (.list, size), s1) := by
  unfold decodeListSlice list at h
  cases hkind : s.kindAhead with
  | mk res s1 =>
    rw [hkind] at h
    match res with
    | .error e => cases h
    | .ok (.list, size) => exact ⟨size, s1, rfl⟩
    | .ok (.byte, size) => cases h
    | .ok (.string, size) => cases h

end Interface

/-- **The decoder of the empty interface** reads items. -/
theorem reads_decodeInterface (fuel : Nat) : Reads fuel (decodeInterface fuel) Item.enc := by
  induction fuel with
  | zero =>
    have hno : ∀ {s : Stream}, ¬ Start 0 s := fun hs => Nat.not_lt_zero _ hs.fuel
    exact ⟨fun hs => (hno hs).elim, fun hs => (hno hs).elim, fun hs => (hno hs).elim,
      fun hs => (hno hs).elim, Item.enc_ne_nil⟩
  | succ fuel ih =>
    have hslice := ih.slice "[]interface {}"
    refine ⟨fun {s s' item} hs hok => ?_, fun {s item rest} hs hr hroom => ?_,
      fun {s s' e} hs herr => ?_, fun {s} hs hend => ?_, Item.enc_ne_nil⟩
    · match hkind : s.kindAhead with
      | (.error e, s1) =>
        simp [decodeInterface, hkind] at hok
      | (.ok (k, size), s1) =>
        by_cases hk : k = .list
        · subst hk
          rw [decodeInterface_list hs hkind] at hok
          split at hok
          · cases hok
          next items s2 hitems =>
          cases hok
          rw [Item.enc, Item.encAll_eq]
          exact hslice.ok hs hitems
        · rw [decodeInterface_string hs hk hkind] at hok
          split at hok
          · cases hok
          next b s2 hb =>
          cases hok
          exact bytes_ok hs.ready hs.kind hb
    · cases item with
      | str b =>
        obtain ⟨s', hb, -⟩ := bytes_of hs.ready hs.kind hr hroom
        obtain ⟨k, size, s1, hkind, hk, -⟩ := kindAhead_of_bytes hs.ready hs.kind hb
        rw [decodeInterface_string hs hk hkind, hb]
        exact ⟨s', rfl⟩
      | list items =>
        rw [Item.enc, Item.encAll_eq] at hr hroom
        obtain ⟨s', hitems⟩ := hslice.of hs hr hroom
        obtain ⟨size, s1, hkind⟩ := kindAhead_of_slice hitems
        rw [decodeInterface_list hs hkind, hitems]
        exact ⟨s', rfl⟩
    · match hkind : s.kindAhead with
      | (.error e', s1) =>
        rw [decodeInterface, hkind] at herr
        cases herr
        exact kindAhead_error hs.kind hkind
      | (.ok (k, size), s1) =>
        by_cases hk : k = .list
        · subst hk
          rw [decodeInterface_list hs hkind] at herr
          split at herr
          next hitems =>
            cases herr
            exact hslice.fails hs hitems
          · cases herr
        · rw [decodeInterface_string hs hk hkind] at herr
          split at herr
          next hb =>
            cases herr
            exact bytes_error hs.kind hb
          · cases herr
    · rw [decodeInterface, kindAhead_atEnd hs.kind hend]

/-- **RLP is canonical:** every slice is either rejected, or is the encoding of the one item that it
decodes to. -/
theorem decodeItem_iff (b : Slice) :
    (∀ item, decodeItem b.bytes = .ok item ↔ encodeItem item = b.bytes) ∧
      decodeItem b.bytes ≠ .error .outOfFuel := by
  obtain ⟨hiff, hfuel⟩ := (reads_decodeInterface (b.bytes.length + 1)).decodeBytes b.fits _
    (fun hb => by rw [hb]; rfl)
  exact ⟨fun item => (hiff item).trans (encodeItem_eq_iff item b.fits).symm, hfuel⟩

end GoQrl.Rlp
