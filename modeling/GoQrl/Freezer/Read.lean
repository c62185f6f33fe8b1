import GoQrl.Freezer.Layout
import Mathlib.Data.List.Forall2

/-!
# GoQrl.Freezer.Read

Reading items back.  `FreezerTable.WF` says that a table holds the stored
items `xs` behind the index entries `es`; under it `retrieveItems` returns
the decompressed items.
-/

namespace GoQrl

open Records List

namespace FreezerTable

/-- The bytes of the data file `k`. -/
def content (t : FreezerTable) (k : Nat) : Bytes := (t.disk k).getD []

/-- The entry in front of the index file. -/
def tailEntry (t : FreezerTable) : IndexEntry := ⟨t.tailId, t.itemOffset⟩

/-- Where the last item ends, or the front of the tail file. -/
def endOf (t : FreezerTable) (es : List IndexEntry) : IndexEntry := es.getLastD ⟨t.tailId, 0⟩

/-- The table holds the stored items `xs` from `itemOffset` on, ending at the
entries `es`. -/
structure WF (t : FreezerTable) (es : List IndexEntry) (xs : List Bytes) : Prop where
  index : t.index = indexFile (t.tailEntry :: es)
  laid : Laid t.content ⟨t.tailId, 0⟩ es xs
  items : t.items = t.itemOffset + xs.length
  offset_le : t.itemOffset ≤ t.itemHidden
  hidden_le : t.itemHidden ≤ t.items
  metadata : t.metadata = some t.itemHidden
  end_le : (t.endOf es).filenum ≤ t.headId
  end_size : (t.content (t.endOf es).filenum).length = (t.endOf es).offset
  headBytes : t.headBytes = (t.content t.headId).length
  head_empty : (t.endOf es).filenum < t.headId → t.headBytes = 0
  files : ∀ k, k ∈ t.files ↔ t.tailId ≤ k ∧ k ≤ t.headId
  disk : ∀ k, t.tailId ≤ k → k ≤ t.headId → (t.disk k).isSome
  offsets : ∀ e ∈ es, e.offset < 2 ^ 32
  maxFileSize : t.maxFileSize < 2 ^ 32
  items_lt : t.items < 2 ^ 64
  offset_lt : t.itemOffset < 2 ^ 32
  headId_lt : t.headId < 2 ^ 16

namespace WF

variable {t : FreezerTable} {es : List IndexEntry} {xs : List Bytes}

theorem length_eq (h : t.WF es xs) : es.length = xs.length := h.laid.length_eq

theorem items_eq (h : t.WF es xs) : t.items = t.itemOffset + es.length := by
  rw [h.items, h.length_eq]

theorem tailId_le (h : t.WF es xs) : t.tailId ≤ t.headId :=
  h.laid.filenum_le_last.trans h.end_le

/-- Every entry of the index file is read back. -/
theorem fits (h : t.WF es xs) {e : IndexEntry} (he : e ∈ t.tailEntry :: es) : e.Fits := by
  have hlt := h.headId_lt
  obtain rfl | he := mem_cons.mp he
  · exact ⟨lt_of_le_of_lt h.tailId_le hlt, h.offset_lt⟩
  · exact ⟨lt_of_le_of_lt ((h.laid.filenum_mem he).2.trans h.end_le) hlt, h.offsets e he⟩

end WF

/-! ## the index entries of a range -/

variable {es : List IndexEntry} {t : FreezerTable} {snappy : Snappy} {bs xs : List Bytes}

theorem unmarshalEntries_indexFile (h : ∀ e ∈ es, e.Fits) :
    unmarshalEntries (indexFile es) es.length = .ok es := by
  induction es with
  | nil => rfl
  | cons e es ih =>
    have hd : (indexFile (e :: es)).drop indexEntrySize = indexFile es := by
      simpa using drop_indexFile (e :: es) 1
    have hlen : ¬ (indexFile (e :: es)).length < indexEntrySize := by
      rw [length_indexFile, length_cons]
      exact not_lt.mpr (Nat.le_mul_of_pos_left _ (Nat.succ_pos _))
    rw [length_cons, unmarshalEntries, if_neg hlen, hd, ih fun e he => h e (mem_cons_of_mem _ he)]
    rw [indexFile, flatMap_cons, IndexEntry.unmarshalBinary_marshal (h e mem_cons_self)]
    rfl

/-- Reading entries from a position on. -/
theorem readAt_indexFile {i n : Nat} (h : i + n ≤ es.length) :
    readAt (indexFile es) (i * indexEntrySize) (n * indexEntrySize) =
      .ok (indexFile ((es.drop i).take n)) := by
  have hle : i * indexEntrySize + n * indexEntrySize ≤ (indexFile es).length := by
    rw [length_indexFile, ← Nat.add_mul]
    exact Nat.mul_le_mul_right _ h
  rw [readAt, if_pos (Or.inr hle), drop_indexFile, take_indexFile]

/-- The entries around a range of items, and how the items lie between them. -/
theorem getIndices_spec {xs : List Bytes} (mem : Memory) (h : t.WF es xs) {start count : Nat}
    (hs : t.itemOffset ≤ start) (hc : 0 < count) (hle : start + count ≤ t.items)
    (hmem : (count + 1) * indexEntrySize ≤ mem.limit) :
    ∃ p, t.getIndices mem start count = .ok (p :: (es.drop (start - t.itemOffset)).take count) ∧
      Laid t.content p ((es.drop (start - t.itemOffset)).take count)
        ((xs.drop (start - t.itemOffset)).take count) ∧
      t.tailId ≤ p.filenum := by
  obtain ⟨i, rfl⟩ := Nat.exists_eq_add_of_le hs
  rw [Nat.add_sub_cancel_left]
  have hitems := h.items_eq
  have hic : i + count ≤ es.length := by omega
  have hlaid := (h.laid.split i).2.split count |>.1
  have hfits : ∀ e ∈ ((t.tailEntry :: es).drop i).take (count + 1), e.Fits :=
    fun e he => h.fits (mem_of_mem_drop (mem_of_mem_take he))
  have hun := unmarshalEntries_indexFile hfits
  have hl : (((t.tailEntry :: es).drop i).take (count + 1)).length = count + 1 := by
    simp only [length_take, length_drop, length_cons]
    omega
  rw [hl] at hun
  have hsize : (count + 1) * indexEntrySize % 2 ^ 64 = (count + 1) * indexEntrySize :=
    Nat.mod_eq_of_lt (hmem.trans_lt mem.limit_lt)
  have hmk : makeslice mem 1 ((count + 1) * indexEntrySize) = .ok () := by
    rw [makeslice, one_mul, if_neg (not_lt.mpr hmem)]
  have hnum : (i + count) % 2 ^ 64 + 1 - i = count + 1 := by
    have hlt := h.items_lt
    omega
  have hread : readAt t.index (i * indexEntrySize) ((count + 1) * indexEntrySize) =
      .ok (indexFile (((t.tailEntry :: es).drop i).take (count + 1))) := by
    rw [h.index]
    exact readAt_indexFile (by simp only [length_cons]; omega)
  cases i with
  | zero =>
    obtain ⟨n, rfl⟩ := Nat.exists_eq_add_of_lt hc
    cases es with
    | nil => simp only [length_nil] at hic; omega
    | cons e es =>
      refine ⟨⟨e.filenum, 0⟩, ?_, ?_, (h.laid.filenum_mem mem_cons_self).1⟩
      · simp only [getIndices, Nat.add_sub_cancel_left, hsize, hmk, hnum, hread, bind,
          Except.bind, hun]
        simp
      · exact hlaid.restart (Or.inr rfl)
  | succ j =>
    have hj : j < es.length := by omega
    have hd : (t.tailEntry :: es).drop (j + 1) = es[j] :: es.drop (j + 1) := by
      rw [drop_succ_cons, drop_eq_getElem_cons hj]
    have hlast : (es.take (j + 1)).getLastD ⟨t.tailId, 0⟩ = es[j] := by
      rw [take_succ_eq_append_getElem hj, getLastD_eq_getLast?, getLast?_concat]
      rfl
    refine ⟨es[j], ?_, ?_, (h.laid.filenum_mem (getElem_mem hj)).1⟩
    · rw [hd, take_succ_cons] at hun hread
      simp only [getIndices, Nat.add_sub_cancel_left, hsize, hmk, hnum, hread, bind,
        Except.bind, hun]
    · rwa [hlast] at hlaid

/-! ## the loop over the items -/

/-- Reading a run that lies in an open file. -/
theorem readData_spec {k s : Nat} {x : Bytes} (hk : k ∈ t.files)
    (h : At (t.content k) s x) (output : Bytes) :
    t.readData output k s x.length = .ok (output ++ x) := by
  have hr := readAt_of_at h
  rw [content] at hr
  simp [readData, hk, hr, bind, Except.bind]

/-- The bytes not yet read lie behind each other up to the position `p`. -/
structure Unread (t : FreezerTable) (s : ReadState) (file stop : Nat) (u : Bytes) : Prop where
  size : s.unreadSize = u.length
  lies : At (t.content file) s.readStart u
  stop : s.readStart + u.length = stop

/-- At a file boundary the deferred bytes are read; otherwise nothing happens. -/
theorem crossBoundary_spec {s : ReadState} {p e : IndexEntry} {u : Bytes}
    (hu : t.Unread s p.filenum p.offset u) (hp : p.filenum ∈ t.files) :
    ∃ output readStart unreadSize u', t.crossBoundary p e s =
        .ok { s with output := output, readStart := readStart, unreadSize := unreadSize } ∧
      output ++ u' = s.output ++ u ∧
      t.Unread ⟨output, s.sizes, s.totalSize, readStart, unreadSize⟩ e.filenum
        (p.bounds e).1 u' := by
  by_cases hf : e.filenum = p.filenum
  · refine ⟨s.output, s.readStart, s.unreadSize, u, by simp [crossBoundary, hf], rfl, ?_⟩
    rw [IndexEntry.bounds_of_eq hf.symm, hf]
    exact ⟨hu.size, hu.lies, hu.stop⟩
  · rw [IndexEntry.bounds_of_ne (Ne.symm hf)]
    by_cases h0 : 0 < s.unreadSize
    · have hr := readData_spec hp hu.lies s.output
      rw [← hu.size] at hr
      refine ⟨s.output ++ u, 0, 0, [], by simp [crossBoundary, hf, h0, hr, bind, Except.bind],
        by simp, ⟨rfl, At.nil, rfl⟩⟩
    · have hnil : u = [] := length_eq_zero_iff.mp (by have := hu.size; omega)
      have hz : s.unreadSize = 0 := by omega
      exact ⟨s.output, 0, s.unreadSize, [], by simp [crossBoundary, hf, h0], by simp [hnil],
        ⟨by simpa using hz, At.nil, rfl⟩⟩

/-- **The coalesced reads:** the loop over the entries returns the deferred
bytes followed by a run of the items, all of them without a limit. -/
theorem readItems_spec (maxBytes : Nat) (first : Bool) {s : ReadState}
    {p : IndexEntry} {xs : List Bytes} {u : Bytes} (hlaid : Laid t.content p es xs) (hne : es ≠ [])
    (hfiles : ∀ k, p.filenum ≤ k → k ≤ (es.getLastD p).filenum → k ∈ t.files)
    (hoff : ∀ e ∈ es, e.offset < 2 ^ 32) (hu : t.Unread s p.filenum p.offset u) :
    ∃ n, t.readItems maxBytes first s p es =
        .ok (s.output ++ u ++ (xs.take n).flatten, s.sizes ++ (xs.take n).map List.length) ∧
      n ≤ xs.length ∧ (first = true → 0 < n) ∧ (maxBytes = 0 → n = xs.length) := by
  induction es generalizing p xs u s first with
  | nil => exact absurd rfl hne
  | cons e es ih =>
    cases xs with
    | nil => exact hlaid.elim
    | cons x xs =>
      obtain ⟨hle, ho, hat, -, hrest⟩ := laid_cons.mp hlaid
      rw [getLastD_cons] at hfiles
      have hel := hrest.filenum_le_last
      have hsize : (e.offset + 2 ^ 32 - (p.bounds e).1) % 2 ^ 32 = x.length := by
        have := hoff e mem_cons_self
        rw [ho] at this ⊢
        rw [show (p.bounds e).1 + x.length + 2 ^ 32 - (p.bounds e).1 = x.length + 2 ^ 32 by omega,
          Nat.add_mod_right, Nat.mod_eq_of_lt (by omega)]
      have hb : (p.bounds e).2.1 = e.offset := by
        unfold IndexEntry.bounds
        split <;> rfl
      obtain ⟨output, readStart, unreadSize, u', hcross, hout, hu'⟩ :=
        crossBoundary_spec hu (e := e) (hfiles _ (le_refl _) (hle.trans hel))
      have hefile : e.filenum ∈ t.files := hfiles _ hle hel
      simp only [readItems, hb, hsize, hcross, bind, Except.bind]
      split
      · -- the limit is passed before this item: only the deferred read is left
        next hlim =>
        have hr := readData_spec hefile hu'.lies output
        rw [← hu'.size] at hr
        refine ⟨0, ?_, Nat.zero_le _, fun hf => by simp [hf] at hlim,
          fun h0 => by simp [h0] at hlim⟩
        split
        · simp [hr, hout]
        · next h0 =>
          have hnil : u' = [] := length_eq_zero_iff.mp (by have := hu'.size; simp_all)
          simp [← hout, hnil]
      · have hux : At (t.content e.filenum) readStart (u' ++ x) :=
          hu'.lies.append (by rw [hu'.stop]; exact hat)
        have hulen : unreadSize + x.length = (u' ++ x).length := by
          rw [length_append, ← hu'.size]
        split
        · next hlast =>
          have hr := readData_spec hefile hux output
          rw [← hulen] at hr
          refine ⟨1, by simp [hr, ← append_assoc, hout], by simp, fun _ => Nat.one_pos, ?_⟩
          intro h0
          obtain hes | hes := hlast
          · have := hrest.length_eq
            simp_all
          · simp [h0] at hes
        · next hlast =>
          have hesne : es ≠ [] := by
            rintro rfl
            simp at hlast
          have hunread : t.Unread ⟨output, s.sizes ++ [x.length], s.totalSize + x.length, readStart,
              unreadSize + x.length⟩ e.filenum e.offset (u' ++ x) :=
            ⟨hulen, hux, by have := hu'.stop; rw [length_append]; simp only at this ⊢; omega⟩
          obtain ⟨n, hn, hnle, -, hnall⟩ := ih false hrest hesne
            (fun k hk hk' => hfiles k (hle.trans hk) hk')
            (fun e' he' => hoff e' (mem_cons_of_mem _ he')) hunread
          refine ⟨n + 1, ?_, by simpa using hnle, fun _ => Nat.succ_pos _,
            fun h0 => by simp [hnall h0]⟩
          rw [hn, ← append_assoc output, hout]
          simp

/-! ## decompression -/

/-- The items `xs` are the blobs `bs` as the table stores them. -/
def Encoded (snappy : Snappy) (t : FreezerTable) : List Bytes → List Bytes → Prop :=
  List.Forall₂ fun b x => FreezerTableBatch.compress snappy t b = .ok x

/-- The bytes of a list of blobs. -/
def totalSize (bs : List Bytes) : Nat := (bs.map List.length).sum

/-- A compressed blob has the size and the content of the blob. -/
theorem compress_ok {b x : Bytes} (h : FreezerTableBatch.compress snappy t b = .ok x) :
    (if t.noCompression then x.length else snappy.decodedLen x) = b.length ∧
      decodeItem snappy t x = .ok b := by
  unfold FreezerTableBatch.compress at h
  split at h
  · next hraw =>
    injection h with h
    simp [decodeItem, hraw, h]
  · next hraw =>
    split at h
    · cases h
    · injection h with h
      simp [decodeItem, hraw, ← h, snappy.decode_encode, snappy.decodedLen_encode]

/-- Slicing up the data of stored items gives a run of the blobs: all of them
without a limit, and otherwise no more than the limit after the first. -/
theorem sliceItems_spec (maxBytes : Nat) (first : Bool) (size : Nat) (h : Encoded snappy t bs xs) :
    ∃ m, sliceItems snappy t maxBytes first size xs.flatten (xs.map List.length) =
        .ok (bs.take m) ∧ m ≤ bs.length ∧ (first = true → bs ≠ [] → 0 < m) ∧
      (maxBytes = 0 → m = bs.length) ∧
      (maxBytes ≠ 0 → m = 0 ∨ (first = true ∧ m = 1) ∨
        size + totalSize (bs.take m) ≤ maxBytes) := by
  induction h generalizing first size with
  | nil => exact ⟨0, rfl, le_refl _, fun _ h => absurd rfl h, fun _ => rfl, fun _ => Or.inl rfl⟩
  | @cons b x bs xs hbx _ ih =>
    obtain ⟨hlen, hdec⟩ := compress_ok hbx
    simp only [flatten_cons, map_cons, sliceItems, take_left, drop_left, hlen, hdec, bind,
      Except.bind]
    split
    · next hlim =>
      exact ⟨0, rfl, Nat.zero_le _, fun hf => by simp [hf] at hlim, fun h0 => by simp [h0] at hlim,
        fun _ => Or.inl rfl⟩
    · next hlim =>
      obtain ⟨m, hm, hle, -, hall, htot⟩ := ih false (size + b.length)
      refine ⟨m + 1, by rw [hm, take_succ_cons], by simpa using hle, fun _ _ => Nat.succ_pos _,
        fun h0 => by simp [hall h0], fun h0 => Or.inr ?_⟩
      simp only [totalSize, take_succ_cons, map_cons, sum_cons] at htot ⊢
      obtain rfl | ⟨hff, -⟩ | htot := htot h0
      · cases first with
        | true => exact Or.inl ⟨rfl, rfl⟩
        | false =>
          simp only [Bool.not_false, true_and, not_and, not_lt] at hlim
          exact Or.inr (by simpa using hlim h0)
      · cases hff
      · exact Or.inr (by omega)

/-- Blobs of a range are stored as the items of the range. -/
theorem Encoded.slice (h : Encoded snappy t bs xs) (i n : Nat) :
    Encoded snappy t ((bs.drop i).take n) ((xs.drop i).take n) :=
  forall₂_take n (forall₂_drop i h)

/-- **Reading a range:** a start between the hidden and the missing items gives
a run of the blobs stored from there on, if what is asked for can be allocated. -/
theorem retrieveItems_of_mem (mem : Memory) (h : t.WF es xs) (henc : Encoded snappy t bs xs)
    (start count maxBytes : Nat) (hs : t.itemHidden ≤ start) (hs' : start < t.items)
    (hc : 0 < count) (h64 : start + count < 2 ^ 64) (hcap : 24 * count ≤ mem.limit)
    (hmax : maxBytes ≤ mem.limit) :
    ∃ m, retrieveItems mem snappy t start count maxBytes =
      .ok ((bs.drop (start - t.itemOffset)).take m) ∧
      0 < m ∧ m ≤ min count (t.items - start) ∧
      (maxBytes = 0 → m = min count (t.items - start)) ∧
      (maxBytes ≠ 0 → m = 1 ∨ totalSize ((bs.drop (start - t.itemOffset)).take m) ≤ maxBytes) := by
  have hoff := h.offset_le
  have hitems := h.items
  have hblen : bs.length = xs.length := henc.length_eq
  have hcount : (if t.items < (start + count) % 2 ^ 64 then t.items - start else count) =
      min count (t.items - start) := by
    split <;> omega
  obtain ⟨n, hn⟩ : ∃ n, n = min count (t.items - start) := ⟨_, rfl⟩
  rw [← hn] at hcount ⊢
  have hn0 : 0 < n := by omega
  obtain ⟨p, hidx, hlaid, hp⟩ := getIndices_spec mem h (hoff.trans hs) hn0 (by omega)
    (by rw [indexEntrySize]; omega)
  have hsl := henc.slice (start - t.itemOffset) n
  have hslen : ((xs.drop (start - t.itemOffset)).take n).length = n := by
    simp only [length_take, length_drop]
    omega
  have helen : ((es.drop (start - t.itemOffset)).take n).length = n := by
    rw [hlaid.length_eq, hslen]
  have hmem : ∀ e ∈ (es.drop (start - t.itemOffset)).take n, e ∈ es :=
    fun e he => mem_of_mem_drop (mem_of_mem_take he)
  have hne : (es.drop (start - t.itemOffset)).take n ≠ [] := ne_nil_of_length_pos (by omega)
  have hlast : (((es.drop (start - t.itemOffset)).take n).getLastD p).filenum ≤ t.headId := by
    rw [getLastD_eq_getLast?, getLast?_eq_some_getLast hne]
    exact (h.laid.filenum_mem (hmem _ (getLast_mem hne))).2.trans h.end_le
  obtain ⟨m, hm, hmle, hm0, hmall⟩ := readItems_spec maxBytes true hlaid hne
    (fun k hk hk' => (h.files k).mpr ⟨hp.trans hk, hk'.trans hlast⟩)
    (fun e he => h.offsets e (hmem e he))
    (show t.Unread ⟨[], [], 0, p.offset, 0⟩ p.filenum p.offset [] from ⟨rfl, At.nil, rfl⟩)
  rw [hslen] at hmle hmall
  have hraw : t.retrieveRaw mem start count maxBytes =
      .ok ((((xs.drop (start - t.itemOffset)).take n).take m).flatten,
        (((xs.drop (start - t.itemOffset)).take n).take m).map List.length) := by
    have hb : ¬ (t.items ≤ start ∨ start < t.itemHidden ∨ count = 0) := by omega
    have hmk : makeslice mem 1 (if maxBytes ≠ 0 then maxBytes else 1024) = .ok () := by
      have h1024 := mem.le_limit
      rw [makeslice, if_neg]
      split <;> omega
    simp only [retrieveRaw, hb, if_false, hcount, hmk, hidx, bind, Except.bind]
    simpa using hm
  obtain ⟨k, hk, hkle, hk0, hkall, hktot⟩ := sliceItems_spec maxBytes true 0 (hsl.slice 0 m)
  simp only [drop_zero] at hk hkle hk0 hkall hktot
  have hbslen : (((bs.drop (start - t.itemOffset)).take n).take m).length = m := by
    simp only [length_take, length_drop]
    omega
  have hmpos : 0 < m := hm0 rfl
  rw [hbslen] at hkle hkall
  have htake : (((bs.drop (start - t.itemOffset)).take n).take m).take k =
      (bs.drop (start - t.itemOffset)).take k := by
    rw [take_take, take_take]
    congr 1
    omega
  rw [htake] at hk hktot
  have hkpos : 0 < k := hk0 trivial (ne_nil_of_length_pos (by omega))
  refine ⟨k, ?_, hkpos, by omega, fun h0 => by rw [hkall h0, hmall h0], fun h0 => ?_⟩
  · have hmk : makeslice mem 24 count = .ok () := by simp [makeslice, hcap]
    simp only [retrieveItems, hraw, hmk, bind, Except.bind, hk]
  · obtain h1 | ⟨-, h1⟩ | h1 := hktot h0
    · omega
    · exact Or.inl h1
    · exact Or.inr (by omega)

/-- What was read could be allocated. -/
theorem le_limit_of_retrieveItems {mem : Memory} {start count maxBytes : Nat} {out : List Bytes}
    (h : retrieveItems mem snappy t start count maxBytes = .ok out) :
    24 * count ≤ mem.limit ∧ maxBytes ≤ mem.limit := by
  -- a capacity above the limit is an error of the whole read
  have hfail (size cap : Nat) (hgt : mem.limit < size * cap) :
      makeslice mem size cap = .error .makesliceCapOutOfRange := if_pos hgt
  constructor
  · by_contra hgt
    cases hraw : t.retrieveRaw mem start count maxBytes <;>
      simp [retrieveItems, hraw, hfail _ _ (not_le.mp hgt), bind, Except.bind] at h
  · by_contra hgt
    have hne : maxBytes ≠ 0 := by omega
    have hmax := hfail 1 maxBytes (by omega)
    by_cases hb : t.items ≤ start ∨ start < t.itemHidden ∨ count = 0 <;>
      simp [retrieveItems, retrieveRaw, hb, hne, hmax, bind, Except.bind] at h

/-- Any other start is refused. -/
theorem retrieveItems_of_not_mem {mem : Memory} {start count maxBytes : Nat}
    (h : ¬ (t.itemHidden ≤ start ∧ start < t.items)) :
    retrieveItems mem snappy t start count maxBytes = .error .outOfBounds := by
  have hb : t.items ≤ start ∨ start < t.itemHidden ∨ count = 0 := by omega
  simp [retrieveItems, retrieveRaw, hb, bind, Except.bind]

end FreezerTable

end GoQrl
