import GoQrl.Freezer.Repair

/-!
# GoQrl.Freezer.Log

Runs of a freezer table.  A run starts with an empty directory and makes any
sequence of appends, commits, truncations and reopenings; next to the table
it records the blob last appended under each number.  Along every run whose
numbers fit the file format the table holds exactly the recorded blobs, and
`retrieveItems` reads them back.
-/

namespace GoQrl

open Records FreezerTable FreezerTableBatch List Function

/-- The operations on a table. -/
inductive TableOp where
  | appendRaw (item : Nat) (blob : Bytes)
  | commit
  | reset
  | truncateHead (items : Nat)
  | truncateTail (items : Nat)
  | reopen

/-- A table with its write batch, and the blob last appended under each number. -/
structure TableState where
  table : FreezerTable
  batch : FreezerTableBatch
  written : Nat → Option Bytes

namespace TableState

/-- The table after a change outside of the batch, which is reset before it is
used again; a refused operation changes nothing. -/
def changed (s : TableState) : Except FreezerError FreezerTable → TableState
  | .ok t => ⟨t, t.newBatch, s.written⟩
  | .error _ => s

/-- One operation. -/
def step (snappy : Snappy) (s : TableState) : TableOp → TableState
  | .appendRaw item blob =>
    match s.batch.appendRaw snappy s.table item blob with
    | .ok (t, b) => ⟨t, b, Function.update s.written item (some blob)⟩
    | .error _ => s
  | .commit => ⟨(s.batch.commit s.table).1, (s.batch.commit s.table).2, s.written⟩
  | .reset => ⟨s.table, s.table.newBatch, s.written⟩
  | .truncateHead items => s.changed (s.table.truncateHead items)
  | .truncateTail items => s.changed (s.table.truncateTail items)
  | .reopen => s.changed s.table.reopen

/-- The numbers of files and of deleted items fit the index file, and the counter of the items does
not wrap. -/
def Small (s : TableState) : Prop :=
  s.table.headId < 2 ^ 16 ∧ s.table.itemOffset < 2 ^ 32 ∧ s.batch.curItem < 2 ^ 64

instance (s : TableState) : Decidable s.Small := inferInstanceAs (Decidable (_ ∧ _))

end TableState

/-- The blob of an append takes less than 4 GiB as it is stored. -/
def TableOp.Storable (snappy : Snappy) (noCompression : Bool) : TableOp → Prop
  | .appendRaw _ blob => (if noCompression then blob else snappy.encode blob).length < 2 ^ 32
  | _ => True

/-- The states of the runs that start with an empty directory. -/
inductive TableRun (snappy : Snappy) (noCompression : Bool) (maxFileSize : Nat) : TableState → Prop
  | create (t : FreezerTable)
      (h : newTable noCompression maxFileSize [] none (fun _ => none) = .ok t) :
      TableRun snappy noCompression maxFileSize ⟨t, t.newBatch, fun _ => none⟩
  | step (s : TableState) (op : TableOp) (h : TableRun snappy noCompression maxFileSize s)
      (hop : op.Storable snappy noCompression) (hs : (s.step snappy op).Small) :
      TableRun snappy noCompression maxFileSize (s.step snappy op)

/-- The table stores the recorded blobs `bs` as `xs`. -/
structure FreezerTable.Stores (snappy : Snappy) (t : FreezerTable) (written : Nat → Option Bytes)
    (es : List IndexEntry) (xs bs : List Bytes) : Prop where
  wf : t.WF es xs
  encoded : Encoded snappy t bs xs
  written : ∀ i b, bs[i]? = some b → written (t.itemOffset + i) = some b

/-- Cutting the items of a table at both ends. -/
theorem FreezerTable.Stores.slice {snappy : Snappy} {t t' : FreezerTable}
    {written : Nat → Option Bytes} {es es' : List IndexEntry} {xs bs : List Bytes}
    (h : t.Stores snappy written es xs bs) {i n : Nat} (hwf : t'.WF es' ((xs.drop i).take n))
    (hc : SameConfig t t') (hoff : t'.itemOffset = t.itemOffset + i) :
    t'.Stores snappy written es' ((xs.drop i).take n) ((bs.drop i).take n) := by
  refine ⟨hwf, Encoded.congr hc (h.encoded.slice i n), fun j b hj => ?_⟩
  rw [hoff, add_assoc]
  refine h.written (i + j) b ?_
  grind

namespace TableState

/-- The table and the batch hold the recorded blobs `bs`: the table stores `xs`
and the batch `ps`. -/
structure Holds (snappy : Snappy) (s : TableState) (es : List IndexEntry) (xs ps bs : List Bytes) :
    Prop where
  wf : s.table.WF es xs
  pending : s.batch.Pending s.table ps
  encoded : Encoded snappy s.table bs (xs ++ ps)
  written : ∀ i b, bs[i]? = some b → s.written (s.table.itemOffset + i) = some b

variable {snappy : Snappy} {s s' : TableState} {es : List IndexEntry} {xs ps bs : List Bytes}

namespace Holds

/-- A table with an empty batch. -/
theorem of_stores {t : FreezerTable} {written : Nat → Option Bytes}
    (h : t.Stores snappy written es xs bs) : Holds snappy ⟨t, t.newBatch, written⟩ es xs [] bs :=
  ⟨h.wf, pending_newBatch t, by rw [append_nil]; exact h.encoded, h.written⟩

variable (h : s.Holds snappy es xs ps bs)
include h

theorem length_eq : bs.length = xs.length + ps.length := by
  rw [h.encoded.length_eq, length_append]

/-- The blobs of the table without the batch. -/
theorem stores : s.table.Stores snappy s.written es xs (bs.take xs.length) := by
  refine ⟨h.wf, ?_, fun i b hi => h.written i b ?_⟩
  · have := forall₂_take xs.length h.encoded
    rwa [take_left] at this
  · grind

/-- Writing the batch. -/
theorem commit (hs : s.batch.curItem < 2 ^ 64) :
    Holds snappy (s.step snappy .commit) (es ++ entriesFrom s.table.headId s.table.headBytes ps)
      (xs ++ ps) [] bs := by
  obtain ⟨hwf, hp⟩ := commit_spec h.wf h.pending (by rw [← h.pending.cur]; exact hs)
  refine ⟨hwf, hp, ?_, h.written⟩
  rw [append_nil]
  exact Encoded.congr (extends_commit _ _).config h.encoded

/-- Appending a blob under the next number. -/
theorem appendRaw {item : Nat} {blob : Bytes}
    (hsize : (if s.table.noCompression then blob else snappy.encode blob).length < 2 ^ 32)
    (hs' : s.step snappy (.appendRaw item blob) = s') (hs : s'.Small) :
    ∃ es' xs' ps' bs', Holds snappy s' (es ++ es') xs' ps' bs' ∧ Extends s.table s'.table ∧
      s.table.headId ≤ s'.table.headId := by
  rw [← hs'] at hs ⊢
  have hsame : ∃ es' xs' ps' bs', Holds snappy s (es ++ es') xs' ps' bs' ∧ Extends s.table s.table ∧
      s.table.headId ≤ s.table.headId :=
    ⟨[], xs, ps, bs, by rw [append_nil]; exact h, .refl _, le_refl _⟩
  have hkeep : ∀ e, s.batch.appendRaw snappy s.table item blob = .error e →
      s.step snappy (.appendRaw item blob) = s := fun e he => by simp [step, he]
  by_cases hitem : item = s.batch.curItem
  swap
  · rwa [hkeep .outOrderInsertion (by simp [FreezerTableBatch.appendRaw, hitem])]
  cases hcomp : compress snappy s.table blob with
  | error e =>
    rwa [hkeep e (by simp [FreezerTableBatch.appendRaw, hitem, hcomp, bind, Except.bind])]
  | ok data =>
    have happ : s.batch.appendRaw snappy s.table item blob = s.batch.appendItem s.table data := by
      simp [FreezerTableBatch.appendRaw, hitem, hcomp, bind, Except.bind]
    have hstep : ∀ t b, s.batch.appendItem s.table data = .ok (t, b) →
        s.step snappy (.appendRaw item blob) = ⟨t, b, update s.written item (some blob)⟩ := by
      intro t b hok
      simp [step, happ, hok]
    have hdata : data.length < 2 ^ 32 := by
      unfold compress at hcomp
      split at hcomp
      · next hraw =>
        injection hcomp with hcomp
        simpa [hraw, hcomp] using hsize
      · next hraw =>
        split at hcomp
        · cases hcomp
        · injection hcomp with hcomp
          simpa [hraw, hcomp] using hsize
    cases hok : s.batch.appendItem s.table data with
    | error e =>
      rwa [hkeep e (by rw [happ, hok])]
    | ok r =>
      obtain ⟨t, b⟩ := r
      rw [hstep t b hok] at hs ⊢
      have hcur := curItem_appendItem hok
      have hcur64 : b.curItem < 2 ^ 64 := hs.2.2
      obtain ⟨t', b', es', xs', ps', hok', hwf, hp, hxs, hext, hid, -⟩ :=
        appendItem_spec h.wf h.pending (by omega) hdata fun t' b' hok' => by
          cases hok.symm.trans hok'
          exact hs.1
      cases hok.symm.trans hok'
      refine ⟨es', xs', ps', bs ++ [blob], ⟨hwf, hp, ?_, fun i c hi => ?_⟩, hext, hid⟩
      · rw [hxs]
        exact rel_append (Encoded.congr hext.config h.encoded)
          (.cons (by simpa [compress, hext.config.1] using hcomp) .nil)
      · have hnum : item = s.table.itemOffset + bs.length := by
          rw [hitem, h.pending.cur, h.wf.items, h.length_eq, add_assoc]
        simp only [hext.itemOffset]
        obtain hlt | rfl | hgt := Nat.lt_trichotomy i bs.length
        · rw [update_of_ne (by omega)]
          rw [getElem?_append_left hlt] at hi
          exact h.written i c hi
        · rw [hnum]
          simpa using hi
        · rw [getElem?_eq_none (by simp only [length_append, length_singleton]; omega)] at hi
          cases hi

/-- Dropping the batch. -/
theorem reset : Holds snappy (s.step snappy .reset) es xs [] (bs.take xs.length) :=
  of_stores h.stores

/-- A truncation of the head is refused below the hidden items, and otherwise
keeps the blobs before the threshold. -/
theorem truncateHead {items : Nat} (hs' : s.step snappy (.truncateHead items) = s') :
    ∃ es' xs' ps' bs', Holds snappy s' es' xs' ps' bs' ∧ SameConfig s.table s'.table := by
  rw [← hs']
  by_cases hle : s.table.items ≤ items
  · have hok : s.table.truncateHead items = .ok s.table := by simp [FreezerTable.truncateHead, hle]
    rw [step, hok]
    exact ⟨_, _, _, _, h.reset, .refl _⟩
  by_cases hhid : items < s.table.itemHidden
  · have herr : s.table.truncateHead items = .error .truncationBelowTail := by
      simp [FreezerTable.truncateHead, hle, hhid]
    rw [step, herr]
    exact ⟨_, _, _, _, h, .refl _⟩
  obtain ⟨t, hok, hwf, hext, -, -⟩ := truncateHead_spec h.wf (not_lt.mp hhid) (not_le.mp hle)
  rw [step, hok]
  exact ⟨_, _, _, _, of_stores (h.stores.slice (i := 0) hwf hext.config hext.itemOffset),
    hext.config⟩

/-- A truncation of the tail is refused above the head, and otherwise hides the
items before the threshold. -/
theorem truncateTail {items : Nat} (hs' : s.step snappy (.truncateTail items) = s')
    (hs : s'.Small) :
    ∃ d xs' ps' bs', Holds snappy s' (es.drop d) xs' ps' bs' ∧ SameConfig s.table s'.table ∧
      s'.table.itemOffset = s.table.itemOffset + d ∧ s'.table.items = s.table.items ∧
      s'.table.headId = s.table.headId ∧ s.table.itemHidden ≤ s'.table.itemHidden := by
  rw [← hs'] at hs ⊢
  by_cases hle : items ≤ s.table.itemHidden
  · have hok : s.table.truncateTail items = .ok s.table := by simp [FreezerTable.truncateTail, hle]
    rw [step, hok]
    exact ⟨0, _, _, _, h.reset, .refl _, rfl, rfl, rfl, le_refl _⟩
  by_cases hhead : s.table.items < items
  · have herr : s.table.truncateTail items = .error .truncationAboveHead := by
      simp [FreezerTable.truncateTail, hle, hhead]
    rw [step, herr]
    exact ⟨0, _, _, _, h, .refl _, rfl, rfl, rfl, le_refl _⟩
  obtain ⟨t, d, hok, hwf, hcfg, hoff, hhid, hitems, hid, -⟩ :=
    truncateTail_spec h.wf (not_le.mp hle) (not_lt.mp hhead) (.inr fun t' ht' => by
      rw [step, ht'] at hs
      exact hs.2.1)
  rw [step, hok]
  have htake : (xs.drop d).take (xs.drop d).length = xs.drop d := take_length
  refine ⟨d, _, _, _, of_stores (h.stores.slice (by rw [htake]; exact hwf) hcfg hoff), hcfg, hoff,
    hitems, hid, ?_⟩
  simp only [changed, hhid]
  omega

/-- Reopening keeps the blobs of the table. -/
theorem reopen :
    ∃ es' xs' ps' bs', Holds snappy (s.step snappy .reopen) es' xs' ps' bs' ∧
      SameConfig s.table (s.step snappy .reopen).table := by
  obtain ⟨t, hok, hwf, hcfg, hoff, -, -, -⟩ := reopen_spec h.wf
  rw [step, hok]
  have htake : (xs.drop 0).take xs.length = xs := by simp
  exact ⟨_, _, _, _, of_stores (h.stores.slice (i := 0) (by rw [htake]; exact hwf) hcfg hoff), hcfg⟩

end Holds

end TableState

/-- **Runs of a table:** at every moment the table and its batch hold the blobs
last appended under their numbers. -/
theorem TableRun.holds {snappy : Snappy} {noCompression : Bool} {maxFileSize : Nat}
    (hmax : maxFileSize < 2 ^ 32) {s : TableState}
    (h : TableRun snappy noCompression maxFileSize s) :
    (∃ es xs ps bs, s.Holds snappy es xs ps bs) ∧ s.table.noCompression = noCompression ∧
      s.table.maxFileSize = maxFileSize := by
  induction h with
  | create t h =>
    rw [newTable_empty] at h
    injection h with h
    rw [← h]
    exact ⟨⟨[], [], [], [], emptyTable_wf noCompression hmax, pending_newBatch _, .nil, by simp⟩,
      rfl, rfl⟩
  | step s op _ hop hs ih =>
    obtain ⟨⟨es, xs, ps, bs, hh⟩, hcfg, hmaxf⟩ := ih
    have hstep : ∃ es' xs' ps' bs', (s.step snappy op).Holds snappy es' xs' ps' bs' ∧
        SameConfig s.table (s.step snappy op).table := by
      cases op with
      | appendRaw item blob =>
        obtain ⟨es', xs', ps', bs', hh', hext, -⟩ := hh.appendRaw (by rw [hcfg]; exact hop) rfl hs
        exact ⟨_, xs', ps', bs', hh', hext.config⟩
      | commit => exact ⟨_, _, _, _, hh.commit hs.2.2, (extends_commit _ _).config⟩
      | reset => exact ⟨_, _, _, _, hh.reset, .refl _⟩
      | truncateHead items => exact hh.truncateHead rfl
      | truncateTail items =>
        obtain ⟨d, xs', ps', bs', hh', hcfg', -⟩ := hh.truncateTail rfl hs
        exact ⟨_, xs', ps', bs', hh', hcfg'⟩
      | reopen => exact hh.reopen
    obtain ⟨es', xs', ps', bs', hh', hcfg'⟩ := hstep
    exact ⟨⟨es', xs', ps', bs', hh'⟩, hcfg'.1.trans hcfg, hcfg'.2.trans hmaxf⟩

/-- **The freezer table is a log:** along every run whose numbers fit the file
format, a read from a visible item on returns the blobs last appended under
the numbers from there on: all that are asked for without a byte limit, and
otherwise a run within the limit or a single item.  It does so just if the
output for the whole count and a buffer of the byte limit can be allocated.
Any other start is refused. -/
theorem FreezerTable.retrieveItems_spec {snappy : Snappy} {noCompression : Bool} {maxFileSize : Nat}
    (mem : Memory) (hmax : maxFileSize < 2 ^ 32) {s : TableState}
    (h : TableRun snappy noCompression maxFileSize s) (start count maxBytes : Nat) :
    (s.table.itemHidden ≤ start → start < s.table.items → 0 < count → start + count < 2 ^ 64 →
      ((∃ out, retrieveItems mem snappy s.table start count maxBytes = .ok out ∧ out ≠ [] ∧
          out.length ≤ min count (s.table.items - start) ∧
          (∀ i b, out[i]? = some b → s.written (start + i) = some b) ∧
          (maxBytes = 0 → out.length = min count (s.table.items - start)) ∧
          (maxBytes ≠ 0 → out.length = 1 ∨ totalSize out ≤ maxBytes)) ↔
        24 * count ≤ mem.limit ∧ maxBytes ≤ mem.limit)) ∧
    (¬ (s.table.itemHidden ≤ start ∧ start < s.table.items) →
      retrieveItems mem snappy s.table start count maxBytes = .error .outOfBounds) := by
  refine ⟨fun hs hs' hc h64 => ⟨fun ⟨_, hok, _⟩ => le_limit_of_retrieveItems hok, ?_⟩,
    retrieveItems_of_not_mem⟩
  rintro ⟨hcap, hlim⟩
  obtain ⟨⟨es, xs, ps, bs, hh⟩, -⟩ := h.holds hmax
  have hr := hh.stores
  obtain ⟨m, hok, hm, hle, hall, htot⟩ :=
    retrieveItems_of_mem mem hr.wf hr.encoded start count maxBytes hs hs' hc h64 hcap hlim
  have hoff := hh.wf.offset_le
  have hitems := hh.wf.items
  have hlen : (((bs.take xs.length).drop (start - s.table.itemOffset)).take m).length = m := by
    have := hh.length_eq
    simp only [length_take, length_drop]
    omega
  refine ⟨_, hok, fun h0 => ?_, by rw [hlen]; exact hle, fun i b hi => ?_, ?_, ?_⟩
  · rw [h0, length_nil] at hlen
    omega
  · have hib : (bs.take xs.length)[start - s.table.itemOffset + i]? = some b := by
      grind
    have hw := hr.written _ b hib
    rwa [show s.table.itemOffset + (start - s.table.itemOffset + i) = start + i by omega] at hw
  · rwa [hlen]
  · rwa [hlen]

/-- The codec that changes nothing. -/
def Snappy.identity : Snappy := ⟨id, some, List.length, fun _ => rfl, fun _ => rfl⟩

/-- A raw table with data files of two bytes after three appends, a truncation of
the tail in the middle of a file and a reopening. -/
def TableState.sample : TableState :=
  [.appendRaw 0 [1], .appendRaw 1 [2, 3], .appendRaw 2 [4, 5, 6], .commit, .truncateTail 1,
    .reopen].foldl
    (TableState.step .identity)
    ⟨emptyTable true 2, (emptyTable true 2).newBatch, fun _ => none⟩

theorem TableState.sample_run : TableRun .identity true 2 TableState.sample := by
  have h0 : TableRun .identity true 2 _ := .create _ (newTable_empty true 2)
  have h1 := h0.step _ (.appendRaw 0 [1]) (by simp [TableOp.Storable]) (by decide +kernel)
  have h2 := h1.step _ (.appendRaw 1 [2, 3]) (by simp [TableOp.Storable]) (by decide +kernel)
  have h3 := h2.step _ (.appendRaw 2 [4, 5, 6]) (by simp [TableOp.Storable]) (by decide +kernel)
  have h5 := (h3.step _ .commit trivial (by decide +kernel)).step _ (.truncateTail 1) trivial
      (by decide +kernel)
  exact h5.step _ .reopen trivial (by decide +kernel)

/-- A page of memory, and the bound on addresses of Go. -/
def FreezerTable.Memory.page : Memory := ⟨1024, le_rfl, by decide⟩
def FreezerTable.Memory.all : Memory := ⟨2 ^ 48, by decide, by decide⟩

/-- The two items left are read back, with memory for the five that are asked for. -/
theorem FreezerTable.retrieveItems_sample :
    TableState.sample.table.itemHidden ≤ 1 ∧ 1 < TableState.sample.table.items ∧
      ∃ out, retrieveItems .page .identity TableState.sample.table 1 5 0 = .ok out ∧ out ≠ [] ∧
        out.length = min 5 (TableState.sample.table.items - 1) ∧
        ∀ i b, out[i]? = some b → TableState.sample.written (1 + i) = some b := by
  have hs : TableState.sample.table.itemHidden ≤ 1 := by decide +kernel
  have hs' : 1 < TableState.sample.table.items := by decide +kernel
  obtain ⟨out, hok, hne, -, hw, hall, -⟩ :=
    ((retrieveItems_spec .page (by decide) TableState.sample_run 1 5 0).1
    hs hs' (by decide) (by decide)).mpr ⟨by decide, by decide⟩
  exact ⟨hs, hs', out, hok, hne, hall rfl, hw⟩

/-- **The capacity of the output:** it is the count of the caller, so that a count
far above the number of items panics instead of giving what there is. -/
theorem FreezerTable.retrieveItems_capacity :
    TableRun .identity true 2 TableState.sample ∧
      TableState.sample.table.itemHidden ≤ 1 ∧ 1 < TableState.sample.table.items ∧
      1 + 2 ^ 63 < 2 ^ 64 ∧
      retrieveItems .all .identity TableState.sample.table 1 (2 ^ 63) 0 =
        .error .makesliceCapOutOfRange := by
  refine ⟨TableState.sample_run, by decide +kernel, by decide +kernel, by decide, ?_⟩
  decide +kernel

/-- **The size of an item:** its end is kept in 32 bits, so that an item of 4 GiB
is read back as the empty one. -/
theorem FreezerTable.retrieveItems_oversized {mem : Memory} {snappy : Snappy} {m : Nat}
    (hm : m < 2 ^ 32) {blob : Bytes} (h : blob.length = 2 ^ 32) :
    ∃ t b, (emptyTable true m).newBatch.appendRaw snappy (emptyTable true m) 0 blob = .ok (t, b) ∧
      t.items = 1 ∧ retrieveItems mem snappy t 0 1 0 = .ok [[]] := by
  have hlim : freezerBatchBufferLimit < 2 ^ 32 := by decide
  norm_num at hm hlim h
  obtain ⟨t, ht⟩ : ∃ t : FreezerTable, t = { emptyTable true m with
    index := indexFile [⟨0, 0⟩, ⟨1, 0⟩]
    disk := update (update (fun _ => none) 0 (some [])) 1 (some blob)
    files := [0, 1], items := 1, headId := 1, headBytes := 2 ^ 32 } := ⟨_, rfl⟩
  refine ⟨t, ⟨[], [], 1⟩, ?_, by rw [ht], ?_⟩
  · simp [ht, appendRaw, compress, emptyTable, newBatch, appendItem, placeItem, h, hm, commit,
      advanceHead, openFile, releaseFile, bind, Except.bind, Except.toOption, maybeCommit,
        hlim, indexFile]
  · have hidx : t.index = indexFile [⟨0, 0⟩, ⟨1, 0⟩] := by rw [ht]
    have hoff : t.itemOffset = 0 := by rw [ht]; rfl
    have hhid : t.itemHidden = 0 := by rw [ht]; rfl
    have hitems : t.items = 1 := by rw [ht]
    have hfiles : t.files = [0, 1] := by rw [ht]
    have hraw : t.noCompression = true := by rw [ht]; rfl
    have hread : readAt t.index (0 * indexEntrySize) ((1 + 1) * indexEntrySize) =
        .ok (indexFile [⟨0, 0⟩, ⟨1, 0⟩]) := by rw [hidx]; decide
    have hun : unmarshalEntries (indexFile [⟨0, 0⟩, ⟨1, 0⟩]) 2 = .ok [⟨0, 0⟩, ⟨1, 0⟩] := by decide
    have hmake (size cap : Nat) (hle : size * cap ≤ 1024) : makeslice mem size cap = .ok () :=
      if_neg (not_lt.mpr (hle.trans mem.le_limit))
    have hget : t.getIndices mem 0 1 = .ok [⟨1, 0⟩, ⟨1, 0⟩] := by
      simp only [getIndices, hoff, Nat.sub_zero,
        show (1 + 1) * indexEntrySize % 2 ^ 64 = (1 + 1) * indexEntrySize by
        decide, hmake 1 ((1 + 1) * indexEntrySize) (by decide), hread, bind, Except.bind,
        show (0 + 1) % 2 ^ 64 + 1 = 2 by decide, hun]
    simp [retrieveItems, retrieveRaw, hitems, hhid, hget, hmake, readItems, crossBoundary,
      IndexEntry.bounds, readData, hfiles, readAt, bind, Except.bind, sliceItems, decodeItem, hraw]

end GoQrl
