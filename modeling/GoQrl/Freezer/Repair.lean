import GoQrl.Freezer.Truncate

/-!
# GoQrl.Freezer.Repair

Opening a table whose index and head file may have lost their ends.  The
index is cut back entry by entry until its last entry lies within its data
file; what remains is a well-formed table with the first items of the old one.
-/

namespace GoQrl

open Records List Option Function

namespace FreezerTable

variable {t u : FreezerTable} {es : List IndexEntry} {xs : List Bytes} {e : IndexEntry}

/-! ## cutting the index against the data -/

/-- The end of the first `n` items fits its data file. -/
def Covers (u : FreezerTable) (es : List IndexEntry) (n : Nat) : Prop :=
  (u.endOf (es.take n)).offset ≤ (u.content (u.endOf (es.take n)).filenum).length

/-- The last entry that the repair reads is the end of the indexed items. -/
theorem lastEntry_eq {n : Nat} (hidx : u.index = indexFile (u.tailEntry :: es.take n))
    (hfits : ∀ e ∈ es, e.Fits) (hn : n ≤ es.length) : u.lastEntry n = u.endOf (es.take n) := by
  cases n with
  | zero => rfl
  | succ n =>
    obtain ⟨hget, hmem⟩ := getElem?_endOf hn
    exact entryAtUnchecked_eq hidx hget (hfits _ hmem)

/-- Opening a file that exists for appending changes nothing on disk. -/
theorem openFile_forAppend (num : Nat) (hsome : (u.disk num).isSome) (hnot : num ∉ u.files) :
    u.openFile num .forAppend = .ok { u with files := num :: u.files } := by
  obtain ⟨f, hf⟩ := isSome_iff_exists.mp hsome
  have hupd : update u.disk num (some ((u.disk num).getD [])) = u.disk := by
    rw [hf, getD_some, ← hf, update_eq_self]
  simp [openFile, hnot, hupd]

/-- A file of exactly the expected size is already cut there. -/
theorem disk_eq_of_exact (hsome : (u.disk e.filenum).isSome)
    (h : e.offset = u.fileSize e.filenum) :
    u.disk = update u.disk e.filenum (some ((u.content e.filenum).take e.offset)) := by
  obtain ⟨f, hf⟩ := isSome_iff_exists.mp hsome
  have hc : u.content e.filenum = f := by rw [content, hf]; rfl
  have hlen : e.offset = f.length := by rw [h, fileSize, hf]; rfl
  rw [hc, hlen, take_length, ← hf, update_eq_self]

/-- Cutting a file that is long enough. -/
theorem truncateData_eq (h : e.offset ≤ u.fileSize e.filenum) :
    u.truncateData e.filenum e.offset = { u with
      disk := update u.disk e.filenum (some ((u.content e.filenum).take e.offset)) } := by
  rw [truncateData, truncateFreezerFile_of_le h]
  rfl

/-- The table with its index cut to `n` items, and the data file of the last of them cut behind it.
-/
def cutAt (u : FreezerTable) (es : List IndexEntry) (n : Nat) : FreezerTable :=
  { u with
    index := indexFile (u.tailEntry :: es.take n)
    disk := Function.update u.disk (u.endOf (es.take n)).filenum
      (some ((u.content (u.endOf (es.take n)).filenum).take (u.endOf (es.take n)).offset))
    files := [(u.endOf (es.take n)).filenum] }

/-- **The cut of the index:** it ends at the last number of items that the data
covers, and the data file of the last item is cut behind it. -/
theorem syncIndex_spec (hfits : ∀ e ∈ es, e.Fits)
    (hdisk : ∀ n, (u.disk (u.endOf (es.take n)).filenum).isSome) {N : Nat} (hN : N ≤ es.length)
    (hidx : u.index = indexFile (u.tailEntry :: es.take N))
    (hfiles : u.files = [(u.endOf (es.take N)).filenum]) :
    ∃ n, u.syncIndex (u.endOf (es.take N)) (u.fileSize (u.endOf (es.take N)).filenum) N =
        .ok (u.cutAt es n, u.endOf (es.take n), n) ∧
      n ≤ N ∧ u.Covers es n ∧ ∀ j, j ≤ N → u.Covers es j → j ≤ n := by
  induction N generalizing u with
  | zero =>
    refine ⟨0, ?_, le_refl _, Nat.zero_le _, fun j hj _ => hj⟩
    unfold syncIndex
    split
    · next heq => simp only [cutAt, ← disk_eq_of_exact (hdisk 0) heq, ← hidx, ← hfiles]
    · rw [truncateData_eq (Nat.zero_le _)]
      simp only [cutAt, ← hidx, ← hfiles]
  | succ N ih =>
    unfold syncIndex
    split
    · next heq =>
      refine ⟨N + 1, ?_, le_refl _, le_of_eq heq, fun j hj _ => hj⟩
      simp only [cutAt, ← disk_eq_of_exact (hdisk _) heq, ← hidx, ← hfiles]
    · next hne =>
      split
      · next hlt =>
        refine ⟨N + 1, ?_, le_refl _, hlt.le, fun j hj _ => hj⟩
        rw [truncateData_eq hlt.le]
        simp only [cutAt, ← hidx, ← hfiles]
      · next hlt =>
        have hnot : ¬ u.Covers es (N + 1) := fun hc => hlt (lt_of_le_of_ne hc hne)
        have hcut : truncateFreezerFile u.index ((N + 1) * indexEntrySize) =
            indexFile (u.tailEntry :: es.take N) := by
          rw [hidx, truncate_indexFile (by simp only [length_cons, length_take]; omega),
            take_succ_cons, take_take, min_eq_left (Nat.le_succ N)]
        -- in both cases the loop goes on with the file of the new last entry open
        obtain ⟨n, hrun, hle, hc, hmax⟩ := ih (u := { u with
            index := indexFile (u.tailEntry :: es.take N)
            files := [(u.endOf (es.take N)).filenum] }) hdisk (Nat.le_of_succ_le hN) rfl rfl
        have hlast : lastEntry { u with index := indexFile (u.tailEntry :: es.take N) } N =
            u.endOf (es.take N) := lastEntry_eq rfl hfits (Nat.le_of_succ_le hN)
        refine ⟨n, ?_, Nat.le_succ_of_le hle, hc, fun j hj hcj => ?_⟩
        · simp only [hcut, hlast]
          by_cases hf : (u.endOf (es.take N)).filenum = (u.endOf (es.take (N + 1))).filenum
          · rwa [if_neg (not_not_intro hf), hfiles, ← hf]
          · have hopen := openFile_forAppend (u := releaseFile { u with
                index := indexFile (u.tailEntry :: es.take N) }
                (u.endOf (es.take (N + 1))).filenum) _
              (hdisk N) (by simp [releaseFile, hfiles])
            have hrel : (releaseFile { u with index := indexFile (u.tailEntry :: es.take N) }
                (u.endOf (es.take (N + 1))).filenum).files = [] := by simp [releaseFile, hfiles]
            rw [hrel] at hopen
            simp only [ne_eq, hf, not_false_eq_true, if_true, hopen, bind, Except.bind]
            exact hrun
        · obtain hj | rfl := Nat.lt_or_eq_of_le hj
          · exact hmax j (Nat.le_of_lt_succ hj) hcj
          · exact absurd hcj hnot

/-! ## opening the files -/

/-- Opening a range of files that exist. -/
theorem preopenFrom_spec (id n : Nat) (hdisk : ∀ k, id ≤ k → k < id + n → (u.disk k).isSome) :
    ∃ files, u.preopenFrom id n = .ok { u with files := files } ∧
      ∀ k, k ∈ files ↔ k ∈ u.files ∨ (id ≤ k ∧ k < id + n) := by
  induction n generalizing u id with
  | zero => exact ⟨u.files, rfl, fun k => by grind⟩
  | succ n ih =>
    have hsome := hdisk id (le_refl _) (by omega)
    have hnone : ¬ (u.disk id).isNone = true := by
      intro h0
      simp [isNone_iff_eq_none.mp h0] at hsome
    obtain ⟨files, hopen, hmem⟩ : ∃ files,
      u.openFile id .forReadOnly = .ok { u with files := files } ∧
        ∀ k, k ∈ files ↔ k ∈ u.files ∨ k = id := by
      by_cases hin : id ∈ u.files
      · refine ⟨u.files, by simp [openFile, hin], fun k => ⟨Or.inl, ?_⟩⟩
        rintro (hk | rfl)
        · exact hk
        · exact hin
      · exact ⟨id :: u.files, by rw [openFile, if_neg hin, if_neg hnone], fun k => by
          rw [mem_cons]; exact Or.comm⟩
    obtain ⟨files', hrest, hmem'⟩ := ih (u := { u with files := files }) (id + 1)
      fun k hk hk' => hdisk k (by omega) (by omega)
    refine ⟨files', by simp [preopenFrom, hopen, bind, Except.bind, hrest], fun k => ?_⟩
    grind

/-- All files between the tail and the head are opened. -/
theorem preopen_spec (htail : u.tailId ≤ u.headId) {q : Nat} (hfiles : u.files = [q])
    (hq : u.tailId ≤ q ∧ q ≤ u.headId)
    (hdisk : ∀ k, u.tailId ≤ k → k ≤ u.headId → (u.disk k).isSome) :
    ∃ files, u.preopen = .ok { u with files := files } ∧ ∀ k, k ∈ files ↔ u.tailId ≤ k ∧
      k ≤ u.headId := by
  have hrel : u.releaseFilesAfter 0 false = { u with files := u.files.filter (· ≤ 0) } := by
    simp [releaseFilesAfter]
  obtain ⟨files, hopen, hmem⟩ := preopenFrom_spec (u := { u with files := u.files.filter (· ≤ 0) })
    u.tailId (u.headId - u.tailId) fun k hk hk' => hdisk k hk (by omega)
  have hmem' : ∀ k, k ∈ files → u.tailId ≤ k ∧ k ≤ u.headId := by
    intro k hk
    rw [hmem, hfiles] at hk
    simp only [mem_filter, mem_singleton, decide_eq_true_eq] at hk
    omega
  by_cases hin : u.headId ∈ files
  · refine ⟨files, ?_, fun k => ⟨hmem' k, fun hk => ?_⟩⟩
    · simp only [preopen, hrel, hopen, bind, Except.bind, openFile, hin, if_true]
    · obtain rfl | hne := eq_or_ne k u.headId
      · exact hin
      · rw [hmem]
        omega
  · have hhead := openFile_forAppend (u := { u with files := files }) u.headId
      (hdisk _ htail (le_refl _)) hin
    refine ⟨u.headId :: files, ?_, fun k => ?_⟩
    · simp only [preopen, hrel, hopen, bind, Except.bind, hhead]
    · rw [mem_cons]
      refine ⟨?_, fun hk => ?_⟩
      · rintro (rfl | hk)
        · exact ⟨htail, le_refl _⟩
        · exact hmem' k hk
      · obtain rfl | hne := eq_or_ne k u.headId
        · exact Or.inl rfl
        · rw [hmem]
          omega

/-! ## opening the table -/

theorem loadMetadata_eq {m tail : Nat} (h : u.metadata = some m) :
    u.loadMetadata tail = (max m tail, { u with metadata := some (max m tail) }) := by
  simp only [loadMetadata, h]
  split
  · next hlt => rw [Nat.max_eq_right hlt.le]
  · next hlt => rw [Nat.max_eq_left (not_lt.mp hlt), ← h]

/-- An index that lost its end keeps the entries that are whole. -/
theorem alignIndex_take {es : List IndexEntry} {L s : Nat}
    (hs : (s + 1) * indexEntrySize ≤ L) (hs' : s ≤ es.length) :
    ∃ n, alignIndex ((indexFile (e :: es)).take L) = indexFile (e :: es.take n) ∧ s ≤ n ∧
      n ≤ es.length := by
  have hlen : (indexFile (e :: es)).length = (es.length + 1) * 6 := by
    rw [length_indexFile]
    rfl
  obtain ⟨idx, hidx⟩ : ∃ idx, idx = (indexFile (e :: es)).take L := ⟨_, rfl⟩
  have hil : idx.length = min L ((es.length + 1) * 6) := by rw [hidx, length_take, hlen]
  rw [show indexEntrySize = 6 from rfl] at hs
  refine ⟨idx.length / 6 - 1, ?_, by omega, by omega⟩
  have hcut : alignIndex idx = idx.take ((idx.length / 6 - 1 + 1) * indexEntrySize) := by
    have h0 : ¬ idx.length = 0 := by omega
    simp only [alignIndex, h0, if_false, indexEntrySize]
    split
    · rw [truncateFreezerFile_of_le (Nat.sub_le _ _)]
      congr 1
      omega
    · rw [take_of_length_le]
      omega
  rw [← hidx, hcut, hidx, take_take, Nat.min_eq_left, take_indexFile, take_succ_cons]
  rw [show indexEntrySize = 6 from rfl, ← hidx]
  omega

/-- Nothing is removed where no open file lies. -/
theorem removed_eq (remove : Bool) {p : Nat → Prop} [DecidablePred p] (h : ∀ k ∈ u.files, ¬ p k) :
    (fun k => if remove ∧ k ∈ u.files ∧ p k then none else u.disk k) = u.disk :=
  funext fun k => if_neg fun hk => h k hk.2.1 hk.2.2

theorem releaseFilesAfter_eq {num : Nat} (remove : Bool) (h : ∀ k ∈ u.files, k ≤ num) :
    u.releaseFilesAfter num remove = u := by
  rw [releaseFilesAfter, removed_eq remove fun k hk => not_lt.mpr (h k hk),
    filter_eq_self.mpr fun k hk => decide_eq_true (h k hk)]

theorem releaseFilesBefore_eq {num : Nat} (remove : Bool) (h : ∀ k ∈ u.files, num ≤ k) :
    u.releaseFilesBefore num remove = u := by
  rw [releaseFilesBefore, removed_eq remove fun k hk => not_lt.mpr (h k hk),
    filter_eq_self.mpr fun k hk => decide_eq_true (h k hk)]

/-- A repair that opens the head at the end of the items only opens the other files. -/
theorem repair_eq {u1 w v : FreezerTable} {n : Nat} (hload : u.loadTail = u1)
    (hhead : u1.openHead = .ok (w, e, n))
    (hv : v = { w with items := w.itemOffset + n, headBytes := e.offset, headId := e.filenum })
    (hfiles : ∀ k ∈ v.files, v.tailId ≤ k ∧ k ≤ v.headId) : u.repair = v.preopen := by
  have hafter := releaseFilesAfter_eq true fun k hk => (hfiles k hk).2
  have hbefore := releaseFilesBefore_eq true fun k hk => (hfiles k hk).1
  subst hv
  rw [repair, hload, hhead]
  exact congrArg preopen
    ((congrArg (fun w => w.releaseFilesBefore w.tailId true) hafter).trans hbefore)

/-- What is left on disk of the table `t`: the files other than the head, and
the first `c` bytes of the head. -/
structure LeftOver (t : FreezerTable) (c : Nat) (disk : Nat → Option Bytes) : Prop where
  other : ∀ k, k ≠ t.headId → disk k = t.disk k
  head : disk t.headId = some ((t.content t.headId).take c)

namespace LeftOver

variable {c : Nat} {disk : Nat → Option Bytes}

theorem isSome (hl : t.LeftOver c disk) (h : t.WF es xs) {k : Nat} (hk : t.tailId ≤ k)
    (hk' : k ≤ t.headId) : (disk k).isSome := by
  by_cases hkh : k = t.headId
  · rw [hkh, hl.head]
    rfl
  · rw [hl.other k hkh]
    exact h.disk k hk hk'

/-- Up to an offset that is left, a file is the old one. -/
theorem take_eq (hl : t.LeftOver c disk) {k o : Nat} (ho : o ≤ ((disk k).getD []).length) :
    ((disk k).getD []).take o = (t.content k).take o := by
  by_cases hkh : k = t.headId
  · rw [hkh, hl.head, getD_some] at ho ⊢
    rw [length_take] at ho
    rw [take_take, min_eq_left (by omega)]
  · rw [hl.other k hkh]
    rfl

/-- An end that is not behind the cut is left. -/
theorem offset_le (hl : t.LeftOver c disk) (h : t.WF es xs) {n : Nat}
    (hc : (t.endOf (es.take n)).filenum = t.headId → (t.endOf (es.take n)).offset ≤ c) :
    (t.endOf (es.take n)).offset ≤ ((disk (t.endOf (es.take n)).filenum).getD []).length := by
  have hsize := h.offset_le_size n
  by_cases hkh : (t.endOf (es.take n)).filenum = t.headId
  · rw [hkh] at hsize ⊢
    rw [hl.head, getD_some, length_take]
    omega
  · rw [hl.other _ hkh]
    exact hsize

end LeftOver

/-- The head of a table whose index holds `N` items is the file of the last item
that the data covers. -/
theorem openHead_spec {N : Nat} (hidx : u.index = indexFile (u.tailEntry :: es.take N))
    (hfits : ∀ e ∈ es, e.Fits) (hN : N ≤ es.length)
    (hdisk : ∀ n, (u.disk (u.endOf (es.take n)).filenum).isSome) (hfiles : u.files = []) :
    ∃ n, u.openHead = .ok (u.cutAt es n, u.endOf (es.take n), n) ∧
      n ≤ N ∧ u.Covers es n ∧ ∀ j, j ≤ N → u.Covers es j → j ≤ n := by
  have hcount : u.index.length / indexEntrySize - 1 = N := by
    rw [hidx, length_indexFile, Nat.mul_div_cancel _ (by decide), length_cons, length_take]
    omega
  have hopen := openFile_forAppend _ (hdisk N) (by rw [hfiles]; exact not_mem_nil)
  rw [hfiles] at hopen
  obtain ⟨n, hsync, hspec⟩ :=
    syncIndex_spec (u := { u with files := [(u.endOf (es.take N)).filenum] })
    hfits hdisk hN hidx rfl
  refine ⟨n, ?_, hspec⟩
  simp only [openHead, hcount, lastEntry_eq hidx hfits hN, hopen, bind, Except.bind]
  exact hsync

/-- **Opening after a cut:** let the index lose its end behind the first `s`
items, and the head file behind the end of item `s`, with the metadata at
some tail not above them.  Then the table opens with at least these items. -/
theorem newTable_spec (h : t.WF es xs) {s L m c : Nat} {disk : Nat → Option Bytes}
    (hs : s ≤ es.length) (hL : (s + 1) * indexEntrySize ≤ L) (hm : m ≤ t.itemOffset + s)
    (hl : t.LeftOver c disk)
    (hc : (t.endOf (es.take s)).filenum = t.headId → (t.endOf (es.take s)).offset ≤ c) :
    ∃ t' n, newTable t.noCompression t.maxFileSize (t.index.take L) (some m) disk = .ok t' ∧
      s ≤ n ∧ n ≤ es.length ∧ t'.WF (es.take n) (xs.take n) ∧ SameConfig t t' ∧
      t'.itemOffset = t.itemOffset ∧ t'.itemHidden = max m t.itemOffset ∧ t'.headId ≤ t.headId := by
  obtain ⟨N, hidx, hsN, hN⟩ := alignIndex_take hL hs
  rw [← h.index] at hidx
  have hfits : ∀ e ∈ es, e.Fits := fun e he => h.fits (mem_cons_of_mem _ he)
  -- the table once the index and the metadata are read
  obtain ⟨u, hu⟩ : ∃ u : FreezerTable, u =
      { noCompression := t.noCompression, maxFileSize := t.maxFileSize
        index := indexFile (t.tailEntry :: es.take N)
        metadata := some (max m t.itemOffset), disk := disk, files := []
        items := 0, itemOffset := t.itemOffset, itemHidden := max m t.itemOffset
        headId := 0, tailId := t.tailId, headBytes := 0 } := ⟨_, rfl⟩
  have hend : ∀ n, u.endOf (es.take n) = t.endOf (es.take n) := fun n => by rw [endOf, hu]; rfl
  have hucont : ∀ k, u.content k = (disk k).getD [] := fun k => by rw [content, hu]
  have hcovers : ∀ j, u.Covers es j ↔
      (t.endOf (es.take j)).offset ≤ ((disk (t.endOf (es.take j)).filenum).getD []).length := by
    intro j
    rw [Covers, hend, hucont]
  obtain ⟨n, hhead, hnN, hcov, hmax⟩ := openHead_spec (u := u) (by rw [hu]; rfl) hfits hN
    (fun n => by rw [hend, hu]; exact hl.isSome h (h.end_take_mem n).1 (h.end_take_mem n).2)
      (by rw [hu])
  have hsn : s ≤ n := hmax s hsN ((hcovers s).mpr (hl.offset_le h hc))
  rw [hcovers] at hcov
  have hmem := h.end_take_mem n
  rw [cutAt, hend] at hhead
  obtain ⟨q, hq⟩ : ∃ q, q = t.endOf (es.take n) := ⟨_, rfl⟩
  rw [← hq] at hcov hmem hhead
  -- the table once the index is cut, before all its files are opened
  obtain ⟨v, hv⟩ : ∃ v : FreezerTable, v = { u with
      index := indexFile (t.tailEntry :: es.take n)
      disk := update disk q.filenum (some (((disk q.filenum).getD []).take q.offset))
      files := [q.filenum], items := t.itemOffset + n, headId := q.filenum, headBytes :=
        q.offset } := ⟨_, rfl⟩
  rw [hu] at hv
  obtain ⟨files, hopen, hfiles⟩ := preopen_spec (u := v) (by rw [hv]; exact hmem.1)
    (by rw [hv]) (by rw [hv]; exact ⟨hmem.1, le_refl _⟩)
    (by
      rw [hv]
      intro k hk hk'
      by_cases hkq : k = q.filenum
      · simp [hkq]
      · simp only [update_of_ne hkq]
        exact hl.isSome h hk (hk'.trans hmem.2))
  have hwf := h.cut n (max m t.itemOffset)
    (update disk q.filenum (some (((disk q.filenum).getD []).take q.offset))) files
    (by omega)
    (fun k hk hk' => by
      rw [← hq] at hk'
      rw [update_of_ne (Nat.ne_of_lt hk')]
      exact hl.other k (Nat.ne_of_lt (lt_of_lt_of_le hk' hmem.2)))
    (by rw [← hq, update_self, hl.take_eq hcov])
    (Nat.le_max_right _ _) (by omega)
    (by rw [← hq]; rw [hv] at hfiles; exact hfiles) rfl
  rw [← hq] at hwf
  refine ⟨_, n, ?_, hsn, by omega, hwf, ⟨rfl, rfl⟩, rfl, rfl, hmem.2⟩
  rw [newTable, repair_eq (v := v) ?_ hhead (by rw [hv, hu]; rfl) (by rw [hv]; simpa using hmem.1),
    hopen, hv]
  rw [loadTail, hidx, entryAtUnchecked_eq rfl rfl (h.fits mem_cons_self), loadMetadata_eq rfl, hu]
  rfl

/-- **Closing and opening** gives the table of the same items. -/
theorem reopen_spec (h : t.WF es xs) :
    ∃ t', t.reopen = .ok t' ∧ t'.WF es xs ∧ SameConfig t t' ∧ t'.itemOffset = t.itemOffset ∧
      t'.itemHidden = t.itemHidden ∧ t'.items = t.items ∧ t'.headId ≤ t.headId := by
  have hlen := h.length_eq
  have hitems := h.items
  have hhid := h.hidden_le
  have hl : t.LeftOver (t.content t.headId).length t.disk := by
    refine ⟨fun _ _ => rfl, ?_⟩
    obtain ⟨f, hf⟩ := isSome_iff_exists.mp (h.disk _ h.tailId_le (le_refl _))
    rw [content, hf, getD_some, take_length]
  have hend : t.endOf (es.take es.length) = t.endOf es := by rw [take_length]
  obtain ⟨t', n, hopen, hn, hn', hwf, hcfg, hoff, hhid', hhead⟩ := newTable_spec h
    (L := t.index.length) (m := t.itemHidden) (le_refl _)
    (by rw [h.index, length_indexFile, length_cons]) (by omega) hl
    (by rw [hend]; intro hf; rw [← hf]; exact le_of_eq h.end_size.symm)
  obtain rfl : n = es.length := le_antisymm hn' hn
  have hlen' : xs.take es.length = xs := by rw [hlen, take_length]
  rw [take_length, hlen'] at hwf
  refine ⟨t', ?_, hwf, hcfg, hoff, ?_, ?_, hhead⟩
  · rwa [take_length, ← h.metadata] at hopen
  · rw [hhid', Nat.max_eq_left h.offset_le]
  · rw [hwf.items, hoff, hitems]

/-- The table of an empty directory. -/
def emptyTable (noCompression : Bool) (maxFileSize : Nat) : FreezerTable :=
  { noCompression, maxFileSize, index := indexFile [⟨0, 0⟩], metadata := some 0
    disk := Function.update (fun _ => none) 0 (some []), files := [0]
    items := 0, itemOffset := 0, itemHidden := 0, headId := 0, tailId := 0, headBytes := 0 }

/-- An empty directory is opened as the empty table. -/
theorem newTable_empty (noCompression : Bool) (maxFileSize : Nat) :
    newTable noCompression maxFileSize [] none (fun _ => none) =
      .ok (emptyTable noCompression maxFileSize) := by
  have hidx : alignIndex [] = indexFile [⟨0, 0⟩] := by decide
  have hhead : openHead
      { noCompression, maxFileSize, index := indexFile [⟨0, 0⟩], metadata := some 0
        disk := fun _ => none, files := []
        items := 0, itemOffset := 0, itemHidden := 0, headId := 0, tailId := 0, headBytes := 0 } =
      .ok (emptyTable noCompression maxFileSize, ⟨0, 0⟩, 0) := by
    have hcount : (indexFile [⟨0, 0⟩]).length / indexEntrySize - 1 = 0 := by decide
    simp only [openHead, hcount]
    rfl
  have hfiles : ∀ k ∈ (emptyTable noCompression maxFileSize).files, 0 ≤ k ∧ k ≤ 0 := by
    simp [emptyTable]
  rw [newTable, repair_eq ?_ hhead rfl hfiles]
  · rfl
  · rw [loadTail, hidx]
    rfl

/-- **A new table** holds no item. -/
theorem emptyTable_wf (noCompression : Bool) {maxFileSize : Nat} (hmax : maxFileSize < 2 ^ 32) :
    (emptyTable noCompression maxFileSize).WF [] [] where
  index := rfl
  laid := trivial
  items := rfl
  offset_le := le_refl _
  hidden_le := le_refl _
  metadata := rfl
  end_le := le_refl _
  end_size := rfl
  headBytes := rfl
  head_empty := fun _ => rfl
  files := fun k => by simp [emptyTable]
  disk := fun k _ hk => by
    obtain rfl := Nat.le_zero.mp hk
    rfl
  offsets := by simp
  maxFileSize := hmax
  items_lt := Nat.two_pow_pos 64
  offset_lt := Nat.two_pow_pos 32
  headId_lt := Nat.two_pow_pos 16

end FreezerTable

end GoQrl
