import GoQrl.Freezer.Write

/-!
# GoQrl.Freezer.Truncate

Truncation at both ends.  `truncateHead` keeps the first items of the table;
`truncateTail` hides items and drops the ones that share no data file with an
item that is still visible.
-/

namespace GoQrl

open Records List Function

theorem getLastD_take_succ {α : Type*} {l : List α} {n : Nat} {a b : α} (h : l[n]? = some b) :
    (l.take (n + 1)).getLastD a = b := by
  obtain ⟨hn, rfl⟩ := List.getElem?_eq_some_iff.mp h
  rw [take_succ_eq_append_getElem hn, getLastD_append]
  rfl

theorem getLastD_split {α : Type*} {l : List α} {a : α} (n : Nat) :
    (l.drop n).getLastD ((l.take n).getLastD a) = l.getLastD a := by
  rw [← getLastD_append, take_append_drop]

/-- A file that is left was written up to every offset in it. -/
theorem Laid.offset_le_size {c : Nat → Bytes} {p : IndexEntry} {es : List IndexEntry}
    {xs : List Bytes} (h : Laid c p es xs) (hf : p.filenum < (es.getLastD p).filenum) :
    p.offset ≤ (c p.filenum).length := by
  induction h using Laid.items with
  | nil p => exact absurd hf (lt_irrefl _)
  | cons p e es x xs hle ho hat hsz hrest ih =>
    by_cases hpe : p.filenum = e.filenum
    · rw [IndexEntry.bounds_of_eq hpe] at ho
      rw [getLastD_cons] at hf
      rw [hpe]
      omega
    · rw [hsz (lt_of_le_of_ne hle hpe)]

namespace FreezerTable

variable {t : FreezerTable} {es : List IndexEntry} {xs : List Bytes}

/-! ## the head -/

/-- The end of the first `n` items lies within its data file. -/
theorem WF.offset_le_size (h : t.WF es xs) (n : Nat) :
    (t.endOf (es.take n)).offset ≤ (t.content (t.endOf (es.take n)).filenum).length := by
  have hrest := (h.laid.split n).2
  have hend : (es.drop n).getLastD (t.endOf (es.take n)) = t.endOf es := getLastD_split n
  by_cases hf : (t.endOf (es.take n)).filenum = (t.endOf es).filenum
  · have hle := hrest.offset_le_last (by rw [← endOf, hend]; exact hf)
    rw [← endOf, hend, ← h.end_size] at hle
    rwa [hf]
  · have hle := hrest.filenum_le_last
    rw [← endOf, hend] at hle
    exact hrest.offset_le_size (by rw [← endOf, hend]; exact lt_of_le_of_ne hle hf)

/-- The end of the first `n` items lies in a file between the tail and the head. -/
theorem WF.end_take_mem (h : t.WF es xs) (n : Nat) :
    t.tailId ≤ (t.endOf (es.take n)).filenum ∧ (t.endOf (es.take n)).filenum ≤ t.headId := by
  refine ⟨(h.laid.split n).1.filenum_le_last, ?_⟩
  have hle := (h.laid.split n).2.filenum_le_last
  rw [getLastD_split] at hle
  exact hle.trans h.end_le

/-- The end of the first items is the last of their entries. -/
theorem getElem?_endOf {n : Nat} (hn : n < es.length) :
    (t.tailEntry :: es.take (n + 1))[n + 1]? = some (t.endOf (es.take (n + 1))) ∧
      t.endOf (es.take (n + 1)) ∈ es := by
  have hget : es[n]? = some es[n] := getElem?_eq_getElem hn
  rw [endOf, getLastD_take_succ hget, getElem?_cons_succ, getElem?_take_of_succ, hget]
  exact ⟨rfl, getElem_mem hn⟩

/-- The entry that the truncation reads is the end of the items it keeps. -/
theorem expectedEnd_eq {n : Nat} (hidx : t.index = indexFile (t.tailEntry :: es.take n))
    (hfits : ∀ e ∈ es, e.Fits) (hn : n ≤ es.length) :
    t.expectedEnd n = .ok (t.endOf (es.take n)) := by
  cases n with
  | zero => rfl
  | succ n =>
    obtain ⟨hget, hmem⟩ := getElem?_endOf hn
    exact entryAt_eq hidx hget (hfits _ hmem)

/-- Going back to an earlier data file keeps the files up to it. -/
theorem switchHead_spec (num : Nat) (hfiles : ∀ k, k ∈ t.files ↔ t.tailId ≤ k ∧ k ≤ t.headId)
    (hdisk : ∀ k, t.tailId ≤ k → k ≤ t.headId → (t.disk k).isSome)
    (htail : t.tailId ≤ num) (hhead : num ≤ t.headId) :
    ∃ disk files, t.switchHead num = .ok { t with disk := disk, files := files, headId := num } ∧
      (∀ k, k ∈ files ↔ t.tailId ≤ k ∧ k ≤ num) ∧
      (∀ k, t.tailId ≤ k → k ≤ num → disk k = t.disk k) := by
  by_cases hne : num = t.headId
  · exact ⟨t.disk, t.files, by simp [switchHead, hne], by rw [hne]; exact hfiles, fun _ _ _ => rfl⟩
  · refine ⟨fun k => if k ∈ num :: t.files.filter (· ≠ num) ∧ num < k then none else
        update t.disk num (some ((t.disk num).getD [])) k,
      (num :: t.files.filter (· ≠ num)).filter (· ≤ num), ?_, ?_, ?_⟩
    · simp [switchHead, hne, releaseFile, openFile, releaseFilesAfter, bind, Except.bind]
    · simp only [mem_filter, mem_cons, hfiles, decide_eq_true_eq, ne_eq]
      omega
    · intro k hk hk'
      obtain ⟨f, hf⟩ := Option.isSome_iff_exists.mp (hdisk k hk (hk'.trans hhead))
      dsimp only
      rw [if_neg (by omega)]
      by_cases hkn : k = num
      · subst hkn
        simp [hf]
      · exact update_of_ne hkn _ _

/-- The first items of a table form a table when its last data file is cut behind
them and the files after that are gone. -/
theorem WF.cut (h : t.WF es xs) (n hidden : Nat) (disk : Nat → Option Bytes) (files : List Nat)
    (hn : n ≤ es.length)
    (hlt : ∀ k, t.tailId ≤ k → k < (t.endOf (es.take n)).filenum → disk k = t.disk k)
    (hlast : disk (t.endOf (es.take n)).filenum =
      some ((t.content (t.endOf (es.take n)).filenum).take (t.endOf (es.take n)).offset))
    (hoff : t.itemOffset ≤ hidden) (hhid : hidden ≤ t.itemOffset + n)
    (hfiles : ∀ k, k ∈ files ↔ t.tailId ≤ k ∧ k ≤ (t.endOf (es.take n)).filenum) {t' : FreezerTable}
    (ht' : t' = { t with
      index := indexFile (t.tailEntry :: es.take n)
      metadata := some hidden
      disk := disk
      files := files
      items := t.itemOffset + n
      itemHidden := hidden
      headId := (t.endOf (es.take n)).filenum
      headBytes := (t.endOf (es.take n)).offset }) : t'.WF (es.take n) (xs.take n) := by
  have hmem := h.end_take_mem n
  have hsize := h.offset_le_size n
  have hlen := h.length_eq
  have hitems := h.items
  obtain ⟨q, hq⟩ : ∃ q, q = t.endOf (es.take n) := ⟨_, rfl⟩
  rw [← hq] at hlt hlast hfiles hmem hsize ht'
  have hd : t'.disk = disk := by rw [ht']
  have hqcont : t'.content q.filenum = (t.content q.filenum).take q.offset := by
    rw [content, hd, hlast]
    rfl
  have hqlen : (t'.content q.filenum).length = q.offset := by
    rw [hqcont, length_take]
    omega
  have hend : t'.endOf (es.take n) = q := by
    rw [hq, ht']
    rfl
  have hlaid : Laid t'.content ⟨t.tailId, 0⟩ (es.take n) (xs.take n) := by
    have hqe : (es.take n).getLastD ⟨t.tailId, 0⟩ = q := hq.symm
    refine (h.laid.split n).1.congr ?_ ?_
    · rw [hqe]
      intro k hk hk'
      rw [content, hd, content, hlt k hk hk']
    · rw [hqe, hqcont]
      exact fun s x hs hat => hat.take hs
  have h64 := h.items_lt
  subst ht'
  exact { h with
    index := rfl
    laid := hlaid
    items := by
      simp only [length_take]
      omega
    offset_le := hoff
    hidden_le := hhid
    metadata := rfl
    end_le := by rw [hend]
    end_size := by rw [hend, hqlen]
    headBytes := hqlen.symm
    head_empty := by
      rw [hend]
      exact fun hlt => absurd hlt (lt_irrefl _)
    files := hfiles
    disk := by
      intro k hk hk'
      by_cases hkq : k = q.filenum
      · simp [hkq, hlast]
      · simp only [hlt k hk (lt_of_le_of_ne hk' hkq)]
        exact h.disk k hk (hk'.trans hmem.2)
    offsets := fun e he => h.offsets e (mem_of_mem_take he)
    items_lt := by
      simp only
      omega
    headId_lt := lt_of_le_of_lt hmem.2 h.headId_lt }

/-- **Truncating the head:** the items before the threshold are kept. -/
theorem truncateHead_spec (h : t.WF es xs) {items : Nat} (hhid : t.itemHidden ≤ items)
    (hlt : items < t.items) :
    ∃ t', t.truncateHead items = .ok t' ∧
      t'.WF (es.take (items - t.itemOffset)) (xs.take (items - t.itemOffset)) ∧
      Extends t t' ∧ t'.items = items ∧ t'.headId ≤ t.headId := by
  have hoff := h.offset_le
  have hitems := h.items_eq
  obtain ⟨n, rfl⟩ := Nat.exists_eq_add_of_le (hoff.trans hhid)
  rw [Nat.add_sub_cancel_left]
  have hn : n ≤ es.length := by omega
  have hmem := h.end_take_mem n
  have hsize := h.offset_le_size n
  have hidx : truncateFreezerFile t.index ((n + 1) * indexEntrySize) =
      indexFile (t.tailEntry :: es.take n) := by
    rw [h.index, truncate_indexFile (by simp only [length_cons]; omega), take_succ_cons]
  obtain ⟨q, hq⟩ : ∃ q, q = t.endOf (es.take n) := ⟨_, rfl⟩
  rw [← hq] at hmem hsize
  obtain ⟨u, hu⟩ : ∃ u : FreezerTable, u = { t with
      index := indexFile (t.tailEntry :: es.take n) } := ⟨_, rfl⟩
  have hexp : u.expectedEnd n = .ok q := by
    rw [hq, hu]
    exact expectedEnd_eq rfl (fun e he => h.fits (mem_cons_of_mem _ he)) hn
  obtain ⟨disk, files, hswitch, hfiles, hdisk⟩ := switchHead_spec (t := u) q.filenum
    (by rw [hu]; exact h.files) (by rw [hu]; exact h.disk) (by rw [hu]; exact hmem.1)
    (by rw [hu]; exact hmem.2)
  replace hdisk : ∀ k, t.tailId ≤ k → k ≤ q.filenum → disk k = t.disk k := by
    rwa [hu] at hdisk
  have hqcont : (disk q.filenum).getD [] = t.content q.filenum := by
    rw [content, ← hdisk q.filenum hmem.1 (le_refl _)]
  have hwf := h.cut n t.itemHidden
    (update disk q.filenum (some ((t.content q.filenum).take q.offset))) files hn
    (fun k hk hk' => by
      rw [← hq] at hk'
      rw [update_of_ne (Nat.ne_of_lt hk')]
      exact hdisk k hk (Nat.le_of_lt hk'))
    (by rw [← hq, update_self]) hoff hhid (by rw [← hq]; rw [hu] at hfiles; exact hfiles) rfl
  rw [← hq] at hwf
  refine ⟨_, ?_, hwf, ⟨⟨rfl, rfl⟩, rfl, rfl, rfl, h.metadata.symm⟩, rfl, hmem.2⟩
  have h1 : ¬ t.items ≤ t.itemOffset + n := by omega
  have h2 : ¬ t.itemOffset + n < t.itemHidden := by omega
  simp only [truncateHead, h1, h2, if_false, Nat.add_sub_cancel_left, hidx, ← hu, hexp,
    hswitch, bind, Except.bind, truncateData, hqcont, truncateFreezerFile_of_le hsize]
  simp [hu, h.metadata]

/-! ## the tail -/

/-- The count of the items that go with the dropped files: the ones after them,
up to the new tail, share its file. -/
theorem countDeleted_spec (newTailId deleted : Nat) (hidx : t.index = indexFile (t.tailEntry :: es))
    (hfits : ∀ e ∈ es, e.Fits) {n : Nat} (hn : n ≤ es.length) :
    ∃ d, t.countDeleted newTailId deleted n = .ok (deleted + d) ∧ d ≤ n ∧
      (∀ j e, d ≤ j → j < n → es[j]? = some e → e.filenum = newTailId) ∧
      (d = 0 ∨ (t.endOf (es.take d)).filenum ≠ newTailId) := by
  induction n with
  | zero => exact ⟨0, rfl, le_refl _, fun j e _ hj => absurd hj (Nat.not_lt_zero j), Or.inl rfl⟩
  | succ n ih =>
    have hget : es[n]? = some es[n] := getElem?_eq_getElem hn
    have hread : t.entryAt (n + 1) = .ok es[n] :=
      entryAt_eq hidx (by rw [getElem?_cons_succ, hget]) (hfits _ (getElem_mem hn))
    by_cases hf : es[n].filenum = newTailId
    · obtain ⟨d, hd, hle, hin, hout⟩ := ih (Nat.le_of_succ_le hn)
      refine ⟨d, ?_, Nat.le_succ_of_le hle, fun j e hj hj' he => ?_, hout⟩
      · simp [countDeleted, hread, bind, Except.bind, hf, hd]
      · obtain hlt | rfl := Nat.lt_succ_iff_lt_or_eq.mp hj'
        · exact hin j e hj hlt he
        · rw [hget] at he
          injection he with he
          rw [← he, hf]
    · refine ⟨n + 1, ?_, le_refl _, fun j e hj hj' => by omega, Or.inr ?_⟩
      swap
      · rwa [endOf, getLastD_take_succ hget]
      simp [countDeleted, hread, bind, Except.bind, hf]

/-- The file of the new tail: the head file behind the last item. -/
theorem fileOf_eq (h : t.WF es xs) {m : Nat} (hm : m ≤ es.length) :
    t.fileOf (t.itemOffset + m) = .ok ((es[m]?.map IndexEntry.filenum).getD t.headId) := by
  have hitems := h.items_eq
  by_cases hlast : m = es.length
  · rw [fileOf, if_pos (by omega), hlast]
    simp
  · have hget : es[m]? = some es[m] := getElem?_eq_getElem (by omega)
    have hread : t.entryAt (m + 1) = .ok es[m] :=
      entryAt_eq h.index (by rw [getElem?_cons_succ, hget])
        (h.fits (mem_cons_of_mem _ (getElem_mem _)))
    rw [fileOf, if_neg (by omega), Nat.add_sub_cancel_left, hread, hget]
    rfl

/-- Dropping whole files in front of the table: the entries from `d` on are kept,
and none of the dropped items lies in the new tail file. -/
theorem WF.dropFiles (h : t.WF es xs) (d newTailId hidden : Nat) (hd : t.itemOffset + d ≤ hidden)
    (hhid : hidden ≤ t.items) (htail : t.tailId ≤ newTailId) (hle : newTailId ≤ t.headId)
    (hnext : ∀ e, es[d]? = some e → e.filenum = newTailId) (hlt : t.itemOffset + d < 2 ^ 32)
    (hbefore : d = 0 ∨ (t.endOf (es.take d)).filenum ≠ newTailId)
    (hend : d = es.length → newTailId = t.headId ∧ 0 < d) {t' : FreezerTable} (ht' : t' = { t with
      index := indexFile (⟨newTailId, t.itemOffset + d⟩ :: es.drop d)
      metadata := some hidden, itemHidden := hidden, tailId := newTailId
      itemOffset := t.itemOffset + d
      disk := fun k => if k ∈ t.files ∧ k < newTailId then none else t.disk k
      files := t.files.filter (newTailId ≤ ·) }) : t'.WF (es.drop d) (xs.drop d) := by
  have hlen := h.length_eq
  have hitems := h.items
  have hd' : d ≤ es.length := by omega
  have hcont : ∀ k, newTailId ≤ k → t'.content k = t.content k := by
    intro k hk
    rw [ht']
    simp [content, not_lt.mpr hk]
  have hrest := (h.laid.split d).2
  have happ : (es.drop d).getLastD ((es.take d).getLastD ⟨t.tailId, 0⟩) = t.endOf es :=
    getLastD_split d
  -- the end is the old one, or the front of the head file if no item is left
  have hends : (t'.endOf (es.drop d) = t.endOf es ∧ newTailId ≤ (t.endOf es).filenum ∧
        Laid t.content ⟨newTailId, 0⟩ (es.drop d) (xs.drop d)) ∨
      (t'.endOf (es.drop d) = ⟨t.headId, 0⟩ ∧ newTailId = t.headId ∧ t.headBytes = 0 ∧
        es.drop d = [] ∧ xs.drop d = []) := by
    cases hes : es.drop d with
    | nil =>
      have hdl : d = es.length := le_antisymm hd' (drop_eq_nil_iff.mp hes)
      obtain ⟨hnew, hpos⟩ := hend hdl
      rw [hes] at happ
      have hxs : xs.drop d = [] := drop_eq_nil_iff.mpr (by omega)
      have hlast : (t.endOf es).filenum ≠ t.headId := by
        rw [← happ, ← hnew]
        exact hbefore.resolve_left hpos.ne'
      refine Or.inr ⟨?_, hnew, h.head_empty (lt_of_le_of_ne h.end_le hlast), rfl, hxs⟩
      rw [endOf, ht', getLastD_nil, hnew]
    | cons e rest =>
      have he : es[d]? = some e := by
        have := congrArg (fun l => l[0]?) hes
        simpa using this
      have hfile := hnext e he
      rw [hes] at hrest happ
      refine Or.inl ⟨?_, ?_, ?_⟩
      · rw [← happ]
        rfl
      · rw [← happ, getLastD_cons, ← hfile]
        cases hx : xs.drop d with
        | nil => rw [hx] at hrest; exact hrest.elim
        | cons x xs' => rw [hx] at hrest; exact (laid_cons.mp hrest).2.2.2.2.filenum_le_last
      · rw [← hfile]
        refine hrest.restart ?_
        obtain rfl | hbefore := hbefore
        · exact Or.inr rfl
        · exact Or.inl (by rw [hfile]; exact hbefore)
  have hlaid : Laid t'.content ⟨newTailId, 0⟩ (es.drop d) (xs.drop d) := by
    obtain ⟨-, -, hl⟩ | ⟨-, -, -, hes, hxs⟩ := hends
    · refine hl.congr (fun k hk _ => hcont k hk) fun s x _ hat => ?_
      rwa [hcont _ hl.filenum_le_last]
    · rw [hes, hxs]
      trivial
  subst ht'
  exact { h with
    index := rfl
    laid := hlaid
    items := by
      simp only [length_drop]
      omega
    offset_le := hd
    hidden_le := hhid
    metadata := rfl
    end_le := by
      obtain ⟨he, -, -⟩ | ⟨he, -⟩ := hends
      · rw [he]
        exact h.end_le
      · rw [he]
    end_size := by
      obtain ⟨he, hn, -⟩ | ⟨he, hn, h0, -⟩ := hends
      · rw [he, hcont _ hn]
        exact h.end_size
      · rw [he, hcont _ hle, ← h.headBytes, h0]
    headBytes := by
      rw [hcont _ hle]
      exact h.headBytes
    head_empty := by
      obtain ⟨he, -, -⟩ | ⟨he, -⟩ := hends
      · rw [he]
        exact h.head_empty
      · rw [he]
        exact fun hlt => absurd hlt (lt_irrefl _)
    files := by
      simp only [mem_filter, h.files, decide_eq_true_eq]
      omega
    disk := by
      intro k hk hk'
      simp only at hk hk' ⊢
      rw [if_neg (by omega)]
      exact h.disk k (htail.trans hk) hk'
    offsets := fun e he => h.offsets e (mem_of_mem_drop he)
    offset_lt := hlt }

/-- **Truncating the tail:** the threshold is the new hidden mark, and the items
from some number not above it on are kept. -/
theorem truncateTail_spec (h : t.WF es xs) {items : Nat} (hhid : t.itemHidden < items)
    (hle : items ≤ t.items) (hdel : items < 2 ^ 32 ∨ ∀ t', t.truncateTail items = .ok t' →
      t'.itemOffset < 2 ^ 32) :
    ∃ t' d, t.truncateTail items = .ok t' ∧ t'.WF (es.drop d) (xs.drop d) ∧ SameConfig t t' ∧
      t'.itemOffset = t.itemOffset + d ∧ t'.itemHidden = items ∧ t'.items = t.items ∧
      t'.headId = t.headId ∧ (d ≠ 0 → t'.tailId ≠ t.tailId) := by
  have hoff := h.offset_le
  have hitems := h.items_eq
  obtain ⟨m, rfl⟩ := Nat.exists_eq_add_of_le (hoff.trans hhid.le)
  have hm : m ≤ es.length := by omega
  have h1 : ¬ t.itemOffset + m ≤ t.itemHidden := by omega
  have h2 : ¬ t.items < t.itemOffset + m := by omega
  have hfile := fileOf_eq h hm
  obtain ⟨newTailId, hnew⟩ : ∃ n, n = (es[m]?.map IndexEntry.filenum).getD t.headId := ⟨_, rfl⟩
  rw [← hnew] at hfile
  have hbounds : t.tailId ≤ newTailId ∧ newTailId ≤ t.headId := by
    rw [hnew]
    cases hget : es[m]? with
    | none => exact ⟨h.tailId_le, le_refl _⟩
    | some e =>
      have := h.laid.filenum_mem (mem_of_getElem? hget)
      exact ⟨this.1, this.2.trans h.end_le⟩
  by_cases hsame : t.tailId = newTailId
  · refine ⟨{ t with itemHidden := t.itemOffset + m, metadata := some (t.itemOffset + m) }, 0, ?_,
      ?_, ⟨rfl, rfl⟩, rfl, rfl, rfl, rfl, fun h0 => absurd rfl h0⟩
    · simp only [truncateTail, h1, h2, if_false, hfile, bind, Except.bind, hsame, if_true]
    · exact { h with offset_le := Nat.le_add_right _ _, hidden_le := hle, metadata := rfl }
  · have hlt : t.tailId < newTailId := lt_of_le_of_ne hbounds.1 hsame
    obtain ⟨d, hcount, hdm, hin, hout⟩ := countDeleted_spec (t := { t with
        itemHidden := t.itemOffset + m, metadata := some (t.itemOffset + m) })
      newTailId t.itemOffset h.index (fun e he => h.fits (mem_cons_of_mem _ he)) hm
    have hoff32 : t.itemOffset + d < 2 ^ 32 := by
      obtain hdel | hdel := hdel
      · omega
      · obtain ⟨t', ht', heq⟩ : ∃ t', t.truncateTail (t.itemOffset + m) = .ok t' ∧
          t'.itemOffset = t.itemOffset + d := by
          simp only [truncateTail, h1, h2, if_false, hfile, bind, Except.bind, hsame,
            not_lt.mpr hbounds.1, dropTail, hcount, Nat.add_sub_cancel_left]
          exact ⟨_, rfl, rfl⟩
        exact heq ▸ hdel t' ht'
    have hwf := h.dropFiles d newTailId (t.itemOffset + m) (by omega) hle hbounds.1 hbounds.2
      (fun e he => by
        by_cases hdm' : d = m
        · rw [hnew, ← hdm', he]
          rfl
        · exact hin d e (le_refl _) (by omega) he)
      hoff32 hout
      (fun hdl => ⟨by rw [hnew,
        show es[m]? = none from getElem?_eq_none (by omega)]; rfl, by omega⟩) rfl
    refine ⟨_, d, ?_, hwf, ⟨rfl, rfl⟩, rfl, rfl, rfl, rfl, fun _ => hlt.ne.symm⟩
    have hmod : (t.itemOffset + d) % 2 ^ 32 = t.itemOffset + d := Nat.mod_eq_of_lt hoff32
    have hdrop : t.index.drop ((d + 1) * indexEntrySize) = indexFile (es.drop d) := by
      rw [h.index, drop_indexFile, drop_succ_cons]
    have hidx : indexFile (⟨newTailId, t.itemOffset + d⟩ :: es.drop d) =
        IndexEntry.marshal ⟨newTailId, t.itemOffset + d⟩ ++ indexFile (es.drop d) := rfl
    simp only [truncateTail, h1, h2, if_false, hfile, bind, Except.bind, hsame,
      not_lt.mpr hbounds.1, dropTail, Nat.add_sub_cancel_left, hcount, hmod, hdrop,
      releaseFilesBefore, true_and, hidx]

end FreezerTable

end GoQrl
