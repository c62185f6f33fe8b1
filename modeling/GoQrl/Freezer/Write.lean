import GoQrl.Freezer.Read

/-!
# GoQrl.Freezer.Write

Appending and truncating keep a table well formed.  Each operation is
described by the entries and items that the table holds after it.
-/

namespace GoQrl

open Records List Function IndexEntry

variable {es : List IndexEntry} {xs : List Bytes} {t t' : FreezerTable}

/-- Items in front of a file follow any item that ends a file before it. -/
theorem Laid.start_after {c : Nat → Bytes} {p e : IndexEntry}
    (h : Laid c ⟨e.filenum, 0⟩ (e :: es) xs)
    (hp : p.filenum < e.filenum) (hs : (c p.filenum).length = p.offset) :
    Laid c p (e :: es) xs := by
  cases xs with
  | nil => exact h.elim
  | cons x xs =>
    obtain ⟨_, ho, hat, _, hrest⟩ := laid_cons.mp h
    have h0 : (p.bounds e).1 = 0 := bounds_of_ne hp.ne
    have h0' : (bounds ⟨e.filenum, 0⟩ e).1 = 0 := by simp [bounds]
    rw [h0'] at ho hat
    exact laid_cons.mpr ⟨hp.le, by rw [h0, ho], by rw [h0]; exact hat, fun _ => hs, hrest⟩

theorem getLastD_append {α : Type*} (l l' : List α) (a : α) :
    (l ++ l').getLastD a = l'.getLastD (l.getLastD a) := by
  induction l generalizing a with
  | nil => rfl
  | cons b l ih => rw [cons_append, getLastD_cons, getLastD_cons, ih]

namespace FreezerTable

/-- Replacing one data file. -/
theorem content_update {n : Nat} {f : Bytes} (h : t'.disk = update t.disk n (some f)) :
    t'.content = update t.content n f := by
  funext k
  rw [content, h]
  by_cases hk : k = n
  · subst hk
    simp
  · simp [hk, content]

/-- The parameters of the table, which nothing changes. -/
def SameConfig (t t' : FreezerTable) : Prop :=
  t'.noCompression = t.noCompression ∧ t'.maxFileSize = t.maxFileSize

theorem SameConfig.refl (t : FreezerTable) : SameConfig t t := ⟨rfl, rfl⟩

theorem SameConfig.trans {t'' : FreezerTable} (h : SameConfig t t') (h' : SameConfig t' t'') :
    SameConfig t t'' := ⟨h'.1.trans h.1, h'.2.trans h.2⟩

/-- Items are stored in the same way under the same parameters. -/
theorem Encoded.congr {snappy : Snappy} {bs : List Bytes} (hc : SameConfig t t')
    (h : Encoded snappy t bs xs) : Encoded snappy t' bs xs := by
  refine Forall₂.imp (fun b x hbx => ?_) h
  simpa [FreezerTableBatch.compress, hc.1] using hbx

/-! ## appending -/

/-- What appending leaves as it is. -/
structure Extends (t t' : FreezerTable) : Prop where
  config : SameConfig t t'
  itemOffset : t'.itemOffset = t.itemOffset
  itemHidden : t'.itemHidden = t.itemHidden
  tailId : t'.tailId = t.tailId
  metadata : t'.metadata = t.metadata

theorem Extends.refl (t : FreezerTable) : Extends t t := ⟨.refl t, rfl, rfl, rfl, rfl⟩

theorem Extends.trans {t'' : FreezerTable} (h : Extends t t') (h' : Extends t' t'') :
    Extends t t'' :=
  ⟨h.config.trans h'.config, h'.itemOffset.trans h.itemOffset, h'.itemHidden.trans h.itemHidden,
    h'.tailId.trans h.tailId, h'.metadata.trans h.metadata⟩

/-- Switching to the next data file changes the head only. -/
theorem advanceHead_spec (h : t.WF es xs) (hlt : t.headId + 1 < 2 ^ 16) :
    ∃ t', t.advanceHead = .ok t' ∧ t'.WF es xs ∧ Extends t t' ∧
      t'.headId = t.headId + 1 ∧ t'.headBytes = 0 ∧ t'.items = t.items := by
  have hnext : t.headId + 1 ∉ t.files := by
    rw [h.files]
    omega
  have hsome := h.disk t.headId h.tailId_le (le_refl _)
  have hnone : ¬ (t.disk t.headId).isNone = true := by
    rw [Option.isNone_iff_eq_none]
    intro h0
    simp [h0] at hsome
  obtain ⟨t', ht'⟩ : ∃ t' : FreezerTable, t' = { t with
      disk := update t.disk (t.headId + 1) (some [])
      files := t.headId :: ((t.headId + 1) :: t.files).filter fun k => !decide (k = t.headId)
      headBytes := 0
      headId := t.headId + 1 } := ⟨_, rfl⟩
  have hcont : t'.content = update t.content (t.headId + 1) [] :=
    content_update (by rw [ht'])
  have hkeep : ∀ k, k ≤ t.headId → update t.content (t.headId + 1) [] k = t.content k :=
    fun k hk => update_of_ne (by omega) _ _
  have hend := h.end_le
  refine ⟨t', ?_, ?_, by rw [ht']; exact ⟨⟨rfl, rfl⟩, rfl, rfl, rfl,
    rfl⟩, by simp [ht'], by simp [ht'], by simp [ht']⟩
  · simp [ht', advanceHead, openFile, hnext, releaseFile, bind, Except.bind, Except.toOption, hnone]
  · rw [ht'] at hcont ⊢
    exact { h with
      laid := by
        rw [hcont]
        refine h.laid.congr (fun k _ hk => hkeep k (hk.le.trans hend)) fun s x _ hat => ?_
        have hlast := hkeep _ hend
        rw [endOf] at hlast
        rwa [hlast]
      end_size := by
        rw [hcont]
        exact (congrArg List.length (hkeep _ hend)).trans h.end_size
      headBytes := by
        rw [hcont]
        simp
      disk := by
        intro k hk hk'
        by_cases hkn : k = t.headId + 1
        · simp [hkn]
        · simp only [update_of_ne hkn]
          exact h.disk k hk (by simp only at hk'; omega)
      files := by
        have htail := h.tailId_le
        simp only [mem_cons, mem_filter, h.files, Bool.not_eq_eq_eq_not, Bool.not_true,
          decide_eq_false_iff_not]
        omega
      end_le := hend.trans (Nat.le_succ _)
      head_empty := fun _ => rfl
      headId_lt := hlt }

end FreezerTable

namespace FreezerTableBatch

open FreezerTable

variable {b : FreezerTableBatch} {ps : List Bytes}

/-- The batch holds the items `ps` that follow the ones of the table. -/
structure Pending (b : FreezerTableBatch) (t : FreezerTable) (ps : List Bytes) : Prop where
  data : b.dataBuffer = ps.flatten
  index : b.indexBuffer = indexFile (entriesFrom t.headId t.headBytes ps)
  cur : b.curItem = t.items + ps.length
  offsets : ∀ e ∈ entriesFrom t.headId t.headBytes ps, e.offset < 2 ^ 32

/-- A new batch holds nothing. -/
theorem pending_newBatch (t : FreezerTable) : t.newBatch.Pending t [] :=
  ⟨rfl, rfl, rfl, by simp [entriesFrom]⟩

/-- Buffered items follow the last item of the table once they are written. -/
theorem laid_pending (h : t.WF es xs) {c : Nat → Bytes} (hc : ∀ k < t.headId, c k = t.content k)
    (hat : At (c t.headId) t.headBytes ps.flatten) :
    Laid c (t.endOf es) (entriesFrom t.headId t.headBytes ps) ps := by
  have hlaid := laid_entriesFrom hat
  by_cases hf : (t.endOf es).filenum = t.headId
  · have hend : t.endOf es = ⟨t.headId, t.headBytes⟩ := by
      have hs := h.end_size
      rw [hf, ← h.headBytes] at hs
      rw [hs, ← hf]
    rwa [hend]
  · have hlt := lt_of_le_of_ne h.end_le hf
    cases ps with
    | nil => trivial
    | cons x ps =>
      rw [h.head_empty hlt] at hlaid ⊢
      exact hlaid.start_after hlt ((congrArg List.length (hc _ hlt)).trans h.end_size)

/-- Writing the batch adds its items to the table. -/
theorem commit_spec (h : t.WF es xs) (hb : b.Pending t ps) (hlt : t.items + ps.length < 2 ^ 64) :
    (b.commit t).1.WF (es ++ entriesFrom t.headId t.headBytes ps) (xs ++ ps) ∧
      (b.commit t).2.Pending (b.commit t).1 [] := by
  have hcont : (b.commit t).1.content = update t.content t.headId
      (t.content t.headId ++ ps.flatten) :=
    content_update (by rw [← hb.data]; rfl)
  have hkeep : ∀ k, k ≠ t.headId →
      update t.content t.headId (t.content t.headId ++ ps.flatten) k = t.content k :=
    fun k hk => update_of_ne hk _ _
  have hhead : update t.content t.headId (t.content t.headId ++ ps.flatten) t.headId =
      t.content t.headId ++ ps.flatten := update_self _ _ _
  have hend : (b.commit t).1.endOf (es ++ entriesFrom t.headId t.headBytes ps) =
      if ps = [] then t.endOf es else ⟨t.headId, t.headBytes + ps.flatten.length⟩ := by
    have happ := getLastD_append es (entriesFrom t.headId t.headBytes ps) ⟨t.tailId, 0⟩
    split
    · next hnil =>
      subst hnil
      exact happ
    · next hne => exact happ.trans (getLastD_entriesFrom _ _ _ _ hne)
  exact ⟨{ h with
    index := by
      simp only [commit, h.index, hb.index, tailEntry]
      rw [← indexFile_append, cons_append]
    laid := by
      rw [hcont]
      refine Laid.append
        (h.laid.congr (fun k _ hk => hkeep k (Nat.ne_of_lt (lt_of_lt_of_le hk h.end_le)))
        fun s x _ hat => ?_) (laid_pending h (fun k hk => hkeep k hk.ne) ?_)
      · by_cases hf : (es.getLastD ⟨t.tailId, 0⟩).filenum = t.headId
        · rw [hf] at hat ⊢
          rw [hhead]
          exact hat.grow
        · rwa [hkeep _ hf]
      · rw [hhead, h.headBytes]
        exact At.append_self
    items := by
      simp [commit, hb.cur, h.items, add_assoc]
    hidden_le := by
      simp only [commit, hb.cur]
      exact h.hidden_le.trans (Nat.le_add_right _ _)
    end_le := by
      rw [hend]
      split
      · exact h.end_le
      · exact le_refl _
    end_size := by
      rw [hend, hcont]
      split
      · next hnil =>
        subst hnil
        rw [flatten_nil, append_nil, update_eq_self]
        exact h.end_size
      · rw [hhead, length_append, ← h.headBytes]
    headBytes := by
      rw [hcont]
      simp only [commit]
      rw [hhead, length_append, ← h.headBytes, hb.data]
    head_empty := by
      rw [hend]
      intro hlt'
      split at hlt'
      · next hnil =>
        subst hnil
        simp only [commit, hb.data, flatten_nil, length_nil, add_zero]
        exact h.head_empty hlt'
      · exact absurd hlt' (lt_irrefl _)
    disk := by
      intro k hk hk'
      by_cases hkn : k = t.headId
      · simp [commit, hkn]
      · simp only [commit, update_of_ne hkn]
        exact h.disk k hk hk'
    offsets := by
      intro e he
      obtain he | he := mem_append.mp he
      · exact h.offsets e he
      · exact hb.offsets e he
    items_lt := by
      simp only [commit, hb.cur]
      exact hlt }, ⟨rfl, rfl, rfl, by simp [entriesFrom]⟩⟩

theorem extends_commit (b : FreezerTableBatch) (t : FreezerTable) : Extends t (b.commit t).1 :=
  ⟨⟨rfl, rfl⟩, rfl, rfl, rfl, rfl⟩

variable {data : Bytes}

/-- Adding an item to the buffer of the head file. -/
theorem pending_snoc (hb : b.Pending t ps)
    (hlt : t.headBytes + b.dataBuffer.length + data.length < 2 ^ 32) :
    Pending
      { dataBuffer := b.dataBuffer ++ data
        indexBuffer := b.indexBuffer ++
          marshal ⟨t.headId, (t.headBytes + b.dataBuffer.length + data.length) % 2 ^ 32⟩
        curItem := b.curItem + 1 } t (ps ++ [data]) := by
  rw [Nat.mod_eq_of_lt hlt]
  rw [hb.data] at hlt
  have happ := entriesFrom_append t.headId t.headBytes ps [data]
  constructor
  · simp [hb.data]
  · rw [happ, indexFile_append, ← hb.index, hb.data]
    simp [entriesFrom, indexFile]
  · simp [hb.cur, add_assoc]
  · intro e he
    rw [happ, mem_append] at he
    obtain he | he := he
    · exact hb.offsets e he
    · simp only [entriesFrom, mem_singleton] at he
      rwa [he]

/-- The place of an item: the table and the batch hold the same items as before,
and the item fits behind the buffered ones. -/
theorem placeItem_spec (h : t.WF es xs) (hb : b.Pending t ps) (hlt : b.curItem < 2 ^ 64)
    {size : Nat} (hsize : size < 2 ^ 32)
    (hhead : ∀ t' b' o, b.placeItem t size = .ok (t', b', o) → t'.headId < 2 ^ 16) :
    ∃ t' b' es' xs' ps', b.placeItem t size = .ok (t', b', t'.headBytes + b'.dataBuffer.length) ∧
      t'.WF (es ++ es') xs' ∧ b'.Pending t' ps' ∧ xs' ++ ps' = xs ++ ps ∧ Extends t t' ∧
      t.headId ≤ t'.headId ∧ b'.curItem = b.curItem ∧
      t'.headBytes + b'.dataBuffer.length + size < 2 ^ 32 := by
  by_cases hfit : t.maxFileSize < t.headBytes + b.dataBuffer.length + size
  · obtain ⟨hwf, hp⟩ := commit_spec h hb (by rw [← hb.cur]; exact hlt)
    have hplace : ∀ t', (b.commit t).1.advanceHead = .ok t' →
        b.placeItem t size = .ok (t', (b.commit t).2, 0) := by
      intro t' ht'
      simp [placeItem, hfit, bind, Except.bind, ht']
    -- the new head is small because the source's file number is
    have hnext : (b.commit t).1.headId + 1 < 2 ^ 16 := by
      have hadv : ∃ t', (b.commit t).1.advanceHead = .ok t' ∧
          t'.headId = (b.commit t).1.headId + 1 := by
        unfold advanceHead
        simp only [openFile]
        split <;> exact ⟨_, rfl, rfl⟩
      obtain ⟨t', ht', hid⟩ := hadv
      rw [← hid]
      exact hhead _ _ _ (hplace t' ht')
    obtain ⟨t', ht', hwf', hext, hid, hbytes, hitems⟩ := advanceHead_spec hwf hnext
    have hzero : t'.headBytes + (b.commit t).2.dataBuffer.length = 0 := by rw [hbytes]; rfl
    refine ⟨t', (b.commit t).2, entriesFrom t.headId t.headBytes ps, xs ++ ps, [], ?_, hwf', ?_,
      append_nil _, (extends_commit b t).trans hext, ?_, rfl, ?_⟩
    · rw [hplace t' ht', hzero]
    · exact ⟨rfl, rfl, hitems.symm, by simp [entriesFrom]⟩
    · rw [hid]
      exact Nat.le_succ _
    · rwa [hzero, zero_add]
  · have hmax := h.maxFileSize
    refine ⟨t, b, [], xs, ps, by simp [placeItem, hfit], by simpa using h, hb, rfl,
      Extends.refl t, le_refl _, rfl, by omega⟩

@[simp] theorem headId_maybeCommit (b : FreezerTableBatch) (t : FreezerTable) :
    (b.maybeCommit t).1.headId = t.headId := by
  unfold maybeCommit
  split <;> rfl

@[simp] theorem curItem_maybeCommit (b : FreezerTableBatch) (t : FreezerTable) :
    (b.maybeCommit t).2.curItem = b.curItem := by
  unfold maybeCommit
  split <;> rfl

/-- An item that is appended is counted. -/
theorem curItem_appendItem {b' : FreezerTableBatch} (h : b.appendItem t data = .ok (t', b')) :
    b'.curItem = b.curItem + 1 := by
  cases hp : b.placeItem t data.length with
  | error e => simp [appendItem, hp, bind, Except.bind] at h
  | ok r =>
    obtain ⟨t1, b1, o⟩ := r
    have hb : b1.curItem = b.curItem := by
      unfold placeItem at hp
      dsimp only at hp
      split at hp
      · cases ha : (b.commit t).1.advanceHead with
        | error e => simp [ha, bind, Except.bind] at hp
        | ok t2 =>
          simp only [ha, bind, Except.bind, Except.ok.injEq, Prod.mk.injEq] at hp
          rw [← hp.2.1]
          rfl
      · simp only [Except.ok.injEq, Prod.mk.injEq] at hp
        rw [← hp.2.1]
    simp only [appendItem, hp, bind, Except.bind, Except.ok.injEq] at h
    have hc := congrArg (fun r => r.2.curItem) h
    simp only [curItem_maybeCommit] at hc
    rw [← hc, hb]

/-- **Appending an item:** it follows the items of the table and the batch, in
the buffer or already written. -/
theorem appendItem_spec (h : t.WF es xs) (hb : b.Pending t ps) (hlt : b.curItem + 1 < 2 ^ 64)
    (hsize : data.length < 2 ^ 32) (hhead : ∀ t' b', b.appendItem t data = .ok (t', b') →
      t'.headId < 2 ^ 16) :
    ∃ t' b' es' xs' ps', b.appendItem t data = .ok (t', b') ∧
      t'.WF (es ++ es') xs' ∧ b'.Pending t' ps' ∧ xs' ++ ps' = xs ++ ps ++ [data] ∧ Extends t t' ∧
      t.headId ≤ t'.headId ∧ b'.curItem = b.curItem + 1 := by
  have happ : ∀ t' b' o, b.placeItem t data.length = .ok (t', b', o) →
      b.appendItem t data = .ok (maybeCommit
        { dataBuffer := b'.dataBuffer ++ data
          indexBuffer := b'.indexBuffer ++ marshal ⟨t'.headId, (o + data.length) % 2 ^ 32⟩
          curItem := b'.curItem + 1 } t') := by
    intro t' b' o ho
    simp [appendItem, ho, bind, Except.bind]
  obtain ⟨t', b', es', xs', ps', hplace, hwf, hp, hxs, hext, hid, hcur, hfit⟩ :=
    placeItem_spec h hb (by omega) hsize fun t' b' o ho => by
      have hh := hhead (maybeCommit _ t').1 (maybeCommit _ t').2 (happ t' b' o ho)
      rwa [headId_maybeCommit] at hh
  have hp' := pending_snoc hp hfit
  have hxs' : xs' ++ (ps' ++ [data]) = xs ++ ps ++ [data] := by rw [← append_assoc, hxs]
  have hlen : t'.items + (ps' ++ [data]).length < 2 ^ 64 := by
    have := hp'.cur
    simp only at this
    omega
  by_cases hlim : freezerBatchBufferLimit < (b'.dataBuffer ++ data).length
  · obtain ⟨hwf', hp''⟩ := commit_spec hwf hp' hlen
    refine ⟨_, _, es' ++ entriesFrom t'.headId t'.headBytes (ps' ++ [data]), _, [], ?_,
      by rw [← append_assoc]; exact hwf', hp'', by rw [append_nil]; exact hxs',
      hext.trans (extends_commit _ _), hid, ?_⟩
    · rw [happ _ _ _ hplace, maybeCommit, if_pos hlim]
    · simp [commit, hcur]
  · refine ⟨t', _, es', xs', ps' ++ [data], ?_, hwf, hp', hxs', hext, hid, by simp [hcur]⟩
    rw [happ _ _ _ hplace, maybeCommit, if_neg hlim]

end FreezerTableBatch

end GoQrl
