import GoQrl.Freezer.Log

/-!
# GoQrl.Freezer.Recovery

Opening the freezer after a crash (`core/rawdb/freezer.go`).  Every table has
its own history up to its last `Sync` and a history since then; the crash
cuts its index and its head file, but not below their lengths at the `Sync`.
`newFreezer` repairs the tables one by one and then truncates them to the
shortest head and the longest tail.
-/

namespace GoQrl

open Records FreezerTable FreezerTableBatch List

/-! ## the freezer -/

/-- What is stored of a table, with the parameters it is opened with. -/
structure StoredTable where
  noCompression : Bool
  maxFileSize : Nat
  index : Bytes
  metadata : Option Nat
  disk : Nat → Option Bytes

/-- Open the table. -/
def StoredTable.open (p : StoredTable) : Except FreezerError FreezerTable :=
  newTable p.noCompression p.maxFileSize p.index p.metadata p.disk

/-- The freezer: its tables and the range of the items they share. -/
structure Freezer where
  tables : List FreezerTable
  frozen : Nat
  tail : Nat

namespace Freezer

/-- The shortest head of the tables. -/
def minHead (tables : List FreezerTable) : Nat :=
  tables.foldl (fun head t => if t.items < head then t.items else head) (2 ^ 64 - 1)

/-- The longest tail of the tables. -/
def maxTail (tables : List FreezerTable) : Nat :=
  tables.foldl (fun tail t => if tail < t.itemHidden then t.itemHidden else tail) 0

/-- Truncate all tables to the same length. -/
def repair (tables : List FreezerTable) : Except FreezerError Freezer := do
  let head := minHead tables
  let tail := maxTail tables
  let tables ← tables.mapM fun t => do
    let t ← t.truncateHead head
    t.truncateTail tail
  .ok ⟨tables, head, tail⟩

end Freezer

/-- Open the freezer of the stored tables. -/
def newFreezer (stored : List StoredTable) : Except FreezerError Freezer := do
  let tables ← stored.mapM StoredTable.open
  Freezer.repair tables

/-! ## crashes -/

/-- The operations other than a truncation of the head and a reopening. -/
def TableOp.keepsHead : TableOp → Bool
  | .truncateHead _ => false
  | .reopen => false
  | _ => true

/-- The metadata on stable storage after an operation: a truncation of the tail
syncs it when it drops a data file. -/
def syncedMetadata (synced : Option Nat) (t t' : FreezerTable) : Option Nat :=
  if t'.tailId = t.tailId then synced else t'.metadata

/-- The states after a `Sync` in state `a`, with the metadata as last synced. -/
inductive SinceSync (snappy : Snappy) (noCompression : Bool) (a : TableState) :
    TableState → Option Nat → Prop
  | sync : SinceSync snappy noCompression a a a.table.metadata
  | step (b : TableState) (m : Option Nat) (op : TableOp) (h : SinceSync snappy noCompression a b m)
      (hkeep : op.keepsHead) (hop : op.Storable snappy noCompression)
      (hs : (b.step snappy op).Small) :
      SinceSync snappy noCompression a (b.step snappy op)
        (syncedMetadata m b.table (b.step snappy op).table)

/-- A table after a crash: the state at its last `Sync`, the state at the crash
and what the crash left. -/
structure CrashedTable (snappy : Snappy) where
  noCompression : Bool
  maxFileSize : Nat
  synced : TableState
  last : TableState
  index : Bytes
  metadata : Option Nat
  disk : Nat → Option Bytes
  maxFileSize_lt : maxFileSize < 2 ^ 32
  run : TableRun snappy noCompression maxFileSize synced
  since : SinceSync snappy noCompression synced last metadata
  tail_lt : last.table.itemHidden < 2 ^ 32
  index_cut : ∃ L, synced.table.index.length ≤ L ∧ index = last.table.index.take L
  head_cut : ∃ c, (last.table.headId = synced.table.headId → synced.table.headBytes ≤ c) ∧
    last.table.LeftOver c disk

/-- The files of the crashed table. -/
def CrashedTable.stored {snappy : Snappy} (c : CrashedTable snappy) : StoredTable :=
  ⟨c.noCompression, c.maxFileSize, c.index, c.metadata, c.disk⟩

/-! ## what a crash leaves of a table -/

/-- The position `q` was on stable storage at the `Sync` of the table `a`. -/
def Covered (a : FreezerTable) (q : IndexEntry) : Prop :=
  q.offset = 0 ∨ q.filenum < a.headId ∨ (q.filenum = a.headId ∧ q.offset ≤ a.headBytes)

/-- What the operations since the `Sync` of table `a` keep in table `b`. -/
structure KeptSince (a b : FreezerTable) (m : Option Nat) (es : List IndexEntry) : Prop where
  config : SameConfig a b
  offset_le : a.itemOffset ≤ b.itemOffset
  head_le : a.headId ≤ b.headId
  items_le : a.items ≤ b.items
  metadata : ∃ v, m = some v ∧ v ≤ b.itemHidden
  covered : b.itemHidden ≤ a.items → Covered a (b.endOf (es.take (a.items - b.itemOffset)))

variable {α : Type*} {l : List α} {snappy : Snappy} {written : Nat → Option Bytes}

theorem getLastD_drop {d : Nat} (h : d < l.length) (a b : α) :
    (l.drop d).getLastD a = l.getLastD b := by
  have hne : l.drop d ≠ [] := by
    intro h0
    have := drop_eq_nil_iff.mp h0
    omega
  obtain ⟨x, r, hr⟩ := exists_cons_of_ne_nil hne
  have happ := getLastD_append (l.take d) (l.drop d) b
  rw [take_append_drop] at happ
  rw [happ, hr, getLastD_cons, getLastD_cons]

namespace KeptSince

variable {a b b' : FreezerTable} {m : Option Nat} {es es' : List IndexEntry} {xs xs' : List Bytes}

/-- At the `Sync` itself everything written is on stable storage. -/
theorem sync (h : a.WF es xs) : KeptSince a a a.metadata es := by
  refine ⟨.refl a, le_refl _, le_refl _, le_refl _, ⟨_, h.metadata, le_refl _⟩, fun _ => ?_⟩
  have hitems := h.items_eq
  rw [take_of_length_le (by omega)]
  by_cases hf : (a.endOf es).filenum = a.headId
  · refine Or.inr (Or.inr ⟨hf, ?_⟩)
    rw [← h.end_size, h.headBytes, hf]
  · exact Or.inr (Or.inl (lt_of_le_of_ne h.end_le hf))

/-- Appending. -/
theorem extend (h : KeptSince a b m es) (hwf : b.WF es xs) (hwf' : b'.WF (es ++ es') xs')
    (hext : Extends b b') (hhead : b.headId ≤ b'.headId) :
    KeptSince a b' (syncedMetadata m b b') (es ++ es') := by
  have hitems := hwf.items_eq
  have hitems' := hwf'.items_eq
  have hle := h.items_le
  rw [length_append] at hitems'
  have hoff := hext.itemOffset
  have hhid := hext.itemHidden
  rw [syncedMetadata, if_pos hext.tailId]
  refine ⟨h.config.trans hext.config, ?_, h.head_le.trans hhead, by omega, ?_, fun hh => ?_⟩
  · rw [hoff]
    exact h.offset_le
  · rw [hhid]
    exact h.metadata
  · have htake : (es ++ es').take (a.items - b'.itemOffset) = es.take (a.items - b.itemOffset) := by
      rw [hoff, take_append_of_le_length (by omega)]
    rw [htake, endOf, hext.tailId]
    rw [hhid] at hh
    exact h.covered hh

/-- Truncating the tail, no further than the synced items. -/
theorem drop (h : KeptSince a b m es) (hwf : b.WF es xs) {d : Nat} (hwf' : b'.WF (es.drop d) xs')
    (hcfg : SameConfig b b') (hoff : b'.itemOffset = b.itemOffset + d) (hitems : b'.items = b.items)
    (hhead : b'.headId = b.headId) (hhid : b.itemHidden ≤ b'.itemHidden) :
    KeptSince a b' (syncedMetadata m b b') (es.drop d) := by
  refine ⟨h.config.trans hcfg, ?_, by rw [hhead]; exact h.head_le, by rw [hitems]; exact h.items_le,
    ?_, fun hh => ?_⟩
  · rw [hoff]
    exact h.offset_le.trans (Nat.le_add_right _ _)
  · unfold syncedMetadata
    split
    · obtain ⟨v, hv, hle⟩ := h.metadata
      exact ⟨v, hv, hle.trans hhid⟩
    · exact ⟨_, hwf'.metadata, le_refl _⟩
  · have hcov := h.covered (hhid.trans hh)
    have hle := h.items_le
    have hbi := hwf.items_eq
    by_cases hd : d < a.items - b.itemOffset
    · have htake : (es.drop d).take (a.items - b'.itemOffset) =
          (es.take (a.items - b.itemOffset)).drop d := by
        rw [drop_take]
        congr 1
        omega
      have hlt : d < (es.take (a.items - b.itemOffset)).length := by
        rw [length_take]
        omega
      rwa [htake, endOf, getLastD_drop hlt _ ⟨b.tailId, 0⟩]
    · rw [hoff, show a.items - (b.itemOffset + d) = 0 by omega]
      exact Or.inl rfl

end KeptSince

/-- **Since the last `Sync`** the table still holds the recorded blobs, and the
items of the `Sync` that are not dropped lie where they were. -/
theorem SinceSync.spec {noCompression : Bool} {a b : TableState} {m : Option Nat}
    (h : SinceSync snappy noCompression a b m) (hraw : a.table.noCompression = noCompression)
    (ha : ∃ es xs ps bs, a.Holds snappy es xs ps bs) :
    ∃ es xs ps bs, b.Holds snappy es xs ps bs ∧ KeptSince a.table b.table m es := by
  induction h with
  | sync =>
    obtain ⟨es, xs, ps, bs, hh⟩ := ha
    exact ⟨es, xs, ps, bs, hh, .sync hh.wf⟩
  | step b m op _ hkeep hop hs ih =>
    obtain ⟨es, xs, ps, bs, hh, hk⟩ := ih
    cases op with
    | appendRaw item blob =>
      obtain ⟨es', xs', ps', bs', hh', hext, hhead⟩ :=
        hh.appendRaw (by rw [hk.config.1, hraw]; exact hop) rfl hs
      exact ⟨_, _, _, _, hh', hk.extend hh.wf hh'.wf hext hhead⟩
    | commit =>
      have hh' := hh.commit hs.2.2
      exact ⟨_, _, _, _, hh', hk.extend hh.wf hh'.wf (extends_commit _ _) (le_refl _)⟩
    | reset =>
      have hm : syncedMetadata m b.table (b.step snappy .reset).table = m := if_pos rfl
      exact ⟨_, _, _, _, hh.reset, by rw [hm]; exact hk⟩
    | truncateTail items =>
      obtain ⟨d, xs', ps', bs', hh', hcfg, hoff, hitems, hid, hhid⟩ := hh.truncateTail rfl hs
      exact ⟨_, _, _, _, hh', hk.drop hh.wf hh'.wf hcfg hoff hitems hid hhid⟩
    | truncateHead | reopen => cases hkeep

/-- **Opening a crashed table** gives at least the items of the last `Sync`. -/
theorem CrashedTable.open_spec (c : CrashedTable snappy) {S : Nat} (hS : S ≤ c.synced.table.items)
    (hT : c.last.table.itemHidden ≤ S) :
    ∃ t es xs bs, c.stored.open = .ok t ∧ t.Stores snappy c.last.written es xs bs ∧ S ≤ t.items ∧
      t.itemHidden ≤ S ∧ t.itemHidden < 2 ^ 32 := by
  obtain ⟨ha, hraw, hmaxf⟩ := c.run.holds c.maxFileSize_lt
  obtain ⟨es, xs, ps, bs, hh, hk⟩ := c.since.spec hraw ha
  obtain ⟨es0, xs0, ps0, bs0, hh0⟩ := ha
  obtain ⟨L, hL, hidx⟩ := c.index_cut
  obtain ⟨l, hl, hleft⟩ := c.head_cut
  obtain ⟨v, hv, hvle⟩ := hk.metadata
  have hitems := hh.wf.items_eq
  have hitems0 := hh0.wf.items_eq
  have hoff := hh.wf.offset_le
  have hle := hk.items_le
  have hoffle := hk.offset_le
  have hcov := hk.covered (hT.trans hS)
  have hsynced : (c.synced.table.items - c.last.table.itemOffset + 1) * indexEntrySize ≤ L := by
    refine le_trans ?_ hL
    rw [hh0.wf.index, length_indexFile, length_cons]
    exact Nat.mul_le_mul_right _ (by omega)
  obtain ⟨t, n, hopen, hn, hn', hwf, hcfg, hoff', hhid', -⟩ := newTable_spec hh.wf (m := v)
    (by omega) hsynced (by omega) hleft (fun hf => by
      obtain h0 | hlt | ⟨heq, hle⟩ := hcov
      · rw [h0]
        exact Nat.zero_le _
      · have := hk.head_le
        omega
      · exact hle.trans (hl (hf.symm.trans heq)))
  refine ⟨t, _, _, _, ?_, hh.stores.slice (i := 0) hwf hcfg hoff', ?_, ?_⟩
  · rw [CrashedTable.stored]
    rwa [hidx, hv, ← hraw, ← hmaxf, ← hk.config.1, ← hk.config.2]
  · rw [hwf.items_eq, length_take]
    omega
  · have hlt := c.tail_lt
    omega

/-! ## the common range -/

/-- Cutting a table to a range within its items. -/
theorem FreezerTable.Stores.truncate {t : FreezerTable} {es : List IndexEntry}
    {xs bs : List Bytes} (h : t.Stores snappy written es xs bs) {head tail : Nat}
    (hhead : head ≤ t.items)
    (htail : t.itemHidden ≤ tail) (hle : tail ≤ head) (hlt32 : tail < 2 ^ 32) :
    ∃ t' es' xs' bs', (do let t ← t.truncateHead head; t.truncateTail tail) = .ok t' ∧
      t'.Stores snappy written es' xs' bs' ∧ t'.items = head ∧ t'.itemHidden = tail := by
  obtain ⟨t1, es1, xs1, bs1, hok, h1, hitems, hhid⟩ : ∃ t' es' xs' bs',
    t.truncateHead head = .ok t' ∧
      t'.Stores snappy written es' xs' bs' ∧ t'.items = head ∧ t'.itemHidden = t.itemHidden := by
    obtain hlt | rfl := Nat.lt_or_eq_of_le hhead
    · obtain ⟨t', hok, hwf, hext, hitems, -⟩ := truncateHead_spec h.wf (htail.trans hle) hlt
      exact ⟨t', _, _, _, hok, h.slice (i := 0) hwf hext.config hext.itemOffset, hitems,
        hext.itemHidden⟩
    · exact ⟨t, _, _, _, by simp [truncateHead], h, rfl, rfl⟩
  obtain ⟨t2, es2, xs2, bs2, hok2, h2, hitems2, hhid2⟩ : ∃ t' es' xs' bs',
      t1.truncateTail tail = .ok t' ∧ t'.Stores snappy written es' xs' bs' ∧ t'.items = t1.items ∧
        t'.itemHidden = tail := by
    obtain hlt | heq := Nat.lt_or_eq_of_le (hhid ▸ htail)
    · obtain ⟨t', d, hok, hwf, hcfg, hoff, hhid', hitems', -, -⟩ :=
        truncateTail_spec h1.wf hlt (by rw [hitems]; exact hle) (.inl hlt32)
      have htake : (xs1.drop d).take (xs1.drop d).length = xs1.drop d := take_length
      exact ⟨t', _, _, _, hok, h1.slice (by rw [htake]; exact hwf) hcfg hoff, hitems', hhid'⟩
    · exact ⟨t1, _, _, _, by simp [truncateTail, heq], h1, rfl, heq⟩
  exact ⟨t2, es2, xs2, bs2, by simp [bind, Except.bind, hok, hok2], h2, hitems2.trans hitems, hhid2⟩

/-- A visible item is read back. -/
theorem FreezerTable.Stores.retrieve {t : FreezerTable} (mem : Memory) {es : List IndexEntry}
    {xs bs : List Bytes} (h : t.Stores snappy written es xs bs) {k : Nat} (hk : t.itemHidden ≤ k)
    (hk' : k < t.items) : ∃ b, retrieve mem snappy t k = .ok b ∧ written k = some b := by
  have hoff := h.wf.offset_le
  have hitems := h.wf.items
  have hlt := h.wf.items_lt
  have hblen := h.encoded.length_eq
  have hmem := mem.le_limit
  obtain ⟨m, hok, hm, hle, -, -⟩ := retrieveItems_of_mem mem h.wf h.encoded k 1 0
    hk hk' Nat.one_pos (by omega) (by omega) (by omega)
  obtain rfl : m = 1 := by omega
  have hi : k - t.itemOffset < bs.length := by omega
  rw [drop_eq_getElem_cons hi, take_succ_cons] at hok
  refine ⟨bs[k - t.itemOffset], by simp [FreezerTable.retrieve, hok, bind, Except.bind], ?_⟩
  have hw := h.written _ _ (getElem?_eq_getElem hi)
  rwa [Nat.add_sub_cancel' (hoff.trans hk)] at hw

namespace Freezer

/-- The loop for the least of the values of a list; in the dual order, for the greatest. -/
theorem foldl_least {β : Type} [LinearOrder β] (key : α → β) (l : List α) (h : β) :
    let r := l.foldl (fun least t => if key t < least then key t else least) h
    (r ≤ h ∧ ∀ t ∈ l, r ≤ key t) ∧ ∀ s, s ≤ h → (∀ t ∈ l, s ≤ key t) → s ≤ r := by
  induction l generalizing h with
  | nil => simp
  | cons t l ih =>
    have hmin : (if key t < h then key t else h) = min h (key t) := by
      grind
    simp only [foldl_cons, forall_mem_cons, hmin]
    obtain ⟨⟨h1, h2⟩, h3⟩ := ih (min h (key t))
    have hle := le_min_iff.mp h1
    exact ⟨⟨hle.1, hle.2, h2⟩, fun s hs hst => h3 s (le_min hs hst.1) hst.2⟩

end Freezer

/-- A loop that fails on no element of a list related to the one it runs over. -/
theorem mapM_ok {β γ ε : Type*} {f : β → Except ε γ} {R : α → β → Prop} {Q : α → γ → Prop}
    {m : List β} (h : List.Forall₂ R l m) (hf : ∀ x y, y ∈ m → R x y → ∃ z, f y = .ok z ∧ Q x z) :
    ∃ n, m.mapM f = .ok n ∧ List.Forall₂ Q l n := by
  induction h with
  | nil => exact ⟨[], rfl, .nil⟩
  | @cons x y l m hR _ ih =>
    obtain ⟨z, hz, hQ⟩ := hf x y mem_cons_self hR
    obtain ⟨n, hn, hQs⟩ := ih fun x y hy => hf x y (mem_cons_of_mem _ hy)
    exact ⟨z :: n, by rw [mapM_cons, hz, hn]; rfl, .cons hQ hQs⟩

theorem forall_mem_of_forall₂ {β : Type*} {R : α → β → Prop} {P : β → Prop} {m : List β}
    (h : List.Forall₂ R l m) (hR : ∀ x y, R x y → P y) : ∀ y ∈ m, P y := by
  induction h with
  | nil => simp
  | cons hxy _ ih => exact forall_mem_cons.mpr ⟨hR _ _ hxy, ih⟩

/-- **Crash recovery:** let `S` be the number of items that the last `Sync` of
every table covers, let no head be truncated since then, and let no tail lie
above `S` at the crash.  Then the freezer opens; its tables share one range,
whose head is at least `S`, and every item of the range reads back as the
blob last appended under its number, whatever more than a page of memory there is. -/
theorem newFreezer_spec {snappy : Snappy} (crashed : List (CrashedTable snappy)) {S : Nat}
    (hne : crashed ≠ []) (hS : ∀ c ∈ crashed, S ≤ c.synced.table.items)
    (hT : ∀ c ∈ crashed, c.last.table.itemHidden ≤ S) :
    ∃ f, newFreezer (crashed.map CrashedTable.stored) = .ok f ∧ S ≤ f.frozen ∧ f.tail ≤ f.frozen ∧
      List.Forall₂ (fun c t => t.items = f.frozen ∧ t.itemHidden = f.tail ∧
        ∀ mem k, f.tail ≤ k → k < f.frozen →
          ∃ b, retrieve mem snappy t k = .ok b ∧ c.last.written k = some b) crashed f.tables := by
  have hstored : Forall₂ (fun c p => c ∈ crashed ∧ p = CrashedTable.stored c) crashed
      (crashed.map CrashedTable.stored) := by
    rw [forall₂_map_right_iff, forall₂_same]
    exact fun c hc => ⟨hc, rfl⟩
  obtain ⟨tables, hopen, htables⟩ := mapM_ok (f := StoredTable.open) hstored
    (Q := fun c t => (∃ es xs bs, t.Stores snappy c.last.written es xs bs) ∧
      S ≤ t.items ∧ t.itemHidden ≤ S ∧ t.itemHidden < 2 ^ 32) (by
    rintro c p - ⟨hc, rfl⟩
    obtain ⟨t, es, xs, bs, hok, hst, hspec⟩ := c.open_spec (hS c hc) (hT c hc)
    exact ⟨t, hok, ⟨es, xs, bs, hst⟩, hspec⟩)
  have hlow : ∀ t ∈ tables, S ≤ t.items := forall_mem_of_forall₂ htables fun c t h => h.2.1
  have hhigh : ∀ t ∈ tables, t.itemHidden ≤ S := forall_mem_of_forall₂ htables fun c t h => h.2.2.1
  have hlt : ∀ t ∈ tables, t.items < 2 ^ 64 := forall_mem_of_forall₂ htables fun c t h => by
    obtain ⟨⟨es, xs, bs, hst⟩, -⟩ := h
    exact hst.wf.items_lt
  have hS64 : S ≤ 2 ^ 64 - 1 := by
    cases htables with
    | nil => exact absurd rfl hne
    | @cons c t l m h _ =>
      have h2 := hlt t mem_cons_self
      omega
  obtain ⟨⟨-, hheads⟩, hhead⟩ := Freezer.foldl_least FreezerTable.items tables (2 ^ 64 - 1)
  obtain ⟨⟨-, htails⟩, htail⟩ :=
    Freezer.foldl_least (fun t => OrderDual.toDual t.itemHidden) tables 0
  have hhead' : S ≤ Freezer.minHead tables := hhead S hS64 hlow
  have htail' : Freezer.maxTail tables ≤ S := htail S (Nat.zero_le _) hhigh
  have htail32 : Freezer.maxTail tables ≤ 2 ^ 32 - 1 :=
    htail (OrderDual.toDual (2 ^ 32 - 1)) (Nat.zero_le _)
    (forall_mem_of_forall₂ htables fun c t h => Nat.le_pred_of_lt h.2.2.2)
  obtain ⟨tables', hcut, htables'⟩ := mapM_ok
    (f := fun t => do
      let t ← t.truncateHead (Freezer.minHead tables)
      t.truncateTail (Freezer.maxTail tables)) htables
    (Q := fun c t => (∃ es xs bs, t.Stores snappy c.last.written es xs bs) ∧
      t.items = Freezer.minHead tables ∧ t.itemHidden = Freezer.maxTail tables) (by
    rintro c t ht ⟨⟨es, xs, bs, hst⟩, -⟩
    obtain ⟨t', es', xs', bs', hok, hst', hspec⟩ :=
      hst.truncate (hheads t ht) (htails t ht) (htail'.trans hhead')
        (Nat.lt_of_le_pred (by decide) htail32)
    exact ⟨t', hok, ⟨es', xs', bs', hst'⟩, hspec⟩)
  refine ⟨⟨tables', Freezer.minHead tables, Freezer.maxTail tables⟩, ?_, hhead',
    htail'.trans hhead', ?_⟩
  · simp only [newFreezer, hopen, bind, Except.bind, Freezer.repair]
    simp only [bind, Except.bind] at hcut
    rw [hcut]
  · refine htables'.imp fun c t h => ⟨h.2.1, h.2.2, fun mem k hk hk' => ?_⟩
    obtain ⟨⟨es, xs, bs, hst⟩, hitems, hhid⟩ := h
    exact hst.retrieve mem (by rw [hhid]; exact hk) (by rw [hitems]; exact hk')

/-! ## two crashes -/

/-- A new raw table with data files of two bytes. -/
def TableState.fresh : TableState :=
  ⟨emptyTable true 2, (emptyTable true 2).newBatch, fun _ => none⟩

theorem TableState.fresh_run : TableRun .identity true 2 .fresh := .create _ (newTable_empty true 2)

/-- The new table after two items of one byte. -/
def TableState.half : TableState :=
  [.appendRaw 0 [1], .appendRaw 1 [2], .commit].foldl (TableState.step .identity) .fresh

theorem TableState.half_run : TableRun .identity true 2 .half := by
  have h1 := TableState.fresh_run.step _ (.appendRaw 0 [1]) (by simp [TableOp.Storable])
      (by decide +kernel)
  have h2 := h1.step _ (.appendRaw 1 [2]) (by simp [TableOp.Storable]) (by decide +kernel)
  exact h2.step _ .commit trivial (by decide +kernel)

/-- The table after two more items. -/
def TableState.filled : TableState :=
  [.appendRaw 2 [3], .appendRaw 3 [4], .commit].foldl (TableState.step .identity) .half

/-- The items may follow a `Sync` of the table that holds two items or of the new one. -/
theorem TableState.filled_since {a : TableState} {m : Option Nat}
    (h : SinceSync .identity true a .half m) : SinceSync .identity true a .filled m := by
  have h1 := h.step _ _ (.appendRaw 2 [3]) rfl (by simp [TableOp.Storable]) (by decide +kernel)
  have h2 := h1.step _ _ (.appendRaw 3 [4]) rfl (by simp [TableOp.Storable]) (by decide +kernel)
  exact h2.step _ _ .commit rfl trivial (by decide +kernel)

/-- A crash after a `Sync` of two items that loses the last index entry in part
and the last byte of the head file. -/
def CrashedTable.sample : CrashedTable .identity where
  noCompression := true
  maxFileSize := 2
  synced := .half
  last := .filled
  index := TableState.filled.table.index.take 27
  metadata := some 0
  disk := Function.update TableState.filled.table.disk 1 (some [3])
  maxFileSize_lt := by decide
  run := TableState.half_run
  since := TableState.filled_since .sync
  tail_lt := by decide +kernel
  index_cut := ⟨27, by decide +kernel, rfl⟩
  head_cut := by
    have hid : TableState.filled.table.headId = 1 := by decide +kernel
    refine ⟨1, fun h => ?_, ⟨fun k hk => ?_, ?_⟩⟩
    · rw [hid] at h
      exact absurd h (by decide +kernel)
    · rw [hid] at hk
      exact Function.update_of_ne hk _ _
    · rw [hid, Function.update_self]
      decide +kernel

/-- The freezer of two such tables opens with the items of the `Sync`. -/
theorem newFreezer_sample :
    ∃ f, newFreezer ([CrashedTable.sample, CrashedTable.sample].map CrashedTable.stored) = .ok f ∧
      2 ≤ f.frozen ∧ f.tail ≤ f.frozen := by
  obtain ⟨f, hok, hle, hrange, -⟩ := newFreezer_spec [CrashedTable.sample, CrashedTable.sample]
    (S := 2) (by simp) (by decide +kernel) (by decide +kernel)
  exact ⟨f, hok, hle, hrange⟩

/-- The filled table after a truncation of the tail in the middle of its second
data file. -/
def TableState.trimmed : TableState := TableState.filled.step .identity (.truncateTail 3)

theorem TableState.trimmed_since : SinceSync .identity true .fresh .trimmed (some 3) := by
  have h0 : SinceSync .identity true .fresh .fresh _ := .sync
  have h1 := h0.step _ _ (.appendRaw 0 [1]) rfl (by simp [TableOp.Storable]) (by decide +kernel)
  have h2 := h1.step _ _ (.appendRaw 1 [2]) rfl (by simp [TableOp.Storable]) (by decide +kernel)
  have h3 := h2.step _ _ .commit rfl trivial (by decide +kernel)
  exact (TableState.filled_since h3).step _ _ (.truncateTail 3) rfl trivial (by decide +kernel)

/-- What is left of the trimmed table if its index is cut to `L` bytes. -/
def CrashedTable.trimmed (L : Nat) (hL : 6 ≤ L) : CrashedTable .identity where
  noCompression := true
  maxFileSize := 2
  synced := .fresh
  last := .trimmed
  index := TableState.trimmed.table.index.take L
  metadata := some 3
  disk := TableState.trimmed.table.disk
  maxFileSize_lt := by decide
  run := TableState.fresh_run
  since := TableState.trimmed_since
  tail_lt := by decide +kernel
  index_cut := ⟨L, hL, rfl⟩
  head_cut := by
    have hid : TableState.trimmed.table.headId = 1 := by decide +kernel
    refine ⟨2, fun h => ?_, ⟨fun _ _ => rfl, ?_⟩⟩
    · rw [hid] at h
      exact absurd h (by decide +kernel)
    · rw [hid]
      decide +kernel

/-- **A tail above the recovered head:** the truncation of the tail syncs the
metadata of both tables at item 3, and the crash takes the index of the first
one back to the entry of its length at the last `Sync`.  Its two items left
are the common head, below the tail of the second table, and the freezer
does not open. -/
theorem newFreezer_belowTail :
    newFreezer ([CrashedTable.trimmed 6 (by decide), CrashedTable.trimmed 18 (by decide)].map
      CrashedTable.stored) = .error .truncationBelowTail := by
  have h : (match newFreezer ([CrashedTable.trimmed 6 (by decide),
        CrashedTable.trimmed 18 (by decide)].map CrashedTable.stored) with
      | .error e => decide (e = .truncationBelowTail)
      | .ok _ => false) = true := by decide +kernel
  cases hf : newFreezer ([CrashedTable.trimmed 6 (by decide),
      CrashedTable.trimmed 18 (by decide)].map CrashedTable.stored) with
  | ok f =>
    rw [hf] at h
    cases h
  | error e =>
    rw [hf] at h
    simp only [decide_eq_true_eq] at h
    rw [h]

end GoQrl
