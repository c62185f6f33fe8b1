import GoQrl.Chain.Rewind

/-!
# GoQrl.Chain.Wipe

What the rounds of a rewind delete.

The freezer is truncated at once (`deleteNumbers_fst`).  The batch deletes every header of the
heights it is given, with its body and receipts unless it is the first one at a frozen height
(`wiped_deleteNumbers`, `spared_deleteNumbers`), and nothing below them (`above_deleteNumbers`).
-/

namespace GoQrl.Chain

open List

namespace Db

variable {db db₀ : Db} {hdr : Header} {hash : Hash} {hashes : List Hash} {num j k : Nat}
    {nums : List Nat}
  {w : Batch.Write Value}

/-! ## heights -/

/-- The hashes at a number are those of the headers that are stored there. -/
theorem mem_readAllHashes :
    hash ∈ db.readAllHashes num ↔ (db.kv.lookup (Key.header num hash)).isSome := by
  rw [readAllHashes, mem_insertionSort, mem_filterMap, AList.lookup_isSome]
  constructor
  · rintro ⟨key, hkey, hat⟩
    cases key with
    | header n h =>
      simp only [hashAt, Option.ite_none_right_eq_some, Option.some.injEq] at hat
      obtain ⟨rfl, rfl⟩ := hat
      exact hkey
    | _ => cases hat
  · intro hkey
    exact ⟨_, hkey, by simp [hashAt]⟩

/-- Every header that is stored at a number is deleted with the number. -/
theorem mem_hashesAt_of_stored (h : (db.kv.lookup (Key.header num hash)).isSome) :
    hash ∈ db.hashesAt hdr num := by
  have hmem := mem_readAllHashes.mpr h
  rw [hashesAt]
  cases hr : db.readAllHashes num with
  | nil => rw [hr] at hmem; cases hmem
  | cons a l => rwa [hr] at hmem

/-- Deleted are the stored headers of a number, or the given one if there is none. -/
theorem mem_hashesAt (h : hash ∈ db.hashesAt hdr num) :
    (db.kv.lookup (Key.header num hash)).isSome ∨
    (db.readAllHashes num = [] ∧ hash = hdr.hash) := by
  rw [hashesAt] at h
  cases hr : db.readAllHashes num with
  | nil =>
    rw [hr] at h
    exact .inr ⟨rfl, mem_singleton.mp h⟩
  | cons a l =>
    exact .inl (mem_readAllHashes.mp (hr ▸ h))

/-- No hash is read twice. -/
theorem nodup_readAllHashes : (db.readAllHashes num).Nodup := by
  rw [readAllHashes, (perm_insertionSort _ _).nodup_iff]
  refine Nodup.filterMap (fun a b hash ha hb => ?_) db.kv.nodupKeys
  cases a <;> cases b <;> simp_all [hashAt]

/-- At least one hash is deleted at each number. -/
theorem hashesAt_ne_nil : db.hashesAt hdr num ≠ [] := by
  rw [hashesAt]
  split <;> exact cons_ne_nil _ _

/-- No header is stored above the greatest height. -/
theorem le_topHeight (h : (db.kv.lookup (Key.header num hash)).isSome) : num ≤ db.topHeight := by
  have hmem : num ∈ db.kv.keys.map headerHeight :=
    mem_map.mpr ⟨_, AList.mem_keys.mp (AList.lookup_isSome.mp h), rfl⟩
  rw [topHeight]
  generalize db.kv.keys.map headerHeight = l at hmem
  induction l with
  | nil => cases hmem
  | cons a l ih =>
    obtain rfl | hmem := mem_cons.mp hmem
    · exact le_max_left _ _
    · exact le_trans (ih hmem) (le_max_right _ _)

/-- The numbers that are cleared above the head have a header. -/
theorem le_of_mem_leftovers {fuel n : Nat} (h : k ∈ db.leftovers fuel n) :
    n ≤ k ∧ db.readAllHashes k ≠ [] := by
  induction fuel generalizing n with
  | zero => cases h
  | succ fuel ih =>
    rw [leftovers] at h
    split at h
    · cases h
    next hne =>
      obtain h | h := mem_append.mp h
      · exact ⟨by have := (ih h).1; omega, (ih h).2⟩
      · rw [mem_singleton.mp h]
        exact ⟨le_refl n, hne⟩

/-- The leftovers are the heights that the headers reach without a gap. -/
theorem mem_leftovers {fuel n : Nat} (hle : n ≤ k) (hfuel : k < n + fuel)
    (hfull : ∀ i, n ≤ i → i ≤ k → db.readAllHashes i ≠ []) : k ∈ db.leftovers fuel n := by
  induction fuel generalizing n with
  | zero => omega
  | succ fuel ih =>
    rw [leftovers, if_neg (hfull n (le_refl n) hle)]
    by_cases heq : k = n
    · exact mem_append_right _ (mem_singleton.mpr heq)
    · exact mem_append_left _ (ih (by omega) (by omega) fun i hi => hfull i (by omega))

/-! ## the freezer -/

/-- The freezer is not cut if it ends below the number. -/
theorem truncateHead_of_le (h : db.ancients.length ≤ num) : db.truncateHead num = db := by
  rw [truncateHead, take_of_length_le h]

/-- The callback for the contents cuts the freezer. -/
theorem delFn_fst : (db.delFn hash num).1 = db.truncateHead num := by
  rw [delFn]
  split
  · rfl
  next h => exact (truncateHead_of_le (Nat.le_of_lt_succ (Nat.lt_of_not_le h))).symm

/-- Deleting any hash of a number cuts the freezer at the number. -/
theorem deleteHashes_fst (h : hashes ≠ []) :
    (db.deleteHashes num hashes).1 = db.truncateHead num := by
  induction hashes generalizing db with
  | nil => exact absurd rfl h
  | cons hash hashes ih =>
    rw [deleteHashes, delFn_fst]
    cases hashes with
    | nil => rfl
    | cons a l =>
      rw [ih (cons_ne_nil a l)]
      exact truncateHead_of_le (length_take_le _ _)

/-- **The freezer after the deletion of some heights.** -/
theorem deleteNumbers_fst : (db.deleteNumbers hdr nums).1 = nums.foldl truncateHead db := by
  induction nums generalizing db with
  | nil => rfl
  | cons num nums ih => rw [deleteNumbers, ih, deleteHashes_fst hashesAt_ne_nil, foldl_cons]

/-- Deletions are collected in a batch, and the store is not written to. -/
theorem deleteNumbers_kv : (db.deleteNumbers hdr nums).1.kv = db.kv := by
  rw [deleteNumbers_fst]
  induction nums generalizing db with
  | nil => rfl
  | cons num nums ih => rw [foldl_cons, ih, truncateHead]

theorem foldl_truncateHead_of_le (h : ∀ n ∈ nums, db.ancients.length ≤ n) :
    nums.foldl truncateHead db = db := by
  induction nums with
  | nil => rfl
  | cons num nums ih =>
    rw [foldl_cons, truncateHead_of_le (h num mem_cons_self),
      ih fun n hn => h n (mem_cons_of_mem _ hn)]

/-! ## the batch -/

/-- The callback deletes the number, the body and the receipts of a hash. -/
theorem mem_delFn (h : w ∈ (db.delFn hash num).2) :
    w.value = none ∧
      (w.key = .headerNumber hash ∨ w.key = .body num hash ∨ w.key = .receipts num hash) := by
  rw [delFn] at h
  split at h
  · rw [mem_singleton.mp h]
    exact ⟨rfl, .inl rfl⟩
  · simp only [mem_cons, not_mem_nil, or_false] at h
    obtain rfl | rfl := h
    · exact ⟨rfl, .inr (.inl rfl)⟩
    · exact ⟨rfl, .inr (.inr rfl)⟩

/-- A round deletes nothing but the data of the hashes of its number. -/
theorem mem_deleteHashes (h : w ∈ (db.deleteHashes num hashes).2) :
    w.value = none ∧ ∃ hash ∈ hashes,
    w.key = .header num hash ∨ w.key = .headerNumber hash ∨ w.key = .body num hash ∨
      w.key = .receipts num hash := by
  induction hashes generalizing db with
  | nil => cases h
  | cons hash hashes ih =>
    simp only [deleteHashes, mem_append] at h
    obtain (h | h) | h := h
    · exact ⟨(mem_delFn h).1, hash, mem_cons_self, .inr (mem_delFn h).2⟩
    · simp only [deleteHeader, mem_cons, not_mem_nil, or_false] at h
      obtain rfl | rfl := h
      · exact ⟨rfl, hash, mem_cons_self, .inl rfl⟩
      · exact ⟨rfl, hash, mem_cons_self, .inr (.inl rfl)⟩
    · obtain ⟨hvalue, hash', hmem, hkey⟩ := ih h
      exact ⟨hvalue, hash', mem_cons_of_mem _ hmem, hkey⟩

/-- The header of each hash is deleted. -/
theorem header_mem_deleteHashes (h : hash ∈ hashes) :
    ⟨.header num hash, none⟩ ∈ (db.deleteHashes num hashes).2 := by
  induction hashes generalizing db with
  | nil => cases h
  | cons a hashes ih =>
    simp only [deleteHashes, mem_append]
    obtain rfl | h := mem_cons.mp h
    · exact .inl (.inr mem_cons_self)
    · exact .inr (ih h)

/-- The bodies and receipts go into the batch, but for the first hash of a frozen height: there the
freezer is truncated, so that the others are no longer taken for frozen ones. -/
theorem content_mem_deleteHashes (db : Db) (h : hash ∈ hashes)
    (hspare : num < db.ancients.length → hashes.head? ≠ some hash) :
    ⟨.body num hash, none⟩ ∈ (db.deleteHashes num hashes).2 ∧
      ⟨.receipts num hash, none⟩ ∈ (db.deleteHashes num hashes).2 := by
  induction hashes generalizing db with
  | nil => cases h
  | cons a hashes ih =>
    simp only [deleteHashes, mem_append]
    by_cases ha : hash = a
    · subst ha
      rw [delFn, if_neg fun hle : num + 1 ≤ _ => hspare hle rfl]
      exact ⟨.inl (.inl mem_cons_self), .inl (.inl (mem_cons_of_mem _ mem_cons_self))⟩
    · have hcut : (db.delFn a num).1.ancients.length ≤ num := by
        rw [delFn_fst]
        exact length_take_le _ _
      have hrest := ih _ ((mem_cons.mp h).resolve_left ha) fun hlt => absurd hlt hcut.not_gt
      exact ⟨.inr hrest.1, .inr hrest.2⟩

/-- The body and the receipts of the first hash of a frozen height are not deleted. -/
theorem spared_deleteHashes (hlt : num < db.ancients.length) (hnodup : (hash :: hashes).Nodup)
    (hw : w ∈ (db.deleteHashes num (hash :: hashes)).2) :
    w.key ≠ .body num hash ∧ w.key ≠ .receipts num hash := by
  simp only [deleteHashes, delFn, if_pos (Nat.succ_le_of_lt hlt), deleteHeader, mem_append,
    mem_cons, not_mem_nil, or_false] at hw
  obtain (rfl | rfl | rfl) | hw := hw
  all_goals try exact ⟨Key.noConfusion, Key.noConfusion⟩
  obtain ⟨-, hash', hmem, hkey⟩ := mem_deleteHashes hw
  have hne : hash' ≠ hash := fun heq => (nodup_cons.mp hnodup).1 (heq ▸ hmem)
  obtain hkey | hkey | hkey | hkey := hkey <;> simp [hkey, hne]

/-- A key of a block above a height, or of its entry in the table. -/
def Above (db : Db) (j : Nat) : Key → Prop
  | .header k _ | .body k _ | .receipts k _ | .canonicalHash k => j < k
  | .headerNumber hash => ∃ k, j < k ∧ (db.readHeader hash k).isSome
  | _ => False

/-- A frozen height with its first hash in the store: `delFn` truncates the freezer for it, and
leaves its body and receipts. -/
def Spared (db : Db) (k : Nat) (hash : Hash) : Prop :=
  k < db.ancients.length ∧ (db.readAllHashes k).head? = some hash

/-- A batch that deletes what the store has at a height, but for what is spared. -/
structure Wiped (db : Db) (batch : Writes) (k : Nat) : Prop where
  header : ∀ hash, (db.kv.lookup (Key.header k hash)).isSome → ⟨.header k hash, none⟩ ∈ batch
  content : ∀ hash, (db.kv.lookup (Key.header k hash)).isSome → ¬ Spared db k hash →
    ⟨.body k hash, none⟩ ∈ batch ∧ ⟨.receipts k hash, none⟩ ∈ batch
  table : ⟨.canonicalHash k, none⟩ ∈ batch

/-- What a batch wipes, a larger batch of deletions wipes as well. -/
theorem Wiped.mono {batch batch' : Writes} (h : Wiped db batch k) (hsub : batch ⊆ batch') :
    Wiped db batch' k where
  header hash hs := hsub (h.header hash hs)
  content hash hs hspare := (h.content hash hs hspare).imp (@hsub _) (@hsub _)
  table := hsub h.table

/-- The store has the same headers as before the rewind, and the freezer is not longer. -/
structure Rest (db₀ db : Db) : Prop where
  headers : ∀ num hash, db.kv.lookup (Key.header num hash) = db₀.kv.lookup (Key.header num hash)
  frozen : db.ancients.length ≤ db₀.ancients.length

/-- The hashes of a height are read in the same order. -/
theorem Rest.readAllHashes_eq (h : Rest db₀ db) (k : Nat) :
    db.readAllHashes k = db₀.readAllHashes k := by
  have hsorted (db : Db) : (db.readAllHashes k).Pairwise (· ≤ ·) := pairwise_insertionSort _ _
  refine Perm.eq_of_pairwise (fun _ _ _ _ => le_antisymm) (hsorted db) (hsorted db₀) ?_
  refine (perm_ext_iff_of_nodup nodup_readAllHashes nodup_readAllHashes).mpr fun hash => ?_
  rw [mem_readAllHashes, mem_readAllHashes, h.headers]

/-- Cutting the freezer keeps the headers of the store. -/
theorem Rest.truncateHead (h : Rest db₀ db) (num : Nat) : Rest db₀ (db.truncateHead num) where
  headers := h.headers
  frozen := le_trans (length_take_le' _ _) h.frozen

/-- At a number with headers the hashes are those of the first database. -/
theorem hashesAt_of_stored (h : Rest db₀ db) (hs : (db₀.kv.lookup (Key.header k hash)).isSome) :
    db.hashesAt hdr k = db₀.readAllHashes k := by
  have hmem := mem_readAllHashes.mpr hs
  rw [hashesAt, h.readAllHashes_eq]
  cases hr : db₀.readAllHashes k with
  | nil => rw [hr] at hmem; cases hmem
  | cons a l => rfl

/-- **The batch of some heights wipes each of them.** -/
theorem wiped_deleteNumbers (h : Rest db₀ db) (hk : k ∈ nums) :
    Wiped db₀ (db.deleteNumbers hdr nums).2 k := by
  induction nums generalizing db with
  | nil => cases hk
  | cons num nums ih =>
    obtain rfl | hk := mem_cons.mp hk
    · have hmem : ∀ hash, (db₀.kv.lookup (Key.header k hash)).isSome →
          hash ∈ db.hashesAt hdr k := by
        intro hash hs
        exact mem_hashesAt_of_stored (by rwa [h.headers])
      refine ⟨fun hash hs => ?_, fun hash hs hspare => ?_, ?_⟩
      · exact mem_append_left _ (mem_append_left _ (header_mem_deleteHashes (hmem hash hs)))
      · have hc := content_mem_deleteHashes db (hmem hash hs) fun hlt hhead =>
          hspare ⟨hlt.trans_le h.frozen, by rwa [hashesAt_of_stored h hs] at hhead⟩
        exact hc.imp (fun hb => mem_append_left _ (mem_append_left _ hb))
          fun hb => mem_append_left _ (mem_append_left _ hb)
      · exact mem_append_left _ (mem_append_right _ mem_cons_self)
    · refine (ih ?_ hk).mono (subset_append_right _ _)
      rw [deleteHashes_fst hashesAt_ne_nil]
      exact h.truncateHead num

/-- A header in the store is read, if not the frozen one with its hash. -/
theorem readHeader_isSome (h : (db.kv.lookup (Key.header num hash)).isSome) :
    (db.readHeader hash num).isSome := by
  rw [readHeader]
  split
  · split
    · rfl
    · exact h
  · exact h

/-- **The batch of some heights deletes nothing below them.** -/
theorem above_deleteNumbers (h : Rest db₀ db) (hnums : ∀ n ∈ nums, j < n)
    (hhdr : ∀ n ∈ nums, db₀.readAllHashes n = [] → (db₀.readHeader hdr.hash n).isSome)
    (hw : w ∈ (db.deleteNumbers hdr nums).2) : w.value = none ∧ Above db₀ j w.key := by
  induction nums generalizing db with
  | nil => cases hw
  | cons num nums ih =>
    have hj := hnums num mem_cons_self
    simp only [deleteNumbers, mem_append] at hw
    obtain (hw | hw) | hw := hw
    · obtain ⟨hvalue, hash, hmem, hkey⟩ := mem_deleteHashes hw
      refine ⟨hvalue, ?_⟩
      have hread : (db₀.readHeader hash num).isSome := by
        obtain hs | ⟨hnil, rfl⟩ := mem_hashesAt hmem
        · exact readHeader_isSome (by rwa [← h.headers])
        · refine hhdr num mem_cons_self (eq_nil_iff_forall_not_mem.mpr fun x hx => ?_)
          have := mem_readAllHashes.mp hx
          rw [← h.headers, ← mem_readAllHashes, hnil] at this
          cases this
      obtain hkey | hkey | hkey | hkey := hkey <;> rw [hkey]
      · exact hj
      · exact ⟨num, hj, hread⟩
      · exact hj
      · exact hj
    · rw [mem_singleton.mp hw]
      exact ⟨rfl, hj⟩
    · refine ih ?_ (fun n hn => hnums n (mem_cons_of_mem _ hn))
        (fun n hn => hhdr n (mem_cons_of_mem _ hn)) hw
      rw [deleteHashes_fst hashesAt_ne_nil]
      exact h.truncateHead num

/-- **The batch of some heights spares** the first hash of each frozen one.  The heights come from
the highest down, so that no truncation reaches a later one. -/
theorem spared_deleteNumbers (h : Rest db₀ db) (hdesc : nums.Pairwise (· > ·))
    (hcut : ∀ n ∈ nums, n < db₀.ancients.length → n < db.ancients.length)
    (hw : w ∈ (db.deleteNumbers hdr nums).2) (hspare : Spared db₀ k hash) :
    w.key ≠ .body k hash ∧ w.key ≠ .receipts k hash := by
  induction nums generalizing db with
  | nil => cases hw
  | cons num nums ih =>
    simp only [deleteNumbers, mem_append] at hw
    obtain (hw | hw) | hw := hw
    · by_cases hnum : num = k
      · subst hnum
        obtain ⟨hlt, hhead⟩ := hspare
        obtain ⟨rest, hrest⟩ := head?_eq_some_iff.mp hhead
        have hs := mem_readAllHashes.mp (mem_of_mem_head? hhead)
        rw [hashesAt_of_stored h hs, hrest] at hw
        exact spared_deleteHashes (hcut num mem_cons_self hlt) (hrest ▸ nodup_readAllHashes) hw
      · obtain ⟨-, hash', -, hkey⟩ := mem_deleteHashes hw
        obtain hkey | hkey | hkey | hkey := hkey <;> simp [hkey, hnum]
    · rw [mem_singleton.mp hw]
      exact ⟨Key.noConfusion, Key.noConfusion⟩
    · obtain ⟨hfirst, hdesc⟩ := pairwise_cons.mp hdesc
      rw [deleteHashes_fst hashesAt_ne_nil] at hw
      refine ih (h.truncateHead num) hdesc (fun n hn hlt => ?_) hw
      rw [Db.truncateHead, length_take]
      exact lt_min (hfirst n hn) (hcut n (mem_cons_of_mem _ hn) hlt)

/-- The numbers above the head are cleared in descending order. -/
theorem pairwise_leftovers {fuel n : Nat} : (db.leftovers fuel n).Pairwise (· > ·) := by
  induction fuel generalizing n with
  | zero => exact .nil
  | succ fuel ih =>
    rw [leftovers]
    split
    · exact .nil
    · refine pairwise_append.mpr ⟨ih, pairwise_singleton _ _, fun a ha b hb => ?_⟩
      rw [mem_singleton.mp hb]
      exact (le_of_mem_leftovers ha).1

end Db

end GoQrl.Chain
