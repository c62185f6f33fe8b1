import GoQrl.Trie.Unset

/-!
# GoQrl.Trie.Refill

Putting the entries of a range proof back.  The verifier inserts them into the
cut tree with a reader that has no nodes.  On a way without hash nodes no node is
read, so the insertion is the one that a reader of the whole tree would make, and
the refinement of insertion applies.
-/

namespace GoQrl.Mpt

open Rlp Radix Mpt.Tree List Proof Node

/-! ## insertion on loaded ways -/

/-- On a loaded way the reader is not asked. -/
theorem insert_reader (r r' : TrieReader) {fuel : Nat} {n : Node} {pre key : Hex} {value : Node}
    (h : n.Loaded key) : insert r fuel n pre key value = insert r' fuel n pre key value := by
  induction fuel generalizing n pre key value with
  | zero => rfl
  | succ fuel ih =>
    cases n with
    | nil | value => simp [insert]
    | hash h' => exact h.elim
    | short k val flags =>
      have hnil : ∀ p k v, insert r fuel .nil p k v = insert r' fuel .nil p k v :=
        fun p k v => ih trivial
      have hval : prefixLen key k = k.length →
          ∀ p, insert r fuel val p (key.drop (prefixLen key k)) value =
        insert r' fuel val p (key.drop (prefixLen key k)) value := by
        intro hlen p
        refine ih ?_
        by_cases hpre : k <+: key
        · obtain ⟨rest, rfl⟩ := hpre
          rw [hlen, drop_left]
          exact loaded_short.mp h
        · exact absurd hlen (prefixLen_lt hpre).ne
      simp only [insert, hnil]
      split
      · rfl
      · split
        · next hlen =>
          simp [hval hlen]
        · rfl
    | full children flags =>
      cases key with
      | nil => simp [insert]
      | cons i rest =>
        simp only [insert]
        rw [ih (loaded_full.mp h)]
section Refilling

variable [Keccak] {o t s : Tree}

/-- A reader that has all nodes of the tree. -/
def storeReader (t : Tree) : TrieReader := ⟨Hash.zero, some fun _ path _ => store t path⟩

theorem serves_storeReader : Serves (storeReader t) t := by
  intro p u hu hst
  have hne : (enc u).length ≠ 0 := by
    cases u with
    | short k c => exact Nat.ne_zero_of_lt (length_ref_lt_short k c)
    | full cs => exact Nat.ne_zero_of_lt (length_lt_encodeList _)
    | _ => cases hst.1
  simp only [TrieReader.node, storeReader, store_of_locate hu hst, if_neg hne]

/-- The trie of the verifier: no reader, and a root for the tree `s`. -/
structure Rebuilds (o : Tree) (tr : Trie) (s : Tree) : Prop where
  rep : Rep o [] tr.root s
  fit : Fit s
  reader : tr.reader = newEmptyReader
  live : tr.committed = false

/-- One update, on a loaded way. -/
theorem Rebuilds.update (ho : Fit o) {tr : Trie} (h : Rebuilds o tr s) (key value : Slice)
    (hv : value.bytes ≠ []) (hl : tr.root.Loaded (keybytesToHex key.bytes)) :
    ∃ tr', tr.update key.bytes value.bytes = (.ok (), tr') ∧
      Rebuilds o tr' (s.insert value.bytes (keybytesToHex key.bytes)) ∧
      ∀ p, tr'.root.Unloaded [] p → tr.root.Unloaded [] p := by
  have hkey := terminated_keybytesToHex key.bytes
  obtain ⟨dirty, n', s', hexec, hstep, -⟩ :
    Inserts o (storeReader o) (budget (keybytesToHex key.bytes)) []
      tr.root s (keybytesToHex key.bytes) value.bytes tr.tracer :=
    insert_spec ho serves_storeReader (.inl ⟨h.fit.wf, hkey⟩) h.rep le_rfl _ _
  rw [insert_reader (storeReader o) tr.reader hl] at hexec
  refine ⟨{ tr with root := n', tracer := s', unhashed := tr.unhashed + 1 }, ?_, ?_, hstep.loads⟩
  · rw [Trie.update, h.live]
    simp only [Bool.false_eq_true, if_false, Trie.updateRoot]
    rw [if_pos (by simpa using hv), Trie.modifyRoot]
    simp [hexec, h.live]
  · exact ⟨hstep.rep, ⟨(h.fit.wf.insert _ hkey).1, h.fit.bounded.insert ⟨hv, value.fits⟩
      (length_keybytesToHex_le key)⟩, h.reader, h.live⟩

/-- **Refilling** with pairs on loaded ways. -/
theorem Rebuilds.refill (ho : Fit o) {tr : Trie} (h : Rebuilds o tr s)
    {pairs : List (Slice × Slice)} (hv : ∀ x ∈ pairs, x.2.bytes ≠ [])
    (hl : ∀ x ∈ pairs, tr.root.Loaded (keybytesToHex x.1.bytes)) :
    ∃ tr', refill tr pairs = .ok tr' ∧ Rebuilds o tr' (s.insertAll (hexPairs pairs)) ∧
      ∀ p, tr'.root.Unloaded [] p → tr.root.Unloaded [] p := by
  induction pairs generalizing tr s with
  | nil => exact ⟨tr, rfl, h, fun _ h => h⟩
  | cons x pairs ih =>
    obtain ⟨tr1, hexec, h1, hun⟩ := h.update ho x.1 x.2 (hv x mem_cons_self) (hl x mem_cons_self)
    have hl1 : ∀ y ∈ pairs, tr1.root.Loaded (keybytesToHex y.1.bytes) := by
      intro y hy
      have := hl y (mem_cons_of_mem _ hy)
      rw [loaded_iff] at this ⊢
      exact fun hu => this (hun _ hu)
    obtain ⟨tr2, hexec2, h2, hun2⟩ := ih h1 (fun y hy => hv y (mem_cons_of_mem _ hy)) hl1
    refine ⟨tr2, ?_, h2, fun p hp => hun p (hun2 p hp)⟩
    rwa [refill, hexec]

/-! ## more entries to the right -/

/-- The tree has an entry to the right of the key. -/
def More (t : Tree) (key : Hex) : Prop := ∃ K, Terminated term K ∧ t.get K ≠ none ∧ Diverges key K

/-- **`hasRightElement`** on a loaded way. -/
theorem hasRight_spec (t : Tree) : ∀ {p key : Hex} {n : Node}, Rep o p n t → n.Loaded key →
    t.Canon term → Terminated term key → Uniform key.length t →
    ∃ b, hasRight n key = .ok b ∧ (b = true ↔ More t key) := by
  induction t with
  | nil =>
    intro p key n hrep hl _ _ _
    have hmore : ¬ More .nil key := fun ⟨_, _, h, _⟩ => h rfl
    cases hrep with
    | nil => exact ⟨false, rfl, by simp [hmore]⟩
    | hash => exact hl.elim
  | value v => exact fun _ _ hcan => hcan.elim
  | short k c ih =>
    intro p key n hrep hl hcan hkey huni
    cases hrep with
    | hash => exact hl.elim
    | @short _ _ val _ flags hc hf hs =>
      by_cases hpre : k <+: key
      · obtain ⟨rest, rfl⟩ := hpre
        rw [length_append] at huni
        have hexec : hasRight (.short k val flags) (k ++ rest) = hasRight val rest := by
          rw [hasRight, if_neg (matches_append _ _), drop_left]
        rw [hexec]
        rcases hcan with ⟨hterm, hv⟩ | ⟨-, hk, -, hcc⟩
        · obtain ⟨v, rfl⟩ := hv.cases
          obtain rfl := hterm.append_eq_nil hkey
          have hmore : ¬ More (.short k (.value v)) k := by
            rintro ⟨K, hK, hget, hd⟩
            obtain ⟨r, rfl⟩ := Tree.prefix_of_get_short hget
            rw [hterm.append_eq_nil hK, append_nil] at hd
            exact not_diverges_self _ hd
          obtain rfl := hc.value_eq
          exact ⟨false, rfl, by simp [hmore]⟩
        · obtain ⟨b, hres, hb⟩ := ih hc (loaded_short.mp hl) hcc
            ((terminated_append_iff hk).mp hkey) (huni.child_short hk)
          refine ⟨b, hres, hb.trans ⟨?_, ?_⟩⟩
          · rintro ⟨K, hK, hget, hd⟩
            exact ⟨k ++ K, (terminated_append_iff hk).mpr hK, by rwa [Tree.get_short_append],
              diverges_append.mpr hd⟩
          · rintro ⟨K, hK, hget, hd⟩
            obtain ⟨r, rfl⟩ := Tree.prefix_of_get_short hget
            rw [Tree.get_short_append] at hget
            exact ⟨r, (terminated_append_iff hk).mp hK, hget, diverges_append.mp hd⟩
      · have hpre' := huni.not_prefixed hcan hpre
        obtain ⟨K, hK, hget⟩ := hcan.exists_get (by simp)
        obtain ⟨r, rfl⟩ := Tree.prefix_of_get_short hget
        refine ⟨_, by rw [hasRight, if_pos (mismatch_iff.mpr hpre)], ?_⟩
        rcases diverges_or hpre hpre' with hd | hd
        · rw [(compare_of_diverges hd).1]
          refine iff_of_false (by simp) ?_
          rintro ⟨K', -, hget', hd'⟩
          obtain ⟨r', rfl⟩ := Tree.prefix_of_get_short hget'
          exact (hd.left r').asymm hd'
        · rw [(compare_of_diverges hd).2]
          exact iff_of_true (by simp) ⟨_, hK, hget, hd.right r⟩
  | full cs ih =>
    intro p key n hrep hl hcan hkey huni
    obtain ⟨a, rest, rfl⟩ := exists_cons_of_ne_nil hkey.ne_nil
    have ha := huni.digit_ne hcan hkey
    have hterm := (huni.full hcan).1
    cases hrep with
    | hash => exact hl.elim
    | @full _ ns _ flags hc hf hs =>
      rw [hasRight]
      split
      · next hany =>
        obtain ⟨j, -, hj⟩ := any_eq_true.mp hany
        obtain ⟨hlt, -, hnil⟩ := of_decide_eq_true hj
        have hne : cs j ≠ .nil := fun h => by
          rw [(hc j).nil_iff.mpr h] at hnil
          cases hnil
        obtain ⟨K, hK, hget⟩ := hcan.exists_get_child hne
        exact ⟨true, rfl, iff_of_true rfl ⟨j :: K, hK, hget, diverges_cons.mpr (.inl hlt)⟩⟩
      · next hany =>
        obtain ⟨b, hres, hb⟩ := ih a (hc a) (loaded_full.mp hl) (hcan.1.2 a ha) (hkey.tail ha)
          (huni.child_full ha)
        refine ⟨b, hres, hb.trans ⟨?_, ?_⟩⟩
        · rintro ⟨K, hK, hget, hd⟩
          exact ⟨a :: K, .inr ⟨ha, hK⟩, hget, diverges_cons.mpr (.inr ⟨rfl, hd⟩)⟩
        · rintro ⟨K, hK, hget, hd⟩
          obtain ⟨j, K, rfl⟩ := exists_cons_of_ne_nil hK.ne_nil
          rcases diverges_cons.mp hd with hlt | ⟨rfl, hrest⟩
          · have hnil : cs j = .nil := by
              by_contra hne
              refine hany (any_eq_true.mpr ⟨j, mem_finRange j, decide_eq_true ?_⟩)
              have hj : j.val ≠ 16 := fun h => hne (by
                obtain rfl : j = term := Fin.ext h
                exact hterm)
              exact ⟨hlt, by omega, Bool.eq_false_iff.mpr fun hn => hne ((hc j).isNil.mp hn)⟩
            rw [Tree.get_full_cons, hnil] at hget
            exact absurd rfl hget
          · exact ⟨K, hK.tail ha, hget, hrest⟩

end Refilling

end GoQrl.Mpt
