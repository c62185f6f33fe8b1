import GoQrl.Trie.Refill
import GoQrl.Trie.StackRun

/-!
# GoQrl.Trie.Range

Range proofs: what `VerifyRangeProof` accepts.

The verifier loads the ways to both edge keys, cuts out what is between them, and
puts the given pairs back.  For pairs within the range the ways are loaded
(`Cuts.loaded`), so the rebuilt trie is the tree with the cut refilled, and its root
hash settles that it is the original one.
-/

namespace GoQrl.Mpt

open Radix Mpt.Tree Option Function Proof Content
open List hiding nil get insert

/-! ## the order of byte strings and of hex keys -/

variable {key : Bytes} {n : Nat} {t : Tree}

section Order

variable {x y : Bytes}

theorem compare_neg_iff : Proof.compare x y < 0 ↔ x < y := by
  unfold Proof.compare
  split
  · simp [*]
  · split <;> simp [*]

theorem diverges_hex (hlen : x.length = y.length) :
    Diverges (keybytesToHex x) (keybytesToHex y) ↔ x < y := by
  have hof : ∀ {x y : Bytes}, x.length = y.length → x < y →
      Diverges (keybytesToHex x) (keybytesToHex y) := by
    intro x y hlen hlt
    have hpre : ¬ x <+: y := fun h => by
      rw [h.eq_of_length hlen] at hlt
      exact List.lt_irrefl _ hlt
    exact (diverges_of_lt hlt hpre).right [term]
  constructor
  · intro h
    by_contra hlt
    rcases List.le_iff_lt_or_eq.mp (List.not_lt.mp hlt) with hyx | rfl
    · exact h.asymm (hof hlen.symm hyx)
    · exact not_diverges_self _ h
  · exact hof hlen

theorem inRange_hex {left right : Bytes} (hl : left.length = n) (hr : right.length = n)
    (hk : key.length = n) :
    InRange (keybytesToHex left) (keybytesToHex right) (keybytesToHex key) ↔ left ≤ key ∧
      key ≤ right := by
  rw [InRange, diverges_hex (hk.trans hl.symm), diverges_hex (hr.trans hk.symm), List.not_lt,
    List.not_lt]

end Order

/-! ## tries with keys of one length -/

section Lengths

/-- All keys of the trie have `n` bytes. -/
def KeyLength (n : Nat) (t : Tree) : Prop :=
  ∀ key : Slice, Content.ofTree t key ≠ none → key.bytes.length = n

theorem KeyLength.uniform (h : KeyLength n t) (ht : Valid t) (hk : key.length = n) :
    Uniform (keybytesToHex key).length t := by
  intro K hK hget
  obtain ⟨k, rfl⟩ := ht.keys K hK hget
  rw [length_keybytesToHex, length_keybytesToHex, h k hget, hk]

/-- Entries to the right, in the order of byte strings. -/
theorem more_iff (ht : Valid t) (h : KeyLength n t) (hk : key.length = n) :
    More t (keybytesToHex key) ↔ ∃ k : Slice, ofTree t k ≠ none ∧ key < k.bytes := by
  constructor
  · rintro ⟨K, hK, hget, hd⟩
    obtain ⟨k, rfl⟩ := ht.keys K hK hget
    exact ⟨k, hget, (diverges_hex (hk.trans (h k hget).symm)).mp hd⟩
  · rintro ⟨k, hget, hlt⟩
    exact ⟨_, terminated_keybytesToHex _, hget, (diverges_hex (hk.trans (h k hget).symm)).mpr hlt⟩

/-- Cutting keeps the bounds. -/
theorem bounded_of_pruned {s : Tree} {d : Nat} (h : Radix.Tree.Pruned term s t) (hb : Bounded d t) :
    Bounded d s := by
  induction h generalizing d with
  | nil => trivial
  | refl => exact hb
  | short _ _ _ ih => exact ⟨hb.1, ih hb.2⟩
  | full _ hτ ih =>
    refine ⟨hb.1, fun a => ?_⟩
    by_cases ha : a = term
    · rw [ha, hτ]
      exact hb.2 term
    · exact ih a ha (hb.2 a)

end Lengths

/-! ## putting a range back -/

section Restore

variable [Keccak] {s : Tree} {firstKey lastKey : Bytes} {pairs : List (Slice × Slice)}

/-- Pairs as the verifier accepts them. -/
structure Listed (pairs : List (Slice × Slice)) : Prop where
  increasing : pairs.Pairwise fun x y => x.1.bytes < y.1.bytes
  values : ∀ x ∈ pairs, x.2.bytes ≠ []

/-- Every key is in the range. -/
def Within (firstKey lastKey : Bytes) (pairs : List (Slice × Slice)) : Prop :=
  ∀ x ∈ pairs, firstKey ≤ x.1.bytes ∧ x.1.bytes ≤ lastKey

/-- The pairs are the entries of the tree that are covered. -/
def Lists (t : Tree) (covers : Slice → Prop) (pairs : List (Slice × Slice)) : Prop :=
  ∀ key value, (key, value) ∈ pairs ↔ Content.ofTree t key = some value.bytes ∧ covers key

omit [Keccak] in
theorem Listed.pairwise_ne (h : Listed pairs) : (hexPairs pairs).Pairwise fun x y => x.1 ≠ y.1 := by
  refine pairwise_map.mpr (h.increasing.imp fun hlt heq => ?_)
  rw [keybytesToHex_injective heq] at hlt
  exact List.lt_irrefl _ hlt

omit [Keccak] in
/-- What a tree has after pairs were put into it. -/
theorem Listed.ofTree_insertAll (h : Listed pairs) (hs : s.WF term) (key value : Slice) :
    ofTree (s.insertAll (hexPairs pairs)) key = some value.bytes ↔
      (key, value) ∈ pairs ∨ (∀ x ∈ pairs, x.1 ≠ key) ∧ ofTree s key = some value.bytes := by
  have hterm := terminated_hexPairs pairs
  have hmem : ∀ x ∈ pairs, ofTree (s.insertAll (hexPairs pairs)) x.1 = some x.2.bytes :=
    fun x hx => Tree.get_insertAll_of_mem hs hterm h.pairwise_ne (mem_map_of_mem hx)
  by_cases hkey : ∀ x ∈ pairs, x.1 ≠ key
  · have hne : ∀ x ∈ hexPairs pairs, keybytesToHex key.bytes ≠ x.1 :=
      forall_mem_map.mpr fun x hx heq => hkey x hx (Slice.ext (keybytesToHex_injective heq).symm)
    have hget := Tree.get_insertAll_of_ne hs hterm (terminated_keybytesToHex key.bytes) hne
    unfold ofTree
    rw [hget]
    exact ⟨fun h => .inr ⟨hkey, h⟩, fun h => h.elim (fun h => absurd rfl (hkey _ h)) And.right⟩
  · push Not at hkey
    obtain ⟨x, hx, rfl⟩ := hkey
    rw [hmem x hx]
    constructor
    · intro heq
      obtain rfl : x.2 = value := Slice.ext (some.inj heq)
      exact .inl hx
    · rintro (hin | ⟨hne, -⟩)
      · exact (hmem x hx).symm.trans (hmem _ hin)
      · exact absurd rfl (hne x hx)

/-- The range is cut out of the tree. -/
def CutOut (t s : Tree) (firstKey lastKey : Bytes) : Prop :=
  ∃ n', Cuts t [] n' s t (InRange (keybytesToHex firstKey) (keybytesToHex lastKey))

/-- If the pairs restore the tree, they are its entries in the range. -/
theorem CutOut.lists (h : CutOut t s firstKey lastKey) (ht : Valid t) (hlen : KeyLength n t)
    (hf : firstKey.length = n) (hl : lastKey.length = n) (hp : Listed pairs)
    (hw : Within firstKey lastKey pairs) (heq : s.insertAll (hexPairs pairs) = t) :
    Lists t (fun key => firstKey ≤ key.bytes ∧ key.bytes ≤ lastKey) pairs := by
  obtain ⟨n', hcut⟩ := h
  have hiff := hp.ofTree_insertAll (hcut.pruned.wf ht.canon)
  rw [heq] at hiff
  intro key value
  constructor
  · exact fun hmem => ⟨(hiff key value).mpr (.inl hmem), hw _ hmem⟩
  · rintro ⟨hget, hin⟩
    rcases (hiff key value).mp hget with hmem | ⟨-, hget'⟩
    · exact hmem
    · have hkey : key.bytes.length = n := hlen key (by rw [hget]; simp)
      simp [ofTree, hcut.gone _ ((inRange_hex hf hl hkey).mpr hin)] at hget'

/-- The entries in the range restore the tree. -/
theorem CutOut.restore (h : CutOut t s firstKey lastKey) (ht : Valid t) (hlen : KeyLength n t)
    (hf : firstKey.length = n) (hl : lastKey.length = n) (hp : Listed pairs)
    (hlists : Lists t (fun key => firstKey ≤ key.bytes ∧ key.bytes ≤ lastKey) pairs) :
    s.insertAll (hexPairs pairs) = t := by
  obtain ⟨n', hcut⟩ := h
  have hwf := hcut.pruned.wf ht.canon
  have hentries : ∀ x ∈ hexPairs pairs, Terminated term x.1 ∧ t.get x.1 = some x.2 :=
    forall_mem_map.mpr fun x hx => ⟨terminated_keybytesToHex _, ((hlists x.1 x.2).mp hx).1⟩
  refine ((hcut.pruned.sub ht.canon).insertAll ht.canon hentries).eq ht.canon fun K hK => ?_
  by_cases hmem : ∃ x ∈ hexPairs pairs, K = x.1
  · obtain ⟨x, hx, rfl⟩ := hmem
    rw [Tree.get_insertAll_of_mem hwf (terminated_hexPairs pairs) hp.pairwise_ne hx]
    exact (hentries x hx).2.symm
  · push Not at hmem
    rw [Tree.get_insertAll_of_ne hwf (terminated_hexPairs pairs) hK hmem]
    by_cases hin : InRange (keybytesToHex firstKey) (keybytesToHex lastKey) K
    · rw [hcut.gone K hin]
      by_contra hne
      -- an entry in the range is one of the pairs
      obtain ⟨key, rfl⟩ := ht.keys K hK (Ne.symm hne)
      obtain ⟨v, hv⟩ := ne_none_iff_exists'.mp (Ne.symm hne)
      have hfits := (ht.bounded.get hv).2
      have hkey : key.bytes.length = n := hlen key (by rw [ofTree, hv]; simp)
      have := (hlists key ⟨v, hfits⟩).mpr ⟨hv, (inRange_hex hf hl hkey).mp hin⟩
      exact hmem _ (mem_map_of_mem this) rfl
    · exact hcut.rest K hin

end Restore

/-! ## the verifier -/

section Verifier

variable [Keccak] {fuel : Nat} {firstKey lastKey : Bytes} {pairs : List (Slice × Slice)}
    {db : ProofDb}

/-- Only the encoding of the empty string has the hash of the empty trie. -/
def EmptyRootUnforgeable : Prop := ∀ b, Keccak.hash b = emptyRootHash → b = [0x80]

omit [Keccak] in
theorem decodeNode_empty (h : Option Hash) : ∃ e, decodeNode h [0x80] = .error e := ⟨_, rfl⟩

theorem enc_ne_empty (ht : Fit t) (hn : isNode t) : enc t ≠ [0x80] := by
  intro h
  obtain ⟨e, he⟩ := decodeNode_empty none
  have := decodeNode_enc ht hn none
  simp [h, he] at this

/-- **The root hash determines the tree.** -/
theorem eq_of_rootHash {u : Tree} (ht : Fit t) (hu : Fit u) (hforge : Unforgeable t)
    (hempty : EmptyRootUnforgeable) (h : rootHash u = rootHash t) : u = t := by
  have hnode : ∀ {u : Tree}, Fit u → u ≠ .nil → rootHash u ≠ emptyRootHash := by
    intro u hu h0 heq
    rw [rootHash_of_ne h0] at heq
    exact enc_ne_empty hu (isNode_of_wf hu.wf h0) (hempty _ heq)
  by_cases hu0 : u = .nil <;> by_cases ht0 : t = .nil
  · rw [hu0, ht0]
  · rw [hu0] at h
    exact absurd h.symm (hnode ht ht0)
  · rw [ht0] at h
    exact absurd h (hnode hu hu0)
  · rw [rootHash_of_ne hu0, rootHash_of_ne ht0] at h
    exact eq_of_digest ht hu (isNode_of_wf ht.wf ht0) (isNode_of_wf hu.wf hu0) hforge h

/-- No proof opens the empty trie. -/
theorem proofToPath_empty (fuel : Nat) (hempty : EmptyRootUnforgeable) (hdb : ContentAddressed db)
    (key : Bytes)
    (allow : Bool) : ∃ e, proofToPath fuel emptyRootHash none key db allow = .error e := by
  rw [proofToPath, resolveNode]
  cases hget : db emptyRootHash with
  | none => exact ⟨_, rfl⟩
  | some b =>
    rw [hempty b (hdb _ b hget)]
    exact ⟨_, rfl⟩

/-- The stack trie hashes to the root it commits to. -/
theorem StackTrie.hash_of_commit {st st' : StackTrie} {h : Hash} (hc : st.commit = .ok (h, st')) :
    st.hash = .ok h := by
  unfold StackTrie.commit at hc
  unfold StackTrie.hash
  cases hrec : st.root.hashRec st.owner [] with
  | error e =>
    simp [hrec] at hc
  | ok res =>
    rw [hrec] at hc
    simp only at hc ⊢
    split at hc
    · next hlen =>
      rw [dif_pos hlen]
      cases hc
      rfl
    · next hlen =>
      rw [dif_neg hlen]
      cases hc
      rfl

/-- The hash of a stack trie is that of the tree of its entries. -/
theorem Ordered.hash (h : Ordered pairs) : Valid (Tree.insertAll .nil (hexPairs pairs)) ∧
    ∃ st, (StackTrie.new Hash.zero).updateAll pairs = .ok st ∧
      st.hash = .ok (rootHash (Tree.insertAll .nil (hexPairs pairs))) := by
  obtain ⟨st, hrun, -, hinv, -⟩ := (stackInv_new Hash.zero).updateAll h fun _ _ _ _ hget =>
    absurd rfl hget
  obtain ⟨st', hcommit, -⟩ := hinv.commit
  exact ⟨hinv.valid, st, hrun, StackTrie.hash_of_commit hcommit⟩

/-- Without a proof, the verifier compares with the trie of all pairs. -/
theorem verifyAll_spec (hp : Listed pairs) (hlen : ∀ x ∈ pairs, x.1.bytes.length = n)
    (root : Hash) :
    Fit (Tree.insertAll .nil (hexPairs pairs)) ∧
    verifyAll root pairs =
      if rootHash (Tree.insertAll .nil (hexPairs pairs)) ≠ root then
        .error (.invalidProof root (rootHash (Tree.insertAll .nil (hexPairs pairs))))
      else .ok false := by
  have hord : Ordered pairs := by
    refine ⟨hp.increasing, fun x hx y hy hpre => Slice.ext ?_, hp.values⟩
    exact hpre.eq_of_length ((hlen x hx).trans (hlen y hy).symm)
  obtain ⟨hvalid, st, hrun, hhash⟩ := hord.hash
  refine ⟨hvalid.fit, ?_⟩
  rw [verifyAll, hrun]
  simp [Except.bind, hhash, raise]

/-- The verifier finds every stored node on the way to the key, or the proof
lacks one. -/
def Lacks (db : ProofDb) (t : Tree) (key : Bytes) : Prop :=
  ∃ q u, OnPath t (keybytesToHex key) q u ∧ Standalone q u ∧ db (digest u) = none

/-- Opening a path and looking to its right. -/
theorem proofToPath_right (ht : Valid t) (h0 : t ≠ .nil) (hlen : KeyLength n t)
    (hk : key.length = n)
    (hdb : AgreesOn db [] t (keybytesToHex key)) (hfuel : 2 * n + 2 ≤ fuel) (allow : Bool) :
    (Lacks db t key ∧ ∃ e, proofToPath fuel (rootHash t) none key db allow = .error e) ∨
    (t.get (keybytesToHex key) = none ∧ allow = false ∧
      proofToPath fuel (rootHash t) none key db allow = .error .notContained) ∨
    ∃ root more, proofToPath fuel (rootHash t) none key db allow =
      .ok (root, t.get (keybytesToHex key)) ∧ hasRightElement root key = .ok more ∧
      (more = true ↔ ∃ k : Slice, ofTree t k ≠ none ∧ key < k.bytes) := by
  have hf : (keybytesToHex key).length + 1 ≤ fuel := by
    rw [length_keybytesToHex, hk]
    omega
  rw [rootHash_of_ne h0]
  have hpath : PathTo db allow t [] (expand (some (digest t)) t) t (keybytesToHex key) id _ :=
    proofToPath_none ht.fit (isNode_of_wf ht.canon.wf h0) key hdb hf
  rcases hpath with
    ⟨q, u, hon, hst, hnone, herr⟩ | ⟨hget, hallow, herr⟩ | ⟨-, root, hok, hload⟩
  · exact .inl ⟨⟨q, u, hon, hst, hnone⟩, _, herr⟩
  · exact .inr (.inl ⟨hget, hallow, herr⟩)
  · obtain ⟨more, hright, hmore⟩ := hasRight_spec t hload.rep hload.loaded ht.canon
      (terminated_keybytesToHex key) (hlen.uniform ht hk)
    exact .inr (.inr ⟨root, more, hok, hright, hmore.trans (more_iff ht hlen hk)⟩)

/-- The results of the general case, for keys in the range: the proof lacks a node,
the range has no entries, or the cut is refilled and the root hash decides. -/
def VerifiesRange (db : ProofDb) (t : Tree) (firstKey lastKey : Bytes)
    (pairs : List (Slice × Slice)) (last : Bytes) (res : Except ProofError Bool) : Prop :=
  ((Lacks db t firstKey ∨ Lacks db t lastKey) ∧ ∃ e, res = .error e) ∨
  (res = .error .emptyRange ∧
    ∀ K, t.get K ≠ none → ¬ InRange (keybytesToHex firstKey) (keybytesToHex lastKey) K) ∨
  ∃ s, CutOut t s firstKey lastKey ∧ Fit (s.insertAll (hexPairs pairs)) ∧
    (∀ more, res = .ok more → rootHash (s.insertAll (hexPairs pairs)) = rootHash t) ∧
    (s.insertAll (hexPairs pairs) = t → ∃ more, res = .ok more ∧
      (more = true ↔ ∃ k : Slice, Content.ofTree t k ≠ none ∧ last < k.bytes))

/-- **The general case** of the verifier. -/
theorem verifyRange_spec (ht : Valid t) (h0 : t ≠ .nil) (hlen : KeyLength n t)
    (hf : firstKey.length = n) (hl : lastKey.length = n) (hlt : firstKey < lastKey)
    (hdb1 : AgreesOn db [] t (keybytesToHex firstKey))
    (hdb2 : AgreesOn db [] t (keybytesToHex lastKey)) (hfuel : 2 * n + 2 ≤ fuel)
    (hp : Listed pairs) (hkeys : ∀ x ∈ pairs, x.1.bytes.length = n) (hne : pairs ≠ [])
    (hw : Within firstKey lastKey pairs) :
    VerifiesRange db t firstKey lastKey pairs (pairs.getLast hne).1.bytes
      (verifyRange fuel (rootHash t) firstKey lastKey pairs db) := by
  have hn := isNode_of_wf ht.canon.wf h0
  have hfuel1 : (keybytesToHex firstKey).length + 1 ≤ fuel := by
    rw [length_keybytesToHex, hf]
    omega
  have hfuel2 : (keybytesToHex lastKey).length + 1 ≤ fuel := by
    rw [length_keybytesToHex, hl]
    omega
  have hcmp : ¬ Proof.compare firstKey lastKey ≥ 0 := not_le.mpr (compare_neg_iff.mpr hlt)
  rw [verifyRange, if_neg hcmp, if_neg (by rw [hf, hl]; simp), rootHash_of_ne h0]
  have hpath1 : PathTo db true t [] (expand (some (digest t)) t) t (keybytesToHex firstKey) id _ :=
    proofToPath_none ht.fit hn firstKey hdb1 hfuel1
  rcases hpath1 with ⟨q, u, hon, hst, hnone, herr⟩ | ⟨-, hallow, -⟩ | ⟨-, n1, hok1, hload1⟩
  · exact .inl ⟨.inl ⟨q, u, hon, hst, hnone⟩, _, by rw [herr]⟩
  · cases hallow
  have hpath2 : PathTo db true t [] n1 t (keybytesToHex lastKey) id
      (proofToPath fuel (digest t) (some n1) lastKey db true) :=
    pathLoop_spec ht.fit t hload1.rep (Node.isHash_of_loaded hload1.loaded) hn ht.fit.sized
      (.inl ⟨ht.fit.wf, terminated_keybytesToHex lastKey⟩) hdb2 hfuel2
  simp only [hok1, id]
  rcases hpath2 with ⟨q, u, hon, hst, hnone, herr⟩ | ⟨-, hallow, -⟩ | ⟨-, n2, hok2, hload2⟩
  · exact .inl ⟨.inr ⟨q, u, hon, hst, hnone⟩, _, by rw [herr]⟩
  · cases hallow
  simp only [hok2, id]
  have hloaded : n2.Loaded (keybytesToHex firstKey) := by
    have := hload1.loaded
    rw [Node.loaded_iff] at this ⊢
    exact fun hun => this (hload2.unloaded _ hun)
  have hunset : UnsetsRange t [] t none (keybytesToHex firstKey) (keybytesToHex lastKey)
      (unsetInternal n2 firstKey lastKey) :=
    unsetFrom_spec t hload2.rep hloaded hload2.loaded ht.canon h0 (terminated_keybytesToHex _)
      (terminated_keybytesToHex _) (by rw [length_keybytesToHex, length_keybytesToHex, hf, hl])
      (hlen.uniform ht hf) ((diverges_hex (hf.trans hl.symm)).mpr hlt) (.inl (by simp))
  rcases hunset with ⟨herr, hnone⟩ | ⟨e, n3, s, hok3, hcut, -, -⟩
  · exact .inr (.inl ⟨by rw [herr], hnone⟩)
  simp only [hok3]
  have hfit : Fit s := ⟨hcut.pruned.wf ht.canon, bounded_of_pruned hcut.pruned ht.bounded⟩
  -- the keys are in the range, so their ways are loaded
  have hways : ∀ x ∈ pairs, (if e = true then Node.nil else n3).Loaded (keybytesToHex x.1.bytes) :=
    fun x hx => hcut.loaded _ ((inRange_hex hf hl (hkeys x hx)).mpr (hw x hx))
  have hstart : Rebuilds t ⟨if e = true then .nil else n3, Hash.zero, false, 0, newEmptyReader,
      Tracer.new⟩ s :=
    ⟨hcut.rep, hfit, rfl, rfl⟩
  obtain ⟨tr, hrefill, hreb, hun⟩ := hstart.refill ht.fit hp.values hways
  obtain ⟨hhash, hrep, -, hun', -⟩ := hashTrie_spec hreb.rep hreb.fit
  simp only [hrefill, hhash, raise, getLast?_eq_some_getLast hne, ← rootHash_of_ne h0]
  refine .inr (.inr ⟨s, ⟨_, hcut⟩, hreb.fit, fun more hmore => ?_, fun heq => ?_⟩)
  · by_contra hroot
    simp [if_pos hroot] at hmore
  · rw [heq] at hrep ⊢
    have hmem := getLast_mem hne
    have hlast : tr.hash.2.root.Loaded (keybytesToHex (pairs.getLast hne).1.bytes) := by
      have := hways _ hmem
      rw [Node.loaded_iff] at this ⊢
      exact fun h => this (hun _ ((hun' _).mp h))
    rw [if_neg (by simp)]
    obtain ⟨more, hright, hmore⟩ := hasRight_spec t hrep hlast ht.canon (terminated_keybytesToHex _)
      (hlen.uniform ht (hkeys _ hmem))
    exact ⟨more, hright, hmore.trans (more_iff ht hlen (hkeys _ hmem))⟩

/-! ## soundness -/

/-- The entries that an accepted call covers. -/
def Covers (firstKey lastKey : Bytes) (keys : List Slice) : Option ProofDb → Slice → Prop
  | none, _ => True
  | some _, key => firstKey ≤ key.bytes ∧ (keys ≠ [] → key.bytes ≤ lastKey)

/-- The keys and values are exactly the covered entries of the trie, in order. -/
structure RangeEntries (t : Tree) (covers : Slice → Prop) (keys values : List Slice) : Prop where
  length : keys.length = values.length
  increasing : keys.Pairwise fun a b => a.bytes < b.bytes
  entries : Lists t covers (keys.zip values)

omit [Keccak] in
theorem isChain_compare {keys : List Slice} :
    keys.IsChain (fun a b => Proof.compare a.bytes b.bytes < 0) ↔
      keys.Pairwise fun a b => a.bytes < b.bytes := by
  simp only [compare_neg_iff]
  exact isChain_iff_pairwise

/-- The checks on the lists. -/
theorem verifyRangeProof_of_listed (hp : Listed pairs) (root : Hash) (proof : Option ProofDb) :
    verifyRangeProof fuel root firstKey lastKey (pairs.map Prod.fst) (pairs.map Prod.snd) proof =
      verifyPairs fuel root firstKey lastKey pairs proof := by
  have hinc : (pairs.map Prod.fst).Pairwise fun a b => a.bytes < b.bytes :=
    pairwise_map.mpr hp.increasing
  have hval : ¬ ∃ value ∈ pairs.map Prod.snd, value.bytes.length = 0 := by
    rintro ⟨value, hmem, hlen⟩
    obtain ⟨x, hx, rfl⟩ := mem_map.mp hmem
    exact hp.values x hx (length_eq_zero_iff.mp hlen)
  rw [verifyRangeProof, if_neg (by simp), if_neg (not_not.mpr (isChain_compare.mpr hinc)),
    if_neg hval, ← zip_of_prod rfl rfl]

/-- What is accepted passed the checks. -/
theorem listed_of_ok {root : Hash} {keys values : List Slice} {proof : Option ProofDb} {more : Bool}
    (h : verifyRangeProof fuel root firstKey lastKey keys values proof = .ok more) :
    ∃ pairs, keys = pairs.map Prod.fst ∧ values = pairs.map Prod.snd ∧ Listed pairs := by
  unfold verifyRangeProof at h
  split at h
  · cases h
  next hlen =>
  split at h
  · cases h
  next hchain =>
  split at h
  · cases h
  next hval =>
  have hlen := not_not.mp hlen
  have hfst : keys = (keys.zip values).map Prod.fst := (map_fst_zip hlen.le).symm
  have hsnd : values = (keys.zip values).map Prod.snd := (map_snd_zip hlen.ge).symm
  refine ⟨keys.zip values, hfst, hsnd, ?_, fun x hx hnil => hval ⟨x.2, ?_, by rw [hnil]; rfl⟩⟩
  · have := isChain_compare.mp (not_not.mp hchain)
    rwa [hfst, pairwise_map] at this
  · rw [hsnd]
    exact mem_map_of_mem hx

variable {more : Bool}

/-- Without a proof, the pairs are all of the trie. -/
theorem verifyAll_sound (ht : Valid t) (hforge : Unforgeable t) (hempty : EmptyRootUnforgeable)
    (hp : Listed pairs) (hkeys : ∀ x ∈ pairs, x.1.bytes.length = n)
    (hok : verifyAll (rootHash t) pairs = .ok more) : Lists t (fun _ => True) pairs := by
  obtain ⟨hfit, hres⟩ := verifyAll_spec hp hkeys (rootHash t)
  have hroot : rootHash (Tree.insertAll .nil (hexPairs pairs)) = rootHash t := by
    by_contra hne
    simp [hres, if_pos hne] at hok
  have heq := eq_of_rootHash ht.fit hfit hforge hempty hroot
  intro key value
  have hiff := hp.ofTree_insertAll (s := .nil) trivial key value
  rw [heq] at hiff
  rw [hiff, and_true]
  exact (or_iff_left fun h => by cases h.2).symm

section Proved

variable (ht : Valid t) (hlen : KeyLength n t) (hf : firstKey.length = n) (hfuel : 2 * n + 2 ≤ fuel)
  (hempty : EmptyRootUnforgeable) (hforge : Unforgeable t) (hdb : ContentAddressed db)

include hempty hdb in
theorem ne_nil_of_path {allow : Bool} {res : Node × Option Bytes}
    (h : proofToPath fuel (rootHash t) none firstKey db allow = .ok res) : t ≠ .nil := by
  rintro rfl
  obtain ⟨e, he⟩ := proofToPath_empty fuel hempty hdb firstKey allow
  simp [rootHash, he] at h

include ht hlen hf hfuel hempty hforge hdb

/-- A path that is opened has the value of the key, and shows what is to its right. -/
theorem proofToPath_sound {allow : Bool} {root : Node} {val : Option Bytes}
    (h : proofToPath fuel (rootHash t) none firstKey db allow = .ok (root, val)) :
    val = t.get (keybytesToHex firstKey) ∧ ∃ right, hasRightElement root firstKey = .ok right ∧
      (right = true ↔ ∃ k : Slice, ofTree t k ≠ none ∧ firstKey < k.bytes) := by
  have h0 := ne_nil_of_path hempty hdb h
  rcases proofToPath_right ht h0 hlen hf ((hdb.agrees hforge).on _) hfuel allow with
    ⟨-, e, herr⟩ | ⟨-, -, herr⟩ | ⟨root', right, hok, hright, hmore⟩
  · simp [h] at herr
  · simp [h] at herr
  · rw [h] at hok
    cases hok
    exact ⟨rfl, right, hright, hmore⟩

/-- Without pairs, the trie has no entry from the first key on. -/
theorem verifyNone_sound (hok : verifyNone fuel (rootHash t) firstKey db = .ok more)
    {key : Slice} (hget : ofTree t key ≠ none) : ¬ firstKey ≤ key.bytes := by
  intro hle
  unfold verifyNone at hok
  split at hok
  · cases hok
  next root val hpath =>
  obtain ⟨rfl, right, hright, hmore⟩ := proofToPath_sound ht hlen hf hfuel hempty hforge hdb hpath
  rw [hright] at hok
  split at hok
  · cases hok
  next hval =>
  rcases List.le_iff_lt_or_eq.mp hle with hlt | rfl
  · simp [hmore.mpr ⟨key, hget, hlt⟩] at hok
  · exact hval (isSome_iff_ne_none.mpr hget)

/-- The single pair is the entry of the edge key. -/
theorem verifyOne_sound {key value : Slice} (hv : value.bytes ≠ [])
    (hok : verifyOne fuel (rootHash t) firstKey key.bytes value.bytes db = .ok more) :
    key.bytes = firstKey ∧ ofTree t key = some value.bytes := by
  unfold verifyOne at hok
  split at hok
  · cases hok
  next root val hpath =>
  obtain ⟨rfl, -⟩ := proofToPath_sound ht hlen hf hfuel hempty hforge hdb hpath
  split at hok
  · cases hok
  next hkey =>
  split at hok
  · cases hok
  next hval =>
  obtain rfl := not_not.mp hkey
  refine ⟨rfl, ?_⟩
  have hval := not_not.mp hval
  unfold ofTree
  cases hget : t.get (keybytesToHex key.bytes) with
  | none =>
    rw [hget] at hval
    exact absurd hval.symm hv
  | some v =>
    rw [hget] at hval
    exact congrArg some hval

/-- In the general case, pairs in the range are all entries of the range. -/
theorem verifyRange_sound (hl : lastKey.length = n) (hp : Listed pairs)
    (hkeys : ∀ x ∈ pairs, x.1.bytes.length = n) (hne : pairs ≠ [])
    (hw : Within firstKey lastKey pairs)
    (hok : verifyRange fuel (rootHash t) firstKey lastKey pairs db = .ok more) :
    Lists t (fun key => firstKey ≤ key.bytes ∧ key.bytes ≤ lastKey) pairs := by
  have hlt : firstKey < lastKey := by
    by_contra hlt
    simp [verifyRange, if_pos (not_lt.mp (mt compare_neg_iff.mp hlt))] at hok
  have h0 : t ≠ .nil := by
    rintro rfl
    obtain ⟨e, he⟩ := proofToPath_empty fuel hempty hdb firstKey true
    rw [verifyRange, if_neg (not_le.mpr (compare_neg_iff.mpr hlt)), if_neg (by rw [hf, hl]; simp),
      rootHash, he] at hok
    cases hok
  have hdb' := hdb.agrees hforge
  rcases verifyRange_spec ht h0 hlen hf hl hlt (hdb'.on _) (hdb'.on _) hfuel hp hkeys hne hw with
    ⟨-, e, herr⟩ | ⟨herr, -⟩ | ⟨s, hcut, hfit, hroot, -⟩
  · simp [hok] at herr
  · simp [hok] at herr
  · exact hcut.lists ht hlen hf hl hp hw (eq_of_rootHash ht.fit hfit hforge hempty (hroot more hok))

/-- With a proof, in all cases. -/
theorem verifyPairs_sound (hl : lastKey.length = n) (hp : Listed pairs)
    (hkeys : ∀ x ∈ pairs, x.1.bytes.length = n) (hw : Within firstKey lastKey pairs)
    (hok : verifyPairs fuel (rootHash t) firstKey lastKey pairs (some db) = .ok more) :
    Lists t (Covers firstKey lastKey (pairs.map Prod.fst) (some db)) pairs := by
  have hrange : ∀ hne : pairs ≠ [],
      verifyRange fuel (rootHash t) firstKey lastKey pairs db = .ok more →
      Lists t (Covers firstKey lastKey (pairs.map Prod.fst) (some db)) pairs := by
    intro hne hok key value
    rw [verifyRange_sound ht hlen hf hfuel hempty hforge hdb hl hp hkeys hne hw hok key value]
    simp [Covers, hne]
  match pairs, hok with
  | [], hok =>
    refine fun key value => iff_of_false (by simp) fun h => ?_
    exact verifyNone_sound ht hlen hf hfuel hempty hforge hdb hok (by rw [h.1]; simp) h.2.1
  | [(key, value)], hone =>
    rw [verifyPairs] at hone
    split at hone
    · next heq =>
      subst heq
      have hv : value.bytes ≠ [] := hp.values _ mem_cons_self
      obtain ⟨rfl, hget⟩ := verifyOne_sound ht hlen hf hfuel hempty hforge hdb hv hone
      intro k v
      simp only [mem_singleton, Covers, map_cons, map_nil, ne_eq, reduceCtorEq, not_false_eq_true,
        forall_const]
      constructor
      · rintro ⟨⟩
        exact ⟨hget, List.le_refl _, List.le_refl _⟩
      · rintro ⟨hget', hle, hle'⟩
        obtain rfl : k = key := Slice.ext (List.le_antisymm hle' hle)
        rw [hget] at hget'
        rw [Slice.ext (some.inj hget')]
    · exact hrange (by simp) hone
  | x :: y :: rest, hok => exact hrange (by simp) hok

end Proved

/-- **Range proof soundness.**  Let the verifier accept keys and values, with any
content-addressed proof or none.  They are exactly the entries that the range covers
if and only if, with a proof, every key is within the range.  The verifier itself does
not check that. -/
theorem verifyRangeProof_sound (ht : Valid t) (hlen : KeyLength n t) (hforge : Unforgeable t)
    (hempty : EmptyRootUnforgeable) (hf : firstKey.length = n) (hl : lastKey.length = n)
    {keys values : List Slice} (hkeys : ∀ key ∈ keys, key.bytes.length = n)
    {proof : Option ProofDb} (hproof : ∀ db, proof = some db → ContentAddressed db)
    (hfuel : 2 * n + 2 ≤ fuel)
    (hok : Proof.verifyRangeProof fuel (rootHash t) firstKey lastKey keys values proof = .ok more) :
    RangeEntries t (Covers firstKey lastKey keys proof) keys values ↔
      (proof ≠ none → ∀ key ∈ keys, firstKey ≤ key.bytes ∧ key.bytes ≤ lastKey) := by
  obtain ⟨pairs, rfl, rfl, hp⟩ := listed_of_ok hok
  have hzip : (pairs.map Prod.fst).zip (pairs.map Prod.snd) = pairs := (zip_of_prod rfl rfl).symm
  rw [verifyRangeProof_of_listed hp] at hok
  have hkeys : ∀ x ∈ pairs, x.1.bytes.length = n := forall_mem_map.mp hkeys
  constructor
  · intro hentries hsome key hkey
    obtain ⟨x, hx, rfl⟩ := mem_map.mp hkey
    obtain ⟨db, rfl⟩ := ne_none_iff_exists'.mp hsome
    have hent := hentries.entries
    rw [hzip] at hent
    obtain ⟨-, hle, hle'⟩ := (hent x.1 x.2).mp hx
    exact ⟨hle, hle' (ne_nil_of_mem hkey)⟩
  · intro hw
    refine ⟨by simp, pairwise_map.mpr hp.increasing, ?_⟩
    rw [hzip]
    cases proof with
    | none => exact verifyAll_sound ht hforge hempty hp hkeys hok
    | some db =>
      exact verifyPairs_sound ht hlen hf hfuel hempty hforge (hproof db rfl) hl hp hkeys
        (forall_mem_map.mp (hw (by simp))) hok

end Verifier

/-! ## a pair outside of the range -/

/-- The proof for the edge key `0x20`: the root and one leaf. -/
def edgeDb : ProofDb := fun h =>
  if h = edgeHash 3 then some edgeRootEnc else if h = edgeHash 2 then some (edgeLeafEnc 2) else none

theorem emptyRootUnforgeable_edge : @EmptyRootUnforgeable Keccak.edge := by
  intro b hb
  have hempty : edgeDigest [0x80] = emptyRootHash := by decide +kernel
  exact edgeDigest_inj (by simp [edgeTable]) (hb.trans hempty.symm)

theorem contentAddressed_edgeDb : @ContentAddressed Keccak.edge edgeDb := by
  intro h b hb
  unfold edgeDb at hb
  split at hb
  · next heq =>
    rw [heq, ← some.inj hb]
    decide +kernel
  · split at hb
    · next heq =>
      rw [heq, ← some.inj hb]
      decide +kernel
    · cases hb

/-- The trie has the two entries only. -/
theorem eq_edgeKey {key : Slice} (h : ofTree edgeTree key ≠ none) :
    key = edgeKey 0x10 ∨ key = edgeKey 0x20 := by
  by_contra hne
  obtain ⟨h1, h2⟩ := not_or.mp hne
  rw [ofTree_edgeTree] at h
  exact h ((update_of_ne h2 _ _).trans (update_of_ne h1 _ _))

theorem keyLength_edgeTree : KeyLength 1 edgeTree := by
  intro key hget
  rcases eq_edgeKey hget with rfl | rfl <;> rfl

/-- A result that is read off by evaluation. -/
theorem eq_ok_of_toOption {ε α : Type} {r : Except ε α} {a : α} (h : r.toOption = some a) :
    r = .ok a := by
  cases r with
  | error e => cases h
  | ok b => rw [some.inj h]

/-- The entry `0x20` is the range from `0x20` to `0x2f`. -/
theorem verifyRangeProof_sound_edge :
    letI := Keccak.edge
    Proof.verifyRangeProof 4 (rootHash edgeTree) [0x20] [0x2f] [edgeKey 0x20] [edgeValue 2]
        (some edgeDb) = .ok false ∧
      RangeEntries edgeTree (Covers [0x20] [0x2f] [edgeKey 0x20] (some edgeDb)) [edgeKey 0x20]
        [edgeValue 2] := by
  let _ := Keccak.edge
  have hok : Proof.verifyRangeProof 4 (rootHash edgeTree) [0x20] [0x2f] [edgeKey 0x20] [edgeValue 2]
      (some edgeDb) = .ok false := eq_ok_of_toOption (by decide +kernel)
  refine ⟨hok, (verifyRangeProof_sound valid_edgeTree keyLength_edgeTree unforgeable_edgeTree
    emptyRootUnforgeable_edge rfl rfl (by simp [edgeKey]) ?_ (by decide) hok).mpr fun _ => ?_⟩
  · intro db hdb
    cases hdb
    exact contentAddressed_edgeDb
  · decide

/-- **A pair that is not in the trie is accepted.**  The key `0x15` is before the
range from `0x20` to `0x2f`.  Its way ends at the unresolved node of `0x10`, so that
inserting it fails; the failure is ignored and the root hash is right. -/
theorem verifyRangeProof_accepts_outside :
    letI := Keccak.edge
    Valid edgeTree ∧ KeyLength 1 edgeTree ∧ Unforgeable edgeTree ∧ EmptyRootUnforgeable ∧
      ContentAddressed edgeDb ∧
      Proof.verifyRangeProof 4 (rootHash edgeTree) [0x20] [0x2f] [edgeKey 0x15, edgeKey 0x20]
        [edgeValue 7, edgeValue 2] (some edgeDb) = .ok false ∧
      Content.ofTree edgeTree (edgeKey 0x15) = none ∧
      ¬ RangeEntries edgeTree (Covers [0x20] [0x2f] [edgeKey 0x15, edgeKey 0x20] (some edgeDb))
        [edgeKey 0x15, edgeKey 0x20] [edgeValue 7, edgeValue 2] := by
  have hnone : Content.ofTree edgeTree (edgeKey 0x15) = none := by decide
  refine ⟨valid_edgeTree, keyLength_edgeTree, unforgeable_edgeTree, emptyRootUnforgeable_edge,
    contentAddressed_edgeDb, eq_ok_of_toOption (by decide +kernel), hnone, fun h => ?_⟩
  have := ((h.entries (edgeKey 0x15) (edgeValue 7)).mp mem_cons_self).1
  cases this

end GoQrl.Mpt
