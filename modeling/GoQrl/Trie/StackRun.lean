import GoQrl.Lib.RadixPrune
import GoQrl.Trie.StackInsert

/-!
# GoQrl.Trie.StackRun

Whole runs of a stack trie.  `StackInv` ties the stack trie to the tree of the
pairs it was given and its write calls to the hashed nodes of that tree.  For
keys in increasing order, none a prefix of another, the invariant survives every
update, and the final commit agrees with the trie that is given the same pairs
(`stackTrie_refines`).
-/

namespace GoQrl.Mpt

open Rlp Radix Mpt.Tree Option Content
open List hiding nil get insert

/-! ## the order of keys -/

/-- A smaller byte has a smaller digit first. -/
theorem diverges_nibbles {a b : UInt8} (h : a < b) (r r' : Hex) :
    Diverges (nibbles a ++ r) (nibbles b ++ r') := by
  have hlt : a.toNat < b.toNat := UInt8.lt_iff_toNat_lt.mp h
  simp only [nibbles, cons_append, nil_append, diverges_cons, Fin.mk.injEq, Fin.mk_lt_mk]
  omega

/-- In increasing order and without prefixes, the hex keys diverge upwards. -/
theorem diverges_of_lt {x y : Bytes} (h : x < y) (hp : ¬ x <+: y) :
    Diverges (keybytesToHex x) (y.flatMap nibbles) := by
  induction x generalizing y with
  | nil => exact absurd nil_prefix hp
  | cons a x ih =>
    cases y with
    | nil => exact absurd h (not_lt_nil _)
    | cons b y =>
      have hkey : keybytesToHex (a :: x) = nibbles a ++ keybytesToHex x := by
        simp [keybytesToHex]
      rw [hkey]
      rcases cons_lt_cons_iff.mp h with hab | ⟨rfl, hlt⟩
      · exact diverges_nibbles hab _ _
      · exact diverges_append.mpr (ih hlt fun h' => hp (cons_prefix_cons.mpr ⟨rfl, h'⟩))

/-! ## the store of a tree and its writes -/

section Runs

variable [Keccak] {owner : Hash}

/-- The writes of a tree are its large nodes. -/
theorem writesOf_iff {t : Tree} (ht : t.Part term) {p : Hex} {x : NodeWrite} :
    WritesOf owner p t x ↔ ∃ q u, locate t q = some u ∧ isNode u ∧ 32 ≤ (enc u).length ∧
      x = writeOf owner (p ++ q) u := by
  induction t generalizing p with
  | nil | value =>
    refine iff_of_false id ?_
    rintro ⟨q, u, hu, hn, -⟩
    cases q with
    | nil => cases hu; cases hn
    | cons a q => cases hu
  | short k c ih =>
    rw [WritesOf, ih ht.child_short]
    constructor
    · rintro (⟨hl, rfl⟩ | ⟨q, u, hu, hrest⟩)
      · exact ⟨[], _, rfl, rfl, hl, by rw [append_nil]⟩
      · exact ⟨k ++ q,
          u, by rw [locate_short_append ht.wf_short.label_ne_nil, hu], by rwa [← append_assoc]⟩
    · rintro ⟨q, u, hu, hn, hl, rfl⟩
      rcases locate_short_eq_some hu with ⟨rfl, rfl⟩ | ⟨q, rfl, hu'⟩
      · exact .inl ⟨hl, by rw [append_nil]⟩
      · exact .inr ⟨q, u, hu', hn, hl, by rw [append_assoc]⟩
  | full cs ih =>
    simp only [WritesOf, ih _ (ht.child_full _)]
    constructor
    · rintro (⟨hl, rfl⟩ | ⟨i, q, u, hu, hn, hl, rfl⟩)
      · exact ⟨[], _, rfl, rfl, hl, by rw [append_nil]⟩
      · exact ⟨i :: q, u, hu, hn, hl, by rw [← append_cons]⟩
    · rintro ⟨q, u, hu, hn, hl, rfl⟩
      cases q with
      | nil =>
        obtain rfl := some.inj hu
        exact .inl ⟨hl, by rw [append_nil]⟩
      | cons i q => exact .inr ⟨i, q, u, hu, hn, hl, by rw [← append_cons]⟩

/-- The writes of a whole store: its nodes with their hashes. -/
def StoreWrites (owner : Hash) (t : Tree) (x : NodeWrite) : Prop :=
  x.owner = owner ∧ store t x.path = some x.blob ∧ x.hash = Keccak.hash x.blob

/-- The writes of a tree, and the write of its root if that is small, are those
of its store. -/
theorem storeWrites_iff {t : Tree} (ht : t.Part term) (hn : isNode t) {x : NodeWrite} :
    StoreWrites owner t x ↔ WritesOf owner [] t x ∨ x = writeOf owner [] t := by
  rw [writesOf_iff ht]
  constructor
  · rintro ⟨rfl, hstore, hhash⟩
    obtain ⟨u, hu, hst, hb⟩ := store_eq_some.mp hstore
    have hx : x = writeOf x.owner x.path u := by
      obtain ⟨xo, xp, xh, xb⟩ := x
      cases hb
      exact congrArg (NodeWrite.mk xo xp · (enc u)) hhash
    rcases hst.2 with hp | hl
    · rw [hp, locate_nil] at hu
      obtain rfl := some.inj hu
      rw [hp] at hx
      exact .inr hx
    · exact .inl ⟨x.path, u, hu, hst.1, hl, hx⟩
  · rintro (⟨q, u, hu, hn, hl, rfl⟩ | rfl)
    · exact ⟨rfl, store_of_locate hu ⟨hn, .inr hl⟩, rfl⟩
    · exact ⟨rfl, store_of_locate (locate_nil t) ⟨hn, .inl rfl⟩, rfl⟩

/-! ## the run -/

/-- The root of the stack trie stands for the tree. -/
def StackRoot (st : StackNode) (t : Tree) : Prop :=
  (st = .empty ∧ t = .nil) ∨ (StackRep st t ∧ Open st ∧ st.isNil = false)

/-- The invariant of a run: the stack trie holds the tree, and has written its
hashed nodes once each. -/
structure StackInv (st : StackTrie) (t : Tree) : Prop where
  root : StackRoot st.root t
  valid : Valid t
  writes : ∀ x, x ∈ st.writes ↔ Emitted st.owner [] st.root t x
  nodup : (st.writes.map NodeWrite.path).Nodup

theorem stackInv_new (owner : Hash) : StackInv (.new owner) .nil :=
  ⟨.inl ⟨rfl, rfl⟩, valid_nil,
    fun _ => iff_of_false (by simp [StackTrie.new]) id, by simp [StackTrie.new]⟩

variable {st : StackTrie} {t : Tree}

/-- The writes of a step are added to those of the run. -/
theorem StackInv.wrote (h : StackInv st t) {root : StackNode} {t' : Tree} {w : List NodeWrite}
    (hw : Wrote st.owner [] st.root t root t' w) :
    (∀ x, x ∈ st.writes ++ w ↔ Emitted st.owner [] root t' x) ∧
      ((st.writes ++ w).map NodeWrite.path).Nodup := by
  constructor
  · intro x
    rw [mem_append, h.writes, hw.all]
  · rw [map_append, nodup_append]
    refine ⟨h.nodup, hw.nodup, forall_mem_map.mpr fun x hx => forall_mem_map.mpr fun y hy hab => ?_⟩
    exact hw.fresh y hy x ((h.writes x).mp hx) hab.symm

/-- One update with a key above all others. -/
theorem StackInv.update (h : StackInv st t) (key value : Slice) (hv : value.bytes ≠ [])
    (habove : Above t (key.bytes.flatMap nibbles)) :
    ∃ st', st.update key.bytes value.bytes = .ok st' ∧ st'.owner = st.owner ∧
      StackInv st' (t.insert value.bytes (keybytesToHex key.bytes)) := by
  have hvalid := h.valid.insert key ⟨hv, value.fits⟩
  have hdrop : (keybytesToHex key.bytes).dropLast = key.bytes.flatMap nibbles := by
    simp [keybytesToHex]
  have hins : StackInserts st.owner [] st.root t (t.insert value.bytes (keybytesToHex key.bytes))
      (StackNode.insert st.owner st.root (key.bytes.flatMap nibbles) value.bytes []) := by
    rcases h.root with ⟨hroot, rfl⟩ | ⟨hrep, hopen, -⟩
    · rw [hroot]
      have hleaf : (Radix.Tree.nil : Tree).insert value.bytes (keybytesToHex key.bytes) =
          .short (key.bytes.flatMap nibbles ++ [term]) (.value value.bytes) := chain_concat _ _
      rw [hleaf]
      exact ⟨_, [], rfl, .leaf _ _, trivial, rfl, .none fun _ => Iff.rfl⟩
    · exact stackInsert_spec hrep hopen h.valid.canon
        (term_not_mem_flatMap _) habove hvalid.fit.sized
  obtain ⟨root, w, hexec, hrep, hopen, hnil, hw⟩ := hins
  refine ⟨{ st with root := root, writes := st.writes ++ w }, ?_, rfl, ?_⟩
  · rw [StackTrie.update, if_neg (by simpa using hv), hdrop, hexec]
  · obtain ⟨h1, h2⟩ := h.wrote hw
    exact ⟨.inr ⟨hrep, hopen, hnil⟩, hvalid, h1, h2⟩

/-- A list of pairs as the stack trie expects it. -/
structure Ordered (pairs : List (Slice × Slice)) : Prop where
  increasing : pairs.Pairwise fun x y => x.1.bytes < y.1.bytes
  prefixFree : ∀ x ∈ pairs, ∀ y ∈ pairs, x.1.bytes <+: y.1.bytes → x.1 = y.1
  values : ∀ x ∈ pairs, x.2.bytes ≠ []

/-- The updates of a trie with the same pairs. -/
def updates (pairs : List (Slice × Slice)) : List Op := pairs.map fun x => .update x.1 x.2

/-- **A run of updates** with ordered pairs. -/
theorem StackInv.updateAll (h : StackInv st t) {pairs : List (Slice × Slice)} (hp : Ordered pairs)
    (habove : ∀ x ∈ pairs, Above t (x.1.bytes.flatMap nibbles)) :
    ∃ st', st.updateAll pairs = .ok st' ∧ st'.owner = st.owner ∧
      StackInv st' (t.insertAll (hexPairs pairs)) ∧
      ofTree (t.insertAll (hexPairs pairs)) = (ofTree t).applyAll (updates pairs) := by
  induction pairs generalizing st t with
  | nil => exact ⟨st, rfl, rfl, h, rfl⟩
  | cons x pairs ih =>
    obtain ⟨hx, hrest⟩ := pairwise_cons.mp hp.increasing
    have hv := hp.values x mem_cons_self
    obtain ⟨st1, hexec, howner, hinv⟩ := h.update x.1 x.2 hv (habove x mem_cons_self)
    have hp' : Ordered pairs :=
      ⟨hrest, fun y hy z hz => hp.prefixFree y (mem_cons_of_mem _ hy) z (mem_cons_of_mem _ hz),
        fun y hy => hp.values y (mem_cons_of_mem _ hy)⟩
    have habove' : ∀ y ∈ pairs, Above (t.insert x.2.bytes (keybytesToHex x.1.bytes))
        (y.1.bytes.flatMap nibbles) := by
      intro y hy key hkey hget
      rw [Tree.get_insert h.valid.canon.wf _ (terminated_keybytesToHex _) hkey] at hget
      split at hget
      · next heq =>
        rw [heq]
        refine diverges_of_lt (hx y hy) fun hpre => ?_
        exact List.lt_irrefl
          _ (hp.prefixFree x mem_cons_self y (mem_cons_of_mem _ hy) hpre ▸ hx y hy)
      · exact habove y (mem_cons_of_mem _ hy) key hkey hget
    obtain ⟨st2, hrun, howner2, hinv2, hcontent⟩ := ih hinv hp' habove'
    refine ⟨st2, ?_, howner2.trans howner, hinv2, ?_⟩
    · rwa [StackTrie.updateAll, hexec]
    · refine hcontent.trans ?_
      rw [ofTree_insert h.valid]
      simp [updates, applyAll, apply, hv]

/-- **The commit** of a stack trie returns the root hash, and then the store of
the tree is written, every node once. -/
theorem StackInv.commit (h : StackInv st t) :
    ∃ st', st.commit = .ok (rootHash t, st') ∧
      (∀ x, x ∈ st'.writes ↔ StoreWrites st.owner t x) ∧ (st'.writes.map NodeWrite.path).Nodup := by
  rcases h.root with ⟨hroot, rfl⟩ | ⟨hrep, -, hnil⟩
  · refine ⟨{ st with root := .hashed emptyRootHash.bytes }, ?_, fun x => ?_, h.nodup⟩
    · rw [StackTrie.commit, hroot]
      simp [StackNode.hashRec, rootHash]
    · rw [h.writes, hroot]
      refine iff_of_false id ?_
      rintro ⟨-, hstore, -⟩
      simp [store_nil] at hstore
  · have hn := hrep.isNode hnil
    have hpart := h.valid.fit.sized.part
    have h0 : t ≠ .nil := by
      rintro rfl
      cases hn
    obtain ⟨w, hexec, hw⟩ : Hashes st.owner [] st.root t _ :=
      hashRec_spec hrep h.valid.fit.sized hnil
    obtain ⟨hall, hnodup⟩ := h.wrote hw
    rw [rootHash_of_ne h0, StackTrie.commit, hexec]
    simp only
    by_cases hl : 32 ≤ (enc t).length
    · have hval : hashedVal t = (digest t).bytes := if_pos hl
      have hlen : (hashedVal t).length = 32 := by rw [hval, Hash.length_bytes]
      have hdigest : (⟨hashedVal t, hlen⟩ : Hash) = digest t := Hash.ext hval
      rw [dif_pos hlen, hdigest]
      refine ⟨_, rfl, fun x => ?_, hnodup⟩
      rw [storeWrites_iff hpart hn, hall]
      refine (or_iff_left_of_imp ?_).symm
      rintro rfl
      exact (writesOf_iff hpart).mpr ⟨[], t, locate_nil t, hn, hl, rfl⟩
    · have hval : hashedVal t = enc t := if_neg hl
      rw [dif_neg (by rw [hval]; omega), hval]
      refine ⟨_, rfl, fun x => ?_, ?_⟩
      · rw [storeWrites_iff hpart hn, mem_append, hall, mem_singleton]
        rfl
      · rw [map_append, nodup_append]
        refine ⟨hnodup, by simp, forall_mem_map.mpr fun x hx b hb hab => ?_⟩
        obtain ⟨q, u, hu, -, hlu, rfl⟩ := (writesOf_iff hpart).mp ((hall x).mp hx)
        have hq : q = [] := by simpa [writeOf] using hab.trans (mem_singleton.mp hb)
        rw [hq, locate_nil] at hu
        obtain rfl := some.inj hu
        exact hl hlu

/-- **The stack trie refines the trie.**  For ordered pairs, updating a stack
trie and committing it gives the root hash that an empty trie has after the same
updates, and the calls of the write function are exactly the entries of the node
set which that trie commits, with no path written twice. -/
theorem stackTrie_refines {db : Hash → Option Reader} {id : ID} (hdb : Opens db id .nil)
    (owner : Hash) {pairs : List (Slice × Slice)} (hp : Ordered pairs) (collectLeaf : Bool) :
    ∃ st hash st' tr tr' set, (StackTrie.new owner).updateAll pairs = .ok st ∧
      st.commit = .ok (hash, st') ∧ Trie.new id db = .ok tr ∧ tr.run (updates pairs) = .ok tr' ∧
      tr'.hash.1 = .ok hash ∧ (tr'.commit collectLeaf).1 = .ok (hash, set) ∧
      (∀ x, x ∈ st'.writes ↔ x.owner = owner ∧ entry set x.path = some ⟨x.hash, x.blob⟩) ∧
      (st'.writes.map NodeWrite.path).Nodup := by
  obtain ⟨st, hrun, howner, hinv, hcontent⟩ := (stackInv_new owner).updateAll hp
    fun _ _ _ _ hget => absurd rfl hget
  generalize Tree.insertAll .nil (hexPairs pairs) = t at hinv hcontent
  obtain ⟨st', hcommit, hwrites, hnodup⟩ := hinv.commit
  obtain ⟨tr, hnew, htr⟩ := new_spec hdb
  obtain ⟨tr', u, hrun', htr', hcontent'⟩ := run_spec htr (updates pairs)
  obtain rfl : u = t := htr'.valid.ext hinv.valid fun k => by
    exact congrFun (hcontent'.trans hcontent.symm) k
  obtain ⟨set, tr'', hcommit', hset⟩ := htr'.commit_scratch collectLeaf
  refine ⟨st, rootHash u, st', tr, tr', set, hrun, hcommit, hnew, hrun', htr'.hash.1,
    by rw [hcommit'], fun x => ?_, hnodup⟩
  rw [hwrites, howner, hset, map_eq_some_iff]
  refine and_congr_right fun _ => ?_
  grind

end Runs

/-- Two pairs in order. -/
def samplePairs : List (Slice × Slice) :=
  [(sampleKey, sampleValue), (⟨[0x63], by decide⟩, sampleValue)]

theorem ordered_samplePairs : Ordered samplePairs :=
  ⟨by decide, by decide, by decide⟩

/-- The two pairs give one root and one set of nodes. -/
theorem stackTrie_refines_sample :
    letI := Keccak.sample
    Ordered samplePairs ∧ ∃ st hash st' tr tr' set,
      (StackTrie.new Hash.zero).updateAll samplePairs = .ok st ∧ st.commit = .ok (hash, st') ∧
      Trie.new ⟨Hash.zero, Hash.zero, emptyRootHash⟩ (fun _ => none) = .ok tr ∧
      tr.run (updates samplePairs) = .ok tr' ∧ tr'.hash.1 = .ok hash ∧
      (tr'.commit false).1 = .ok (hash, set) ∧
      ∀ x, x ∈ st'.writes ↔ x.owner = Hash.zero ∧ entry set x.path = some ⟨x.hash, x.blob⟩ := by
  let _ := Keccak.sample
  obtain ⟨st, hash, st', tr, tr', set, hrun, hcommit, hnew, hrun', hhash, hcommit', hwrites, -⟩ :=
    stackTrie_refines opens_empty Hash.zero ordered_samplePairs false
  exact ⟨ordered_samplePairs, st, hash, st', tr, tr', set, hrun, hcommit, hnew, hrun', hhash,
    hcommit', hwrites⟩

end GoQrl.Mpt
