import GoQrl.Trie.Run

/-!
# GoQrl.Trie.Canonical

The node structure of a trie is a function of its content.

`Resolves` unfolds a node structure completely, loading every hash node through
the reader.  Two runs on two tries, started on any two stored trees, that end in
the same content end in the same unfolded structure and in the same root hash
(`run_canonical`).
-/

namespace GoQrl.Mpt

open Radix Mpt.Tree Content

/-- The node structure at path `p`, with every hash resolved through the
reader, is the tree. -/
inductive Resolves (r : TrieReader) : Hex → Node → Tree → Prop
  | nil (p : Hex) : Resolves r p .nil .nil
  | value (p : Hex) (v : Bytes) : Resolves r p (.value v) (.value v)
  | short {p k : Hex} {n : Node} {c : Tree} (flags : NodeFlag) (hc : Resolves r (p ++ k) n c) :
      Resolves r p (.short k n flags) (.short k c)
  | full {p : Hex} {ns : Nibble → Node} {cs : Nibble → Tree} (flags : NodeFlag)
      (hc : ∀ i, Resolves r (p ++ [i]) (ns i) (cs i)) : Resolves r p (.full ns flags) (.full cs)
  | hash {p : Hex} {h : Hash} {blob : Bytes} {n : Node} {t : Tree} (hread : r.node p h = .ok blob)
      (hdec : decodeNode (some h) blob = .ok n) (hn : Resolves r p n t) : Resolves r p (.hash h) t

/-- A structure resolves to at most one tree. -/
theorem Resolves.unique {r : TrieReader} {p : Hex} {n : Node} {t t' : Tree} (h : Resolves r p n t)
    (h' : Resolves r p n t') : t = t' := by
  induction h generalizing t' with
  | nil | value => cases h'; rfl
  | short flags hc ih =>
    cases h' with
    | short _ hc' => rw [ih hc']
  | full flags hc ih =>
    cases h' with
    | full _ hc' => exact congrArg _ (funext fun i => ih i (hc' i))
  | hash hread hdec hn ih =>
    cases h' with
    | hash hread' hdec' hn' =>
      rw [hread] at hread'
      cases hread'
      rw [hdec] at hdec'
      cases hdec'
      exact ih hn'

section Canonicity

variable [Keccak]

/-- A decoded node of the original tree resolves to its subtree. -/
theorem resolves_expand {o t : Tree} (ho : Fit o) {r : TrieReader} (hr : Serves r o) {p : Hex}
    (hloc : locate o p = some t) (h : Option Hash) : Resolves r p (expand h t) t := by
  have ht := Part.locate ho.sized.part hloc
  have hstored : ∀ {q : Hex} {c : Tree}, locate o q = some c → q ≠ [] →
      (∀ h, Resolves r q (expand h c) c) → Resolves r q (refNode c (expand none c)) c := by
    intro q c hc hq hres
    unfold refNode
    split
    · next hl =>
      exact .hash (hr q c hc ⟨hl.1, .inr hl.2⟩) (decodeNode_enc (ho.locate hc hl.1) hl.1 _) (hres _)
    · exact hres none
  induction t generalizing p h with
  | nil => exact .nil p
  | value v => exact .value p v
  | short k c ih =>
    have hk := ht.wf_short.label_ne_nil
    have hchild := locate_child_short ho.sized.part hk hloc
    exact .short _ (hstored hchild (by simp [hk]) fun h => ih hchild h ht.child_short)
  | full cs ih =>
    refine .full _ fun i => ?_
    have hchild := locate_child_full ho.sized.part hloc i
    exact hstored hchild (by simp) fun h => ih i hchild h (ht.child_full i)

/-- What a structure represents is what it resolves to. -/
theorem Rep.resolves {o t : Tree} (ho : Fit o) {r : TrieReader} (hr : Serves r o) {p : Hex}
    {n : Node} (h : Rep o p n t) : Resolves r p n t := by
  induction h with
  | nil p => exact .nil p
  | value p v => exact .value p v
  | short _ _ _ ih => exact .short _ ih
  | full _ _ _ ih => exact .full _ ih
  | @hash p t hp hs hloc =>
    exact .hash (hr p t hloc hs) (decodeNode_enc (ho.locate hloc hs.1) hs.1 _)
      (resolves_expand ho hr hloc _)

/-- **Canonicity.**  Open two tries on stored trees and run any calls on them.
No call fails and a lookup returns what the abstract map holds; and if the two
runs end with the same content, then both structures resolve to one and the
same tree and have the same root hash. -/
theorem run_canonical {db₁ db₂ : Hash → Option Reader} {id₁ id₂ : ID} {o₁ o₂ : Tree}
    (h₁ : Opens db₁ id₁ o₁) (h₂ : Opens db₂ id₂ o₂) (ops₁ ops₂ : List Op) :
    ∃ tr₁ tr₂ tr₁' tr₂', Trie.new id₁ db₁ = .ok tr₁ ∧ Trie.new id₂ db₂ = .ok tr₂ ∧
      tr₁.run ops₁ = .ok tr₁' ∧ tr₂.run ops₂ = .ok tr₂' ∧
      (∀ k : Slice, (tr₁'.get k.bytes).1 = .ok ((Content.ofTree o₁).applyAll ops₁ k)) ∧
      ((Content.ofTree o₁).applyAll ops₁ = (Content.ofTree o₂).applyAll ops₂ →
        ∃ t, (∀ u, Resolves tr₁'.reader [] tr₁'.root u ↔ u = t) ∧
          (∀ u, Resolves tr₂'.reader [] tr₂'.root u ↔ u = t) ∧
          tr₁'.hash.1 = .ok (rootHash t) ∧ tr₂'.hash.1 = .ok (rootHash t)) := by
  obtain ⟨tr₁, hnew₁, hinv₁⟩ := new_spec h₁
  obtain ⟨tr₂, hnew₂, hinv₂⟩ := new_spec h₂
  obtain ⟨tr₁', t₁, hrun₁, hinv₁', hc₁⟩ := run_spec hinv₁ ops₁
  obtain ⟨tr₂', t₂, hrun₂, hinv₂', hc₂⟩ := run_spec hinv₂ ops₂
  refine ⟨tr₁, tr₂, tr₁', tr₂', hnew₁, hnew₂, hrun₁, hrun₂, fun k => ?_, fun hsame => ?_⟩
  · rw [(hinv₁'.get k).1, hc₁]
  · have htree : t₁ = t₂ := by
      have hcontent : Content.ofTree t₁ = Content.ofTree t₂ := by rw [hc₁, hsame, ← hc₂]
      exact hinv₁'.valid.ext hinv₂'.valid fun k => congrFun hcontent k
    subst htree
    have hres₁ := hinv₁'.rep.resolves hinv₁'.origin.fit hinv₁'.serves
    have hres₂ := hinv₂'.rep.resolves hinv₂'.origin.fit hinv₂'.serves
    exact ⟨t₁, fun u => ⟨fun h => h.unique hres₁, fun h => h ▸ hres₁⟩,
      fun u => ⟨fun h => h.unique hres₂, fun h => h ▸ hres₂⟩, hinv₁'.hash.1, hinv₂'.hash.1⟩

end Canonicity

/-- The key and the value of a one-entry trie. -/
def sampleKey : Slice := ⟨[0x61], by decide⟩
def sampleValue : Slice := ⟨[0x62], by decide⟩

/-- The one-entry trie. -/
def sampleTree : Tree := .short (keybytesToHex [0x61]) (.value [0x62])

theorem valid_sampleTree : Valid sampleTree :=
  valid_nil.insert sampleKey ⟨by decide, by decide⟩

theorem ofTree_sampleTree :
    ofTree sampleTree = Function.update (ofTree .nil) sampleKey (some sampleValue.bytes) :=
  ofTree_insert valid_nil sampleKey sampleValue.bytes

theorem eq_sampleKey {key : Slice} (h : ofTree sampleTree key ≠ none) : key = sampleKey := by
  by_contra hne
  rw [ofTree_sampleTree, Function.update_of_ne hne] at h
  exact h rfl

/-- A reader that knows the only node of a leaf. -/
theorem serves_leaf [Keccak] {k : Hex} {v : Bytes} {owner : Hash} {r : Reader}
    (hr : ∀ p h, r owner p h = some (enc (.short k (.value v)))) :
    Serves ⟨owner, some r⟩ (.short k (.value v)) := by
  intro p u hu hst
  rcases locate_short_eq_some hu with ⟨rfl, rfl⟩ | ⟨q, -, hq⟩
  · have hne : enc (.short k (.value v)) ≠ [] :=
      List.ne_nil_of_length_pos (Nat.zero_lt_of_lt (Rlp.length_lt_encodeList _))
    simp [TrieReader.node, hr, hne]
  · cases q with
    | nil =>
      cases hq
      cases hst.1
    | cons a q => cases hq

/-- The empty trie needs no database. -/
theorem opens_empty [Keccak] :
    Opens (fun _ => none) ⟨Hash.zero, Hash.zero, emptyRootHash⟩ .nil := by
  refine ⟨valid_nil, ⟨⟨Hash.zero, none⟩, rfl, fun p u hu hst => ?_⟩, .inl rfl,
    fun h => absurd rfl h⟩
  cases p with
  | nil => cases hu; cases hst.1
  | cons a p => cases hu

/-- A database that holds the one-entry trie. -/
theorem opens_sampleTree :
    letI := Keccak.sample
    Opens (fun _ => some fun _ _ _ => some (enc sampleTree))
      ⟨digest sampleTree, Hash.zero, digest sampleTree⟩ sampleTree := by
  let _ := Keccak.sample
  have hne : digest sampleTree ≠ Hash.zero ∧ digest sampleTree ≠ emptyRootHash := by decide
  have hserves : Serves ⟨Hash.zero, some fun _ _ _ => some (enc sampleTree)⟩ sampleTree :=
    serves_leaf fun _ _ => rfl
  refine ⟨valid_sampleTree, ⟨_, ?_, hserves⟩, .inl rfl, fun _ => hne⟩
  rw [newTrieReader, if_neg (by simpa using hne)]

/-- A second key, which makes a branch. -/
def siblingKey : Slice := ⟨[0x71], by decide⟩

/-- A trie that wrote two entries and one that was reopened on the first and wrote the
second have the same hash. -/
theorem run_canonical_sample :
    letI := Keccak.sample
    ∃ tr₁ tr₂ tr₁' tr₂' t,
      Trie.new ⟨Hash.zero, Hash.zero, emptyRootHash⟩ (fun _ => none) = .ok tr₁ ∧
      Trie.new ⟨digest sampleTree, Hash.zero, digest sampleTree⟩
        (fun _ => some fun _ _ _ => some (enc sampleTree)) = .ok tr₂ ∧
      tr₁.run [.update siblingKey sampleKey, .update sampleKey sampleValue] = .ok tr₁' ∧
      tr₂.run [.get sampleKey, .update siblingKey sampleValue, .hash,
        .update siblingKey sampleKey] = .ok tr₂' ∧
      (tr₁'.get [0x61]).1 = .ok (some [0x62]) ∧ (tr₁'.get [0x71]).1 = .ok (some [0x61]) ∧
      tr₁'.hash.1 = .ok (rootHash t) ∧ tr₂'.hash.1 = .ok (rootHash t) := by
  let _ := Keccak.sample
  obtain ⟨tr₁, tr₂, tr₁', tr₂', hnew₁, hnew₂, hrun₁, hrun₂, hget, hsame⟩ :=
    run_canonical opens_empty opens_sampleTree
      [.update siblingKey sampleKey, .update sampleKey sampleValue]
      [.get sampleKey, .update siblingKey sampleValue, .hash, .update siblingKey sampleKey]
  have hcontent : (Content.ofTree .nil).applyAll
        [.update siblingKey sampleKey, .update sampleKey sampleValue] =
      (Content.ofTree sampleTree).applyAll
        [.get sampleKey, .update siblingKey sampleValue, .hash, .update siblingKey sampleKey] := by
    rw [ofTree_sampleTree]
    refine (Function.update_comm (by decide) _ _ _).trans ?_
    exact (Function.update_idem _ _ _).symm
  obtain ⟨t, -, -, hh₁, hh₂⟩ := hsame hcontent
  exact ⟨tr₁, tr₂, tr₁', tr₂', t, hnew₁, hnew₂, hrun₁, hrun₂, hget sampleKey, hget siblingKey,
    hh₁, hh₂⟩

end GoQrl.Mpt
