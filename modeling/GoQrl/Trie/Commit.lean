import GoQrl.Trie.Canonical
import GoQrl.Trie.Committer

/-!
# GoQrl.Trie.Commit

Committing is an exact difference of path-keyed stores.

`Settled` lists what the committer can leave at one path: the new node, a
deletion marker for a node that is embedded now, or the entry that was there
before, and then why that is right.  With the tracer's account of the node
paths this gives `commit_exact`: applied to the store of the original tree, the
node set gives the store of the new one.
-/

namespace GoQrl.Mpt

open Radix Mpt.Tree Function Option
open List hiding nil get insert

section Commit

variable {o t : Tree} {access : Hex → Option Bytes} {collectLeaf : Bool} {path p : Hex}
    {n val : Node}
  {set set' : NodeSet} {flags : NodeFlag} {ns : Nibble → Node}

theorem commit_short {key : Hex} (h : flags.hash = none ∨ flags.dirty = true) :
    Committer.commit access collectLeaf path (.short key val flags) set =
      match val with
      | .full children cflags =>
        match Committer.commit access collectLeaf (path ++ key) (.full children cflags) set with
        | .error e => .error e
        | .ok (kid, set) => .ok (Committer.store access collectLeaf path
            (.short (hexToCompact key) kid) flags.hash set)
      | val => .ok (Committer.store access collectLeaf path
        (.short (hexToCompact key) val.asIs) flags.hash set) := by
  obtain ⟨hash, dirty⟩ := flags
  cases hash <;> cases dirty <;> first | (cases val <;> rfl) | simp at h

theorem commit_full (h : flags.hash = none ∨ flags.dirty = true) :
    Committer.commit access collectLeaf path (.full ns flags) set =
      match Committer.commitChildren ns
          (fun i set => Committer.commit access collectLeaf (path ++ [i]) (ns i) set)
          ((finRange 16).map Fin.castSucc) (fun _ => .nil) set with
      | .error e => .error e
      | .ok (kids, set) => .ok (Committer.store access collectLeaf path
          (.full (if (ns term).isNil then kids else update kids term (ns term).asIs))
          flags.hash set) := by
  obtain ⟨hash, dirty⟩ := flags
  cases hash <;> cases dirty <;> first | (simp only [Committer.commit] <;> rfl) | simp at h

theorem commit_clean_or (flags : NodeFlag) :
    (∃ h, flags.hash = some h ∧ flags.dirty = false) ∨
    (flags.hash = none ∨ flags.dirty = true) := by
  obtain ⟨hash, dirty⟩ := flags
  cases hash <;> cases dirty <;> simp

theorem not_prefix_digit {i j : Nibble} (hij : i ≠ j) (q : Hex) :
    ¬ path ++ [i] <+: path ++ [j] ++ q := by
  simpa using hij

theorem mem_deletedNodes {s : Tracer} :
    p ∈ s.deletedNodes ↔ p ∈ s.deletes ∧ s.accessList p ≠ none := by
  simp [Tracer.deletedNodes, isSome_iff_ne_none]

variable [Keccak]

/-! ## one path -/

/-- The entry of the node set at path `p`, where the new tree has `u`, the entry
was `old` before, and `hidden` says that `p` is below a hash node. -/
inductive Settled (o : Tree) (access : Hex → Option Bytes) (p : Hex) (u : Option Tree)
    (hidden : Prop) (old : Option TrieNode) : Option TrieNode → Prop
  | stored (t : Tree) (hu : u = some t) (hs : Standalone p t) :
      Settled o access p u hidden old (some ⟨digest t, enc t⟩)
  | dropped (hs : ∀ t, u = some t → ¬ Standalone p t) (ha : access p ≠ none) :
      Settled o access p u hidden old (some .deleted)
  | same (ho : locate o p = u) : Settled o access p u hidden old old
  | embedded (t : Tree) (hu : u = some t) (hn : isNode t) (hs : ¬ Standalone p t)
      (ha : access p = none) (hh : ¬ hidden) : Settled o access p u hidden old old
  | absent (hs : ∀ t, u = some t → isNode t = false) (hh : ¬ hidden) :
      Settled o access p u hidden old old

/-- What committing the node at `path` does to the node set. -/
structure Commits (o : Tree) (access : Hex → Option Bytes) (path : Hex) (n : Node) (t : Tree)
    (set : NodeSet) (c : Collapsed) (set' : NodeSet) : Prop where
  ref : RefOK path c t
  outside : ∀ p, ¬ path <+: p → set'.nodes p = set.nodes p
  below : ∀ q, Settled o access (path ++ q) (locate t q) (n.Unloaded path (path ++ q))
    (set.nodes (path ++ q)) (set'.nodes (path ++ q))

/-- A node of the original tree needs no entry. -/
theorem commits_clean (ho : o.Part term) (hloc : locate o path = some t) (hst : Standalone path t) :
    Commits o access path n t set (.hash (digest t)) set :=
  ⟨refOK_standalone hst, fun _ _ => rfl, fun q => .same (locate_append hloc ho q)⟩

/-- Storing a collapsed node below which everything is settled. -/
theorem commits_store {cc : Collapsed} (hn : isNode t)
    (hcc : cc.Small ∧ cc.bytes = enc t) (hhash : cc.asHash = none)
    (hf : FlagOK o path flags t) (hseal : Standalone path t → flags.hash ≠ none)
    (hhid : ¬ n.Unloaded path path) (hout : ∀ p, ¬ path <+: p → set'.nodes p = set.nodes p)
    (hself : set'.nodes path = set.nodes path)
    (hbelow : ∀ q, q ≠ [] → Settled o access (path ++ q) (locate t q)
      (n.Unloaded path (path ++ q)) (set.nodes (path ++ q)) (set'.nodes (path ++ q))) :
    Commits o access path n t set (Committer.store access collectLeaf path cc flags.hash set').1
      (Committer.store access collectLeaf path cc flags.hash set').2 := by
  have hne : ∀ {p}, ¬ path <+: p → p ≠ path := by
    rintro p hp rfl
    exact hp (prefix_refl _)
  cases hh : flags.hash with
  | none =>
    have hst : ¬ Standalone path t := fun h => hseal h hh
    refine ⟨refOK_embedded hst hcc.1 hcc.2 hhash, fun p hp => ?_, fun q => ?_⟩
    · rw [← hout p hp]
      simp only [Committer.store]
      split
      · simp [hne hp]
      · rfl
    · by_cases hq : q = []
      · subst hq
        simp only [Committer.store, append_nil, locate_nil]
        split
        · next ha =>
          simp only [NodeSet.addNode_nodes, update_self]
          refine .dropped (fun u hu => ?_) (isSome_iff_ne_none.mp ha)
          rwa [← some.inj hu]
        · next ha =>
          rw [hself]
          exact .embedded t rfl hn hst (by simpa using ha) hhid
      · have := hbelow q hq
        simp only [Committer.store]
        split
        · simpa [hq] using this
        · exact this
  | some h =>
    obtain ⟨rfl, hst⟩ := hf.hash h hh
    have hblob : cc.nodeToBytes = enc t := by rw [Collapsed.nodeToBytes_eq hcc.1, hcc.2]
    have hres : (Committer.store access collectLeaf path cc (some (digest t)) set').1 =
        .hash (digest t) ∧
        (Committer.store access collectLeaf path cc (some (digest t)) set').2.nodes =
          update set'.nodes path (some ⟨digest t, enc t⟩) := by
      simp only [Committer.store, hblob]
      split <;> simp
    refine ⟨hres.1 ▸ refOK_standalone hst, fun p hp => ?_, fun q => ?_⟩
    · rw [hres.2, update_of_ne (hne hp), hout p hp]
    · rw [hres.2]
      by_cases hq : q = []
      · subst hq
        simp only [append_nil, locate_nil, update_self]
        exact .stored t rfl hst
      · rw [update_of_ne (by simpa using hq)]
        exact hbelow q hq

/-- Nothing is stored below a value. -/
theorem settled_slot {u : Tree} (hu : u.IsSlot) {p q : Hex} {hidden : Prop} (hh : ¬ hidden)
    (old : Option TrieNode) : Settled o access p (locate u q) hidden old old := by
  refine .absent (fun t ht => ?_) hh
  rcases hu.cases with rfl | ⟨v, rfl⟩ <;>
  · cases q with
    | nil => cases ht; rfl
    | cons a q => cases ht

theorem unloaded_slot (h : Rep o p n t) (ht : t.IsSlot) (x : Hex) : ¬ n.Unloaded p x := by
  cases h with
  | nil | value => exact id
  | short | full => exact ht.elim
  | hash _ hs => rcases ht.cases with rfl | ⟨v, rfl⟩ <;> cases hs.1

/-! ## the committer -/

/-- What the loop over some of the children does. -/
structure CommitsChildren (o : Tree) (access : Hex → Option Bytes) (path : Hex) (ns : Nibble → Node)
    (cs : Nibble → Tree) (l : List Nibble) (kids : Nibble → Collapsed) (set : NodeSet)
    (kids' : Nibble → Collapsed) (set' : NodeSet) : Prop where
  kept : ∀ i, i ∉ l → kids' i = kids i
  refs : ∀ i ∈ l, RefOK (path ++ [i]) (kids' i) (cs i)
  outside : ∀ p, (∀ i ∈ l, ¬ path ++ [i] <+: p) → set'.nodes p = set.nodes p
  below : ∀ i ∈ l, ∀ q, Settled o access (path ++ [i] ++ q) (locate (cs i) q)
    ((ns i).Unloaded (path ++ [i]) (path ++ [i] ++ q)) (set.nodes (path ++ [i] ++ q))
    (set'.nodes (path ++ [i] ++ q))

/-- One round of the loop. -/
theorem CommitsChildren.cons {cs : Nibble → Tree} {i : Nibble} {l : List Nibble}
    {kids kids' : Nibble → Collapsed} {kid : Collapsed} {set1 : NodeSet} (hil : i ∉ l)
    (h : Commits o access (path ++ [i]) (ns i) (cs i) set kid set1)
    (h' : CommitsChildren o access path ns cs l (update kids i kid) set1 kids' set') :
    CommitsChildren o access path ns cs (i :: l) kids set kids' set' := by
  have hne : ∀ {j}, j ∈ l → j ≠ i := fun hj => ne_of_mem_of_not_mem hj hil
  refine ⟨fun j hj => ?_, fun j hj => ?_, fun p hp => ?_, fun j hj q => ?_⟩
  · rw [mem_cons, not_or] at hj
    rw [h'.kept j hj.2, update_of_ne hj.1]
  · rcases mem_cons.mp hj with rfl | hj
    · rw [h'.kept j hil, update_self]
      exact h.ref
    · exact h'.refs j hj
  · rw [h'.outside p fun j hj => hp j (mem_cons_of_mem _ hj), h.outside p (hp i mem_cons_self)]
  · rcases mem_cons.mp hj with rfl | hj
    · rw [h'.outside _ fun x hx => not_prefix_digit (hne hx) q]
      exact h.below q
    · rw [← h.outside _ (not_prefix_digit (hne hj).symm q)]
      exact h'.below j hj q

/-- The loop over the children, when `commit` settles each of them. -/
theorem commitChildren_spec {cs : Nibble → Tree} (ho : o.Part term)
    (hc : ∀ i, Rep o (path ++ [i]) (ns i) (cs i)) (l : List Nibble) (hl : l.Nodup)
    (hwf : ∀ i ∈ l, (cs i).WF term)
    {commit : Nibble → NodeSet → Except TrieError (Collapsed × NodeSet)}
    (hcommit : ∀ i ∈ l, isNode (cs i) → ∀ set, ∃ c set', commit i set = .ok (c, set') ∧
      Commits o access (path ++ [i]) (ns i) (cs i) set c set')
    (kids : Nibble → Collapsed) (hkids : ∀ i ∈ l, kids i = .nil) (set : NodeSet) :
    ∃ kids' set', Committer.commitChildren ns commit l kids set = .ok (kids', set') ∧
      CommitsChildren o access path ns cs l kids set kids' set' := by
  induction l generalizing kids set with
  | nil => exact ⟨kids, set, rfl, fun _ _ => rfl, by simp, fun _ _ => rfl, by simp⟩
  | cons i l ih =>
    obtain ⟨hil, hl⟩ := nodup_cons.mp hl
    have hi : i ∈ i :: l := mem_cons_self
    have hround : ∀ (kid : Collapsed) (set1 : NodeSet),
        Commits o access (path ++ [i]) (ns i) (cs i) set kid set1 →
        Committer.commitChildren ns commit (i :: l) kids set =
          Committer.commitChildren ns commit l (update kids i kid) set1 →
        ∃ kids' set', Committer.commitChildren ns commit (i :: l) kids set = .ok (kids', set') ∧
          CommitsChildren o access path ns cs (i :: l) kids set kids' set' := by
      intro kid set1 hcom hexec
      have hkids' : ∀ j ∈ l, update kids i kid j = .nil := by
        intro j hj
        rw [update_of_ne (ne_of_mem_of_not_mem hj hil)]
        exact hkids j (mem_cons_of_mem _ hj)
      obtain ⟨kids', set', hrun, hdone⟩ := ih hl (fun j hj => hwf j (mem_cons_of_mem _ hj))
        (fun j hj => hcommit j (mem_cons_of_mem _ hj)) _ hkids' set1
      exact ⟨kids', set', hexec.trans hrun, hdone.cons hil hcom⟩
    have hrep := hc i
    cases hni : ns i with
    | nil =>
      refine hround .nil set ?_ ?_
      · rw [hni, hrep.nil_iff.mp hni]
        exact ⟨refOK_embedded (fun h => nomatch h.1) trivial rfl rfl, fun _ _ => rfl,
          fun q => settled_slot (u := .nil) trivial (fun h => h) _⟩
      · have hsame : update kids i .nil = kids := by
          rw [← hkids i hi, update_eq_self]
        rw [hsame, Committer.commitChildren, hni]
    | hash h =>
      refine hround (.hash h) set ?_ ?_
      · rw [hni] at hrep ⊢
        cases hrep with
        | hash hp hs hloc => exact commits_clean ho hloc hs
      · rw [Committer.commitChildren, hni]
    | value v =>
      have hwfi := hwf i hi
      rw [hni] at hrep
      generalize cs i = u at hrep hwfi
      cases hrep
      exact hwfi.elim
    | short | full =>
      have hn : isNode (cs i) := by
        rw [hni] at hrep
        generalize cs i = u at hrep
        cases hrep
        rfl
      obtain ⟨c, set1, hexec, hcom⟩ := hcommit i hi hn set
      refine hround c set1 hcom ?_
      rw [Committer.commitChildren, hni]
      simp only [hexec]

/-- The paths below an edge, when those below its child are settled. -/
theorem settled_short {k : Hex} (hk : k ≠ []) {c : Tree}
    (hout : ∀ p, ¬ path ++ k <+: p → set'.nodes p = set.nodes p)
    (hbelow : ∀ q, Settled o access (path ++ k ++ q) (locate c q)
      (val.Unloaded (path ++ k) (path ++ k ++ q)) (set.nodes (path ++ k ++ q))
      (set'.nodes (path ++ k ++ q))) (q : Hex) (hq : q ≠ []) :
    Settled o access (path ++ q) (locate (.short k c) q)
      ((Node.short k val flags).Unloaded path (path ++ q)) (set.nodes (path ++ q))
      (set'.nodes (path ++ q)) := by
  by_cases hkq : k <+: q
  · obtain ⟨q, rfl⟩ := hkq
    rw [locate_short_append hk, ← append_assoc]
    exact hbelow q
  · have hnot : ¬ path ++ k <+: path ++ q := by rwa [prefix_append_right_inj]
    rw [hout _ hnot]
    refine .absent (fun t ht => ?_) fun h => hnot (Node.Unloaded.isPrefix h)
    rcases locate_short_eq_some ht with ⟨rfl, -⟩ | ⟨q', rfl, -⟩
    · exact absurd rfl hq
    · exact absurd (prefix_append _ _) hkq

/-- **The committer** settles every path of the node it commits. -/
theorem commit_spec (ho : Fit o) (h : Rep o path n t) (ht : Sized t) (hcanon : t.Canon term)
    (hseal : Sealed path n t) (hn : isNode t) (set : NodeSet) :
    ∃ c set', Committer.commit access collectLeaf path n set = .ok (c, set') ∧
      Commits o access path n t set c set' := by
  induction h generalizing set with
  | nil | value => cases hn
  | hash hp hs hloc => exact ⟨_, set, rfl, commits_clean ho.sized.part hloc hs⟩
  | @short path k val c flags hc hf _ ih =>
    rcases commit_clean_or flags with ⟨h, hh, hd⟩ | hdirty
    · obtain ⟨rfl, hst⟩ := hf.hash h hh
      exact ⟨_, set, by simp [Committer.commit, hh, hd],
        commits_clean ho.sized.part (hf.clean hd) hst⟩
    · have hk := ht.part.wf_short.label_ne_nil
      have hself : ¬ path ++ k <+: path := fun h => hk (eq_nil_of_prefix_self h)
      have hdone : ∀ (cc : Collapsed) (set' : NodeSet),
          Commits o access (path ++ k) val c set cc set' →
          Commits o access path (.short k val flags) (.short k c) set
            (Committer.store access collectLeaf path (.short (hexToCompact k) cc) flags.hash set').1
            (Committer.store access collectLeaf path
              (.short (hexToCompact k) cc) flags.hash set').2 :=
        fun cc set' hcom => commits_store rfl (collapsed_short ht hcom.ref) rfl hf hseal.1
          (fun h => hself (Node.Unloaded.isPrefix h))
            (fun p hp => hcom.outside p (not_prefix_append hp k))
          (hcom.outside path hself) (settled_short hk hcom.outside hcom.below)
      rw [commit_short hdirty]
      cases hc with
      | nil | short =>
        exact hcanon.elim (fun h => h.2.elim) fun h => h.2.2.1.elim
      | value _ v =>
        exact ⟨_, _, rfl,
          hdone (.value v) set ⟨refOK_embedded (fun h => nomatch h.1) trivial rfl rfl,
          fun _ _ => rfl, fun q => settled_slot (u := .value v) trivial (fun h => h) _⟩⟩
      | hash hp hs hloc => exact ⟨_, _, rfl, hdone _ set (commits_clean ho.sized.part hloc hs)⟩
      | @full _ ms ds cflags hcc hcf hcs =>
        have hcc' : (Tree.full ds).Canon term := (hcanon.resolve_left fun h => h.2).2.2.2
        obtain ⟨c, set', hexec, hcom⟩ := ih ht.child_short hcc' hseal.2 rfl set
        refine ⟨_, _, ?_, hdone c set' hcom⟩
        simp [hexec]
  | @full path ns cs flags hc hf _ ih =>
    rcases commit_clean_or flags with ⟨h, hh, hd⟩ | hdirty
    · obtain ⟨rfl, hst⟩ := hf.hash h hh
      exact ⟨_, set, by simp [Committer.commit, hh, hd],
        commits_clean ho.sized.part (hf.clean hd) hst⟩
    · have hne : ∀ {i}, i ∈ (finRange 16).map Fin.castSucc → i ≠ term := by
        rintro i hi rfl
        exact term_not_mem_nibbles hi
      obtain ⟨kids, set', hexec, hdone⟩ := commitChildren_spec ho.sized.part hc _ nodup_nibbles
        (fun i hi => ht.part.wf_full.2 i (hne hi))
        (fun i hi hni set => ih i (ht.child_full i) (hcanon.1.2 i (hne hi)) (hseal.2 i) hni set)
        (fun _ => .nil) (fun _ _ => rfl) set
      rw [commit_full hdirty, hexec]
      simp only
      generalize hall : (if (ns term).isNil then kids else update kids term (ns term).asIs) = all
      have hslot := asIs_slot (hc term) ht.part.wf_full.1
      have hkids : ∀ i, (all i).Small ∧ (all i).bytes = ref (cs i) := by
        intro i
        by_cases hi : i = term
        · subst hi
          rw [← hall]
          split
          · next hnil =>
            rw [hdone.kept term term_not_mem_nibbles, (hc term).isNil.mp hnil]
            exact ⟨trivial, rfl⟩
          · exact ⟨hslot.1, hslot.2.1⟩
        · have href := hdone.refs i (mem_nibbles hi)
          have hsame : all i = kids i := by
            rw [← hall]
            split
            · rfl
            · exact update_of_ne hi ..
          rw [hsame]
          exact ⟨href.small, href.bytes_eq (by simp)⟩
      have hself : ∀ i : Nibble, ¬ path ++ [i] <+: path :=
        fun i h => absurd (eq_nil_of_prefix_self h) (cons_ne_nil i [])
      refine ⟨_, _, rfl, commits_store rfl (collapsed_full ht (fun i => (hkids i).1)
        fun i => (hkids i).2) rfl hf hseal.1 (fun ⟨i, h⟩ => hself i h.isPrefix) ?_ ?_ ?_⟩
      · exact fun p hp => hdone.outside p fun i _ => not_prefix_append hp _
      · exact hdone.outside path fun i _ => hself i
      · intro q hq
        obtain ⟨i, q, rfl⟩ := exists_cons_of_ne_nil hq
        have hiff : (Node.full ns flags).Unloaded path (path ++ i :: q) ↔
            (ns i).Unloaded (path ++ [i]) (path ++ i :: q) := by
          constructor
          · rintro ⟨j, hj⟩
            obtain rfl : j = i := by simpa using hj.isPrefix
            exact hj
          · exact fun h => ⟨i, h⟩
        rw [hiff]
        by_cases hi : i = term
        · subst hi
          rw [hdone.outside _ fun j hj => by
            rw [append_cons path term q]
            exact not_prefix_digit (hne hj) q]
          exact settled_slot ht.part.wf_full.1 (unloaded_slot (hc term) ht.part.wf_full.1 _) _
        · have := hdone.below i (mem_nibbles hi) q
          rwa [← append_cons] at this

/-! ## committing a trie -/

/-- Applying one entry of a node set to a store. -/
def applyNode (n : Option TrieNode) (old : Option Bytes) : Option Bytes :=
  match n with
  | none => old
  | some n => if n.isDeleted then none else some n.blob

/-- The entry of a node set at a path; a nil set has none. -/
def entry (set : Option NodeSet) (p : Hex) : Option TrieNode := set.bind (·.nodes p)

/-- Applying a node set to a path-keyed store; a nil set changes nothing. -/
def applySet (set : Option NodeSet) (st : Hex → Option Bytes) (p : Hex) : Option Bytes :=
  applyNode (entry set p) (st p)

/-- No string hashes to the zero hash, which marks deleted nodes. -/
def NoZeroHash : Prop := ∀ b, Keccak.hash b ≠ Hash.zero

variable {tr : Trie}

/-- The tracer reports every stored node that is gone. -/
theorem Inv.deleted (h : Inv o tr t) (hp : store o p ≠ none) (hn : ¬ NodeAt t p)
    (hu : ¬ tr.root.Unloaded [] p) : p ∈ tr.tracer.deletedNodes :=
  mem_deletedNodes.mpr ⟨(h.tracks.deletes p).mpr ⟨nodeAt_of_store h.origin.fit.sized.part hp, hn⟩,
    (h.covers p hp).resolve_right hu⟩

/-- The tracer reports only nodes that were stored and are gone. -/
theorem Inv.not_deleted (h : Inv o tr t) (hp : p ∈ tr.tracer.deletedNodes) :
    store o p ≠ none ∧ ¬ NodeAt t p := by
  obtain ⟨hd, ha⟩ := mem_deletedNodes.mp hp
  obtain ⟨b, hb⟩ := ne_none_iff_exists'.mp ha
  exact ⟨by rw [h.reads p b hb]; simp, ((h.tracks.deletes p).mp hd).2⟩

/-- A settled path gives the entry of the new store. -/
theorem Inv.settled (h : Inv o tr t) (hz : NoZeroHash) {new : Option TrieNode}
    (hs : Settled o tr.tracer.accessList p (locate t p) (tr.root.Unloaded [] p)
      (if p ∈ tr.tracer.deletedNodes then some .deleted else none) new) :
    applyNode new (store o p) = store t p := by
  have hpart := h.valid.fit.sized.part
  have hopart := h.origin.fit.sized.part
  cases hs with
  | stored u hu hst =>
    have hne : (⟨digest u, enc u⟩ : TrieNode).isDeleted = false :=
      decide_eq_false (hz (enc u))
    rw [applyNode, hne, store_of_locate hu hst]
    rfl
  | dropped hst _ =>
    rw [store_eq_none hst]
    rfl
  | same hloc =>
    have hnot : p ∉ tr.tracer.deletedNodes := by
      intro hd
      obtain ⟨h1, h2⟩ := h.not_deleted hd
      have := nodeAt_of_store hopart h1
      rw [nodeAt_iff hopart, hloc, ← nodeAt_iff hpart] at this
      exact h2 this
    rw [if_neg hnot]
    simp [applyNode, store, hloc]
  | embedded u hu hn hst ha hh =>
    have hnode : NodeAt t p := (nodeAt_iff hpart).mpr ⟨u, hu, hn⟩
    have hnot : p ∉ tr.tracer.deletedNodes := fun hd => (h.not_deleted hd).2 hnode
    have ho : store o p = none := by
      by_contra hne
      rcases h.covers p hne with h1 | h1
      · exact h1 ha
      · exact hh h1
    rw [if_neg hnot, ho]
    simp [applyNode, store, hu, if_neg hst]
  | absent hs hh =>
    have hnode : ¬ NodeAt t p := by
      intro hn
      obtain ⟨u, hu, hnu⟩ := (nodeAt_iff hpart).mp hn
      simp [hs u hu] at hnu
    rw [show store t p = none from store_eq_none fun u hu hst => absurd hst.1 (by simp [hs u hu])]
    by_cases hd : p ∈ tr.tracer.deletedNodes
    · rw [if_pos hd]; rfl
    · rw [if_neg hd]
      by_contra hne
      exact hd (h.deleted hne hnode hh)

/-- The root hash and the node set of a commit, with every path settled. -/
def CommitsTrie (o : Tree) (tr : Trie) (t : Tree) (collectLeaf : Bool) : Prop :=
  ∃ set tr' tr₁, tr.commit collectLeaf = (.ok (rootHash t, set), tr') ∧ Inv o tr₁ t ∧
    ∀ p, Settled o tr₁.tracer.accessList p (locate t p) (tr₁.root.Unloaded [] p)
      (if p ∈ tr₁.tracer.deletedNodes then some .deleted else none) (entry set p)

/-- Committing an empty trie. -/
theorem Inv.commit_nil (h : Inv o tr .nil) (collectLeaf : Bool) :
    CommitsTrie o tr .nil collectLeaf := by
  have hroot : tr.root = .nil := h.rep.nil_iff.mpr rfl
  have habsent : ∀ p old,
      Settled o tr.tracer.accessList p (locate .nil p) (tr.root.Unloaded [] p) old old :=
    fun p => settled_slot (u := .nil) trivial (by rw [hroot]; exact id)
  unfold CommitsTrie Trie.commit
  simp only [hroot, Node.isNil, if_true]
  split
  next hpaths =>
    refine ⟨none, _, tr, rfl, h, fun p => ?_⟩
    rw [length_eq_zero_iff.mp hpaths]
    exact habsent p none
  · refine ⟨_, _, tr, rfl, h, fun p => ?_⟩
    simp only [entry, bind_some, NodeSet.addDeleted_nodes]
    exact habsent p _

/-- A clean root is the original tree. -/
theorem Rep.clean (h : Rep o [] n t) {hashed : Option Hash} (hc : n.cache = (hashed, false)) :
    t = o := by
  have hloc : locate o [] = some t := by
    cases h with
    | nil | value | hash => cases hc
    | short _ hf _ | full _ hf _ => exact hf.clean (congrArg Prod.snd hc)
  rw [locate_nil] at hloc
  exact (some.inj hloc).symm

theorem hash_frame (tr : Trie) : tr.hash.2.tracer = tr.tracer ∧ tr.hash.2.owner = tr.owner := by
  unfold Trie.hash
  simp only
  split <;> exact ⟨rfl, rfl⟩

/-- **Committing** returns the root hash and settles every path. -/
theorem Inv.commit (h : Inv o tr t) (collectLeaf : Bool) : CommitsTrie o tr t collectLeaf := by
  by_cases h0 : t = .nil
  · subst h0
    exact h.commit_nil collectLeaf
  · obtain ⟨hhash, hinv, hseal⟩ := h.hash
    have hnil : ¬ tr.root.isNil = true := fun hn => h0 (h.rep.isNil.mp hn)
    have hst : Standalone [] t := ⟨isNode_of_wf h.valid.canon.wf h0, .inl rfl⟩
    obtain ⟨htracer, howner⟩ := hash_frame tr
    have hpair : tr.hash = (.ok (rootHash t), tr.hash.2) := by rw [← hhash]
    unfold CommitsTrie Trie.commit
    simp only [if_neg hnil]
    rw [hpair]
    cases hcache : tr.hash.2.root.cache with
    | mk hashed dirty =>
      cases dirty with
      | false =>
        simp only [hcache]
        refine ⟨none, _, tr.hash.2, rfl, hinv, fun p => ?_⟩
        obtain rfl := hinv.rep.clean hcache
        have hnone : p ∉ tr.hash.2.tracer.deletedNodes := by
          intro hd
          obtain ⟨h1, h2⟩ := hinv.not_deleted hd
          exact h2 (nodeAt_of_store h.valid.fit.sized.part h1)
        rw [if_neg hnone]
        exact .same rfl
      | true =>
        obtain ⟨c, set', hexec, hcom⟩ : ∃ c set', Committer.commit tr.hash.2.tracer.accessList
            collectLeaf [] tr.hash.2.root ((NodeSet.new tr.owner).addDeleted
            tr.tracer.deletedNodes) = .ok (c, set') ∧ Commits _ _ _ _ _ _ _ _ :=
          commit_spec hinv.origin.fit hinv.rep hinv.valid.fit.sized hinv.valid.canon hseal hst.1 _
        rw [hcom.ref.hash hst] at hexec
        simp only [hcache, howner, hexec]
        refine ⟨some set', _, tr.hash.2, rfl, hinv, fun p => ?_⟩
        have hset := hcom.below p
        rwa [NodeSet.addDeleted_nodes, ← htracer] at hset

/-- Committing returns the root hash and the difference of the stores. -/
theorem Inv.commit_diff (h : Inv o tr t) (hz : NoZeroHash) (collectLeaf : Bool) :
    ∃ set tr', tr.commit collectLeaf = (.ok (rootHash t, set), tr') ∧
      applySet set (store o) = store t := by
  obtain ⟨set, tr', tr1, hexec, hinv, hsettled⟩ := h.commit collectLeaf
  exact ⟨set, tr', hexec, funext fun p => hinv.settled hz (hsettled p)⟩

/-- A trie that was built from scratch commits exactly the nodes of its store,
each with its hash. -/
theorem Inv.commit_scratch (h : Inv .nil tr t) (collectLeaf : Bool) :
    ∃ set tr', tr.commit collectLeaf = (.ok (rootHash t, set), tr') ∧
      ∀ p, entry set p = (store t p).map fun b => ⟨Keccak.hash b, b⟩ := by
  obtain ⟨set, tr', tr1, hexec, hinv, hsettled⟩ := h.commit collectLeaf
  have haccess : ∀ p, tr1.tracer.accessList p = none := by
    intro p
    by_contra hne
    obtain ⟨b, hb⟩ := ne_none_iff_exists'.mp hne
    have := hinv.reads p b hb
    simp [store_nil] at this
  have hold : ∀ p, p ∉ tr1.tracer.deletedNodes := fun p hp => (mem_deletedNodes.mp hp).2 (haccess p)
  refine ⟨set, tr', hexec, fun p => ?_⟩
  have hs := hsettled p
  rw [if_neg (hold p)] at hs
  generalize entry set p = new at hs
  cases hs with
  | stored u hu hst =>
    rw [store_of_locate hu hst]
    rfl
  | dropped _ ha => exact absurd (haccess p) ha
  | same hloc =>
    have : store t p = none := by
      rw [store, ← hloc]
      exact store_nil p
    rw [this]
    rfl
  | embedded u hu hn hst =>
    simp only [store, hu, if_neg hst]
    rfl
  | absent hs _ =>
    rw [show store t p = none from store_eq_none fun u hu hst => absurd hst.1 (by simp [hs u hu])]
    rfl

/-- **Committing is an exact difference.**  Open a trie on a stored tree, run any
calls and commit.  Applied to the store, the node set gives the store of the
tree with the new content, which is also what a trie that is built from scratch
with that content commits. -/
theorem commit_exact {db : Hash → Option Reader} {id : ID} (h : Opens db id o) (hz : NoZeroHash)
    (ops : List Op) (collectLeaf : Bool) :
    ∃ tr tr' hash set u, Trie.new id db = .ok tr ∧ tr.run ops = .ok tr' ∧
      (tr'.commit collectLeaf).1 = .ok (hash, set) ∧ Valid u ∧
      Content.ofTree u = (Content.ofTree o).applyAll ops ∧ applySet set (store o) = store u ∧
      ∀ (db₀ : Hash → Option Reader) (id₀ : ID) (ops₀ : List Op), Opens db₀ id₀ .nil →
        (Content.ofTree .nil).applyAll ops₀ = (Content.ofTree o).applyAll ops →
        ∃ s s' set₀, Trie.new id₀ db₀ = .ok s ∧ s.run ops₀ = .ok s' ∧
          (s'.commit collectLeaf).1 = .ok (hash, set₀) ∧
          applySet set₀ (fun _ => none) = applySet set (store o) := by
  obtain ⟨tr, hnew, hinv⟩ := new_spec h
  obtain ⟨tr', u, hrun, hinv', hcontent⟩ := run_spec hinv ops
  obtain ⟨set, tr'', hcommit, hset⟩ := hinv'.commit_diff hz collectLeaf
  refine ⟨tr, tr', rootHash u, set, u, hnew, hrun, by rw [hcommit], hinv'.valid, hcontent, hset, ?_⟩
  intro db₀ id₀ ops₀ h₀ hsame
  obtain ⟨s, hnew₀, hinv₀⟩ := new_spec h₀
  obtain ⟨s', u₀, hrun₀, hinv₀', hcontent₀⟩ := run_spec hinv₀ ops₀
  obtain ⟨set₀, s'', hcommit₀, hset₀⟩ := hinv₀'.commit_diff hz collectLeaf
  have hcontents : Content.ofTree u₀ = Content.ofTree u := by rw [hcontent₀, hsame, hcontent]
  obtain rfl : u₀ = u := hinv₀'.valid.ext hinv'.valid fun k => congrFun hcontents k
  refine ⟨s, s', set₀, hnew₀, hrun₀, by rw [hcommit₀], ?_⟩
  rw [hset, ← hset₀]
  congr 1
  exact (funext store_nil).symm

end Commit

theorem noZeroHash_sample : @NoZeroHash Keccak.sample := fun b => sampleHash_ne b rfl (.inl rfl)

/-- Deleting the only entry of a stored trie empties its store. -/
theorem commit_exact_sample :
    letI := Keccak.sample
    ∃ tr tr' hash set u,
      Trie.new ⟨digest sampleTree, Hash.zero, digest sampleTree⟩
        (fun _ => some fun _ _ _ => some (enc sampleTree)) = .ok tr ∧
      tr.run [.delete sampleKey] = .ok tr' ∧ (tr'.commit true).1 = .ok (hash, set) ∧
      applySet set (store sampleTree) = store u ∧ u = .nil := by
  let _ := Keccak.sample
  obtain ⟨tr, tr', hash, set, u, hnew, hrun, hcommit, hvalid, hcontent, hset, -⟩ :=
    commit_exact opens_sampleTree noZeroHash_sample [.delete sampleKey] true
  refine ⟨tr, tr', hash, set, u, hnew, hrun, hcommit, hset, hvalid.ext valid_nil fun k => ?_⟩
  have hk := congrFun hcontent k
  have hins := congrFun (ofTree_insert valid_nil sampleKey [0x62]) k
  rw [show Content.ofTree u k = u.get (keybytesToHex k.bytes) from rfl] at hk
  rw [hk]
  by_cases hkey : k = sampleKey
  · simp [Content.applyAll, Content.apply, hkey]
  · simp only [Content.applyAll, Content.apply, foldl_cons, foldl_nil,
      update_of_ne hkey]
    rw [show Content.ofTree sampleTree k = _ from hins, update_of_ne hkey]
    rfl

end GoQrl.Mpt
