import GoQrl.Trie.Commit
import GoQrl.Trie.StackTrie

/-!
# GoQrl.Trie.StackRefine

The stack trie refines the trie.  `StackRep` relates a stack trie node to the
tree of the keys that went through it, and `Emitted` are the nodes of that tree
that must have been written already: those in its hashed parts.  Hashing and
inserting move both along (`Wrote`), and since a key that diverges upwards from
all earlier ones (`Above`) never reaches a hashed part, every insertion succeeds.
-/

namespace GoQrl.Mpt

open Rlp Radix Mpt.Tree Function StackNode Collapsed
open List hiding nil get insert

section Refinement

variable [Keccak]

/-! ## representation -/

/-- The `val` of a hashed node. -/
def hashedVal (t : Tree) : Bytes := if 32 ≤ (enc t).length then (digest t).bytes else enc t

/-- The stack trie node stands for the tree. -/
inductive StackRep : StackNode → Tree → Prop
  | nil : StackRep .nil .nil
  | branch {ch : Nibble → StackNode} {cs : Nibble → Tree} (hc : ∀ i, StackRep (ch i) (cs i))
      (ht : ch term = .nil) : StackRep (.branch ch) (.full cs)
  | ext {k : Hex} {n : StackNode} {c : Tree} (hc : StackRep n c) (hn : isNode c) :
      StackRep (.ext k n) (.short k c)
  | leaf (k : Hex) (v : Bytes) : StackRep (.leaf k v) (.short (k ++ [term]) (.value v))
  | hashed {t : Tree} (hn : isNode t) : StackRep (.hashed (hashedVal t)) t

variable {st : StackNode} {t : Tree} {p : Hex}

theorem StackRep.isNil (h : StackRep st t) : st.isNil = true ↔ t = .nil := by
  cases h with
  | nil | branch | ext | leaf => simp [isNil]
  | hashed hn =>
    simp only [isNil, Bool.false_eq_true, false_iff]
    rintro rfl
    cases hn

theorem StackRep.isNode (h : StackRep st t) (hn : st.isNil = false) : Tree.isNode t := by
  cases h with
  | nil => cases hn
  | branch | ext | leaf => rfl
  | hashed hnode => exact hnode

/-- The reference to a hashed child. -/
theorem childRef_hashedVal (hn : isNode t) :
    (childRef (hashedVal t)).Small ∧ (childRef (hashedVal t)).bytes = ref t := by
  by_cases hl : 32 ≤ (enc t).length
  · have hval : hashedVal t = (digest t).bytes := if_pos hl
    have href : ref t = encodeString (digest t).bytes := if_pos ⟨hn, hl⟩
    rw [hval, href, childRef, if_neg (by rw [Hash.length_bytes]; omega)]
    exact ⟨trivial, rfl⟩
  · have hval : hashedVal t = enc t := if_neg hl
    rw [hval, ref_of_small (by omega), childRef, if_pos (by omega)]
    exact ⟨trivial, rfl⟩

/-! ## the nodes that are written -/

/-- The write of the node of the tree at path `p`. -/
def writeOf (owner : Hash) (p : Hex) (t : Tree) : NodeWrite := ⟨owner, p, digest t, enc t⟩

/-- The writes of a whole tree at path `p`: its large nodes. -/
def WritesOf (owner : Hash) : Hex → Tree → NodeWrite → Prop
  | _, .nil, _ => False
  | _, .value _, _ => False
  | p, .short k c, w =>
    (32 ≤ (enc (.short k c)).length ∧ w = writeOf owner p (.short k c)) ∨
      WritesOf owner (p ++ k) c w
  | p, .full cs, w =>
    (32 ≤ (enc (.full cs)).length ∧ w = writeOf owner p (.full cs)) ∨
      ∃ i, WritesOf owner (p ++ [i]) (cs i) w

/-- The writes of the hashed parts. -/
def Emitted (owner : Hash) : Hex → StackNode → Tree → NodeWrite → Prop
  | p, .hashed _, t, w => WritesOf owner p t w
  | p, .ext k n, .short _ c, w => Emitted owner (p ++ k) n c w
  | p, .branch ch, .full cs, w => ∃ i, Emitted owner (p ++ [i]) (ch i) (cs i) w
  | _, _, _, _ => False

variable {owner : Hash}

theorem WritesOf.isPrefix {w : NodeWrite} (h : WritesOf owner p t w) : p <+: w.path := by
  induction t generalizing p with
  | nil | value => exact h.elim
  | short k c ih =>
    rcases h with ⟨-, rfl⟩ | h
    · exact prefix_refl _
    · exact (prefix_append p k).trans (ih h)
  | full cs ih =>
    rcases h with ⟨-, rfl⟩ | ⟨i, h⟩
    · exact prefix_refl _
    · exact (prefix_append p [i]).trans (ih i h)

theorem Emitted.isPrefix {w : NodeWrite} (h : Emitted owner p st t w) : p <+: w.path := by
  induction st generalizing p t with
  | nil | empty | leaf => exact h.elim
  | hashed v => exact WritesOf.isPrefix h
  | ext k n ih =>
    cases t with
    | short k' c => exact (prefix_append p k).trans (ih h)
    | _ => exact h.elim
  | branch ch ih =>
    cases t with
    | full cs =>
      obtain ⟨i, h⟩ := h
      exact (prefix_append p [i]).trans (ih i h)
    | _ => exact h.elim

/-- What an operation writes: exactly the nodes that become hashed by it, none
of them twice and none again. -/
structure Wrote (owner : Hash) (p : Hex) (st : StackNode) (t : Tree) (st' : StackNode) (t' : Tree)
    (w : List NodeWrite) : Prop where
  all : ∀ x, Emitted owner p st' t' x ↔ Emitted owner p st t x ∨ x ∈ w
  fresh : ∀ x ∈ w, ∀ y, Emitted owner p st t y → x.path ≠ y.path
  nodup : (w.map NodeWrite.path).Nodup

variable {st' st'' : StackNode} {t' t'' : Tree} {w w' : List NodeWrite} {cs : Nibble → Tree}
  {children : Nibble → StackNode}

theorem Wrote.none (h : ∀ x, Emitted owner p st' t' x ↔ Emitted owner p st t x) :
    Wrote owner p st t st' t' [] :=
  ⟨by simpa using h, by simp, by simp⟩

theorem Wrote.mem (h : Wrote owner p st t st' t' w) {x : NodeWrite} (hx : x ∈ w) : p <+: x.path :=
  ((h.all x).mpr (.inr hx)).isPrefix

theorem Wrote.trans (h : Wrote owner p st t st' t' w) (h' : Wrote owner p st' t' st'' t'' w') :
    Wrote owner p st t st'' t'' (w ++ w') where
  all x := by rw [h'.all, h.all, mem_append, or_assoc]
  fresh x hx y hy := by
    rcases mem_append.mp hx with hx | hx
    · exact h.fresh x hx y hy
    · exact h'.fresh x hx y ((h.all y).mpr (.inl hy))
  nodup := by
    rw [map_append, nodup_append]
    refine ⟨h.nodup, h'.nodup, forall_mem_map.mpr fun x hx => forall_mem_map.mpr fun y hy hab => ?_⟩
    exact h'.fresh y hy x ((h.all x).mpr (.inr hx)) hab.symm

theorem Wrote.ext {k : Hex} {c c' : Tree} {k1 k2 : Hex} (h : Wrote owner (p ++ k) st c st' c' w) :
    Wrote owner p (.ext k st) (.short k1 c) (.ext k st') (.short k2 c') w :=
  ⟨h.all, h.fresh, h.nodup⟩

theorem Wrote.branch {ch : Nibble → StackNode} {i : Nibble} {c' : Tree}
    (h : Wrote owner (p ++ [i]) (ch i) (cs i) st' c' w) :
    Wrote owner p (.branch ch) (.full cs) (.branch (update ch i st'))
      (.full (update cs i c')) w where
  all x := by
    have hall := h.all x
    show (∃ j, Emitted owner _ (update ch i st' j) (update cs i c' j) x) ↔
      (∃ j, Emitted owner _ (ch j) (cs j) x) ∨ _
    grind
  fresh x hx y hy := by
    obtain ⟨j, hj⟩ := hy
    by_cases hji : j = i
    · subst hji; exact h.fresh x hx y hj
    · intro heq
      obtain ⟨q, hq⟩ := h.mem hx
      have hpre := hj.isPrefix
      rw [← heq, ← hq] at hpre
      exact not_prefix_digit hji q hpre
  nodup := h.nodup

/-! ## hashing -/

/-- The write of a node itself, if it is large. -/
def ownWrites (owner : Hash) (p : Hex) (t : Tree) : List NodeWrite :=
  if 32 ≤ (enc t).length then [writeOf owner p t] else []

theorem finish_enc (p : Hex) (t : Tree) :
    finish owner p (enc t) = (hashedVal t, ownWrites owner p t) := by
  unfold finish hashedVal ownWrites
  by_cases hl : 32 ≤ (enc t).length
  · rw [if_neg (by omega), if_pos hl, if_pos hl]
    rfl
  · rw [if_pos (by omega), if_neg hl, if_neg hl]

/-- A node below which everything is hashed is hashed itself. -/
theorem Wrote.own (hall : ∀ x, WritesOf owner p t x ↔
      (32 ≤ (enc t).length ∧ x = writeOf owner p t) ∨ Emitted owner p st t x)
    (hne : ∀ y, Emitted owner p st t y → y.path ≠ p) :
    Wrote owner p st t (.hashed (hashedVal t)) t (ownWrites owner p t) := by
  have hmem : ∀ x, x ∈ ownWrites owner p t ↔ 32 ≤ (enc t).length ∧ x = writeOf owner p t := by
    unfold ownWrites
    split <;> simp [*]
  refine ⟨fun x => ?_, fun x hx y hy => ?_, ?_⟩
  · rw [hmem, or_comm]
    exact hall x
  · obtain ⟨-, rfl⟩ := (hmem x).mp hx
    exact (hne y hy).symm
  · unfold ownWrites
    split <;> simp

omit [Keccak] in
theorem path_ne_of_prefix {k : Hex} (hk : k ≠ []) {x : NodeWrite} (h : p ++ k <+: x.path) :
    x.path ≠ p := by
  rintro rfl
  exact hk (eq_nil_of_prefix_self h)

/-- What hashing a node does. -/
def Hashes (owner : Hash) (p : Hex) (st : StackNode) (t : Tree)
    (res : Except TrieError (Bytes × List NodeWrite)) : Prop :=
  ∃ w, res = .ok (hashedVal t, w) ∧ Wrote owner p st t (.hashed (hashedVal t)) t w

/-- A child after the loop over the children. -/
def hashedKid (st : StackNode) (t : Tree) : StackNode :=
  if st.isNil then .nil else .hashed (hashedVal t)

/-- What the loop over the children `l` does to the children `cur`, of which those in
`l` are still the ones the node came with. -/
def HashesKids (owner : Hash) (p : Hex) (children : Nibble → StackNode) (cs : Nibble → Tree)
    (l : List Nibble) (nodes : Nibble → Collapsed) (writes : List NodeWrite)
    (cur : Nibble → StackNode) : Prop :=
  ∃ nodes' w cur', StackNode.hashKids children
      (fun i => StackNode.hashRec owner (children i) (p ++ [i])) l nodes writes =
        .ok (nodes', writes ++ w) ∧
    Wrote owner p (.branch cur) (.full cs) (.branch cur') (.full cs) w ∧
    (∀ i ∈ l, cur' i = hashedKid (children i) (cs i)) ∧
    (∀ i, i ∉ l → cur' i = cur i ∧ nodes' i = nodes i) ∧
    (∀ i ∈ l, (nodes' i).Small ∧ (nodes' i).bytes = ref (cs i))

/-- One round of the loop: the child `i` is replaced, with the reference `node` and
the writes `new`. -/
theorem HashesKids.cons {i : Nibble} {l : List Nibble}
    {nodes : Nibble → Collapsed} {writes : List NodeWrite} {cur : Nibble → StackNode}
    (node : Collapsed) (new : List NodeWrite) (hil : i ∉ l) (hexec : hashKids children
        (fun i => hashRec owner (children i) (p ++ [i])) (i :: l) nodes writes =
      hashKids children (fun i => hashRec owner (children i) (p ++ [i])) l
        (update nodes i node) (writes ++ new))
    (hwrote : Wrote owner (p ++ [i]) (cur i) (cs i) (hashedKid (children i) (cs i)) (cs i) new)
    (hnode : node.Small ∧ node.bytes = ref (cs i))
    (h : HashesKids owner p children cs l (update nodes i node) (writes ++ new)
      (update cur i (hashedKid (children i) (cs i)))) :
    HashesKids owner p children cs (i :: l) nodes writes cur := by
  obtain ⟨nodes', w, cur', hrun, hw, hdone, hkept, href⟩ := h
  have hstep := hwrote.branch
  rw [update_eq_self] at hstep
  refine ⟨nodes', new ++ w, cur', ?_, hstep.trans hw, fun j hj => ?_, fun j hj => ?_,
    fun j hj => ?_⟩
  · rw [hexec, hrun, append_assoc]
  · rcases mem_cons.mp hj with rfl | hj
    · rw [(hkept j hil).1, update_self]
    · exact hdone j hj
  · rw [mem_cons, not_or] at hj
    have := hkept j hj.2
    rwa [update_of_ne hj.1, update_of_ne hj.1] at this
  · rcases mem_cons.mp hj with rfl | hj
    · rwa [(hkept j hil).2, update_self]
    · exact href j hj

/-- The loop over the children, when each of them can be hashed. -/
theorem hashKids_spec (hc : ∀ i, StackRep (children i) (cs i)) (l : List Nibble)
    (hl : l.Nodup) (hrec : ∀ i ∈ l, (children i).isNil = false →
      Hashes owner (p ++ [i]) (children i) (cs i)
      (hashRec owner (children i) (p ++ [i]))) (cur : Nibble → StackNode)
    (hcur : ∀ i ∈ l, cur i = children i) (nodes : Nibble → Collapsed) (writes : List NodeWrite) :
    HashesKids owner p children cs l nodes writes cur := by
  induction l generalizing cur nodes writes with
  | nil =>
    exact ⟨nodes, [], cur, by simp [hashKids], .none fun _ => Iff.rfl, by simp,
      fun _ _ => ⟨rfl, rfl⟩, by simp⟩
  | cons i l ih =>
    obtain ⟨hil, hl⟩ := nodup_cons.mp hl
    have hi : cur i = children i := hcur i mem_cons_self
    have hrest : ∀ kid, ∀ j ∈ l, update cur i kid j = children j := by
      intro kid j hj
      rw [update_of_ne (by rintro rfl; exact hil hj)]
      exact hcur j (mem_cons_of_mem _ hj)
    have ih := fun kid => ih hl (fun j hj => hrec j (mem_cons_of_mem _ hj)) _ (hrest kid)
    cases hnil : (children i).isNil with
    | true =>
      have hci := (hc i).isNil.mp hnil
      refine .cons (.value []) [] hil ?_ ?_ ?_ (ih _ _ _)
      · rw [hashKids, if_pos hnil, append_nil]
      · rw [hi]
        cases hch : children i with
        | nil => exact .none fun _ => Iff.rfl
        | _ => rw [hch] at hnil; cases hnil
      · rw [hci]
        exact ⟨trivial, rfl⟩
    | false =>
      have hkid : hashedKid (children i) (cs i) = .hashed (hashedVal (cs i)) :=
        if_neg (by simp [hnil])
      obtain ⟨w, hexec, hwrote⟩ := hrec i mem_cons_self hnil
      refine .cons _ w hil ?_ ?_ (childRef_hashedVal ((hc i).isNode hnil)) (ih _ _ _)
      · rw [hashKids, if_neg (by simp [hnil])]
        simp [hexec]
      · rwa [hkid, hi]

/-- **Hashing a node** of the stack trie. -/
theorem hashRec_spec (h : StackRep st t) (ht : Sized t) (hn : st.isNil = false) :
    Hashes owner p st t (hashRec owner st p) := by
  induction h generalizing p with
  | nil => cases hn
  | hashed hnode => exact ⟨[], rfl, .none fun _ => Iff.rfl⟩
  | leaf k v =>
    refine ⟨ownWrites owner p (.short (k ++ [term]) (.value v)), ?_,
      .own (fun x => ?_) fun _ h => h.elim⟩
    · have hkey := hexToCompactInPlace_eq ht.short.isHexKey (by simp)
      have href : RefOK (p ++ (k ++ [term])) (.value v) (.value v) :=
        refOK_embedded (fun h => nomatch h.1) trivial rfl rfl
      have henc := collapsed_short ht href
      rw [hashRec, hkey, nodeToBytes_eq henc.1, henc.2, finish_enc]
    · rfl
  | @ext k n c hc hnode ih =>
    have hk := ht.part.wf_short.label_ne_nil
    have hnil : n.isNil = false := Bool.eq_false_iff.mpr fun hnil => by
      cases hc.isNil.mp hnil ▸ hnode
    obtain ⟨w, hexec, hw⟩ := ih ht.child_short hnil
    have href := childRef_hashedVal hnode
    have hbytes : bytes (.short (hexToCompact k) (childRef (hashedVal c))) = enc (.short k c) := by
      rw [bytes, href.2]
      rfl
    have hsmall : Collapsed.Small (.short (hexToCompact k) (childRef (hashedVal c))) :=
      ⟨href.1, by rw [href.2]; exact ht.short.payload_short⟩
    have hown : Wrote owner p (.ext k (.hashed (hashedVal c))) (.short k c)
        (.hashed (hashedVal (.short k c))) (.short k c) (ownWrites owner p (.short k c)) :=
      .own (fun x => Iff.rfl) fun y hy => path_ne_of_prefix hk (WritesOf.isPrefix hy)
    refine ⟨w ++ ownWrites owner p (.short k c), ?_, hw.ext.trans hown⟩
    rw [hashRec, hexec]
    simp only
    rw [hexToCompactInPlace_eq ht.short.isHexKey hk, nodeToBytes_eq hsmall, hbytes, finish_enc]
  | @branch ch cs hc hterm ih =>
    have hkids : HashesKids owner p ch cs ((finRange 16).map Fin.castSucc) (fun _ => .nil) [] ch :=
      hashKids_spec hc _ nodup_nibbles (fun i hi hnil => ih i (ht.child_full i) hnil) ch
        (fun _ _ => rfl) _ _
    obtain ⟨nodes, w, cur, hexec, hw, hdone, hkept, href⟩ := hkids
    have hcs : cs term = .nil := (hc term).isNil.mp (by rw [hterm]; rfl)
    have hnodes : ∀ i, (nodes i).Small ∧ (nodes i).bytes = ref (cs i) := by
      intro i
      by_cases hi : i = term
      · subst hi
        rw [(hkept term term_not_mem_nibbles).2, hcs]
        exact ⟨trivial, rfl⟩
      · exact href i (mem_nibbles hi)
    have henc := collapsed_full ht (fun i => (hnodes i).1) fun i => (hnodes i).2
    have hkid : ∀ i x, Emitted owner (p ++ [i]) (cur i) (cs i) x ↔
        WritesOf owner (p ++ [i]) (cs i) x := by
      intro i x
      by_cases hi : i = term
      · subst hi
        rw [(hkept term term_not_mem_nibbles).1, hterm, hcs]
        rfl
      · rw [hdone i (mem_nibbles hi)]
        unfold hashedKid
        split
        · next hnil => rw [(hc i).isNil.mp hnil]; rfl
        · rfl
    have hown : Wrote owner p (.branch cur) (.full cs) (.hashed (hashedVal (.full cs))) (.full cs)
        (ownWrites owner p (.full cs)) := by
      refine .own (fun x => ?_) fun y hy => ?_
      · show _ ∨ _ ↔ _ ∨ ∃ i, _
        simp [hkid]
      · obtain ⟨i, hi⟩ := hy
        exact path_ne_of_prefix (by simp) hi.isPrefix
    refine ⟨w ++ ownWrites owner p (.full cs), ?_, hw.trans hown⟩
    rw [hashRec, hexec]
    simp only
    rw [nodeToBytes_eq henc.1, henc.2, finish_enc, nil_append]

end Refinement

end GoQrl.Mpt
