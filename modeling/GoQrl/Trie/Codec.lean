import GoQrl.Trie.Hasher

/-!
# GoQrl.Trie.Codec

Decoding what `nodeToBytes` encoded.  `Collapsed.WF` are the nodes that may be
encoded; `decodeNodeFuel_bytes` reads one back from a buffer that may go on, as
an embedded child is decoded from the buffer that continues with its siblings.
For the collapsed node of a tree (`Tree.toCollapsed`) this gives `decodeNode_enc`:
the children are hashes of large trees and embedded small ones, as in `expand`.
-/

namespace GoQrl.Mpt

open Rlp
open List hiding nil get insert

/-! ## counting encoded values -/

/-- A complete RLP value whose length fields are in range. -/
def IsValue (e : Bytes) : Prop :=
  (∃ b : Bytes, b.length < 2 ^ 64 ∧ e = encodeString b) ∨
    ∃ p : Bytes, p.length < 2 ^ 64 ∧ e = encodeList p

theorem IsValue.readKind {e : Bytes} (h : IsValue e) (rest : Bytes) :
    ∃ k ts cs, readKind (e ++ rest) = .ok (k, ts, cs) ∧ ts + cs = e.length := by
  rcases h with ⟨b, hb, rfl⟩ | ⟨p, hp, rfl⟩
  · obtain ⟨ts, h1, h2, -⟩ := readKind_encodeString hb rest
    exact ⟨_, _, _, h1, h2⟩
  · exact ⟨_, _, _, readKind_encodeList hp rest, (length_encodeList hp).symm⟩

theorem IsValue.ne_nil {e : Bytes} (h : IsValue e) : e ≠ [] := by
  rintro rfl
  obtain ⟨k, ts, cs, hk, -⟩ := h.readKind []
  simp [Rlp.readKind, readTag] at hk

theorem countLoop_flatten (es : List Bytes) (h : ∀ e ∈ es, IsValue e) (i fuel : Nat)
    (hf : es.length ≤ fuel) : countLoop fuel i es.flatten = .ok (i + es.length) := by
  induction es generalizing i fuel with
  | nil => cases fuel <;> rfl
  | cons e es ih =>
    have he := h e (by simp)
    obtain ⟨k, ts, cs, hk, hlen⟩ := he.readKind es.flatten
    obtain ⟨c, e', hce⟩ := exists_cons_of_ne_nil he.ne_nil
    cases fuel with
    | zero => simp at hf
    | succ fuel =>
      rw [length_cons] at hf
      rw [flatten_cons]
      have hstep : countLoop (fuel + 1) i (e ++ es.flatten) =
          countLoop fuel (i + 1) es.flatten := by
        have hd : (e ++ es.flatten).drop (ts + cs) = es.flatten :=
          drop_append_of_length hlen.symm
        rw [hce] at hk hd ⊢
        simp only [cons_append] at hk hd ⊢
        rw [countLoop, hk]
        · simp [hd]
        · simp
      rw [hstep, ih (fun e he => h e (mem_cons_of_mem _ he)) _ _ (by omega), length_cons]
      congr 1; omega

theorem length_le_flatten (es : List Bytes) (h : ∀ e ∈ es, e ≠ []) :
    es.length ≤ es.flatten.length := by
  induction es with
  | nil => simp
  | cons e es ih =>
    have h1 := length_pos_iff.mpr (h e (by simp))
    have h2 := ih fun e he => h e (mem_cons_of_mem _ he)
    simp only [length_cons, flatten_cons, length_append]
    omega

/-- `CountValues` counts the values of a concatenation. -/
theorem countValues_flatten (es : List Bytes) (h : ∀ e ∈ es, IsValue e) :
    countValues es.flatten = .ok es.length := by
  rw [countValues, countLoop_flatten es h 0 _
    (length_le_flatten es fun e he => (h e he).ne_nil), zero_add]

/-! ## well-formed nodes -/

namespace Collapsed

/-- A reference: nothing, a hash, or an embedded node, for which `wf` holds, of fewer than 32
bytes. -/
def IsRef (c : Collapsed) (wf : Prop) : Prop :=
  c = nil ∨ (∃ h, c = hash h) ∨ wf ∧ c.bytes.length < 32

/-- A well-formed node: an edge with a compact key and a value or a reference, or a branching
node with references and perhaps a value, which is not empty. -/
def WF : Collapsed → Prop
  | short key val => ∃ k, IsHexKey k ∧ key = hexToCompact k ∧
      if hasTerm k then ∃ v, val = value v else val.IsRef val.WF
  | full children => (∀ i ≠ term, (children i).IsRef (children i).WF) ∧
      (children term = nil ∨ ∃ v, v ≠ [] ∧ children term = value v)
  | _ => False

/-- The node with its keys in hex, as it is loaded under a hash. -/
def toNode : Option Hash → Collapsed → Node
  | h, short key val => .short (compactToHex key) (val.toNode none) ⟨h, false⟩
  | h, full children => .full (fun i => (children i).toNode none) ⟨h, false⟩
  | _, hash k => .hash k
  | _, value v => .value v
  | _, _ => .nil

theorem length_le_flatMap {ι : Type} (f : ι → Bytes) {l : List ι} {i : ι} (h : i ∈ l) :
    (f i).length ≤ (l.flatMap f).length :=
  (sublist_flatten_of_mem (mem_map_of_mem h)).length_le

variable {c : Collapsed} {decode : Bytes → Except DecodeError Node} {children : Nibble → Collapsed}

theorem WF.exists_list (h : c.WF) (hs : c.Small) :
    ∃ p : Bytes, p.length < 2 ^ 64 ∧ c.bytes = encodeList p := by
  cases c with
  | short | full => exact ⟨_, hs.2, rfl⟩
  | _ => exact h.elim

theorem IsRef.isValue (h : c.IsRef c.WF) (hs : c.Small) : IsValue c.bytes := by
  obtain rfl | ⟨k, rfl⟩ | ⟨hwf, -⟩ := h
  · exact .inl ⟨[], by simp, rfl⟩
  · exact .inl ⟨_, by rw [k.length_bytes]; norm_num, rfl⟩
  · exact .inr (hwf.exists_list hs)

/-- What stands under the terminator of a branching node. -/
theorem WF.slot (h : (full children).WF) (hs : (full children).Small) :
    ∃ v : Bytes, v.length < 2 ^ 64 ∧ (children term).bytes = encodeString v ∧
      (if v.length > 0 then Node.value v else Node.nil) = (children term).toNode none := by
  obtain hc | ⟨v, hne, hc⟩ := h.2
  · exact ⟨[], by simp, by rw [hc]; rfl, by rw [hc]; rfl⟩
  · have hlt := length_le_flatMap (fun i => (children i).bytes) (mem_finRange term)
    have hle := length_le_encodeString v
    have hpay := hs.2
    rw [hc, bytes] at hlt
    exact ⟨v, by omega, by rw [hc, bytes], by
      rw [hc, if_pos (length_pos_iff.mpr hne), toNode]⟩

/-- The parts of a branching node are complete values. -/
theorem WF.isValue_child (h : (full children).WF)
    (hs : (full children).Small) (i : Nibble) : IsValue (children i).bytes := by
  by_cases hi : i = term
  · obtain ⟨v, hv, hbytes, -⟩ := h.slot hs
    exact .inl ⟨v, hv, hi ▸ hbytes⟩
  · exact (h.1 i hi).isValue (hs.1 i)

/-- Reading back a reference, given that an embedded node decodes. -/
theorem decodeRef_bytes (h : c.IsRef c.WF) (hs : c.Small) (rest : Bytes)
    (hd : c.WF → decode (c.bytes ++ rest) = .ok (c.toNode none)) :
    decodeRef decode (c.bytes ++ rest) = .ok (c.toNode none, rest) := by
  obtain rfl | ⟨k, rfl⟩ | ⟨hwf, hlt⟩ := h
  · have hsplit := split_encodeString (b := []) (by simp) rest
    rw [show encodeString [] = nil.bytes from rfl] at hsplit
    simp [decodeRef, hsplit, stringKind, toNode]
  · have hkind : stringKind k.bytes = .string := stringKind_of_ne fun c hc => by
      have := congrArg List.length hc
      simp at this
    rw [bytes, decodeRef, split_encodeString (by rw [Hash.length_bytes]; norm_num), hkind]
    simp [toNode]
  · obtain ⟨p, hp, hbytes⟩ := hwf.exists_list hs
    have hsplit := split_encodeList hp rest
    rw [← hbytes] at hsplit
    rw [decodeRef, hsplit]
    simp only [hd hwf]
    rw [if_neg (by rw [length_append]; omega)]

theorem decodeChildren_bytes (cs : List Collapsed) (h : ∀ c ∈ cs, c.IsRef c.WF)
    (hs : ∀ c ∈ cs, c.Small) (i : Nat) (rest : Bytes)
    (hd : ∀ c ∈ cs, ∀ rest, c.WF → decode (c.bytes ++ rest) = .ok (c.toNode none)) :
    decodeChildren decode i cs.length (cs.flatMap bytes ++ rest) =
      .ok (cs.map (toNode none), rest) := by
  induction cs generalizing i with
  | nil => rfl
  | cons c cs ih =>
    simp only [forall_mem_cons] at h hs hd
    simp only [length_cons, map_cons, flatMap_cons, append_assoc, decodeChildren]
    rw [decodeRef_bytes h.1 hs.1 _ (hd.1 _)]
    simp [ih h.2 hs.2 (i + 1) hd.2]

theorem getD_map_finRange {β : Type} (f : Nibble → β) {i : Nibble} (hi : i ≠ term) (d : β) :
    ((finRange 16).map fun i => f i.castSucc).getD i.val d = f i := by
  have hlt : i.val < 16 := Fin.val_lt_last hi
  rw [getD_eq_getElem?_getD, getElem?_eq_getElem (by simpa using hlt)]
  simp

/-- **Read-back of a node**: its encoding, with anything behind it, decodes to it. -/
theorem decodeNodeFuel_bytes (hwf : c.WF) (hs : c.Small) (h : Option Hash) (rest : Bytes)
    (fuel : Nat) (hf : c.bytes.length < fuel) :
    decodeNodeFuel fuel h (c.bytes ++ rest) = .ok (c.toNode h) := by
  induction c generalizing h rest fuel with
  | short key val ih =>
    obtain ⟨k, hk, rfl, hval⟩ := hwf
    obtain ⟨fuel, rfl⟩ := Nat.exists_eq_add_one_of_ne_zero (Nat.ne_zero_of_lt hf)
    have hlt := length_lt_encodeList (encodeString (hexToCompact k) ++ val.bytes)
    have hpay := hs.2
    have hle := length_le_encodeString (hexToCompact k)
    rw [length_append] at hlt hpay
    have hlen : val.bytes.length < fuel := by
      rw [bytes] at hf
      omega
    have hkey : IsValue (encodeString (hexToCompact k)) := .inl ⟨_, by omega, rfl⟩
    have hvalue : IsValue val.bytes := by
      split at hval
      · obtain ⟨v, rfl⟩ := hval
        have := length_le_encodeString v
        rw [bytes] at hpay
        exact .inl ⟨v, by omega, rfl⟩
      · exact hval.isValue hs.1
    have hcount := countValues_flatten [encodeString (hexToCompact k), val.bytes] (by
      simp [hkey, hvalue])
    rw [flatten_cons, flatten_singleton] at hcount
    rw [decodeNodeFuel, if_neg (by rw [bytes, length_append]; omega), bytes,
      splitList_encodeList hs.2]
    simp only [hcount, Except.toOption, Option.getD_some, length_cons, length_nil]
    rw [decodeShort, splitString_encodeString (by omega)]
    simp only [toNode, compactToHex_hexToCompact hk]
    rw [← append_nil val.bytes]
    split at hval
    · next hterm =>
      obtain ⟨v, rfl⟩ := hval
      have := length_le_encodeString v
      rw [bytes] at hpay
      rw [if_pos hterm, bytes, splitString_encodeString (by omega), toNode]
    · next hterm =>
      rw [if_neg hterm, decodeRef_bytes hval hs.1 []]
      exact fun hwf => ih hwf hs.1 none [] fuel hlen
  | full children ih =>
    obtain ⟨fuel, rfl⟩ := Nat.exists_eq_add_one_of_ne_zero (Nat.ne_zero_of_lt hf)
    have hlt := length_lt_encodeList ((finRange 17).flatMap fun i => (children i).bytes)
    have hlen : ∀ i, (children i).bytes.length < fuel := fun i => by
      have := length_le_flatMap (fun i => (children i).bytes) (mem_finRange i)
      rw [bytes] at hf
      omega
    have hcount := countValues_flatten ((finRange 17).map fun i => (children i).bytes) (by
      simpa using hwf.isValue_child hs)
    rw [← flatMap_def] at hcount
    have hchildren := @decodeChildren_bytes (decodeNodeFuel fuel none)
      ((finRange 16).map fun i => children i.castSucc)
      (by simpa using fun i => hwf.1 _ (Tree.castSucc_ne_term i)) (by simpa using fun i => hs.1 _)
      0 (children term).bytes
      (by simpa using fun i rest hc => ih _ hc (hs.1 _) none rest fuel (hlen _))
    have hpayload : ((finRange 17).flatMap fun i => (children i).bytes) =
        ((finRange 16).map fun i => children i.castSucc).flatMap bytes ++
          (children term).bytes := by
      rw [Tree.finRange_eq]
      simp [flatMap_map]
    obtain ⟨v, hv, hslot, hlast⟩ := hwf.slot hs
    have hvalue := splitString_encodeString hv []
    rw [append_nil, ← hslot] at hvalue
    rw [decodeNodeFuel, if_neg (by rw [bytes, length_append]; omega), bytes,
      splitList_encodeList hs.2]
    simp only [hcount, Except.toOption, Option.getD_some, length_map, length_finRange]
    simp only [length_map, length_finRange] at hchildren
    rw [decodeFull, hpayload, hchildren]
    simp only [hvalue, hlast, toNode]
    congr 2
    funext i
    by_cases hi : i = term
    · simp [hi]
    · rw [if_neg hi]
      exact getD_map_finRange (fun i => (children i).toNode none) hi _
  | _ => exact hwf.elim

theorem decodeNode_bytes (hwf : c.WF) (hs : c.Small) (h : Option Hash) :
    decodeNode h c.bytes = .ok (c.toNode h) := by
  simpa [decodeNode] using decodeNodeFuel_bytes hwf hs h [] (c.bytes.length + 1) (by omega)

/-- The node with its keys back in compact form. -/
def ofNode : Node → Collapsed
  | .short key val _ => short (hexToCompact key) (ofNode val)
  | .full children _ => full fun i => ofNode (children i)
  | .hash k => hash k
  | .value v => value v
  | .nil => nil

theorem ofNode_toNode (hwf : c.WF) (h : Option Hash) : ofNode (c.toNode h) = c := by
  have href : ∀ {a : Collapsed}, (a.WF → ofNode (a.toNode none) = a) → a.IsRef a.WF →
      ofNode (a.toNode none) = a := by
    intro a ih ha
    obtain rfl | ⟨k, rfl⟩ | ⟨hwf, -⟩ := ha
    · rfl
    · rfl
    · exact ih hwf
  induction c generalizing h with
  | short key val ih =>
    obtain ⟨k, hk, rfl, hval⟩ := hwf
    rw [toNode, ofNode, compactToHex_hexToCompact hk]
    split at hval
    · obtain ⟨v, rfl⟩ := hval
      rfl
    · rw [href (fun hwf => ih hwf none) hval]
  | full children ih =>
    rw [toNode, ofNode]
    congr 1
    funext i
    by_cases hi : i = term
    · obtain hc | ⟨v, -, hc⟩ := hwf.2 <;> rw [hi, hc] <;> rfl
    · exact href (fun hwf => ih i hwf none) (hwf.1 i hi)
  | _ => exact hwf.elim

/-- **The node codec**: the encoding of a well-formed node is read back as that node with its
keys in hex, under any hash, and belongs to no other well-formed node. -/
theorem nodeToBytes_codec (hwf : c.WF) (hs : c.Small) :
    (∀ h, decodeNode h c.nodeToBytes = .ok (c.toNode h)) ∧
      ∀ d : Collapsed, d.WF → d.Small → d.nodeToBytes = c.nodeToBytes → d = c := by
  rw [nodeToBytes_eq hs]
  refine ⟨decodeNode_bytes hwf hs, fun d hd hds heq => ?_⟩
  have hdec := decodeNode_bytes hd hds none
  rw [← nodeToBytes_eq hds, heq, decodeNode_bytes hwf hs] at hdec
  rw [← ofNode_toNode hwf none, Except.ok.inj hdec, ofNode_toNode hd]

/-- A leaf embedded in a branching node. -/
theorem nodeToBytes_codec_sample :
    let leaf := short (hexToCompact [1, 2, term]) (value [7])
    let n := full fun i => if i = 3 then leaf else nil
    (∀ h, decodeNode h n.nodeToBytes = .ok (n.toNode h)) ∧
      ∀ d : Collapsed, d.WF → d.Small → d.nodeToBytes = n.nodeToBytes → d = n := by
  intro leaf n
  have hleaf : leaf.WF :=
    ⟨[1, 2, term], .inr (Or.inr ⟨by decide, Or.inr ⟨by decide, Radix.terminated_singleton⟩⟩),
      rfl, [7], rfl⟩
  refine nodeToBytes_codec ⟨fun i _ => ?_, .inl rfl⟩ ⟨fun i => ?_, by decide⟩
  · by_cases hi : i = 3
    · simpa [if_pos hi] using .inr (.inr ⟨hleaf, by decide⟩)
    · simpa [if_neg hi] using .inl rfl
  · by_cases hi : i = 3
    · simpa [if_pos hi] using ⟨trivial, by decide⟩
    · simp [if_neg hi, Small]

end Collapsed

namespace Tree

open Radix.Tree

variable [Keccak] {t : Tree}

/-! ## the decoded form of a tree -/

/-- The reference to a child as a decoded node: the hash of a large child, else
the embedded node `n`. -/
def refNode (t : Tree) (n : Node) : Node :=
  if isNode t ∧ 32 ≤ (enc t).length then .hash (digest t) else n

/-- The node that decoding the encoding of a tree gives. -/
def expand : Option Hash → Tree → Node
  | _, nil => .nil
  | _, value v => .value v
  | h, short k c => .short k (refNode c (expand none c)) ⟨h, false⟩
  | h, full cs => .full (fun i => refNode (cs i) (expand none (cs i))) ⟨h, false⟩

/-- The reference to a child as a collapsed node, like `refNode`. -/
def refCollapsed (t : Tree) (n : Collapsed) : Collapsed :=
  if isNode t ∧ 32 ≤ (enc t).length then .hash (digest t) else n

/-- The collapsed node of a tree. -/
def toCollapsed : Tree → Collapsed
  | nil => .nil
  | value v => .value v
  | short k c => .short (hexToCompact k) (refCollapsed c (toCollapsed c))
  | full cs => .full fun i => refCollapsed (cs i) (toCollapsed (cs i))

/-- An embedded child is shorter than its parent. -/
theorem length_ref_lt_short (k : Hex) (c : Tree) : (ref c).length < (enc (short k c)).length := by
  have hlt := length_lt_encodeList (encodeString (hexToCompact k) ++ ref c)
  rw [length_append] at hlt
  exact lt_of_le_of_lt (Nat.le_add_left _ _) hlt

theorem ref_of_small (h : (enc t).length < 32) : ref t = enc t := by
  rw [ref, refOf, if_neg (by omega)]

theorem bytes_refCollapsed {n : Collapsed} (h : n.bytes = enc t) :
    (refCollapsed t n).bytes = ref t := by
  unfold refCollapsed ref refOf
  split
  · rfl
  · exact h

theorem bytes_toCollapsed (t : Tree) : (toCollapsed t).bytes = enc t := by
  induction t with
  | nil | value => rfl
  | short k c ih => rw [toCollapsed, Collapsed.bytes, bytes_refCollapsed ih]; rfl
  | full cs ih => simp only [toCollapsed, Collapsed.bytes, bytes_refCollapsed (ih _)]; rfl

/-- The collapsed node of a tree is read back as its decoded form. -/
theorem toNode_toCollapsed (ht : Sized t) (h : Option Hash) :
    (toCollapsed t).toNode h = expand h t := by
  have href : ∀ {c : Tree} {n : Collapsed}, n.toNode none = expand none c →
      (refCollapsed c n).toNode none = refNode c (expand none c) := by
    intro c n hn
    unfold refCollapsed refNode
    split
    · rfl
    · exact hn
  induction t generalizing h with
  | nil | value => rfl
  | short k c ih =>
    rw [toCollapsed, Collapsed.toNode, compactToHex_hexToCompact ht.short.isHexKey,
      href (ih ht.child_short none), expand]
  | full cs ih => simp [toCollapsed, Collapsed.toNode, href (ih _ (ht.child_full _) none), expand]

theorem small_toCollapsed (ht : Sized t) : (toCollapsed t).Small := by
  have href : ∀ {c : Tree} {n : Collapsed}, n.Small → (refCollapsed c n).Small := by
    intro c n hn
    unfold refCollapsed
    split
    · trivial
    · exact hn
  induction t with
  | nil | value => trivial
  | short k c ih =>
    refine ⟨href (ih ht.child_short), ?_⟩
    rw [bytes_refCollapsed (bytes_toCollapsed c)]
    exact ht.short.payload_short
  | full cs ih =>
    refine ⟨fun i => href (ih i (ht.child_full i)), ?_⟩
    simp only [bytes_refCollapsed (bytes_toCollapsed _)]
    exact ht.full.payload_full

theorem wf_toCollapsed (ht : Sized t) (hn : isNode t) : (toCollapsed t).WF := by
  have href : ∀ {c : Tree}, c.WF term → (isNode c → (toCollapsed c).WF) →
      (refCollapsed c (toCollapsed c)).IsRef (refCollapsed c (toCollapsed c)).WF := by
    intro c hc hwf
    by_cases hl : isNode c ∧ 32 ≤ (enc c).length
    · rw [refCollapsed, if_pos hl]
      exact .inr (.inl ⟨_, rfl⟩)
    rw [refCollapsed, if_neg hl]
    cases hnode : isNode c with
    | true => exact .inr (.inr ⟨hwf hnode, by rw [bytes_toCollapsed]; simpa [hnode] using hl⟩)
    | false => cases c with
      | nil => exact .inl rfl
      | value v => exact hc.elim
      | _ => cases hnode
  induction t with
  | nil | value => cases hn
  | short k c ih =>
    refine ⟨k, ht.short.isHexKey, rfl, ?_⟩
    obtain ⟨hk, hc⟩ | ⟨-, hk, hc⟩ := ht.short.wf
    · obtain ⟨v, rfl⟩ := hc.cases
      rw [if_pos (hasTerm_of_terminated hk)]
      exact ⟨v, rfl⟩
    · rw [hasTerm_eq_false hk]
      exact href hc (ih ht.child_short)
  | full cs ih =>
    refine ⟨fun i hi => href (ht.full.wf.2 i hi) (ih i (ht.child_full i)), ?_⟩
    obtain hc | ⟨v, hc⟩ := ht.full.wf.1.cases
    · exact .inl (by simp [hc, refCollapsed, isNode, toCollapsed])
    · have hb := ht.bounded.2 term
      rw [hc] at hb
      exact .inr ⟨v, hb.1, by simp [hc, refCollapsed, isNode, toCollapsed]⟩

/-- `decodeNode` inverts the encoding of a tree. -/
theorem decodeNode_enc (ht : Fit t) (hn : isNode t) (h : Option Hash) :
    decodeNode h (enc t) = .ok (expand h t) := by
  rw [← bytes_toCollapsed, ← toNode_toCollapsed ht.sized]
  exact Collapsed.decodeNode_bytes (wf_toCollapsed ht.sized hn) (small_toCollapsed ht.sized) h

end Tree

end GoQrl.Mpt
