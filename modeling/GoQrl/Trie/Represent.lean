import GoQrl.Trie.Position
import GoQrl.Trie.Trie

/-!
# GoQrl.Trie.Represent

When a partly loaded node structure stands for a tree.

`Rep o p n t` relates the node `n` at path `p` to the tree `t`, in a trie that
was opened on the original tree `o`: a hash node stands for the node of `o` at
the same path, a cached hash is the hash of the node, and a clean node is the
one that `o` has.  Below a node with a cached hash everything is hashed
(`Sealed`).  The reader serves the nodes of `o` (`Serves`).

Loading a node (`resolveAndTrack_spec`) and hashing (`hash_spec`) keep the
representation.
-/

namespace GoQrl.Mpt

open Rlp Radix Mpt.Tree List Collapsed Node

variable [Keccak]

/-- What the flags of a node at path `p` say about its tree. -/
structure FlagOK (o : Tree) (p : Hex) (flags : NodeFlag) (t : Tree) : Prop where
  hash : ∀ h, flags.hash = some h → h = digest t ∧ Standalone p t
  clean : flags.dirty = false → locate o p = some t

/-- Every loaded node that is not embedded in its parent has its hash cached. -/
def Sealed : Hex → Node → Tree → Prop
  | p, .short k n flags, .short k' c =>
    (Standalone p (.short k' c) → flags.hash ≠ none) ∧ Sealed (p ++ k) n c
  | p, .full ns flags, .full cs =>
    (Standalone p (.full cs) → flags.hash ≠ none) ∧ ∀ i, Sealed (p ++ [i]) (ns i) (cs i)
  | _, _, _ => True

/-- The node structure `n` at path `p` represents the tree. -/
inductive Rep (o : Tree) : Hex → Node → Tree → Prop
  | nil (p : Hex) : Rep o p .nil .nil
  | value (p : Hex) (v : Bytes) : Rep o p (.value v) (.value v)
  | short {p k : Hex} {n : Node} {c : Tree} {flags : NodeFlag} (hc : Rep o (p ++ k) n c)
      (hf : FlagOK o p flags (.short k c)) (hs : flags.hash ≠ none → Sealed (p ++ k) n c) :
      Rep o p (.short k n flags) (.short k c)
  | full {p : Hex} {ns : Nibble → Node} {cs : Nibble → Tree} {flags : NodeFlag}
      (hc : ∀ i, Rep o (p ++ [i]) (ns i) (cs i)) (hf : FlagOK o p flags (.full cs))
      (hs : flags.hash ≠ none → ∀ i, Sealed (p ++ [i]) (ns i) (cs i)) :
      Rep o p (.full ns flags) (.full cs)
  | hash {p : Hex} {t : Tree} (hp : p ≠ []) (hs : Standalone p t) (ho : locate o p = some t) :
      Rep o p (.hash (digest t)) t

/-- The paths below the hash nodes of a node structure: what is not loaded. -/
def Node.Unloaded : Hex → Node → Hex → Prop
  | pre, .hash _, p => pre <+: p
  | pre, .short k c _, p => c.Unloaded (pre ++ k) p
  | pre, .full cs _, p => ∃ i, (cs i).Unloaded (pre ++ [i]) p
  | _, .nil, _ => False
  | _, .value _, _ => False

/-- Whether a node is a reference that is not loaded. -/
def Node.isHash : Node → Bool
  | .hash _ => true
  | _ => false

variable {n : Node} {c : Collapsed} {force : Bool} {o t : Tree} {p : Hex} {ns : Nibble → Node}
    {cs : Nibble → Tree}

omit [Keccak] in
theorem Node.Unloaded.isPrefix {pre : Hex} (h : n.Unloaded pre p) : pre <+: p := by
  induction n generalizing pre with
  | nil | value => exact h.elim
  | hash k => exact h
  | short k c flags ih => exact (prefix_append pre k).trans (ih h)
  | full cs flags ih =>
    obtain ⟨i, hi⟩ := h
    exact (prefix_append pre [i]).trans (ih i hi)

theorem flagOK_new (o : Tree) (p : Hex) (t : Tree) : FlagOK o p newFlag t :=
  ⟨fun h hh => by simp [newFlag] at hh, fun hd => by simp [newFlag] at hd⟩

theorem Rep.isNil (h : Rep o p n t) : n.isNil = true ↔ t = .nil := by
  cases h with
  | nil | value | short | full => simp
  | hash hp hs =>
    have := hs.1
    cases t <;> simp_all [isNil, isNode]

theorem Rep.nil_iff (h : Rep o p n t) : n = .nil ↔ t = .nil := by
  rw [← h.isNil, isNil_iff]

/-! ## loading nodes -/

/-- The reader returns the encoding of every node of the tree that is not
embedded in its parent. -/
def Serves (r : TrieReader) (o : Tree) : Prop :=
  ∀ p u, locate o p = some u → Standalone p u → r.node p (digest u) = .ok (enc u)

/-- The children of a decoded node are hashed. -/
theorem sealed_refNode (hp : p ≠ []) (ht : t.Part term) :
    Sealed p (refNode t (expand none t)) t := by
  induction t generalizing p with
  | nil | value => trivial
  | short k c ih =>
    unfold refNode
    split
    · trivial
    · next hsmall =>
      refine ⟨fun hst => absurd ⟨hst.1, hst.2.resolve_left hp⟩ hsmall, ?_⟩
      exact ih (by simp [hp]) ht.child_short
  | full cs ih =>
    unfold refNode
    split
    · trivial
    · next hsmall =>
      refine ⟨fun hst => absurd ⟨hst.1, hst.2.resolve_left hp⟩ hsmall, fun i => ?_⟩
      exact ih i (by simp) (ht.child_full i)

theorem Rep.value_eq {v : Bytes} (h : Rep o p n (.value v)) : n = .value v := by
  cases h with
  | value => rfl
  | hash _ hs => cases hs.1

theorem sealed_setChild {i : Nibble}
    (h : Sealed (p ++ [i]) (ns i) (cs i) → Sealed (p ++ [i]) n (cs i))
    (hall : ∀ j, Sealed (p ++ [j]) (ns j) (cs j)) :
    ∀ j, Sealed (p ++ [j]) (setChild ns i n j) (cs j) :=
  (Function.forall_update_iff ns (p := fun j n => Sealed (p ++ [j]) n (cs j))).mpr
    ⟨h (hall i), fun j _ => hall j⟩

omit [Keccak] in
theorem unloaded_setChild {i : Nibble} {flags : NodeFlag} {q : Hex}
    (h : (full (setChild ns i n) flags).Unloaded p q) :
    n.Unloaded (p ++ [i]) q ∨ (full ns flags).Unloaded p q :=
  ((Function.exists_update_iff ns (p := fun j n => n.Unloaded (p ++ [j]) q)).mp h).imp_right fun ⟨j,
    _, hj⟩ => ⟨j, hj⟩

/-- The decoded form of a node of the original tree represents it. -/
theorem rep_expand (ho : o.Part term) (hloc : locate o p = some t) {h : Option Hash}
    (hh : ∀ k, h = some k → k = digest t ∧ Standalone p t) : Rep o p (expand h t) t := by
  have ht := Part.locate ho hloc
  induction t generalizing p h with
  | nil => exact .nil p
  | value v => exact .value p v
  | short k c ih =>
    have hk := ht.wf_short.label_ne_nil
    have hchild := locate_child_short ho hk hloc
    have hne : p ++ k ≠ [] := by simp [hk]
    refine .short ?_ ⟨hh, fun _ => hloc⟩ fun _ => sealed_refNode hne ht.child_short
    unfold refNode
    split
    · next hl => exact .hash hne ⟨hl.1, .inr hl.2⟩ hchild
    · exact ih hchild (by simp) ht.child_short
  | full cs ih =>
    refine .full (fun i => ?_) ⟨hh, fun _ => hloc⟩ fun _ i =>
      sealed_refNode (by simp) (ht.child_full i)
    have hchild := locate_child_full ho hloc i
    unfold refNode
    split
    · next hl => exact .hash (by simp) ⟨hl.1, .inr hl.2⟩ hchild
    · exact ih i hchild (by simp) (ht.child_full i)

/-- A node that was loaded by its hash is hashed throughout. -/
theorem sealed_expand (ht : t.Part term) (h : Hash) : Sealed p (expand (some h) t) t := by
  cases t with
  | nil | value => trivial
  | short k c =>
    have hne : p ++ k ≠ [] := by simp [ht.wf_short.label_ne_nil]
    exact ⟨fun _ => by simp, sealed_refNode hne ht.child_short⟩
  | full cs => exact ⟨fun _ => by simp, fun i => sealed_refNode (by simp) (ht.child_full i)⟩

/-- The reference to a child covers the stored nodes below it, provided an
embedded child does. -/
theorem unloaded_refNode {c : Tree} {q : Hex} (hp : p ≠ []) (hloc : locate o p = some c)
    (hs : store o (p ++ q) ≠ none) (h : q ≠ [] → (expand none c).Unloaded p (p ++ q)) :
    (refNode c (expand none c)).Unloaded p (p ++ q) := by
  unfold refNode
  split
  · exact prefix_append _ _
  · next hsmall =>
    refine h ?_
    rintro rfl
    rw [append_nil, store, hloc] at hs
    simp only [Standalone, hp, false_or, ne_eq, ite_eq_right_iff, reduceCtorEq, imp_false,
      not_not] at hs
    exact hsmall hs

/-- The stored nodes below a decoded node are below its hash nodes. -/
theorem unloaded_expand (ho : o.Part term) (hloc : locate o p = some t) (h : Option Hash) {q : Hex}
    (hq : q ≠ []) (hs : store o (p ++ q) ≠ none) : (expand h t).Unloaded p (p ++ q) := by
  have ht := Part.locate ho hloc
  have hat : NodeAt t q := by
    have := nodeAt_of_store ho hs
    rwa [nodeAt_iff ho, locate_append hloc ho, ← nodeAt_iff ht] at this
  induction t generalizing p q h with
  | nil | value => exact hat.elim
  | short k c ih =>
    have hk := ht.wf_short.label_ne_nil
    have hchild := locate_child_short ho hk hloc
    obtain ⟨q', rfl, hq'⟩ := hat.resolve_left hq
    rw [← append_assoc] at hs ⊢
    exact unloaded_refNode (by simp [hk]) hchild hs fun hne =>
      ih hchild none hne hs ht.child_short hq'
  | full cs ih =>
    obtain ⟨i, q', rfl, hq'⟩ := hat.resolve_left hq
    have hchild := locate_child_full ho hloc i
    rw [append_cons] at hs ⊢
    exact ⟨i, unloaded_refNode (by simp) hchild hs fun hne =>
      ih i hchild none hne hs (ht.child_full i) hq'⟩

theorem isHash_expand (h : Option Hash) (t : Tree) : (expand h t).isHash = false := by
  cases t <;> rfl

/-- **Loading a node** of the original tree. -/
theorem resolveAndTrack_spec (ho : Fit o) {r : TrieReader} (hr : Serves r o)
    (hloc : locate o p = some t) (hs : Standalone p t) (s : Tracer) :
    resolveAndTrack r (digest t) p s = (.ok (expand (some (digest t)) t), s.onRead p (enc t)) := by
  rw [resolveAndTrack, hr p t hloc hs,
    TrieM.bind_ok (show (liftM (Except.ok (enc t)) : TrieM Bytes) s = (.ok (enc t), s) from rfl),
    decodeNode_enc (ho.locate hloc hs.1) hs.1 (some (digest t))]
  rfl

/-! ## hashing -/

/-- What `shortnodeToHash` and `fullnodeToHash` return for a collapsed node with
the right encoding. -/
theorem toHash_eq (hn : isNode t)
    (hsmall : c.Small) (hbytes : c.bytes = enc t) (hforce : force = true ↔ p = []) :
    toHash c force = if Standalone p t then .hash (digest t) else c := by
  have henc : c.nodeToBytes = enc t := by rw [nodeToBytes_eq hsmall, hbytes]
  have hiff : ((enc t).length < 32 ∧ force = false) ↔ ¬ Standalone p t := by
    unfold Standalone
    cases force <;> simp_all
  simp [toHash, henc, hiff, digest]

/-- The collapsed reference to a node at path `p`. -/
structure RefOK (p : Hex) (c : Collapsed) (t : Tree) : Prop where
  hash : Standalone p t → c = .hash (digest t)
  small : c.Small
  bytes : ¬ Standalone p t → c.bytes = enc t
  noHash : ¬ Standalone p t → c.asHash = none

theorem RefOK.bytes_eq (hp : p ≠ []) (h : RefOK p c t) : c.bytes = ref t := by
  unfold ref refOf
  by_cases hst : Standalone p t
  · rw [if_pos ⟨hst.1, hst.2.resolve_left hp⟩, h.hash hst]
    rfl
  · rw [if_neg fun hl => hst ⟨hl.1, .inr hl.2⟩, h.bytes hst]

theorem RefOK.flag (h : RefOK p c t) {flags : NodeFlag} (hf : FlagOK o p flags t) :
    FlagOK o p { flags with hash := c.asHash } t := by
  refine ⟨fun k hk => ?_, hf.clean⟩
  by_cases hst : Standalone p t
  · rw [h.hash hst] at hk
    exact ⟨(Option.some.inj hk).symm, hst⟩
  · simp [h.noHash hst] at hk

theorem RefOK.hashed (h : RefOK p c t) (hst : Standalone p t) : c.asHash ≠ none := by
  rw [h.hash hst]
  simp [asHash]

/-- What hashing a node gives: its reference, and a node with all hashes cached
that represents the same tree. -/
structure HashOK (o : Tree) (p : Hex) (n : Node) (t : Tree) (res : Collapsed × Node) : Prop where
  ref : RefOK p res.1 t
  rep : Rep o p res.2 t
  sealed : Sealed p res.2 t
  unloaded : ∀ x, res.2.Unloaded p x ↔ n.Unloaded p x

/-- The collapsed form of an edge has the encoding of its tree. -/
theorem collapsed_short {k : Hex} {c : Tree} {cc : Collapsed} (ht : Sized (.short k c))
    (hc : RefOK (p ++ k) cc c) :
    Collapsed.Small (.short (hexToCompact k) cc) ∧
      bytes (.short (hexToCompact k) cc) = enc (.short k c) := by
  have hne : p ++ k ≠ [] := by simp [ht.part.wf_short.label_ne_nil]
  constructor
  · exact ⟨hc.small, by rw [hc.bytes_eq hne]; exact ht.short.payload_short⟩
  · rw [bytes, hc.bytes_eq hne]
    rfl

/-- The collapsed form of a branching node has the encoding of its tree. -/
theorem collapsed_full {cc : Nibble → Collapsed} (ht : Sized (.full cs))
    (hsm : ∀ i, (cc i).Small) (hb : ∀ i, (cc i).bytes = ref (cs i)) :
    Collapsed.Small (.full cc) ∧ bytes (.full cc) = enc (.full cs) := by
  constructor
  · refine ⟨hsm, ?_⟩
    simp only [hb]
    exact ht.full.payload_full
  · simp only [bytes, hb]
    rfl

theorem refOK_standalone (hst : Standalone p t) : RefOK p (.hash (digest t)) t :=
  ⟨fun _ => rfl, trivial, fun hn => absurd hst hn, fun hn => absurd hst hn⟩

theorem refOK_embedded (hst : ¬ Standalone p t)
    (hsmall : c.Small) (hbytes : c.bytes = enc t) (hhash : c.asHash = none) : RefOK p c t :=
  ⟨fun h => absurd h hst, hsmall, fun _ => hbytes, fun _ => hhash⟩

/-- Hashing a collapsed node with the right encoding. -/
theorem refOK_toHash (hn : isNode t)
    (h : c.Small ∧ c.bytes = enc t) (hforce : force = true ↔ p = []) (hhash : c.asHash = none) :
    RefOK p (toHash c force) t := by
  rw [toHash_eq hn h.1 h.2 hforce]
  split
  · next hst => exact refOK_standalone hst
  · next hst => exact refOK_embedded hst h.1 h.2 hhash

/-- A node whose hash is cached is returned as it is. -/
theorem hashOK_cached {h : Hash} (hrep : Rep o p n t)
    (hsealed : Sealed p n t) (hh : h = digest t ∧ Standalone p t) :
    HashOK o p n t (.hash h, n) := by
  obtain ⟨rfl, hst⟩ := hh
  exact ⟨refOK_standalone hst, hrep, hsealed, fun _ => Iff.rfl⟩

/-- The value slot of a branching node is not hashed. -/
theorem asIs_slot (h : Rep o p n t) (ht : t.IsSlot) :
    n.asIs.Small ∧ n.asIs.bytes = ref t ∧ Sealed p n t := by
  rcases ht.cases with rfl | ⟨v, rfl⟩
  · cases h with
    | nil => exact ⟨trivial, rfl, trivial⟩
    | hash _ hs => cases hs.1
  · cases h with
    | value => exact ⟨trivial, rfl, trivial⟩
    | hash _ hs => cases hs.1

/-- The collapsed children of a branching node, once each child is hashed. -/
theorem collapsed_kids
    (hc : ∀ i, Rep o (p ++ [i]) (ns i) (cs i)) (ht : Sized (.full cs))
    (hch : ∀ i, HashOK o (p ++ [i]) (ns i) (cs i) (hash (ns i) false)) :
    Collapsed.Small (.full fun i => if i = term then (ns i).asIs
        else if (ns i).isNil then .value [] else (hash (ns i) false).1) ∧
      bytes (.full fun i => if i = term then (ns i).asIs
        else if (ns i).isNil then .value [] else (hash (ns i) false).1) = enc (.full cs) := by
  have hslot := asIs_slot (hc term) ht.part.wf_full.1
  have hkids : ∀ i, Collapsed.Small (if i = term then (ns i).asIs
      else if (ns i).isNil then .value [] else (hash (ns i) false).1) ∧
      bytes (if i = term then (ns i).asIs
        else if (ns i).isNil then .value [] else (hash (ns i) false).1) = ref (cs i) := by
    intro i
    by_cases hi : i = term
    · subst hi
      exact ⟨hslot.1, hslot.2.1⟩
    · rw [if_neg hi]
      split
      · next hnil => rw [(hc i).isNil.mp hnil]; exact ⟨trivial, rfl⟩
      · exact ⟨(hch i).ref.small, (hch i).ref.bytes_eq (by simp)⟩
  exact collapsed_full ht (fun i => (hkids i).1) fun i => (hkids i).2

/-- **The hasher** computes the reference of the represented tree and keeps the
representation. -/
theorem hash_spec (h : Rep o p n t) (ht : Sized t) (hforce : force = true ↔ p = []) :
    HashOK o p n t (hash n force) := by
  induction h generalizing force with
  | nil p =>
    exact ⟨⟨fun hst => (nomatch hst.1), trivial, fun _ => rfl, fun _ => rfl⟩, .nil p, trivial,
      fun _ => Iff.rfl⟩
  | value p v =>
    exact ⟨⟨fun hst => (nomatch hst.1), trivial, fun _ => rfl, fun _ => rfl⟩, .value p v, trivial,
      fun _ => Iff.rfl⟩
  | hash hp hs ho => exact hashOK_cached (.hash hp hs ho) trivial ⟨rfl, hs⟩
  | @short p k n c flags hc hf hs ih =>
    cases hh : flags.hash with
    | some h =>
      simp only [hash, hh]
      exact hashOK_cached (.short hc hf hs) ⟨fun _ => by simp [hh], hs (by simp [hh])⟩
        (hf.hash h hh)
    | none =>
      have hne : p ++ k ≠ [] := by simp [ht.part.wf_short.label_ne_nil]
      have hch : HashOK o (p ++ k) n c (hash n false) := ih ht.child_short (by simp [hne])
      have href := refOK_toHash rfl (collapsed_short ht hch.ref) hforce rfl
      simp only [hash, hh]
      exact ⟨href, .short hch.rep (href.flag hf) fun _ => hch.sealed, ⟨href.hashed, hch.sealed⟩,
        hch.unloaded⟩
  | @full p ns cs flags hc hf hs ih =>
    cases hh : flags.hash with
    | some h =>
      simp only [hash, hh]
      exact hashOK_cached (.full hc hf hs) ⟨fun _ => by simp [hh], hs (by simp [hh])⟩ (hf.hash h hh)
    | none =>
      have hch : ∀ i, HashOK o (p ++ [i]) (ns i) (cs i) (hash (ns i) false) := fun i =>
        ih i (ht.child_full i) (by simp)
      have hslot := asIs_slot (hc term) ht.part.wf_full.1
      have href := refOK_toHash rfl (collapsed_kids hc ht hch) hforce rfl
      have hcached : ∀ i, Rep o (p ++ [i]) (if i = term ∨ (ns i).isNil then ns i
          else (hash (ns i) false).2) (cs i) ∧ Sealed (p ++ [i]) (if i = term ∨ (ns i).isNil
          then ns i else (hash (ns i) false).2) (cs i) ∧ ∀ x, Node.Unloaded (p ++ [i])
          (if i = term ∨ (ns i).isNil then ns i else (hash (ns i) false).2) x ↔
          (ns i).Unloaded (p ++ [i]) x := by
        intro i
        split
        next hi =>
          refine ⟨hc i, ?_, fun _ => Iff.rfl⟩
          rcases hi with rfl | hnil
          · exact hslot.2.2
          · rw [(hc i).isNil.mp hnil, isNil_iff.mp hnil]; trivial
        · exact ⟨(hch i).rep, (hch i).sealed, (hch i).unloaded⟩
      simp only [hash, hh]
      exact ⟨href, .full (fun i => (hcached i).1) (href.flag hf) fun _ i => (hcached i).2.1,
        ⟨href.hashed, fun i => (hcached i).2.1⟩,
        fun x => exists_congr fun i => (hcached i).2.2 x⟩

/-- The collapsed form of a loaded node has the encoding of its tree. -/
theorem hashChildren_spec (h : Rep o p n t) (ht : Sized t) (hn : isNode t) (hl : n.isHash = false) :
    (hashChildren n).Small ∧ (hashChildren n).bytes = enc t ∧
      proofHash n = (hashChildren n, toHash (hashChildren n) false) := by
  cases h with
  | nil | value => cases hn
  | hash => cases hl
  | @short _ k m c _ hc _ _ =>
    have hne : p ++ k ≠ [] := by simp [ht.part.wf_short.label_ne_nil]
    have hch : HashOK o (p ++ k) m c (hash m false) := hash_spec hc ht.child_short (by simp [hne])
    obtain ⟨h1, h2⟩ := collapsed_short ht hch.ref
    exact ⟨h1, h2, rfl⟩
  | full hc _ _ =>
    obtain ⟨h1, h2⟩ := collapsed_kids hc ht fun i => hash_spec (hc i) (ht.child_full i) (by simp)
    exact ⟨h1, h2, rfl⟩

end GoQrl.Mpt
