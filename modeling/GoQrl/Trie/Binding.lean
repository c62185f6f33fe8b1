import GoQrl.Trie.Run

/-!
# GoQrl.Trie.Binding

A root hash determines its tree, if no other string has the hash of one of the
tree's nodes.  That is all of collision resistance that the proofs need: a hash
into 32 bytes cannot be injective on all strings, but it can be on these.
-/

namespace GoQrl.Mpt.Tree

open Rlp Radix

section Binding

variable [Keccak] {t u : Tree}

/-- No other string has the hash of a node that is stored for the tree. -/
def Unforgeable (t : Tree) : Prop :=
  ∀ p e, store t p = some e → ∀ b, Keccak.hash b = Keccak.hash e → b = e

/-- No other string has the hash of a large node below the tree. -/
def Rigid (t : Tree) : Prop :=
  ∀ q u, locate t q = some u → isNode u → 32 ≤ (enc u).length →
    ∀ b, Keccak.hash b = digest u → b = enc u

theorem Unforgeable.rigid (h : Unforgeable t) : Rigid t :=
  fun q _ hu hn hl b hb => h q _ (store_of_locate hu ⟨hn, .inr hl⟩) b hb

theorem Unforgeable.root (h : Unforgeable t) (hn : isNode t) {b : Bytes}
    (hb : Keccak.hash b = digest t) : b = enc t :=
  h [] _ (store_of_locate (locate_nil t) ⟨hn, .inl rfl⟩) b hb

theorem Rigid.child_short {k : Hex} {c : Tree} (hk : k ≠ []) (h : Rigid (.short k c)) : Rigid c :=
  fun q u hu => h (k ++ q) u (by rwa [locate_short_append hk])

theorem Rigid.child_full {cs : Nibble → Tree} (h : Rigid (.full cs)) (i : Nibble) : Rigid (cs i) :=
  fun q u hu => h (i :: q) u hu

theorem expand_ne_hash (h : Option Hash) (t : Tree) (k : Hash) : expand h t ≠ .hash k := by
  cases t <;> simp [expand]

/-- Trees with one encoding have one decoded form. -/
theorem expand_eq_of_enc (ht : Fit t) (hu : Fit u) (hnt : isNode t) (hnu : isNode u)
    (h : enc t = enc u) :
    expand none t = expand none u := by
  have h1 := decodeNode_enc ht hnt none
  rw [h, decodeNode_enc hu hnu none] at h1
  exact (Except.ok.inj h1).symm

omit [Keccak] in
theorem Sized.fit (h : Sized t) (hn : isNode t) : Fit t := by
  cases t with
  | nil | value => cases hn
  | short k c => exact h.short
  | full cs => exact h.full

/-- The reference to a tree determines its decoded form. -/
theorem expand_eq_of_refNode (ht : Sized t) (hu : Sized u) (hr : Rigid t)
    (h : refNode t (expand none t) = refNode u (expand none u)) :
    expand none t = expand none u := by
  unfold refNode at h
  split at h
  · next h1 =>
    split at h
    · next h2 =>
      have henc := hr [] t (locate_nil t) h1.1 h1.2 (enc u) (Node.hash.inj h).symm
      exact expand_eq_of_enc (ht.fit h1.1) (hu.fit h2.1) h1.1 h2.1 henc.symm
    · exact absurd h.symm (expand_ne_hash _ _ _)
  · split at h
    · exact absurd h (expand_ne_hash _ _ _)
    · exact h

/-- The decoded form determines the tree. -/
theorem expand_inj (ht : Sized t) (hu : Sized u) (hr : Rigid t)
    (h : expand none t = expand none u) : t = u := by
  induction t generalizing u with
  | nil | value => cases u <;> simp_all [expand]
  | short k c ih =>
    cases u with
    | short k' c' =>
      obtain ⟨rfl, hc, -⟩ := Node.short.inj h
      have hchild := hr.child_short ht.part.wf_short.label_ne_nil
      rw [ih ht.child_short hu.child_short hchild
        (expand_eq_of_refNode ht.child_short hu.child_short hchild hc)]
    | _ => cases h
  | full cs ih =>
    cases u with
    | full cs' =>
      obtain ⟨hc, -⟩ := Node.full.inj h
      refine congrArg Tree.full (funext fun i => ?_)
      have hchild := hr.child_full i
      exact ih i (ht.child_full i) (hu.child_full i) hchild
        (expand_eq_of_refNode (ht.child_full i) (hu.child_full i) hchild (congrFun hc i))
    | _ => cases h

/-- **The root hash determines the tree.** -/
theorem eq_of_digest (ht : Fit t) (hu : Fit u) (hnt : isNode t) (hnu : isNode u)
    (hr : Unforgeable t) (h : digest u = digest t) : u = t :=
  (expand_inj ht.sized hu.sized hr.rigid (expand_eq_of_enc ht hu hnt hnu (hr.root hnt h).symm)).symm

end Binding

end GoQrl.Mpt.Tree
