import GoQrl.Trie.Codec

/-!
# GoQrl.Trie.Position

Nodes of a tree by their path.  `locate` finds the subtree at a path,
`NodeAt` are the paths of inner nodes, and `store` is the path-keyed node store
of a tree: the encoding of every node that is not embedded in its parent.

`replant` describes the node paths of a whole trie after the subtree below one
path was exchanged.
-/

namespace GoQrl.Mpt.Tree

open Radix Radix.Tree

/-- The subtree at a path. -/
def locate : Tree → Hex → Option Tree
  | t, [] => some t
  | short k c, a :: p =>
    match divide k (a :: p) with
    | .matched rest => locate c rest
    | _ => none
  | full cs, a :: p => locate (cs a) p
  | nil, _ :: _ => none
  | value _, _ :: _ => none

/-- The paths of inner nodes. -/
def NodeAt : Tree → Hex → Prop
  | nil, _ => False
  | value _, _ => False
  | short k c, p => p = [] ∨ ∃ q, p = k ++ q ∧ NodeAt c q
  | full cs, p => p = [] ∨ ∃ a q, p = a :: q ∧ NodeAt (cs a) q

@[simp] theorem nodeAt_nil (p : Hex) : NodeAt nil p ↔ False := Iff.rfl
@[simp] theorem nodeAt_value (v : Bytes) (p : Hex) : NodeAt (value v) p ↔ False := Iff.rfl

/-! ## locating -/

@[simp] theorem locate_nil (t : Tree) : locate t [] = some t := by
  cases t <;> rfl

@[simp] theorem locate_full_cons (cs : Nibble → Tree) (a : Nibble) (p : Hex) :
    locate (full cs) (a :: p) = locate (cs a) p := rfl

variable {k p : Hex} {t u c : Tree}

/-- A path that starts with the label goes on below the edge. -/
theorem locate_short_append (hk : k ≠ []) (c : Tree) (p : Hex) :
    locate (short k c) (k ++ p) = locate c p := by
  obtain ⟨a, k, rfl⟩ := List.exists_cons_of_ne_nil hk
  rw [List.cons_append, locate, ← List.cons_append, divide_append]

/-- What is found below an edge. -/
theorem locate_short_eq_some (h : locate (short k c) p = some u) :
    (p = [] ∧ u = short k c) ∨ ∃ q, p = k ++ q ∧ locate c q = some u := by
  cases p with
  | nil => exact .inl ⟨rfl, (Option.some.inj h).symm⟩
  | cons a p =>
    have hs := divide_spec k (a :: p)
    rw [locate] at h
    cases hd : divide k (a :: p) with
    | matched rest =>
      rw [hd] at hs h
      exact .inr ⟨rest, hs, h⟩
    | split | ended => simp [hd] at h

/-- Induction over the way to a subtree. -/
@[elab_as_elim]
theorem locate_way {motive : ∀ p t, locate t p = some u → Prop} (here : motive [] u (locate_nil u))
    (short : ∀ k c q (hc : locate c q = some u) h, motive q c hc → motive (k ++ q) (short k c) h)
    (full : ∀ cs a q (hc : locate (cs a) q = some u), motive q (cs a) hc →
      motive (a :: q) (full cs) hc)
    (h : locate t p = some u) : motive p t h := by
  induction t generalizing p with
  | nil | value =>
    cases p with
    | nil => cases h; exact here
    | cons a p => cases h
  | short k c ih =>
    obtain ⟨rfl, rfl⟩ | ⟨q, rfl, hc⟩ := locate_short_eq_some h
    · exact here
    · exact short k c q hc h (ih hc)
  | full cs ih =>
    cases p with
    | nil => cases h; exact here
    | cons a p => exact full cs a p h (ih a h)

/-- Locating goes through intermediate nodes. -/
theorem locate_append (h : locate t p = some u) (ht : t.Part term) (q : Hex) :
    locate t (p ++ q) = locate u q := by
  induction h using locate_way with
  | here => rfl
  | short k c p hc h ih =>
    rw [List.append_assoc, locate_short_append ht.wf_short.label_ne_nil]
    exact ih ht.child_short
  | full cs a p hc ih => exact ih (ht.child_full a)

/-- The child of a located edge. -/
theorem locate_child_short {o : Tree} (ho : o.Part term) (hk : k ≠ [])
    (h : locate o p = some (short k c)) :
    locate o (p ++ k) = some c := by
  have := locate_short_append hk c []
  rw [List.append_nil, locate_nil] at this
  rw [locate_append h ho, this]

/-- A child of a located branching node. -/
theorem locate_child_full {o : Tree} (ho : o.Part term) {cs : Nibble → Tree}
    (h : locate o p = some (full cs)) (a : Nibble) : locate o (p ++ [a]) = some (cs a) := by
  rw [locate_append h ho, locate_full_cons, locate_nil]

/-- A position of a node is one where a node is found. -/
theorem nodeAt_iff (ht : t.Part term) : NodeAt t p ↔ ∃ u, locate t p = some u ∧ isNode u := by
  induction t generalizing p with
  | nil | value => cases p <;> simp [NodeAt, locate, isNode]
  | short k c ih =>
    constructor
    · rintro (rfl | ⟨q, rfl, hq⟩)
      · exact ⟨_, rfl, rfl⟩
      · rw [locate_short_append ht.wf_short.label_ne_nil]
        exact (ih ht.child_short).mp hq
    · rintro ⟨u, hu, hn⟩
      rcases locate_short_eq_some hu with ⟨rfl, -⟩ | ⟨q, rfl, hq⟩
      · exact .inl rfl
      · exact .inr ⟨q, rfl, (ih ht.child_short).mpr ⟨u, hq, hn⟩⟩
  | full cs ih =>
    cases p with
    | nil => simp [NodeAt, locate, isNode]
    | cons a p =>
      rw [locate_full_cons, ← ih a (ht.child_full a)]
      simp [NodeAt]

theorem Part.locate (ht : t.Part term) (h : locate t p = some u) : u.Part term := by
  induction h using locate_way with
  | here => exact ht
  | short k c q hc h ih => exact ih ht.child_short
  | full cs a q hc ih => exact ih (ht.child_full a)

/-- A located inner node of a tree that fits, fits. -/
theorem Fit.locate (ht : Fit t) (h : locate t p = some u) (hu : isNode u) : Fit u := by
  -- a leaf has no inner node below it
  have hleaf : ∀ {c : Tree} {q}, isNode c = false → Tree.locate c q = some u → False := by
    intro c q hc h
    cases c with
    | nil | value =>
      cases q <;> cases h
      cases hu
    | short | full => cases hc
  induction h using locate_way with
  | here => exact ht
  | short k c q hc h ih =>
    obtain ⟨-, hv⟩ | ⟨-, hk, -⟩ := ht.wf
    · obtain ⟨v, rfl⟩ := hv.cases
      exact (hleaf rfl hc).elim
    · exact ih (ht.child_short hk)
  | full cs a q hc ih =>
    by_cases ha : a = term
    · subst ha
      obtain h0 | ⟨v, h0⟩ := ht.wf.1.cases <;> exact (hleaf (by rw [h0]; rfl) hc).elim
    · exact ih (ht.child_full ha)

/-! ## the path-keyed store -/

section Store

variable [Keccak]

/-- The node at the path has an encoding of its own: it is the root, or not
small enough to be embedded in its parent. -/
def Standalone (p : Hex) (t : Tree) : Prop :=
  isNode t ∧ (p = [] ∨ 32 ≤ (enc t).length)

instance (p : Hex) (t : Tree) : Decidable (Standalone p t) :=
  inferInstanceAs (Decidable (_ ∧ _))

/-- The path-keyed node store of a tree. -/
def store (t : Tree) (p : Hex) : Option Bytes :=
  match locate t p with
  | some u => if Standalone p u then some (enc u) else none
  | none => none

theorem store_nil (p : Hex) : store nil p = none := by
  cases p <;> rfl

/-- Stored are the nodes that are large enough, and the root. -/
theorem store_eq_some {b : Bytes} :
    store t p = some b ↔ ∃ u, locate t p = some u ∧ Standalone p u ∧ enc u = b := by
  unfold store
  cases locate t p with
  | none | some => simp

theorem store_eq_none (h : ∀ u, locate t p = some u → ¬ Standalone p u) : store t p = none :=
  Option.eq_none_iff_forall_ne_some.mpr fun _ hb => by
    obtain ⟨u, hu, hs, -⟩ := store_eq_some.mp hb
    exact h u hu hs

theorem store_of_locate (h : locate t p = some u) (hs : Standalone p u) :
    store t p = some (enc u) :=
  store_eq_some.mpr ⟨u, h, hs, rfl⟩

/-- What is stored is a node of the tree. -/
theorem nodeAt_of_store (ht : t.Part term) (h : store t p ≠ none) : NodeAt t p := by
  cases hs : store t p with
  | none => exact absurd hs h
  | some b =>
    obtain ⟨u, hu, hst, -⟩ := store_eq_some.mp hs
    exact (nodeAt_iff ht).mpr ⟨u, hu, hst.1⟩

end Store

/-! ## exchanging a subtree -/

/-- The node paths `P` with those below `pre` replaced by the ones of `t`. -/
def replant (P : Hex → Prop) (pre : Hex) (t : Tree) (p : Hex) : Prop :=
  (∃ q, p = pre ++ q ∧ NodeAt t q) ∨ (¬ pre <+: p ∧ P p)

variable {P : Hex → Prop} {pre : Hex}

/-- Below the place the nodes are those of the new tree. -/
theorem replant_append (t : Tree) (q : Hex) : replant P pre t (pre ++ q) ↔ NodeAt t q := by
  constructor
  · rintro (⟨q', hq, h⟩ | ⟨hn, -⟩)
    · rwa [List.append_cancel_left hq]
    · exact absurd (List.prefix_append pre q) hn
  · exact fun h => .inl ⟨q, rfl, h⟩

/-- Elsewhere they are those of the old one. -/
theorem replant_outside (t : Tree) (h : ¬ pre <+: p) : replant P pre t p ↔ P p := by
  constructor
  · rintro (⟨q, rfl, -⟩ | ⟨-, hp⟩)
    · exact absurd (List.prefix_append pre q) h
    · exact hp
  · exact fun hp => .inr ⟨h, hp⟩

/-- Two descriptions of the present paths agree when they agree below `pre`
and outside. -/
theorem replant_iff {Q : Hex → Prop} (hin : ∀ q, Q (pre ++ q) ↔ NodeAt t q)
    (hout : ∀ p, ¬ pre <+: p → (Q p ↔ P p)) (p : Hex) : Q p ↔ replant P pre t p := by
  by_cases h : pre <+: p
  · obtain ⟨q, rfl⟩ := h
    rw [hin, replant_append]
  · rw [hout p h, replant_outside t h]

theorem replant_self (h : ∀ q, P (pre ++ q) ↔ NodeAt t q) (p : Hex) : P p ↔ replant P pre t p :=
  replant_iff h (fun _ _ => Iff.rfl) p

theorem not_prefix_append (h : ¬ pre <+: p) (k : Hex) : ¬ pre ++ k <+: p :=
  fun hk => h ((List.prefix_append pre k).trans hk)

theorem eq_nil_of_prefix_self (h : pre ++ k <+: pre) : k = [] := by
  have := h.length_le
  rw [List.length_append] at this
  exact List.length_eq_zero_iff.mp (by omega)

/-- Exchanging the child of an edge. -/
theorem replant_short (hk : k ≠ []) {c' : Tree} (h : ∀ q, P (pre ++ q) ↔
    NodeAt (short k c) q) (p : Hex) :
    replant P (pre ++ k) c' p ↔ replant P pre (short k c') p := by
  refine replant_iff (fun q => ?_) (fun p hp => replant_outside _ (not_prefix_append hp k)) p
  by_cases hq : k <+: q
  · obtain ⟨q, rfl⟩ := hq
    rw [← List.append_assoc, replant_append]
    constructor
    · exact fun h => .inr ⟨q, rfl, h⟩
    · rintro (h0 | ⟨q', h1, h2⟩)
      · simp [hk] at h0
      · rwa [List.append_cancel_left h1]
  · have hnot : ∀ u : Tree, NodeAt (short k u) q ↔ q = [] := by
      intro u
      constructor
      · rintro (h0 | ⟨q', rfl, -⟩)
        · exact h0
        · exact absurd (List.prefix_append k q') hq
      · exact fun h0 => .inl h0
    rw [replant_outside _ (by rwa [List.prefix_append_right_inj]), h, hnot, hnot]

/-- Exchanging one child of a branching node. -/
theorem replant_full {cs : Nibble → Tree} {c' : Tree} {a : Nibble}
    (h : ∀ q, P (pre ++ q) ↔ NodeAt (full cs) q) (p : Hex) :
    replant P (pre ++ [a]) c' p ↔ replant P pre (full (Function.update cs a c')) p := by
  refine replant_iff (fun q => ?_) (fun p hp => replant_outside _ (not_prefix_append hp _)) p
  by_cases hq : [a] <+: q
  · obtain ⟨q, rfl⟩ := hq
    rw [← List.append_assoc, replant_append]
    simp [NodeAt]
  · rw [replant_outside _ (by rwa [List.prefix_append_right_inj]), h]
    cases q with
    | nil => simp [NodeAt]
    | cons b q =>
      have hb : b ≠ a := by
        rintro rfl
        exact hq ⟨q, rfl⟩
      simp [NodeAt, hb]

end GoQrl.Mpt.Tree
