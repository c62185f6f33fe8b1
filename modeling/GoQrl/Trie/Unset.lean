import GoQrl.Lib.RadixPrune
import GoQrl.Trie.ProofPath
import GoQrl.Trie.StackInsert

/-!
# GoQrl.Trie.Unset

Removing a range from a loaded tree.  `unset` removes what is on one side of an
edge key and `unsetInternal` what is between two of them.  Both only cut
(`Pruned`), remove exactly the entries of the range, and leave no hash node where
a key of the range could lead.

The keys of the tree have one length (`Uniform`), so no key ends inside an edge
label and no branching node has a value.
-/

namespace GoQrl.Mpt

open Rlp Radix Mpt.Tree Function Proof Node Radix.Tree
open List hiding nil get insert

/-! ## keys of one length -/

/-- All keys of the tree have `len` digits. -/
def Uniform (len : Nat) (t : Tree) : Prop :=
  ∀ key, Terminated term key → t.get key ≠ none → key.length = len

variable {len : Nat} {a b k key K : Hex} {rl : Bool} {cs : Nibble → Tree} {c : Tree} {i : Nibble}
    {val : Node}
  {ns : Nibble → Node}

theorem Uniform.child_short (h : Uniform (k.length + len) (.short k c)) (hk : term ∉ k) :
    Uniform len c := by
  intro key hkey hget
  have := h (k ++ key) ((terminated_append_iff hk).mpr hkey) (by rwa [Tree.get_short_append])
  rw [length_append] at this
  omega

theorem Uniform.child_full (h : Uniform (len + 1) (.full cs)) (hi : i ≠ term) :
    Uniform len (cs i) := by
  intro key hkey hget
  have := h (i :: key) (.inr ⟨hi, hkey⟩) hget
  rw [length_cons] at this
  omega

/-- An edge is no longer than the keys that use it. -/
theorem Uniform.label_le (ht : (short k c).Canon term) (h : Uniform len (.short k c)) :
    k.length ≤ len := by
  obtain ⟨key, hkey, hget⟩ := ht.exists_get (by simp)
  rw [← h key hkey hget]
  exact (prefix_of_get_short hget).length_le

theorem Uniform.not_prefixed (ht : (short k c).Canon term) (h : Uniform key.length (.short k c))
    (hpre : ¬ k <+: key) : ¬ key <+: k := fun hkey =>
  hpre (hkey.eq_of_length (le_antisymm hkey.length_le (h.label_le ht)) ▸ prefix_refl _)

/-- A branching node has no value, and its keys go on. -/
theorem Uniform.full (ht : (Tree.full cs).Canon term)
    (h : Uniform len (.full cs)) : cs term = .nil ∧ 1 < len := by
  obtain ⟨a, key, ha, hkey, hget⟩ := ht.exists_get_ne term
  have hlen := h (a :: key) hkey hget
  have hpos := length_pos_iff.mpr (hkey.tail ha).ne_nil
  rw [length_cons] at hlen
  refine ⟨?_, by omega⟩
  by_contra hne
  obtain ⟨key', hkey', hget'⟩ := ht.exists_get_child hne
  have hlen' := h (term :: key') hkey' hget'
  rw [hkey'.eq_nil_of_cons, length_singleton] at hlen'
  omega

/-- At a branching node a key of the right length has no terminator. -/
theorem Uniform.digit_ne (ht : (Tree.full cs).Canon term) (hkey : Terminated term (i :: key))
    (h : Uniform (i :: key).length (.full cs)) : i ≠ term := by
  rintro rfl
  have := (h.full ht).2
  rw [hkey.eq_nil_of_cons, length_singleton] at this
  omega

/-! ## the order of keys -/

theorem Diverges.lt (h : Diverges a b) : a < b := by
  obtain ⟨p, x, y, r, r', rfl, rfl, hxy⟩ := h
  induction p with
  | nil => exact cons_lt_cons_iff.mpr (.inl hxy)
  | cons c p ih => exact cons_lt_cons_iff.mpr (.inr ⟨rfl, ih⟩)

theorem Diverges.asymm (h : Diverges a b) : ¬ Diverges b a :=
  fun h' => absurd (List.lt_trans h.lt h'.lt) (List.lt_irrefl _)

theorem not_diverges_self (a : Hex) : ¬ Diverges a a := fun h => h.asymm h

theorem Diverges.left (h : Diverges a b) (x : Hex) : Diverges (a ++ x) b := by
  obtain ⟨p, c, d, r, r', rfl, rfl, hcd⟩ := h
  exact ⟨p, c, d, r ++ x, r', by simp, rfl, hcd⟩

theorem Diverges.right (h : Diverges a b) (y : Hex) : Diverges a (b ++ y) := by
  obtain ⟨p, c, d, r, r', rfl, rfl, hcd⟩ := h
  exact ⟨p, c, d, r, r' ++ y, rfl, by simp, hcd⟩

/-- Two keys of which none is a part of the other diverge. -/
theorem diverges_or (h : ¬ a <+: b) (h' : ¬ b <+: a) : Diverges a b ∨ Diverges b a := by
  induction a generalizing b with
  | nil => exact absurd nil_prefix h
  | cons x a ih =>
    cases b with
    | nil => exact absurd nil_prefix h'
    | cons y b =>
      rcases lt_trichotomy x y with hlt | rfl | hgt
      · exact .inl (diverges_cons.mpr (.inl hlt))
      · rw [cons_prefix_cons] at h h'
        rcases ih (fun hp => h ⟨rfl, hp⟩) (fun hp => h' ⟨rfl, hp⟩) with hd | hd
        · exact .inl (diverges_cons.mpr (.inr ⟨rfl, hd⟩))
        · exact .inr (diverges_cons.mpr (.inr ⟨rfl, hd⟩))
      · exact .inr (diverges_cons.mpr (.inl hgt))

/-- `bytes.Compare` of diverging keys. -/
theorem compare_of_diverges (h : Diverges a b) :
    Proof.compare a b = -1 ∧ Proof.compare b a = 1 := by
  have hlt := h.lt
  have hne : b ≠ a := by
    rintro rfl
    exact List.lt_irrefl _ hlt
  have hnlt : ¬ b < a := fun h' => absurd (List.lt_trans hlt h') (List.lt_irrefl _)
  exact ⟨by rw [Proof.compare, if_pos hlt], by rw [Proof.compare, if_neg hnlt, if_neg hne]⟩

theorem compare_self (a : Hex) : Proof.compare a a = 0 := by
  rw [Proof.compare, if_neg (List.lt_irrefl a), if_pos rfl]

/-- The side of the edge key that `unset` keeps. -/
def Kept (removeLeft : Bool) (key K : Hex) : Prop :=
  if removeLeft then Diverges key K else Diverges K key

theorem kept_append : Kept rl (k ++ key) (k ++ K) ↔ Kept rl key K := by
  cases rl <;> exact diverges_append

theorem not_kept_self {rest : Hex} : ¬ Kept rl key (key ++ rest) := by
  have hiff : Kept rl (key ++ []) (key ++ rest) ↔ Kept rl [] rest := kept_append
  rw [append_nil] at hiff
  rw [hiff]
  cases rl
  · exact fun h => h.ne_nil rfl
  · exact not_diverges_nil

/-- A label that leaves the key decides about all keys below it. -/
theorem kept_label (h : ¬ k <+: key) (h' : ¬ key <+: k) (r : Hex) :
    Kept rl key (k ++ r) ↔ Kept rl key k := by
  rcases diverges_or h h' with hd | hd
  · cases rl
    · exact iff_of_true (hd.left r) hd
    · exact iff_of_false (hd.left r).asymm hd.asymm
  · cases rl
    · exact iff_of_false (hd.right r).asymm hd.asymm
    · exact iff_of_true (hd.right r) hd

variable {left right : Hex}

/-- The children that `unset` clears at the digit `a`. -/
def Side (removeLeft : Bool) (a i : Nibble) : Prop := if removeLeft then i < a else a < i

instance (removeLeft : Bool) (a i : Nibble) : Decidable (Side removeLeft a i) :=
  inferInstanceAs (Decidable (if removeLeft then i < a else a < i))

theorem kept_cons {a : Nibble} :
    Kept rl (a :: key) (i :: K) ↔ (i ≠ a ∧ ¬ Side rl a i) ∨ (i = a ∧ Kept rl key K) := by
  cases rl <;> simp only [Kept, Side, diverges_cons] <;> grind

/-- The children after the loop of `unset`. -/
theorem cleared_eq {a : Nibble} (hnil : ns term = .nil) (i : Nibble) :
    (if rl then clear ns 0 a.val else clear ns (a.val + 1) 16) i =
      if Side rl a i then .nil else ns i := by
  cases rl
  · by_cases hi : i = term
    · simp [clear, Side, hi, hnil]
    · have hlt : i.val < 16 := Fin.val_lt_last hi
      simp [clear, Side, hlt, Nat.succ_le_iff]
  · simp [clear, Side]

/-- The comparison of `unset` with a label that leaves the key. -/
theorem unset_mismatch {parentIsFull : Bool} {flags : NodeFlag} (h : ¬ k <+: key)
    (h' : ¬ key <+: k) :
    (Kept rl key k ∧ unset rl parentIsFull (.short k val flags) key = .ok (.short k val flags)) ∨
      (¬ Kept rl key k ∧
        unset rl parentIsFull (.short k val flags) key = dropChild parentIsFull) := by
  have hexec : unset rl parentIsFull (.short k val flags) key =
      if rl then
        if Proof.compare k key < 0 then dropChild parentIsFull else .ok (.short k val flags)
      else
        if Proof.compare k key > 0 then dropChild parentIsFull else .ok (.short k val flags) := by
    cases val <;> simp [unset, if_pos (mismatch_iff.mpr h)]
  rw [hexec]
  rcases diverges_or h h' with hd | hd
  · obtain ⟨h1, h2⟩ := compare_of_diverges hd
    cases rl
    · exact .inl ⟨hd, by simp [h1]⟩
    · exact .inr ⟨hd.asymm, by simp [h1]⟩
  · obtain ⟨h1, h2⟩ := compare_of_diverges hd
    cases rl
    · exact .inr ⟨hd.asymm, by simp [h2]⟩
    · exact .inl ⟨hd, by simp [h2]⟩

/-- The key is in the range. -/
def InRange (left right K : Hex) : Prop := ¬ Diverges K left ∧ ¬ Diverges right K

theorem inRange_append : InRange (k ++ left) (k ++ right) (k ++ K) ↔ InRange left right K := by
  unfold InRange
  rw [diverges_append, diverges_append]

/-- Below an edge that is left of `right`, only `left` bounds the range. -/
theorem inRange_left (h : Diverges k right) (K : Hex) :
    InRange (k ++ left) right (k ++ K) ↔ ¬ Kept false left K := by
  unfold InRange
  rw [diverges_append]
  exact and_iff_left (h.left K).asymm

/-- Below an edge that is right of `left`, only `right` bounds the range. -/
theorem inRange_right (h : Diverges left k) (K : Hex) :
    InRange left (k ++ right) (k ++ K) ↔ ¬ Kept true right K := by
  unfold InRange
  rw [diverges_append]
  exact and_iff_right (h.right K).asymm

theorem inRange_cons {a b : Nibble} : InRange (a :: left) (b :: right) (i :: K) ↔
      (a < i ∨ (i = a ∧ ¬ Diverges K left)) ∧ (i < b ∨ (b = i ∧ ¬ Diverges right K)) := by
  unfold InRange
  rw [diverges_cons, diverges_cons]
  grind

theorem inRange_cons_self {a : Nibble} :
    InRange (a :: left) (a :: right) (i :: K) ↔ i = a ∧ InRange left right K := by
  rw [inRange_cons]
  rcases lt_trichotomy i a with h | rfl | h
  · simp [h.ne, not_lt.mpr h.le]
  · simp [InRange]
  · simp [h.ne', not_lt.mpr h.le, h.ne]

/-- The comparison of an edge key with a label, as `unsetInternal` makes it. -/
theorem fork_cases (hlen : k.length ≤ key.length) :
    (k <+: key ∧ Proof.compare (key.take k.length) k = 0) ∨
      (Diverges key k ∧ Proof.compare (key.take k.length) k = -1) ∨
      (Diverges k key ∧ Proof.compare (key.take k.length) k = 1) := by
  by_cases hpre : k <+: key
  · exact .inl ⟨hpre, by rw [← prefix_iff_eq_take.mp hpre, compare_self]⟩
  · have hne : key.take k.length ≠ k := fun h => hpre (prefix_iff_eq_take.mpr h.symm)
    have hlen' : (key.take k.length).length = k.length := length_take_of_le hlen
    have hsplit := take_append_drop k.length key
    rcases diverges_or (fun h => hne (h.eq_of_length hlen'))
      (fun h => hne (h.eq_of_length hlen'.symm).symm)
      with hd | hd
    · exact .inr (.inl ⟨hsplit ▸ hd.left (key.drop k.length), (compare_of_diverges hd).1⟩)
    · exact .inr (.inr ⟨hsplit ▸ hd.right (key.drop k.length), (compare_of_diverges hd).2⟩)

theorem prefix_of_compare (hlen : k.length ≤ key.length)
    (h : Proof.compare (key.take k.length) k = 0) : k <+: key := by
  rcases fork_cases hlen with ⟨hpre, -⟩ | ⟨-, hc⟩ | ⟨-, hc⟩
  · exact hpre
  · simp [hc] at h
  · simp [hc] at h

/-! ## cutting -/

section Cutting

variable [Keccak] {o t t' : Tree} {p : Hex} {n n' : Node} {removed : Hex → Prop}

/-- The node `n'` represents `t'`, which is `t` without the entries that are to
be removed, and no such entry is below a hash node. -/
structure Cuts (o : Tree) (p : Hex) (n' : Node) (t' t : Tree) (removed : Hex → Prop) : Prop where
  rep : Rep o p n' t'
  pruned : Radix.Tree.Pruned term t' t
  gone : ∀ K, removed K → t'.get K = none
  rest : ∀ K, ¬ removed K → t'.get K = t.get K
  loaded : ∀ K, removed K → n'.Loaded K

/-- Everything is removed. -/
theorem Cuts.all (h : ∀ K, t.get K ≠ none → removed K) : Cuts o p .nil .nil t removed where
  rep := .nil p
  pruned := .nil t
  gone _ _ := rfl
  rest K hK := not_not.mp fun hne => hK (h K (Ne.symm hne))
  loaded _ _ := trivial

/-- Nothing is removed. -/
theorem Cuts.keep (hrep : Rep o p n t) (h : ∀ K, removed K → t.get K = none)
    (hl : ∀ K, removed K → n.Loaded K) : Cuts o p n t t removed :=
  ⟨hrep, .refl t, h, fun _ _ => rfl, hl⟩

variable {parent : Option Bool}

/-- Cutting below an edge. -/
theorem Cuts.short {c' : Tree} {rem : Hex → Prop} (hk : term ∉ k) (h : Cuts o (p ++ k) val c' c rem)
    (hf : c'.IsFull) (hrem : ∀ K, removed (k ++ K) ↔ rem K) :
    Cuts o p (.short k val newFlag) (.short k c') (.short k c) removed where
  rep := .short h.rep (flagOK_new _ _ _) fun hh => absurd rfl hh
  pruned := .short hk h.pruned hf
  gone K hK := by
    by_cases hpre : k <+: K
    · obtain ⟨K, rfl⟩ := hpre
      rw [Tree.get_short_append, h.gone K ((hrem K).mp hK)]
    · exact Tree.get_short_eq_none hpre
  rest K hK := by
    by_cases hpre : k <+: K
    · obtain ⟨K, rfl⟩ := hpre
      rw [Tree.get_short_append, Tree.get_short_append, h.rest K fun hr => hK ((hrem K).mpr hr)]
    · rw [Tree.get_short_eq_none hpre, Tree.get_short_eq_none hpre]
  loaded K hK := by
    rintro rest rfl
    exact h.loaded rest ((hrem rest).mp hK)

/-- Cutting below a branching node. -/
theorem Cuts.full {cs' : Nibble → Tree} (rem : Nibble → Hex → Prop)
    (h : ∀ i, Cuts o (p ++ [i]) (ns i) (cs' i) (cs i) (rem i)) (ht : cs' term = cs term)
    (hrem : ∀ i K, removed (i :: K) ↔ rem i K) :
    Cuts o p (.full ns newFlag) (.full cs') (.full cs) removed where
  rep := .full (fun i => (h i).rep) (flagOK_new _ _ _) fun hh => absurd rfl hh
  pruned := .full (fun i _ => (h i).pruned) ht
  gone K hK := by
    cases K with
    | nil => rfl
    | cons i K => exact (h i).gone K ((hrem i K).mp hK)
  rest K hK := by
    cases K with
    | nil => rfl
    | cons i K => exact (h i).rest K fun hr => hK ((hrem i K).mpr hr)
  loaded K hK := by
    rintro i rest rfl
    exact (h i).loaded rest ((hrem i rest).mp hK)

/-! ## one edge -/

/-- What `unset` does to the child of a parent. -/
def Unsets (o : Tree) (p : Hex) (t : Tree) (removeLeft : Bool) (key : Hex)
    (res : Except ProofError Node) : Prop :=
  ∃ n' t', res = .ok n' ∧ Cuts o p n' t' t (fun K => ¬ Kept removeLeft key K) ∧
    (t.IsFull → t'.IsFull)

/-- **`unset`** removes the entries on one side of the edge key. -/
theorem unset_spec (rl : Bool) (t : Tree) : ∀ {parentIsFull : Bool} {p key : Hex} {n : Node},
    Rep o p n t → n.Loaded key → t.Canon term → Terminated term key → Uniform key.length t →
    (parentIsFull = true ∨ t.IsFull) →
    Unsets o p t rl key (unset rl parentIsFull n key) := by
  induction t with
  | nil =>
    intro parentIsFull p key n hrep hl _ _ _ _
    cases hrep with
    | nil => exact ⟨.nil, .nil, by rw [unset], .all fun K h => absurd rfl h, id⟩
    | hash => exact hl.elim
  | value v => exact fun _ _ hcan => hcan.elim
  | short k c ih =>
    intro parentIsFull p key n hrep hl hcan hkey huni hpar
    have hpar : parentIsFull = true := hpar.resolve_right id
    subst hpar
    cases hrep with
    | hash => exact hl.elim
    | @short _ _ val _ flags hc hf hs =>
      by_cases hpre : k <+: key
      · obtain ⟨rest, rfl⟩ := hpre
        rw [length_append] at huni
        rcases hcan with ⟨hterm, hv⟩ | ⟨-, hk, hfull, hcc⟩
        · obtain ⟨v, rfl⟩ := hv.cases
          obtain rfl := hterm.append_eq_nil hkey
          obtain rfl := hc.value_eq
          refine ⟨.nil, .nil, ?_, .all fun K hK => ?_, id⟩
          · rw [unset, if_neg (matches_append _ _)]
            rfl
          · obtain ⟨r, rfl⟩ := prefix_of_get_short hK
            rw [append_nil]
            exact not_kept_self
        · obtain ⟨val', c', hexec, hcut, hfull'⟩ : Unsets o (p ++ k) c rl rest
              (unset rl false val rest) :=
            ih hc (loaded_short.mp hl) hcc ((terminated_append_iff hk).mp hkey)
              (huni.child_short hk) (.inr hfull)
          refine ⟨_, _, ?_, hcut.short hk (hfull' hfull) fun K => not_congr kept_append,
            fun h => h.elim⟩
          obtain ⟨cs, rfl⟩ := hfull.cases
          cases hc with
          | full =>
            rw [unset.eq_4 _ _ _ _ _ _ (by simp), if_neg (matches_append _ _), drop_left, hexec]
            rfl
          | hash => exact (loaded_short.mp hl).elim
      · have hpre' := huni.not_prefixed hcan hpre
        rcases unset_mismatch hpre hpre' with ⟨hkept, hexec⟩ | ⟨hkept, hexec⟩
        · refine ⟨_, _, hexec, .keep (.short hc hf hs) (fun K hK => ?_) (fun K hK => ?_), id⟩
          · by_contra hne
            obtain ⟨r, rfl⟩ := prefix_of_get_short hne
            exact hK ((kept_label hpre hpre' r).mpr hkept)
          · rintro r rfl
            exact absurd ((kept_label hpre hpre' r).mpr hkept) hK
        · refine ⟨.nil, .nil, hexec, .all fun K hK => ?_, id⟩
          obtain ⟨r, rfl⟩ := prefix_of_get_short hK
          exact fun h => hkept ((kept_label hpre hpre' r).mp h)
  | full cs ih =>
    intro parentIsFull p key n hrep hl hcan hkey huni _
    obtain ⟨a, rest, rfl⟩ := exists_cons_of_ne_nil hkey.ne_nil
    have ha := huni.digit_ne hcan hkey
    have hterm := (huni.full hcan).1
    cases hrep with
    | hash => exact hl.elim
    | @full _ ns _ flags hc hf hs =>
      have hns : ns term = .nil := (hc term).nil_iff.mpr hterm
      obtain ⟨child, c', hexec, hcut, -⟩ : Unsets o (p ++ [a]) (cs a) rl rest
          (unset rl true (ns a) rest) :=
        ih a (hc a) (loaded_full.mp hl) (hcan.1.2 a ha) (hkey.tail ha)
          (huni.child_full ha) (.inl rfl)
      refine ⟨.full (setChild (if rl then clear ns 0 a.val
        else clear ns (a.val + 1) 16) a child) newFlag,
        .full (fun i => if i = a then c' else if Side rl a i then .nil else cs i), ?_, ?_,
        fun _ => trivial⟩
      · rw [unset]
        simp only [hexec]
        rfl
      · refine .full (fun i K => if i = a then ¬ Kept rl rest K else Side rl a i)
          (fun i => ?_) ?_ fun i K => ?_
        · by_cases hi : i = a
          · subst hi
            simpa [setChild] using hcut
          · simp only [setChild, update_of_ne hi, cleared_eq hns, if_neg hi]
            split
            next hside => exact .all fun _ _ => hside
            next hside => exact .keep (hc i) (fun _ h => absurd h hside) fun _ h => absurd h hside
        · rw [if_neg (Ne.symm ha), hterm]
          split <;> rfl
        · rw [kept_cons]
          by_cases hi : i = a
          · simp [hi]
          · simp [hi]

/-! ## between two edges -/

/-- What `unsetInternal` does from a node on: the range has no entries, or they
are removed.  The flag says that the root itself is removed. -/
def UnsetsRange (o : Tree) (p : Hex) (t : Tree) (parent : Option Bool) (left right : Hex)
    (res : Except ProofError (Bool × Node)) : Prop :=
  (res = .error .emptyRange ∧ ∀ K, t.get K ≠ none → ¬ InRange left right K) ∨
  ∃ e n' t', res = .ok (e, n') ∧ Cuts o p (if e then .nil else n') t' t (InRange left right) ∧
    (e = true → parent = none) ∧ (t.IsFull → t'.IsFull)

/-- Removing the fork point, when everything below it is in the range. -/
theorem dropFork_spec (hpar : parent ≠ some false) (hf : ¬ t.IsFull)
    (h : ∀ K, t.get K ≠ none → InRange left right K) :
    UnsetsRange o p t parent left right (dropFork parent n) := by
  cases parent with
  | none => exact .inr ⟨true, n, .nil, rfl, .all h, fun _ => rfl, fun h => absurd h hf⟩
  | some isFull =>
    cases isFull with
    | false => exact absurd rfl hpar
    | true => exact .inr ⟨false, .nil, .nil, rfl, .all h, by simp, fun h => absurd h hf⟩

/-- The fork point is an edge that one edge key follows: everything on one side
of that key is removed. -/
theorem trim_spec {rest : Hex} (rl : Bool) (hc : Rep o (p ++ k) val c) (hl : val.Loaded rest)
    (hcan : (short k c).Canon term) (hkey : Terminated term (k ++ rest))
    (huni : Uniform (k ++ rest).length (.short k c)) (hpar : parent ≠ some false)
    (hrem : ∀ K, InRange left right (k ++ K) ↔ ¬ Kept rl rest K) :
    UnsetsRange o p (.short k c) parent left right (trimFork parent k val rl (k ++ rest)) := by
  rw [length_append] at huni
  rcases hcan with ⟨hterm, hv⟩ | ⟨-, hk, hfull, hcc⟩
  · obtain ⟨v, rfl⟩ := hv.cases
    obtain rfl := hterm.append_eq_nil hkey
    obtain rfl := hc.value_eq
    refine dropFork_spec hpar id fun K hK => ?_
    obtain ⟨r, rfl⟩ := prefix_of_get_short hK
    rw [hrem]
    exact (not_kept_self : ¬ Kept rl [] ([] ++ r))
  · obtain ⟨val', c', hexec, hcut, hfull'⟩ :
      Unsets o (p ++ k) c rl rest (unset rl false val rest) :=
      unset_spec rl c hc hl hcc ((terminated_append_iff hk).mp hkey) (huni.child_short hk)
        (.inr hfull)
    refine .inr ⟨false, .short k val' newFlag, .short k c', ?_,
      hcut.short hk (hfull' hfull) hrem, by simp, fun h => h.elim⟩
    obtain ⟨cs, rfl⟩ := hfull.cases
    cases hc with
    | full =>
      simp only [trimFork, drop_left, hexec]
      rfl
    | hash => exact hl.elim

/-- The fork point is an edge. -/
theorem forkShort_spec (hc : Rep o (p ++ k) val c) (hl : (short k val newFlag).Loaded left)
    (hr : (short k val newFlag).Loaded right) (hcan : (short k c).Canon term)
    (hleft : Terminated term left) (hright : Terminated term right)
    (hlen : left.length = right.length)
    (huni : Uniform left.length (.short k c)) (hlr : Diverges left right)
    (hpar : parent ≠ some false) (hfork : ¬ (k <+: left ∧ k <+: right)) :
    UnsetsRange o p (.short k c) parent left right
      (forkShort parent k val left right (Proof.compare (left.take k.length) k)
        (Proof.compare (right.take k.length) k)) := by
  have hklen := huni.label_le hcan
  have hbelow : ∀ {K}, (short k c).get K ≠ none → ∃ r, K = k ++ r := fun hK =>
    (prefix_of_get_short hK).imp fun _ => Eq.symm
  rcases fork_cases hklen with ⟨hl0, hcl⟩ | ⟨hl0, hcl⟩ | ⟨hl0, hcl⟩ <;>
    rcases fork_cases (hlen ▸ hklen : k.length ≤ right.length) with ⟨hr0, hcr⟩ | ⟨hr0,
      hcr⟩ | ⟨hr0, hcr⟩ <;>
    simp [forkShort, hcl, hcr]
  · exact absurd ⟨hl0, hr0⟩ hfork
  · obtain ⟨l, rfl⟩ := hl0
    exact absurd (hr0.right l) hlr.asymm
  · obtain ⟨l, rfl⟩ := hl0
    exact trim_spec false hc (loaded_short.mp hl) hcan hleft huni hpar (inRange_left hr0)
  · obtain ⟨r, rfl⟩ := hr0
    exact trim_spec true hc (loaded_short.mp hr) hcan hright (hlen ▸ huni) hpar (inRange_right hl0)
  · refine .inl ⟨rfl, fun K hK hin => ?_⟩
    obtain ⟨r, rfl⟩ := hbelow hK
    exact hin.2 (hr0.right r)
  · refine dropFork_spec hpar id fun K hK => ?_
    obtain ⟨r, rfl⟩ := hbelow hK
    exact ⟨(hl0.right r).asymm, (hr0.left r).asymm⟩
  · obtain ⟨r, rfl⟩ := hr0
    exact absurd (hl0.left r) hlr.asymm
  · exact absurd (List.lt_trans (List.lt_trans hr0.lt hl0.lt) hlr.lt) (List.lt_irrefl _)
  · refine .inl ⟨rfl, fun K hK hin => ?_⟩
    obtain ⟨r, rfl⟩ := hbelow hK
    exact hin.1 (hl0.left r)

/-- The fork point is a branching node, with two different children. -/
theorem forkFull_spec {a b : Nibble} (hc : ∀ i, Rep o (p ++ [i]) (ns i) (cs i))
    (hl : (ns a).Loaded left) (hr : (ns b).Loaded right) (hcan : (Tree.full cs).Canon term)
    (hleft : Terminated term (a :: left))
    (hright : Terminated term (b :: right)) (hlen : left.length = right.length)
    (huni : Uniform (a :: left).length (.full cs)) (hab : a < b) :
    UnsetsRange o p (.full cs) parent (a :: left) (b :: right) (forkFull ns a left b right) := by
  have ha := huni.digit_ne hcan hleft
  have hb := Uniform.digit_ne hcan hright (by rw [length_cons, ← hlen]; exact huni)
  have hcleara : clear ns (a.val + 1) b.val a = ns a := if_neg (by omega)
  obtain ⟨ca, ta, hexeca, hcuta, -⟩ : Unsets o (p ++ [a]) (cs a) false left
      (unset false true (ns a) left) :=
    unset_spec false (cs a) (hc a) hl (hcan.1.2 a ha) (hleft.tail ha)
      (huni.child_full ha) (.inl rfl)
  obtain ⟨cb, tb, hexecb, hcutb, -⟩ : Unsets o (p ++ [b]) (cs b) true right
      (unset true true (ns b) right) :=
    unset_spec true (cs b) (hc b) hr (hcan.1.2 b hb) (hright.tail hb)
      (hlen ▸ huni.child_full hb) (.inl rfl)
  have hclearb : setChild (clear ns (a.val + 1) b.val) a ca b = ns b := by
    rw [setChild, update_of_ne hab.ne']
    exact if_neg (by omega)
  refine .inr ⟨false, .full (setChild (setChild (clear ns (a.val + 1) b.val) a ca) b cb)
    newFlag, .full (fun i => if i = b then tb else if i = a then ta
      else if a < i ∧ i < b then .nil else cs i), ?_, ?_, by simp, fun _ => trivial⟩
  · simp [forkFull, hcleara, hexeca, hclearb, hexecb]
  · refine .full (fun i K =>
      if i = b then ¬ Kept true right K else if i = a then ¬ Kept false left K
      else a < i ∧ i < b) (fun i => ?_) ?_ fun i K => ?_
    · simp only [setChild]
      by_cases hib : i = b
      · subst hib
        simpa using hcutb
      · by_cases hia : i = a
        · subst hia
          simpa [hib] using hcuta
        · have hclear : clear ns (a.val + 1) b.val i = if a < i ∧ i < b then .nil else ns i := rfl
          simp only [update_of_ne hib, update_of_ne hia, hclear, if_neg hib, if_neg hia]
          split
          next hin => exact .all fun _ _ => hin
          next hin => exact .keep (hc i) (fun _ h => absurd h hin) fun _ h => absurd h hin
    · have hterm : ¬ (a < term ∧ term < b) := fun h => absurd h.2 (not_lt.mpr (Fin.le_last b))
      rw [if_neg (Ne.symm hb), if_neg (Ne.symm ha), if_neg hterm]
    · rw [inRange_cons]
      by_cases hib : i = b
      · subst hib
        simp [hab, hab.ne', Kept]
      · by_cases hia : i = a
        · subst hia
          simp [hab, hab.ne, Kept, Ne.symm hib]
        · simp [hib, hia, Ne.symm hib]

/-- A loaded child of a branching node is missing or can be compared. -/
theorem differ_loaded (hrep : Rep o p n t) (hl : n.Loaded key) (hcan : t.Canon term) :
    n = .nil ∨ (n.isNil = false ∧ ∀ m same, differ n m same = .ok !same) := by
  cases hrep with
  | nil => exact .inl rfl
  | value => exact hcan.elim
  | hash => exact hl.elim
  | short | full => exact .inr ⟨rfl, fun _ _ => rfl⟩

/-- The fork point is a branching node without a child for either key. -/
theorem forkFull_nil {a : Nibble} (hc : ∀ i, Rep o (p ++ [i]) (ns i) (cs i)) (hnil : ns a = .nil) :
    UnsetsRange o p (.full cs) parent (a :: left) (a :: right) (forkFull ns a left a right) := by
  have hcs : cs a = .nil := (hc a).nil_iff.mp hnil
  have hclear : clear ns (a.val + 1) a.val = ns := funext fun i => if_neg (by omega)
  have hset : setChild ns a .nil = ns := by
    rw [setChild, ← hnil, update_eq_self]
  refine .inr ⟨false, .full ns newFlag, .full cs, ?_, ?_, by simp, fun _ => trivial⟩
  · simp [forkFull, hclear, hnil, unset, hset]
  · refine .full (fun i K => i = a ∧ InRange left right K) (fun i => ?_) rfl fun i K =>
      inRange_cons_self
    by_cases hi : i = a
    · subst hi
      rw [hnil, hcs]
      exact .all fun K h => absurd rfl h
    · exact .keep (hc i) (fun _ h => absurd h.1 hi) fun _ h => absurd h.1 hi

/-- **`unsetInternal`** removes the range from a node on. -/
theorem unsetFrom_spec (t : Tree) : ∀ {parent : Option Bool} {p left right : Hex} {n : Node},
    Rep o p n t → n.Loaded left → n.Loaded right → t.Canon term → t ≠ .nil →
    Terminated term left → Terminated term right → left.length = right.length →
    Uniform left.length t → Diverges left right → (parent ≠ some false ∨ t.IsFull) →
    UnsetsRange o p t parent left right (unsetFrom parent n left right) := by
  induction t with
  | nil => exact fun _ _ _ _ h0 => absurd rfl h0
  | value v => exact fun _ _ _ hcan => hcan.elim
  | short k c ih =>
    intro parent p left right n hrep hl hr hcan _ hleft hright hlen huni hlr hpar
    have hpar : parent ≠ some false := hpar.resolve_right id
    have hklen := huni.label_le hcan
    cases hrep with
    | hash => exact hl.elim
    | @short _ _ val _ flags hc hf hs =>
      by_cases hboth : k <+: left ∧ k <+: right
      · obtain ⟨⟨l, rfl⟩, r, rfl⟩ := hboth
        have hlr' := diverges_append.mp hlr
        rw [length_append, length_append] at hlen
        rw [length_append] at huni
        have hk : term ∉ k := by
          rcases hcan with ⟨hterm, -⟩ | ⟨-, hk, -⟩
          · rw [hterm.append_eq_nil hleft] at hlr'
            exact absurd hlr' not_diverges_nil
          · exact hk
        obtain ⟨hfull, hcc⟩ := hcan.full_of_short hk
        have hne : c ≠ .nil := fun h => (h ▸ hfull).elim
        have hexec : unsetFrom parent (.short k val flags) (k ++ l) (k ++ r) =
            (unsetFrom (some false) val l r).map fun r => (r.1, .short k r.2 newFlag) := by
          rw [unsetFrom]
          simp [compare_self]
        rw [hexec]
        rcases ih hc (loaded_short.mp hl) (loaded_short.mp hr) hcc hne
          ((terminated_append_iff hk).mp hleft) ((terminated_append_iff hk).mp hright) (by omega)
          (huni.child_short hk) hlr' (.inr hfull : some false ≠ some false ∨ c.IsFull)
          with ⟨hres, hempty⟩ | ⟨e, val', c', hres, hcut, he, hfull'⟩
        · refine .inl ⟨by rw [hres]; rfl, fun K hK hin => ?_⟩
          obtain ⟨K, rfl⟩ := prefix_of_get_short hK
          rw [Tree.get_short_append] at hK
          exact hempty K hK (inRange_append.mp hin)
        · obtain rfl : e = false := by simpa using he
          exact .inr ⟨false, _, _, by rw [hres]; rfl, hcut.short hk (hfull' hfull)
            fun K => inRange_append, by simp, fun h => h.elim⟩
      · have hexec : unsetFrom parent (.short k val flags) left right =
            forkShort parent k val left right (Proof.compare (left.take k.length) k)
              (Proof.compare (right.take k.length) k) := by
          refine if_pos (not_and_or.mp fun h => hboth ⟨?_, ?_⟩)
          · exact prefix_of_compare hklen h.1
          · exact prefix_of_compare (hlen ▸ hklen) h.2
        rw [hexec]
        exact forkShort_spec hc hl hr hcan hleft hright hlen huni hlr hpar hboth
  | full cs ih =>
    intro parent p left right n hrep hl hr hcan _ hleft hright hlen huni hlr _
    obtain ⟨a, left, rfl⟩ := exists_cons_of_ne_nil hleft.ne_nil
    obtain ⟨b, right, rfl⟩ := exists_cons_of_ne_nil hright.ne_nil
    have hlen' : left.length = right.length := by simpa using hlen
    have ha := huni.digit_ne hcan hleft
    cases hrep with
    | hash => exact hl.elim
    | @full _ ns _ flags hc hf hs =>
      have hla := loaded_full.mp hl
      have hrb := loaded_full.mp hr
      rcases diverges_cons.mp hlr with hab | ⟨rfl, hlr'⟩
      · -- the keys part here
        have hexec : unsetFrom parent (.full ns flags) (a :: left) (b :: right) =
            forkFull ns a left b right := by
          rw [unsetFrom]
          rcases differ_loaded (hc a) hla (hcan.1.2 a ha) with hnil | ⟨hnil, hdiff⟩
          · simp [hnil, isNil]
          · simp [hdiff, hab.ne]
        rw [hexec]
        exact forkFull_spec hc hla hrb hcan hleft hright hlen' huni hab
      · rcases differ_loaded (hc a) hla (hcan.1.2 a ha) with hnil | ⟨hnil, hdiff⟩
        · have hexec : unsetFrom parent (.full ns flags) (a :: left) (a :: right) =
              forkFull ns a left a right := by
            rw [unsetFrom]
            simp [hnil, isNil]
          rw [hexec]
          exact forkFull_nil hc hnil
        · have hexec : unsetFrom parent (.full ns flags) (a :: left) (a :: right) =
              (unsetFrom (some true) (ns a) left right).map fun r =>
                (r.1, .full (setChild ns a r.2) newFlag) := by
            rw [unsetFrom]
            simp [hnil, hdiff]
          have hne : cs a ≠ .nil := fun h => by
            rw [(hc a).nil_iff.mpr h] at hnil
            cases hnil
          rw [hexec]
          rcases ih a (hc a) hla hrb (hcan.1.2 a ha) hne (hleft.tail ha) (hright.tail ha) hlen'
            (huni.child_full ha) hlr' (.inl (by simp) : some true ≠ some false ∨ (cs a).IsFull)
            with ⟨hres, hempty⟩ | ⟨e, child, c', hres, hcut, he, -⟩
          · refine .inl ⟨by rw [hres]; rfl, fun K hK hin => ?_⟩
            cases K with
            | nil => exact hK rfl
            | cons i K =>
              obtain ⟨rfl, hin'⟩ := inRange_cons_self.mp hin
              exact hempty K hK hin'
          · obtain rfl : e = false := by simpa using he
            refine .inr ⟨false, _, .full (update cs a c'), by rw [hres]; rfl, ?_, by simp,
              fun _ => trivial⟩
            refine .full (fun i K => i = a ∧ InRange left right K) (fun i => ?_)
              (update_of_ne (Ne.symm ha) _ _) fun i K => inRange_cons_self
            by_cases hi : i = a
            · subst hi
              simpa [setChild] using hcut
            · simp only [setChild, update_of_ne hi]
              exact .keep (hc i) (fun _ h => absurd h.1 hi) fun _ h => absurd h.1 hi

end Cutting

end GoQrl.Mpt
