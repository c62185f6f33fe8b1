import GoQrl.Lib.Radix

/-!
# GoQrl.Lib.RadixPrune

Radix trees with parts cut out, and how they grow back.

`Pruned s t` says that `s` is `t` with some subtrees below branching nodes
removed; such a tree is not compressed any more.  Putting entries of `t` back
into it does not simply undo the cuts, since a removed part grows back as a
compressed tree of its own.  `Sub` is the relation that this keeps, and once all
entries are back the tree is `t` again (`Sub.eq`).
-/

namespace Radix.Tree

open List Function

variable {α V : Type} {τ : α}

/-- `s` is `t` with some subtrees removed. -/
inductive Pruned (τ : α) : Tree α V → Tree α V → Prop
  | nil (t : Tree α V) : Pruned τ nil t
  | refl (t : Tree α V) : Pruned τ t t
  | short {k : List α} {c' c : Tree α V} (hk : τ ∉ k) (h : Pruned τ c' c) (hf : c'.IsFull) :
      Pruned τ (short k c') (short k c)
  | full {cs' cs : α → Tree α V} (h : ∀ a, a ≠ τ → Pruned τ (cs' a) (cs a)) (hτ : cs' τ = cs τ) :
      Pruned τ (full cs') (full cs)

/-- `s` is built from compressed trees with entries of `t`, along the nodes of `t`. -/
inductive Sub [DecidableEq α] (τ : α) : Tree α V → Tree α V → Prop
  | canon {s t : Tree α V} (hs : s.Canon τ)
      (h : ∀ key, Terminated τ key → s.get key ≠ none → s.get key = t.get key) : Sub τ s t
  | short {k : List α} {c' c : Tree α V} (hk : τ ∉ k) (h : Sub τ c' c) (hf : c'.IsFull) :
      Sub τ (short k c') (short k c)
  | full {cs' cs : α → Tree α V} (h : ∀ a, a ≠ τ → Sub τ (cs' a) (cs a)) (hτ : cs' τ = cs τ) :
      Sub τ (full cs') (full cs)

variable {c : Tree α V} {k : List α} {key : List α}

/-- Below an edge without the terminator there is a branching node. -/
theorem Canon.full_of_short (h : (short k c).Canon τ) (hk : τ ∉ k) : c.IsFull ∧ c.Canon τ := by
  rcases h with ⟨hterm, -⟩ | ⟨-, -, hf, hc⟩
  · exact absurd hterm.mem hk
  · exact ⟨hf, hc⟩

theorem Canon.label_ne_nil (h : (short k c).Canon τ) : k ≠ [] :=
  h.wf.label_ne_nil

/-! ## removing parts -/

variable {s t : Tree α V}

theorem Pruned.wf (h : Pruned τ s t) (ht : t.Canon τ) : s.WF τ := by
  induction h with
  | nil => trivial
  | refl => exact ht.wf
  | short hk _ _ ih => exact .inr ⟨ht.label_ne_nil, hk, ih (ht.full_of_short hk).2⟩
  | full _ hτ ih => exact ⟨hτ ▸ ht.1.1, fun a ha => ih a ha (ht.1.2 a ha)⟩

variable [DecidableEq α]

theorem Pruned.sub (h : Pruned τ s t) (ht : t.Canon τ) : Sub τ s t := by
  induction h with
  | nil => exact .canon trivial fun _ _ h => absurd rfl h
  | refl => exact .canon ht fun _ _ _ => rfl
  | short hk _ hf ih => exact .short hk (ih (ht.full_of_short hk).2) hf
  | full _ hτ ih => exact .full (fun a ha => ih a ha (ht.1.2 a ha)) hτ

/-! ## growing back -/

omit [DecidableEq α] in
/-- The rest of a well-formed edge below the letter at which it is cut. -/
theorem WF.cut {p : List α} {a : α} (h : (short (p ++ a :: k) c).WF τ) :
    τ ∉ p ∧ (a = τ → (chain k c).IsSlot) ∧ (a ≠ τ → (chain k c).WF τ) := by
  rcases h with ⟨hk, hc⟩ | ⟨-, hk, hc⟩
  · obtain ⟨v, rfl⟩ := hc.cases
    have hrest := (terminated_append_iff hk.not_mem_of_append).mp hk
    refine ⟨hk.not_mem_of_append, ?_, fun ha => ?_⟩
    · rintro rfl
      rw [hrest.eq_nil_of_cons]
      trivial
    · obtain ⟨b, k, rfl⟩ := exists_cons_of_ne_nil (hrest.tail ha).ne_nil
      exact .inl ⟨hrest.tail ha, trivial⟩
  · have ha : a ≠ τ := fun h => hk (by simp [h])
    refine ⟨fun h => hk (mem_append_left _ h), fun h => absurd h ha, fun _ => ?_⟩
    cases k with
    | nil => exact hc
    | cons b k => exact .inr ⟨by simp, fun h => hk (by simp_all), hc⟩

/-- Insertion keeps a tree well-formed, compressed or not. -/
theorem WF.insert (ht : t.WF τ) (v : V) (hkey : Terminated τ key) :
    (t.insert v key).WF τ ∧ t.insert v key ≠ nil := by
  induction t generalizing key with
  | nil =>
    obtain ⟨a, key, rfl⟩ := exists_cons_of_ne_nil hkey.ne_nil
    exact ⟨.inl ⟨hkey, trivial⟩, by simp [insert, chain]⟩
  | value w => exact ht.elim
  | short k c ih =>
    rcases ht.divide_cases hkey with ⟨rest, rfl, hd⟩ | ⟨p, a, k', b, kr, rfl, rfl, hab, hd⟩
    · simp only [insert, hd]
      refine ⟨?_, by simp⟩
      rcases ht with ⟨hk, hc⟩ | ⟨hk, hτ, hc⟩
      · obtain ⟨w, rfl⟩ := hc.cases
        rw [hk.append_eq_nil hkey]
        exact .inl ⟨hk, trivial⟩
      · exact .inr ⟨hk, hτ, (ih hc ((terminated_append_iff hτ).mp hkey)).1⟩
    · simp only [insert, hd]
      obtain ⟨hp, hslot, hwf⟩ := ht.cut
      have hnew : (short (p ++ b :: kr) (value v)).WF τ := .inl ⟨hkey, trivial⟩
      obtain ⟨-, hslot', hwf'⟩ := hnew.cut
      have hfull : (full (branch a (chain k' c) b (chain kr (value v)))).WF τ := by
        have hat : ∀ x, (x = τ → (branch a (chain k' c) b (chain kr (value v)) x).IsSlot) ∧
            (x ≠ τ → (branch a (chain k' c) b (chain kr (value v)) x).WF τ) := by
          intro x
          by_cases hxb : x = b
          · rw [hxb, branch_right]
            exact ⟨hslot', hwf'⟩
          · by_cases hxa : x = a
            · rw [hxa, branch_left hab]
              exact ⟨hslot, hwf⟩
            · rw [branch_other hxa hxb]
              exact ⟨fun _ => trivial, fun _ => trivial⟩
        exact ⟨(hat τ).1 rfl, fun x => (hat x).2⟩
      refine ⟨?_, chain_ne_nil (by simp)⟩
      cases p with
      | nil => exact hfull
      | cons x p => exact .inr ⟨by simp, hp, hfull⟩
  | full cs ih =>
    obtain ⟨a, rest, rfl⟩ := exists_cons_of_ne_nil hkey.ne_nil
    refine ⟨⟨?_, fun x hx => ?_⟩, by simp [insert]⟩
    · by_cases ha : τ = a
      · subst ha
        rw [update_self, hkey.eq_nil_of_cons, insert_slot v ht.1]
        trivial
      · rw [update_of_ne ha]
        exact ht.1
    · by_cases hxa : x = a
      · subst hxa
        rw [update_self]
        exact (ih x (ht.2 x hx) (hkey.tail hx)).1
      · rw [update_of_ne hxa]
        exact ht.2 x hx

/-- **Putting an entry back.** -/
theorem Sub.insert (h : Sub τ s t) (ht : t.Canon τ) (hkey : Terminated τ key) {v : V}
    (hv : t.get key = some v) :
    Sub τ (s.insert v key) t := by
  induction h generalizing key with
  | @canon s t hs hget =>
    refine .canon (hs.insert v hkey).1 fun key' hkey' hne => ?_
    rw [get_insert hs.wf v hkey hkey'] at hne ⊢
    split
    · next heq => rw [heq, hv]
    · next heq => exact hget key' hkey' (by rwa [if_neg heq] at hne)
  | @short k c' c hk _ hf ih =>
    obtain ⟨rest, rfl⟩ := prefix_of_get_short (by rw [hv]; simp : (Tree.short k c).get key ≠ none)
    rw [get_short_append] at hv
    have hrest := (terminated_append_iff hk).mp hkey
    have hins : (Tree.short k c').insert v (k ++ rest) = .short k (c'.insert v rest) := by
      rw [insert, divide_append]
    rw [hins]
    refine .short hk (ih (ht.full_of_short hk).2 hrest hv) ?_
    obtain ⟨cs, rfl⟩ := hf.cases
    obtain ⟨a, rest, rfl⟩ := exists_cons_of_ne_nil hrest.ne_nil
    trivial
  | @full cs' cs hsub hτ ih =>
    obtain ⟨a, rest, rfl⟩ := exists_cons_of_ne_nil hkey.ne_nil
    have hins : (Tree.full cs').insert v (a :: rest) =
        .full (update cs' a ((cs' a).insert v rest)) := rfl
    rw [hins]
    by_cases ha : a = τ
    · subst ha
      obtain rfl := hkey.eq_nil_of_cons
      have hslot := ht.1.1
      have hval : cs a = .value v := by
        rcases hslot.cases with h0 | ⟨w, hw⟩
        · simp [get_full_cons, h0] at hv
        · rw [get_full_cons, hw] at hv
          rw [hw, Option.some.inj hv]
      have hsame : update cs' a ((cs' a).insert v []) = cs' := by
        rw [insert_slot v (hτ ▸ hslot), ← hval, ← hτ, update_eq_self]
      rw [hsame]
      exact .full hsub hτ
    · refine .full (fun b hb => ?_) (by rw [update_of_ne (Ne.symm ha), hτ])
      by_cases hba : b = a
      · subst hba
        rw [update_self]
        exact ih b hb (ht.1.2 b hb) (hkey.tail ha) hv
      · rw [update_of_ne hba]
        exact hsub b hb

/-- **With all entries back** the tree is the original. -/
theorem Sub.eq (h : Sub τ s t) (ht : t.Canon τ) (hget : ∀ key, Terminated τ key →
    s.get key = t.get key) : s = t := by
  induction h with
  | canon hs => exact hs.ext ht hget
  | @short k c' c hk _ _ ih =>
    rw [ih (ht.full_of_short hk).2 fun key hkey => ?_]
    have := hget (k ++ key) ((terminated_append_iff hk).mpr hkey)
    rwa [get_short_append, get_short_append] at this
  | @full cs' cs _ hτ ih =>
    refine congrArg Tree.full (funext fun a => ?_)
    by_cases ha : a = τ
    · rw [ha, hτ]
    · exact ih a ha (ht.1.2 a ha) fun key hkey => hget (a :: key) (.inr ⟨ha, hkey⟩)

/-! ## many entries -/

/-- The tree with all entries inserted, one after the other. -/
def insertAll (t : Tree α V) (entries : List (List α × V)) : Tree α V :=
  entries.foldl (fun t x => t.insert x.2 x.1) t

variable {entries : List (List α × V)}

@[simp] theorem insertAll_cons (x : List α × V) :
    t.insertAll (x :: entries) = (t.insert x.2 x.1).insertAll entries := rfl

theorem get_insertAll_of_ne (ht : t.WF τ) (h : ∀ x ∈ entries, Terminated τ x.1)
    (hkey : Terminated τ key) (hne : ∀ x ∈ entries, key ≠ x.1) :
    (t.insertAll entries).get key = t.get key := by
  induction entries generalizing t with
  | nil => rfl
  | cons x entries ih =>
    rw [forall_mem_cons] at h hne
    rw [insertAll_cons, ih (ht.insert x.2 h.1).1 h.2 hne.2, get_insert ht _ h.1 hkey, if_neg hne.1]

theorem get_insertAll_of_mem (ht : t.WF τ) (h : ∀ x ∈ entries, Terminated τ x.1)
    (hp : entries.Pairwise fun x y => x.1 ≠ y.1) {x : List α × V} (hx : x ∈ entries) :
    (t.insertAll entries).get x.1 = some x.2 := by
  induction entries generalizing t with
  | nil => cases hx
  | cons y entries ih =>
    have hterm := h x hx
    rw [forall_mem_cons] at h
    obtain ⟨hy, hp⟩ := pairwise_cons.mp hp
    have hwf := (ht.insert y.2 h.1).1
    rw [insertAll_cons]
    rcases mem_cons.mp hx with rfl | hx
    · rw [get_insertAll_of_ne hwf h.2 hterm hy, get_insert ht _ hterm hterm, if_pos rfl]
    · exact ih hwf h.2 hp hx

theorem Sub.insertAll (hs : Sub τ s t) (ht : t.Canon τ)
    (h : ∀ x ∈ entries, Terminated τ x.1 ∧ t.get x.1 = some x.2) :
    Sub τ (s.insertAll entries) t := by
  induction entries generalizing s with
  | nil => exact hs
  | cons x entries ih =>
    rw [forall_mem_cons] at h
    exact ih (hs.insert ht h.1.1 h.1.2) h.2

end Radix.Tree
