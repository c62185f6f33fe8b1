import GoQrl.Trie.Encoding
import Mathlib.Data.List.FinRange

/-!
# GoQrl.Trie.Tree

Hexary tries without hashes, caches or storage: radix trees over hex digits
with byte-string values.  `Fit` collects what holds of every tree that a trie
over Go byte slices can hold, and is kept by insertion and deletion.
-/

namespace GoQrl.Mpt

open Radix Function

/-- A trie without hashes and caches. -/
abbrev Tree := Radix.Tree Nibble Bytes

namespace Tree

open Radix.Tree

/-- Whether the tree is an inner node. -/
def isNode : Tree → Bool
  | short _ _ => true
  | full _ => true
  | _ => false

/-- Values that the trie stores: non-empty slices. -/
def ValueOK (v : Bytes) : Prop := v ≠ [] ∧ v.length < 2 ^ 62

/-- Every edge label fits below depth `d` and every value is stored by the trie. -/
def Bounded : Nat → Tree → Prop
  | _, nil => True
  | _, value v => ValueOK v
  | d, short k c => k.length ≤ d ∧ Bounded (d - k.length) c
  | d, full cs => 0 < d ∧ ∀ a, Bounded (d - 1) (cs a)

/-- A tree that a trie over Go byte slices can hold. -/
structure Fit (t : Tree) : Prop where
  wf : t.WF term
  bounded : Bounded (2 ^ 63) t

variable {t : Tree} {k : Hex} {c : Tree} {cs : Nibble → Tree} {d : Nat}

/-- A larger bound holds as well. -/
theorem Bounded.mono {d d' : Nat} (h : Bounded d t) (hd : d ≤ d') : Bounded d' t := by
  induction t generalizing d d' with
  | nil => trivial
  | value v => exact h
  | short k c ih => exact ⟨le_trans h.1 hd, ih h.2 (by omega)⟩
  | full cs ih => exact ⟨lt_of_lt_of_le h.1 hd, fun a => ih a (h.2 a) (by omega)⟩

/-- Below an edge that is not the end of a key the tree fits. -/
theorem Fit.child_short (h : Fit (short k c)) (hk : term ∉ k) : Fit c := by
  refine ⟨?_, h.bounded.2.mono (Nat.sub_le _ _)⟩
  rcases h.wf with ⟨hk', -⟩ | ⟨-, -, hc⟩
  · obtain ⟨p, -, rfl⟩ := Terminated.exists_eq hk'
    simp at hk
  · exact hc

/-- So do the children of a branch. -/
theorem Fit.child_full (h : Fit (full cs)) {a : Nibble} (ha : a ≠ term) : Fit (cs a) :=
  ⟨h.wf.2 a ha, (h.bounded.2 a).mono (Nat.sub_le _ _)⟩

theorem Fit.isHexKey (h : Fit (short k c)) : IsHexKey k := by
  rcases h.wf with ⟨hk, -⟩ | ⟨-, hk, -⟩
  · exact .inr hk
  · exact .inl hk

/-- A tree that fits, or a slot of one. -/
structure Sized (t : Tree) : Prop where
  part : t.Part term
  bounded : Bounded (2 ^ 63) t

theorem Fit.sized (h : Fit t) : Sized t := ⟨.inl h.wf, h.bounded⟩

theorem Sized.short (h : Sized (short k c)) : Fit (Tree.short k c) :=
  ⟨h.part.wf_short, h.bounded⟩

theorem Sized.full (h : Sized (full cs)) : Fit (Tree.full cs) :=
  ⟨h.part.wf_full, h.bounded⟩

/-- The child of an edge is of a size that can be encoded. -/
theorem Sized.child_short (h : Sized (Tree.short k c)) : Sized c :=
  ⟨h.part.child_short, h.bounded.2.mono (Nat.sub_le _ _)⟩

theorem Sized.child_full (h : Sized (Tree.full cs)) (a : Nibble) : Sized (cs a) :=
  ⟨h.part.child_full a, (h.bounded.2 a).mono (Nat.sub_le _ _)⟩

/-- The length of many strings that are each bounded. -/
theorem length_flatMap_le {ι : Type} (f : ι → Bytes) (l : List ι) (n : Nat)
    (h : ∀ i ∈ l, (f i).length ≤ n) : (l.flatMap f).length ≤ l.length * n := by
  induction l with
  | nil => simp
  | cons i l ih =>
    have h1 := h i (by simp)
    have h2 := ih fun j hj => h j (List.mem_cons_of_mem _ hj)
    rw [List.flatMap_cons, List.length_append, List.length_cons, Nat.add_mul]
    omega

/-- The seventeen digits: the sixteen nibbles, then the terminator. -/
theorem finRange_eq : List.finRange 17 = (List.finRange 16).map Fin.castSucc ++ [term] := by
  decide

theorem castSucc_ne_term (i : Fin 16) : (i.castSucc : Nibble) ≠ term := by
  intro h
  have : i.val = 16 := congrArg Fin.val h
  omega

/-- The children of a branch but the last are at the sixteen nibbles. -/
theorem mem_nibbles {i : Nibble} (h : i ≠ term) : i ∈ (List.finRange 16).map Fin.castSucc := by
  have hlt : i.val < 16 := by
    have : i.val ≠ 16 := fun h' => h (Fin.ext h')
    omega
  exact List.mem_map.mpr ⟨⟨i.val, hlt⟩, List.mem_finRange _, rfl⟩

theorem term_not_mem_nibbles : term ∉ (List.finRange 16).map Fin.castSucc := by decide

theorem nodup_nibbles : ((List.finRange 16).map Fin.castSucc).Nodup := by decide

/-- An edge on top of a tree. -/
theorem Bounded.chain (hk : k.length ≤ d) (h : Bounded (d - k.length) t) :
    Bounded d (chain k t) := by
  cases k with
  | nil => simpa [chain] using h
  | cons a k => exact ⟨hk, h⟩

/-- A branch of two trees. -/
theorem Bounded.branch {a b : Nibble} {t u : Tree} (ht : Bounded d t)
    (hu : Bounded d u) (c : Nibble) : Bounded d (branch a t b u c) := by
  unfold Tree.branch
  by_cases hb : c = b
  · subst hb; simpa using hu
  · by_cases ha : c = a
    · subst ha; simpa [hb] using ht
    · simp only [update_of_ne hb, update_of_ne ha]
      trivial

/-- Inserting a value that can be encoded keeps the bounds. -/
theorem Bounded.insert (h : Bounded d t) {v : Bytes} (hv : ValueOK v)
    {key : Hex} (hkey : key.length ≤ d) : Bounded d (t.insert v key) := by
  induction t generalizing d key with
  | nil => exact Bounded.chain hkey hv
  | value w =>
    simp only [Tree.insert]
    split
    · exact hv
    · exact h
  | short k c ih =>
    have hs := divide_spec k key
    cases hd : divide k key with
    | ended => simpa [Tree.insert, hd] using h
    | matched rest =>
      rw [hd] at hs
      subst hs
      simp only [Tree.insert, hd]
      rw [List.length_append] at hkey
      exact ⟨h.1, ih h.2 (by omega)⟩
    | split p a k' b kr =>
      rw [hd] at hs
      obtain ⟨rfl, rfl, -⟩ := hs
      obtain ⟨h1, h2⟩ := h
      simp only [Tree.insert, hd]
      simp only [List.length_append, List.length_cons] at hkey h1 h2
      refine Bounded.chain (by omega) ⟨by omega, fun x => Bounded.branch ?_ ?_ x⟩
      · exact Bounded.chain (by omega) (h2.mono (by omega))
      · exact Bounded.chain (by omega) hv
  | full cs ih =>
    cases key with
    | nil => exact h
    | cons a key =>
      rw [List.length_cons] at hkey
      refine ⟨h.1, fun x => ?_⟩
      by_cases hx : x = a
      · subst hx
        simpa using ih x (h.2 x) (by omega)
      · simpa [hx] using h.2 x

/-- A value in a bounded tree can be encoded. -/
theorem Bounded.get (h : Bounded d t) {key : Hex} {v : Bytes} (hv : t.get key = some v) :
    ValueOK v := by
  induction t generalizing d key with
  | nil => cases hv
  | value w =>
    obtain rfl : w = v := Option.some.inj hv
    exact h
  | short k c ih =>
    obtain ⟨rest, rfl⟩ := prefix_of_get_short (by rw [hv]; simp : (short k c).get key ≠ none)
    rw [get_short_append] at hv
    exact ih h.2 hv
  | full cs ih =>
    cases key with
    | nil => cases hv
    | cons a key => exact ih a (h.2 a) hv

/-- Merging an edge into the one below keeps the bounds. -/
theorem Bounded.graft (hk : k.length ≤ d) (h : Bounded (d - k.length) t) :
    Bounded d (graft k t) := by
  cases t with
  | nil | value | full => exact ⟨hk, h⟩
  | short k' c =>
    obtain ⟨h1, h2⟩ := h
    refine ⟨by rw [List.length_append]; omega, ?_⟩
    rwa [List.length_append, ← Nat.sub_sub]

/-- So does collapsing a branch with one child. -/
theorem Bounded.collapse (hd : 0 < d) (h : ∀ a, Bounded (d - 1) (cs a)) :
    Bounded d (collapse cs) := by
  unfold Tree.collapse
  split
  · exact Bounded.graft hd (h _)
  · exact ⟨hd, h⟩

/-- So does deleting a key. -/
theorem Bounded.delete (h : Bounded d t) (key : Hex) : Bounded d (t.delete key) := by
  induction t generalizing d key with
  | nil | value => trivial
  | short k c ih =>
    cases hd : divide k key with
    | ended | split => simpa [delete, hd] using h
    | matched rest =>
      cases rest with
      | nil => simp only [delete, hd]; trivial
      | cons x rest =>
        simp only [delete, hd]
        exact Bounded.graft h.1 (ih h.2 _)
  | full cs ih =>
    cases key with
    | nil => exact h
    | cons a key =>
      have hall : ∀ t, Bounded (d - 1) t → ∀ x, Bounded (d - 1) (update cs a t x) := by
        intro t ht x
        by_cases hx : x = a
        · subst hx; simpa using ht
        · simpa [hx] using h.2 x
      simp only [delete]
      split
      · exact Bounded.collapse h.1 (hall _ trivial)
      · exact ⟨h.1, hall _ (ih a (h.2 a) key)⟩

end Tree

end GoQrl.Mpt
