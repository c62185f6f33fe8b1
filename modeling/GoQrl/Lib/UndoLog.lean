import Mathlib.Data.List.Forall2

/-!
# GoQrl.Lib.UndoLog

Undo logs over arbitrary states.

A state `s : S` is related to an abstract state `c : C`, and every entry of the log takes a
state that is related to one abstract state back to one that is related to an earlier
(`Undoes`).  A log with the abstract states between its entries is a `Chain`; undoing `n`
entries then leads to the abstract state `n` entries ago (`Chain.undoN`), whatever else the
states hold.

A savepoint is an identifier and a length of the log.  `Savepoints` relates the savepoints of a
log to the abstract states at which they were taken; the one that is searched for is found, and
the abstract state at which it was taken is in the log (`Savepoints.restore`).
-/

namespace GoQrl.UndoLog

open List

variable {S C E : Type} (rel : S → C → Prop) (undo : E → S → Option S)

/-- The entry takes every state related to `c'` back to one related to `c`. -/
def Undoes (e : E) (c' c : C) : Prop := ∀ s, rel s c' → ∃ s', undo e s = some s' ∧ rel s' c

/-- A log, the newest entry first, with the abstract states around its entries. -/
inductive Chain : List E → List C → Prop
  | base (c : C) : Chain [] [c]
  | step {e : E} {es : List E} {c' c : C} {cs : List C} (h : Undoes rel undo e c' c)
      (hc : Chain es (c :: cs)) : Chain (e :: es) (c' :: c :: cs)

/-- Undoes the `n` newest entries. -/
def undoN : Nat → List E → S → Option S
  | 0, _, s => some s
  | _ + 1, [], s => some s
  | n + 1, e :: es, s =>
    match undo e s with
    | none => none
    | some s => undoN n es s

variable {rel undo} {es : List E} {cs : List C} {s : S} {c : C}

theorem Chain.length (h : Chain rel undo es cs) : cs.length = es.length + 1 := by
  induction h with
  | base c => rfl
  | step _ _ ih => simp only [length_cons] at ih ⊢; omega

/-- What is left of a chain after its newest entries. -/
theorem Chain.drop (h : Chain rel undo es cs) (n : Nat) (hn : n ≤ es.length) :
    Chain rel undo (es.drop n) (cs.drop n) := by
  induction n generalizing es cs with
  | zero => exact h
  | succ n ih =>
    cases h with
    | base c => simp at hn
    | step _ hc => exact ih hc (by simpa using hn)

/-- **Undoing** entries of a log leads back to the abstract state before them. -/
theorem Chain.undoN (h : Chain rel undo es (c :: cs)) (hs : rel s c) (n : Nat)
    (hn : n ≤ es.length) :
    ∃ s' c', UndoLog.undoN undo n es s = some s' ∧ (c :: cs)[n]? = some c' ∧ rel s' c' := by
  induction n generalizing es c cs s with
  | zero => exact ⟨s, c, by cases es <;> rfl, rfl, hs⟩
  | succ n ih =>
    cases h with
    | base => simp at hn
    | step he hc =>
      obtain ⟨s1, hundo, hrel⟩ := he s hs
      obtain ⟨s', c', hrest, hget, hrel'⟩ := ih hc hrel (by simpa using hn)
      exact ⟨s', c', by simp [UndoLog.undoN, hundo, hrest], by simpa using hget, hrel'⟩

/-! ## savepoints -/

section

variable {R : Type} (id place : R → Nat)

/-- The savepoint was taken at this abstract state, above `depth` older entries. -/
def TakenAt (depth : Nat) (cs : List C) (r : R) (mark : Nat × C) : Prop :=
  id r = mark.1 ∧ ∃ cs', (mark.2 :: cs') <:+ cs ∧ place r = depth + cs'.length

/-- The savepoints `rs` of a log, in the order in which they were taken.  Those from `first` on
were taken at the abstract states `marks`; `next` is the next identifier. -/
structure Savepoints (depth first next : Nat) (cs : List C) (rs : List R) (marks : List (Nat × C)) :
    Prop where
  taken : ∃ old new, rs = old ++ new ∧ (∀ r ∈ old, id r < first) ∧
    List.Forall₂ (TakenAt id place depth cs) new marks
  ordered : rs.Pairwise fun r r' => id r < id r' ∧ place r ≤ place r'
  bound : ∀ r ∈ rs, id r < next ∧ place r + 1 ≤ depth + cs.length

variable {id place} {depth first next : Nat} {rs : List R} {marks : List (Nat × C)}

/-- A log without savepoints. -/
theorem Savepoints.nil (depth first next : Nat) (cs : List C) :
    Savepoints id place depth first next cs [] [] :=
  ⟨⟨[], [], rfl, by simp, .nil⟩, .nil, by simp⟩

/-- The abstract states may be given up: the entries up to now are then older ones. -/
theorem Savepoints.forget (h : Savepoints id place depth first next (c :: cs) rs marks) (c' : C) :
    Savepoints id place (depth + cs.length) next next [c'] rs [] where
  taken := ⟨rs, [], by simp, fun r hr => (h.bound r hr).1, .nil⟩
  ordered := h.ordered
  bound r hr := by
    have hb := (h.bound r hr).2
    exact ⟨(h.bound r hr).1, by omega⟩

/-- The log grows. -/
theorem Savepoints.grow (h : Savepoints id place depth first next cs rs marks) {cs' : List C}
    (hcs : cs <:+ cs') : Savepoints id place depth first next cs' rs marks := by
  obtain ⟨old, new, hrs, hold, htaken⟩ := h.taken
  refine ⟨⟨old, new, hrs, hold, htaken.imp fun r mark hr => ?_⟩, h.ordered, fun r hr => ?_⟩
  · obtain ⟨hid, cs'', hsuffix, hplace⟩ := hr
    exact ⟨hid, cs'', hsuffix.trans hcs, hplace⟩
  · have hb := h.bound r hr
    have hle := hcs.length_le
    exact ⟨hb.1, by omega⟩

/-- A savepoint is taken. -/
theorem Savepoints.save (h : Savepoints id place depth first next (c :: cs) rs marks) {r : R}
    (hid : id r = next) (hplace : place r = depth + cs.length) :
    Savepoints id place depth first (next + 1) (c :: cs) (rs ++ [r]) (marks ++ [(next, c)]) := by
  obtain ⟨old, new, hrs, hold, htaken⟩ := h.taken
  have hnew : TakenAt id place depth (c :: cs) r (next, c) := ⟨hid, cs, suffix_refl _, hplace⟩
  refine ⟨⟨old, new ++ [r], by rw [hrs, append_assoc], hold, rel_append htaken (.cons hnew .nil)⟩,
    ?_, fun r' hr' => ?_⟩
  · refine pairwise_append.mpr ⟨h.ordered, pairwise_singleton _ _, fun r' hr' r'' hr'' => ?_⟩
    obtain rfl := mem_singleton.mp hr''
    have hb := h.bound r' hr'
    rw [length_cons] at hb
    exact ⟨by omega, by omega⟩
  · obtain hr' | hr' := mem_append.mp hr'
    · have hb := h.bound r' hr'
      exact ⟨by omega, hb.2⟩
    · obtain rfl := mem_singleton.mp hr'
      rw [length_cons]
      exact ⟨by omega, by omega⟩

/-- The search for a savepoint ends at it. -/
theorem findIdx_of_ordered {pre post : List R} {r : R}
    (h : (pre ++ r :: post).Pairwise fun r r' => id r < id r' ∧ place r ≤ place r') :
    (pre ++ r :: post).findIdx (id r ≤ id ·) = pre.length := by
  have hpre : ∀ r' ∈ pre, (decide (id r ≤ id r')) = false := fun r' hr' => by
    simpa using ((pairwise_append.mp h).2.2 r' hr' r mem_cons_self).1
  rw [findIdx_append, findIdx_eq_length.mpr hpre, findIdx_cons]
  simp

/-- **A savepoint** that is searched for is found, and what was before it is left. -/
theorem Savepoints.restore {pre post : List (Nat × C)} {n : Nat}
    (h : Savepoints id place depth first next cs rs (pre ++ (n, c) :: post)) :
    ∃ r cs', rs[rs.findIdx (n ≤ id ·)]? = some r ∧ id r = n ∧ place r = depth + cs'.length ∧
      (c :: cs') <:+ cs ∧
      Savepoints id place depth first next (c :: cs') (rs.take (rs.findIdx (n ≤ id ·))) pre := by
  obtain ⟨old, new, rfl, hold, htaken⟩ := h.taken
  have hpre := forall₂_take_append _ _ _ htaken
  have hrest := forall₂_drop_append _ _ _ htaken
  have hnew := take_append_drop pre.length new
  generalize new.take pre.length = npre at hpre hnew
  generalize new.drop pre.length = nrest at hrest hnew
  obtain ⟨r, npost, ⟨rfl, cs', hsuffix, hplace⟩, -, rfl⟩ := forall₂_cons_right_iff.mp hrest
  subst hnew
  have hsplit : old ++ (npre ++ r :: npost) = (old ++ npre) ++ r :: npost :=
    (append_assoc _ _ _).symm
  have hordered := h.ordered
  have hbound := h.bound
  rw [hsplit] at hordered hbound ⊢
  rw [findIdx_of_ordered hordered]
  obtain ⟨hleft, -, hcross⟩ := pairwise_append.mp hordered
  have hbelow : ∀ r' ∈ old ++ npre, place r' ≤ place r := fun r' hr' =>
    (hcross r' hr' r mem_cons_self).2
  refine ⟨r, cs', by simp, rfl, hplace, hsuffix, ?_⟩
  rw [take_left]
  refine ⟨⟨old, npre, rfl, hold, ?_⟩, hleft, fun r' hr' => ?_⟩
  · -- what is left in the log is long enough for the savepoints before
    obtain ⟨hlen, hzip⟩ := forall₂_iff_zip.mp hpre
    refine forall₂_iff_zip.mpr ⟨hlen, fun {r' mark} hmem => ?_⟩
    obtain ⟨hid, cs'', hsuffix', hplace'⟩ := hzip hmem
    have hle := hbelow r' (mem_append_right old (of_mem_zip hmem).1)
    refine ⟨hid, cs'', suffix_of_suffix_length_le hsuffix' hsuffix ?_, hplace'⟩
    simp only [length_cons]
    omega
  · have hb := hbound r' (mem_append_left _ hr')
    have hle := hbelow r' hr'
    rw [length_cons]
    exact ⟨hb.1, by omega⟩

/-- A savepoint that was not taken is not found. -/
theorem Savepoints.missing {n : Nat} (h : Savepoints id place depth first next cs rs marks)
    (hfirst : first ≤ n) (hn : n ∉ marks.map Prod.fst) {r : R} (hr : r ∈ rs) : id r ≠ n := by
  obtain ⟨old, new, rfl, hold, htaken⟩ := h.taken
  rintro rfl
  obtain hr | hr := mem_append.mp hr
  · have hlt := hold r hr
    omega
  · obtain ⟨i, hi, rfl⟩ := getElem_of_mem hr
    have hi' : i < marks.length := htaken.length_eq ▸ hi
    exact hn (mem_map.mpr ⟨marks.get ⟨i, hi'⟩, get_mem _ _, (htaken.get hi hi').1.symm⟩)

end

end GoQrl.UndoLog
