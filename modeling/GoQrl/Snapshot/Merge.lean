import GoQrl.Lib.Priority
import GoQrl.Snapshot.Iterator

/-!
# GoQrl.Snapshot.Merge

The fast iterator as a merge of the iterators of the layers.

The entries that the iterators still have are a pool, with the depths of the layers as sources.
`init` and `next` only leave out entries of deeper layers whose key is in a layer above (`Prunes`),
and end with the iterators at keys of their own, in ascending order.  So what is yielded is, in
ascending order, what counts (`collect_spec`).
-/

namespace GoQrl.Snapshot

open Priority List Option WeightedIterator
open State (GoMap)

namespace FastIterator

/-! ## pools -/

/-- What the iterator is at and what it has left. -/
def items (w : WeightedIterator) : List Item := w.it.cur :: w.it.keys

/-- The layer is not stale, and the keys ascend. -/
structure Ok (w : WeightedIterator) : Prop where
  live : w.it.stale = false
  ascending : (items w).Pairwise fun x y => x.1 < y.1

/-- What an iterator has left. -/
def ahead (w : WeightedIterator) :
    Pool Hash (Option Bytes) := {x | w.priority = x.1 ∧ x.2 ∈ w.it.keys}

/-- What the iterators are at and what they have left. -/
def pool (l : List WeightedIterator) :
    Pool Hash (Option Bytes) := {x | ∃ w ∈ l, w.priority = x.1 ∧ x.2 ∈ items w}

/-- What the iterators have left. -/
def aheads (l : List WeightedIterator) : Pool Hash (Option Bytes) := {x | ∃ w ∈ l, x ∈ ahead w}

theorem pool_append (a b : List WeightedIterator) : pool (a ++ b) = pool a ∪ pool b := by
  ext x
  simp only [pool, mem_append, Set.mem_union, Set.mem_ofPred_eq]
  grind

theorem pool_singleton (w : WeightedIterator) :
    pool [w] = insert (w.priority, w.it.cur) (ahead w) := by
  simp only [pool, ahead, items, mem_cons]
  grind

/-- The pool of a list is what its first iterator still has, and the pool of the others. -/
theorem pool_cons (w : WeightedIterator) (l : List WeightedIterator) :
    pool (w :: l) = insert (w.priority, w.it.cur) (ahead w) ∪ pool l := by
  rw [← pool_singleton, ← pool_append]
  rfl

theorem pool_nil : pool [] = ∅ := by
  simp [pool]

/-- The order of the iterators does not matter for the pool. -/
theorem pool_perm {a b : List WeightedIterator} (h : a.Perm b) : pool a = pool b := by
  simp [pool, h.mem_iff]

/-- A step forward. -/
structure Advanced (w w' : WeightedIterator) : Prop where
  ok : Ok w'
  priority : w'.priority = w.priority
  ahead : ahead w = pool [w']
  lt : w.hash < w'.hash
  size : w.it.keys.length = w'.it.keys.length + 1

variable {w w' x : WeightedIterator} {P S : List WeightedIterator} {positioned : GoMap Hash Nat}

/-- A live iterator that does not advance has no keys left. -/
theorem next_none (h : w.next = none) (hlive : w.it.stale = false) : w.it.keys = [] := by
  simp only [WeightedIterator.next, LayerIterator.next, map_eq_none_iff] at h
  split at h
  next hkeys => exact hkeys
  next x keys hkeys =>
    simp [hlive] at h

/-- The keys of an iterator that is not at a key yet. -/
theorem next_some (h : w.next = some w') :
    w.it.stale = false ∧ w'.priority = w.priority ∧ w'.it.stale = w.it.stale ∧
      w.it.keys = items w' := by
  simp only [WeightedIterator.next, LayerIterator.next, map_eq_some_iff] at h
  obtain ⟨it, hit, rfl⟩ := h
  split at hit
  · cases hit
  next x keys hkeys =>
    split at hit
    · cases hit
    next hlive =>
      cases hit
      exact ⟨by simpa using hlive, rfl, rfl, hkeys⟩

/-- The first step of an iterator that was not positioned, or that gave way. -/
theorem first_step (hstale : w.it.stale = false) (hkeys : w.it.keys.Pairwise fun x y => x.1 < y.1)
    (h : w.next = some w') :
    Ok w' ∧ w'.priority = w.priority ∧ ahead w = pool [w'] ∧
      w.it.keys.length = w'.it.keys.length + 1 := by
  obtain ⟨-, hpriority, hstale', hitems⟩ := next_some h
  refine ⟨⟨hstale'.trans hstale, hitems ▸ hkeys⟩, hpriority, ?_, by rw [hitems]; rfl⟩
  simp only [ahead, pool, mem_singleton, hitems]
  grind

theorem Ok.keys (h : Ok w) : w.it.stale = false ∧ w.it.keys.Pairwise fun x y => x.1 < y.1 :=
  ⟨h.live, (pairwise_cons.mp h.ascending).2⟩

/-- Advancing an iterator moves its position to the next of its keys. -/
theorem advanced (hok : Ok w) (h : w.next = some w') : Advanced w w' := by
  obtain ⟨hok', hpriority, hahead, hsize⟩ := first_step hok.live hok.keys.2 h
  have hascending := hok.ascending
  rw [items, pairwise_cons, (next_some h).2.2.2] at hascending
  exact ⟨hok', hpriority, hahead, hascending.1 _ mem_cons_self, hsize⟩

/-! ## the place of an iterator -/

/-- The hashes ascend. -/
def Ascending (l : List WeightedIterator) : Prop := l.Pairwise fun a b => a.hash < b.hash

variable {l : List WeightedIterator}

/-- The hash is between those of the two lists. -/
def Between (l₁ l₂ : List WeightedIterator) (x : Hash) :
    Prop := (∀ w ∈ l₁, w.hash < x) ∧ ∀ w ∈ l₂, x < w.hash

/-- An ascending list around a hash. -/
theorem Ascending.around (h : Ascending l) (x : Hash) :
    ∃ l1 l2, Between l1 l2 x ∧ (l = l1 ++ l2 ∨ ∃ c, l = l1 ++ c :: l2 ∧ c.hash = x) := by
  induction l with
  | nil => exact ⟨[], [], by simp [Between], .inl rfl⟩
  | cons w l ih =>
    obtain ⟨hw, hl⟩ := pairwise_cons.mp h
    rcases lt_trichotomy w.hash x with hlt | heq | hgt
    · obtain ⟨l1, l2, ⟨h1, h2⟩, hsplit⟩ := ih hl
      refine ⟨w :: l1, l2, ⟨forall_mem_cons.mpr ⟨hlt, h1⟩, h2⟩, ?_⟩
      obtain rfl | ⟨c, rfl, hc⟩ := hsplit
      · exact .inl rfl
      · exact .inr ⟨c, rfl, hc⟩
    · exact ⟨[], l, ⟨by simp, fun w' hw' => heq ▸ hw w' hw'⟩, .inr ⟨w, rfl, heq⟩⟩
    · exact ⟨[], w :: l,
        ⟨by simp, forall_mem_cons.mpr ⟨hgt, fun w' hw' => hgt.trans (hw w' hw')⟩⟩, .inl rfl⟩

variable {A B B₁ B₂ : List WeightedIterator} {c : WeightedIterator}

theorem get_middle (A B : List WeightedIterator) (w : WeightedIterator) :
    (A ++ w :: B)[A.length]? = some w := by
  rw [getElem?_append_right (le_refl _), Nat.sub_self, getElem?_cons_zero]

/-- The predicate of the search, asked at an iterator behind the one that was advanced. -/
theorem placeAt_mem {m : Nat} (hx : B[m]? = some x) (clash : Option Nat) :
    placeAt (A ++ w :: B) A.length w (A.length + m) clash =
      if w.hash < x.hash then (true, clash)
      else if x.hash < w.hash then (false, clash)
      else (decide (w.priority < x.priority), some (A.length + m + 1)) := by
  have hlt := index_lt hx
  have hget : (A ++ w :: B)[A.length + m + 1]? = some x := by
    rw [getElem?_append_right (by omega), show A.length + m + 1 - A.length = m + 1 by omega,
      getElem?_cons_succ, hx]
  have hlen : (A ++ w :: B).length = A.length + B.length + 1 := by simp; omega
  rw [placeAt, if_neg (by omega), if_neg (by omega), hget]

/-- Before the place the search finds smaller keys and goes on. -/
theorem placeAt_before {n : Nat} (h : ∀ x ∈ B₁, x.hash < w.hash) (hn : n < A.length + B₁.length)
    (clash : Option Nat) :
    placeAt (A ++ w :: (B₁ ++ B)) A.length w n clash = (false, clash) := by
  by_cases hn' : n < A.length
  · rw [placeAt, if_pos hn']
  · obtain ⟨m, rfl⟩ := Nat.exists_eq_add_of_le (Nat.le_of_not_lt hn')
    have hm : m < B₁.length := by omega
    have hlt := h _ (getElem_mem hm)
    rw [placeAt_mem ((getElem?_append_left hm).trans (getElem?_eq_getElem hm)),
      if_neg hlt.not_gt, if_pos hlt]

/-- Behind the place the search finds larger keys, without a clash. -/
theorem placeAt_behind {n : Nat} (h : ∀ x ∈ B₂, w.hash < x.hash) (hn : A.length + B.length ≤ n)
    (clash : Option Nat) :
    placeAt (A ++ w :: (B ++ B₂)) A.length w n clash = (true, clash) := by
  obtain ⟨m, rfl⟩ := Nat.exists_eq_add_of_le hn
  rw [add_assoc]
  have hget : (B ++ B₂)[B.length + m]? = B₂[m]? := by
    rw [getElem?_append_right (by omega), Nat.add_sub_cancel_left]
  cases hx : B₂[m]? with
  | some x => rw [placeAt_mem (hget.trans hx), if_pos (h x (mem_of_getElem? hx))]
  | none =>
    have hlen := getElem?_eq_none_iff.mp hx
    rw [placeAt, if_neg (by omega), getElem?_eq_none (by simp; omega), ite_self]

/-- Where the search ends: behind the smaller ones, and behind one with the same hash and a smaller
priority. -/
theorem move_append :
    move (A ++ w :: (B₁ ++ B₂)) A.length (A.length + B₁.length) c = A ++ B₁ ++ c :: B₂ := by
  have hassoc : A ++ w :: (B₁ ++ B₂) = (A ++ w :: B₁) ++ B₂ := by simp
  have hlen : A.length + B₁.length + 1 = (A ++ w :: B₁).length := by simp; omega
  rw [move, hlen, hassoc, take_left]
  simp

/-- The place at which the search ends.  It asks there and at the place before, and so finds the
clash. -/
theorem place_eq {i k : Nat} {clash : Option Nat}
    (hask : ∀ n s, placeAt l i w n s = (decide (k ≤ n), if clash = some (n + 1) then clash else s))
    (hk : k ≤ l.length)
    (hclash : clash = none ∨ clash = some (k + 1) ∧ k < l.length ∨ clash = some k ∧ 0 < k) :
    place l i w = (move l i k w, clash) := by
  obtain ⟨hindex, hstate⟩ := Search.search_spec
    (I := fun i j s => s = clash ∨ clash = some (k + 1) ∧ k < j ∨ clash = some k ∧ i < k) hask
    (fun {i j n s} hi hj hn hs => by grind) (fun {i j n s} hi hj hn hs => by grind)
      (le_refl l.length) (Nat.zero_le k) hk
    (show none = clash ∨ _ from hclash.imp_left Eq.symm)
  have hstate := hstate.resolve_right (by omega)
  show (move l i (Search.search _ _ _ _ _).1 w, (Search.search _ _ _ _ _).2) = _
  rw [hindex, hstate]

/-- The place when no iterator has the same hash. -/
theorem place_free (h : Between B₁ B₂ w.hash) :
    place (A ++ w :: (B₁ ++ B₂)) A.length w = (A ++ B₁ ++ w :: B₂, none) := by
  have hask : ∀ n s,
      placeAt (A ++ w :: (B₁ ++ B₂)) A.length w n s = (decide (A.length + B₁.length ≤ n), s) := by
    intro n s
    by_cases hn : A.length + B₁.length ≤ n
    · rw [placeAt_behind h.2 hn, decide_eq_true hn]
    · rw [placeAt_before h.1 (by omega), decide_eq_false hn]
  rw [place_eq (by simpa using hask) (by simp; omega) (.inl rfl), move_append]

/-- The place when an iterator has the same hash: the one with the smaller priority comes first. -/
theorem place_clash (h : Between B₁ B₂ w.hash) (hc : c.hash = w.hash) :
    place (A ++ w :: (B₁ ++ c :: B₂)) A.length w =
      (if w.priority < c.priority then A ++ B₁ ++ [w] ++ c :: B₂ else A ++ B₁ ++ [c] ++ w :: B₂,
        some (A.length + B₁.length + 1)) := by
  let k := if w.priority < c.priority then A.length + B₁.length else A.length + B₁.length + 1
  have hk : k = A.length + B₁.length ∧ w.priority < c.priority ∨
      k = A.length + B₁.length + 1 ∧ ¬w.priority < c.priority := by
    grind
  have hask : ∀ n s, placeAt (A ++ w :: (B₁ ++ c :: B₂)) A.length w n s =
      (decide (k ≤ n), if some (A.length + B₁.length + 1) = some (n + 1) then some
        (A.length + B₁.length + 1) else s) := by
    intro n s
    simp only [some.injEq, Nat.add_right_cancel_iff]
    rcases lt_trichotomy n (A.length + B₁.length) with hn | rfl | hn
    · rw [placeAt_before h.1 hn, decide_eq_false (by omega), if_neg (by omega)]
    · rw [placeAt_mem (get_middle B₁ B₂ c), if_neg hc.not_gt, if_neg hc.not_lt, if_pos rfl]
      refine Prod.ext ?_ rfl
      rw [decide_eq_decide]
      omega
    · rw [append_cons B₁, placeAt_behind h.2 (by simp; omega), decide_eq_true (by omega),
        if_neg (by omega)]
  have hlen : (A ++ w :: (B₁ ++ c :: B₂)).length = A.length + B₁.length + B₂.length + 2 := by
    simp; omega
  rw [place_eq hask (by omega)
    (.inr (hk.imp (fun h => ⟨by rw [h.1], by omega⟩) fun h => ⟨by rw [h.1], by omega⟩))]
  obtain ⟨hk, hp⟩ | ⟨hk, hp⟩ := hk
  · rw [hk, if_pos hp, move_append]
    simp
  · have hmove : move (A ++ w :: (B₁ ++ [c] ++ B₂)) A.length (A.length + (B₁ ++ [c]).length) w =
        A ++ (B₁ ++ [c]) ++ w :: B₂ :=
      move_append
    rw [length_append, ← add_assoc] at hmove
    rw [hk, if_neg hp]
    simpa using hmove

/-! ## advancing one iterator -/

variable {w₀ : WeightedIterator} {fuel : Nat}

/-- The iterator behind the one that is advanced is the first of the rest. -/
theorem get_behind (A B : List WeightedIterator) (w : WeightedIterator) :
    (A ++ w :: B)[A.length + 1]? = B.head? := by
  rw [getElem?_append_right (by omega), show A.length + 1 - A.length = 1 by omega]
  cases B <;> rfl

/-- Replacing the iterator that is advanced leaves the others in place. -/
theorem set_middle (A B : List WeightedIterator) (w w' : WeightedIterator) :
    (A ++ w :: B).set A.length w' = A ++ w' :: B := by
  rw [set_append_right _ _ (le_refl _), Nat.sub_self, set_cons_zero]

/-- No iterator has the new hash. -/
theorem next_free (hw : w₀.next = some w) (h : Between B₁ B₂ w.hash) :
    next (fuel + 1) (A ++ w₀ :: (B₁ ++ B₂)) A.length = .ok (true, A ++ B₁ ++ w :: B₂) := by
  simp only [next, get_middle, hw, set_middle, get_behind]
  cases B₁ with
  | nil =>
    cases B₂ with
    | nil => simp
    | cons x B₂ => simp [h.2 x mem_cons_self]
  | cons x B₁ =>
    have hx := h.1 x mem_cons_self
    have hne : ¬(w.hash = x.hash ∧ w.priority < x.priority) := fun h => absurd h.1 hx.ne'
    simp only [cons_append, head?_cons, if_neg hx.not_gt, if_neg hne]
    have hplace := place_free (A := A) h
    simp only [cons_append] at hplace
    simp [hplace]

/-- An iterator has the new hash, and the one with the larger priority is advanced next. -/
theorem next_clash (hw : w₀.next = some w) (h : Between B₁ B₂ w.hash) (hc : c.hash = w.hash) :
    next (fuel + 1) (A ++ w₀ :: (B₁ ++ c :: B₂)) A.length =
      (if w.priority < c.priority then next fuel (A ++ B₁ ++ [w] ++ c :: B₂) (A ++ B₁ ++ [w]).length
        else next fuel (A ++ B₁ ++ [c] ++ w :: B₂) (A ++ B₁ ++ [c]).length).map fun r =>
          (true, r.2) := by
  have hlen : ∀ x : WeightedIterator, (A ++ B₁ ++ [x]).length = A.length + B₁.length + 1 :=
    fun x => by simp; omega
  have hplace := place_clash (A := A) h hc
  simp only [next, get_middle, hw, set_middle, get_behind, hlen]
  cases B₁ with
  | nil =>
    simp only [nil_append, head?_cons, if_neg hc.not_gt]
    by_cases hp : w.priority < c.priority
    · simp [hc, hp]
    · rw [nil_append, if_neg hp] at hplace
      simp only [if_neg fun h : _ ∧ _ => hp h.2, hplace, if_neg hp]
  | cons x B₁ =>
    have hx := h.1 x mem_cons_self
    have hne : ¬(w.hash = x.hash ∧ w.priority < x.priority) := fun h => absurd h.1 hx.ne'
    rw [cons_append] at hplace
    simp only [cons_append, head?_cons, if_neg hx.not_gt, if_neg hne, hplace]
    split <;> rfl

/-- The iterators ascend, each is in order, and no two have the same priority. -/
structure Sorted (l : List WeightedIterator) : Prop where
  ascending : Ascending l
  ok : ∀ w ∈ l, Ok w
  priorities : (l.map WeightedIterator.priority).Nodup

theorem size_append (a b : List WeightedIterator) : size (a ++ b) = size a + size b := by
  simp [size]

theorem size_nil : size [] = 0 := rfl

theorem size_cons (w : WeightedIterator) (l : List WeightedIterator) :
    size (w :: l) = w.it.keys.length + 1 + size l := by
  simp [size]

/-- The number of entries left does not depend on the order of the iterators. -/
theorem size_perm {a b : List WeightedIterator} (h : a.Perm b) : size a = size b :=
  (h.map _).sum_nat

/-- The iterator between `A` and `B` is to be advanced: the others ascend, and it is behind `A`. -/
structure Open (A : List WeightedIterator) (w : WeightedIterator) (B : List WeightedIterator) :
    Prop where
  ascending : Ascending (A ++ B)
  above : ∀ x ∈ A, x.hash ≤ w.hash
  below : ∀ x ∈ B, w.hash < x.hash
  ok : ∀ x ∈ A ++ w :: B, Ok x
  priorities : ((A ++ w :: B).map WeightedIterator.priority).Nodup

/-- What advancing leaves. -/
structure Closed (A : List WeightedIterator) (w : WeightedIterator) (B B' : List WeightedIterator) :
    Prop where
  sorted : Sorted (A ++ B')
  prunes : Prunes (pool A ∪ (ahead w ∪ pool B)) (pool (A ++ B'))
  smaller : size B' < size (w :: B)

/-- An iterator is put into its place. -/
theorem Open.insert (h : Open A w₀ (B₁ ++ B₂)) (hw : Advanced w₀ w) (hb : Between B₁ B₂ w.hash) :
    Sorted (A ++ B₁ ++ w :: B₂) := by
  refine ⟨?_, fun x hx => ?_, ?_⟩
  · have hall := h.ascending
    rw [Ascending, ← append_assoc, pairwise_append] at hall
    rw [Ascending, pairwise_append, pairwise_cons]
    refine ⟨hall.1, ⟨hb.2, hall.2.1⟩, fun x hx y hy => ?_⟩
    obtain rfl | hy := mem_cons.mp hy
    · obtain hx | hx := mem_append.mp hx
      · exact lt_of_le_of_lt (h.above x hx) hw.lt
      · exact hb.1 x hx
    · exact hall.2.2 x hx y hy
  · have hok := h.ok x
    grind [hw.ok]
  · have hperm : ((A ++ B₁ ++ w :: B₂).map priority).Perm
        ((A ++ w₀ :: (B₁ ++ B₂)).map priority) := by
      simp only [map_append, map_cons, hw.priority, append_assoc]
      exact Perm.append_left _ perm_middle
    exact hperm.nodup_iff.mpr h.priorities

/-- Without one of the iterators behind, the others are still in order. -/
theorem Open.drop (h : Open A w₀ (B₁ ++ c :: B₂)) : Open A w₀ (B₁ ++ B₂) := by
  have hsub : (B₁ ++ B₂).Sublist (B₁ ++ c :: B₂) := (sublist_cons_self c B₂).append_left B₁
  refine ⟨h.ascending.sublist (hsub.append_left A), h.above, fun x hx => h.below x (hsub.subset hx),
    fun x hx => h.ok x (((hsub.cons_cons w₀).append_left A).subset hx), ?_⟩
  exact h.priorities.sublist (((hsub.cons_cons w₀).append_left A).map _)

/-- The iterators `w` and `c` are at the same key, and the one that is put behind the other is to be
advanced. -/
theorem Open.clash {y : WeightedIterator} (h : Open A w₀ (B₁ ++ c :: B₂)) (hw : Advanced w₀ w)
    (hb : Between B₁ B₂ w.hash) (hx : x.hash = w.hash)
    (hy : y.hash = w.hash) (hperm : (A ++ B₁ ++ [y] ++ x :: B₂).Perm (A ++ w :: (B₁ ++ c :: B₂))) :
    Open (A ++ B₁ ++ [y]) x B₂ := by
  refine ⟨?_, fun z hz => ?_, fun z hz => hx ▸ hb.2 z hz, fun z hz => ?_, ?_⟩
  · have hsorted := (h.drop.insert hw hb).ascending
    rw [Ascending, ← pairwise_map] at hsorted ⊢
    simpa [hy] using hsorted
  · simp only [mem_append, mem_singleton] at hz
    rw [hx]
    obtain (hz | hz) | rfl := hz
    · exact ((h.above z hz).trans_lt hw.lt).le
    · exact (hb.1 z hz).le
    · exact hy.le
  · have hall := h.ok z
    grind [hw.ok]
  · refine ((hperm.map priority).nodup_iff).mpr ?_
    simpa [hw.priority] using h.priorities

/-- Of two iterators at the same key, the entry of the one with the larger priority is left out. -/
theorem prunes_clash {S : Pool Hash (Option Bytes)} {a b : WeightedIterator}
    (hhash : b.hash = a.hash) (hp : a.priority < b.priority) (hmem : (a.priority, a.it.cur) ∈ S) :
    Prunes (insert (b.priority, b.it.cur) S) S := by
  have hkey : (a.priority, b.it.cur.1, a.it.cur.2) ∈ S := by
    show (a.priority, b.hash, a.it.cur.2) ∈ S
    rwa [hhash]
  exact Prunes.drop hkey hp

/-- The iterator `x` at the key of `y` was advanced too. -/
theorem Closed.cascade {y : WeightedIterator} {B' : List WeightedIterator}
    (h : Closed (A ++ B₁ ++ [y]) x B₂ B')
    (hw : Advanced w₀ w) (hperm : (A ++ B₁ ++ [y] ++ x :: B₂).Perm (A ++ w :: B))
    (hhash : x.hash = y.hash) (hp : y.priority < x.priority) : Closed A w₀ B (B₁ ++ [y] ++ B') := by
  have hassoc : A ++ (B₁ ++ [y] ++ B') = A ++ B₁ ++ [y] ++ B' := by simp
  refine ⟨hassoc ▸ h.sorted, ?_, ?_⟩
  · have hpool : pool A ∪ (ahead w₀ ∪ pool B) =
        insert (x.priority, x.it.cur) (pool (A ++ B₁ ++ [y]) ∪ (ahead x ∪ pool B₂)) := by
      rw [hw.ahead, ← pool_append, ← pool_append, singleton_append, ← pool_perm hperm,
        pool_append, pool_cons, Set.insert_union, Set.union_insert]
    rw [hpool, hassoc]
    refine (prunes_clash hhash hp (.inl ?_)).trans h.prunes
    exact ⟨y, by simp, rfl, mem_cons_self⟩
  · have hsmaller := h.smaller
    have hsize := size_perm hperm
    have := hw.size
    simp only [size_append, size_cons] at hsmaller hsize ⊢
    omega

/-- **Advancing** the iterator between `A` and `B` leaves the iterators in order, and leaves out
only entries that do not count. -/
theorem next_spec (h : Open A w₀ B) (hfuel : size (w₀ :: B) ≤ fuel) :
    ∃ B', next fuel (A ++ w₀ :: B) A.length = .ok (decide (0 < (A ++ B').length), A ++ B') ∧
      Closed A w₀ B B' := by
  induction fuel generalizing A w₀ B with
  | zero =>
    rw [size_cons] at hfuel
    omega
  | succ fuel ih =>
    have hok0 := h.ok w₀ (by simp)
    cases hnext : w₀.next with
    | none =>
      have hkeys := next_none hnext hok0.live
      refine ⟨B, ?_, ⟨h.ascending, fun x hx => h.ok x ?_, ?_⟩, ?_, ?_⟩
      · simp [next, hnext, eraseIdx_append_of_length_le (le_refl _)]
      · simp only [mem_append, mem_cons] at hx ⊢
        tauto
      · exact h.priorities.sublist (((sublist_cons_self w₀ B).append_left A).map _)
      · have hempty : ahead w₀ = ∅ := by
          simp [ahead, hkeys]
        rw [hempty, Set.empty_union, ← pool_append]
        exact .refl _
      · rw [size_cons]
        omega
    | some w =>
      have hw := advanced hok0 hnext
      have hB : Ascending B := (pairwise_append.mp h.ascending).2.1
      obtain ⟨B₁, B₂, hb, rfl | ⟨c, rfl, hc⟩⟩ := hB.around w.hash
      · refine ⟨B₁ ++ w :: B₂, ?_, ?_, ?_, ?_⟩
        · rw [next_free hnext hb, ← append_assoc, decide_eq_true (by simp)]
        · rw [← append_assoc]
          exact h.insert hw hb
        · have heq : pool A ∪ (ahead w₀ ∪ pool (B₁ ++ B₂)) = pool (A ++ (B₁ ++ w :: B₂)) := by
            simp only [hw.ahead, pool_append, pool_cons, pool_nil]
            ext x
            simp only [Set.mem_union, Set.mem_insert_iff, Set.mem_empty_iff_false]
            tauto
          rw [heq]
          exact .refl _
        · simp only [size_cons, size_append, hw.size]
          omega
      · -- one of the two gives way, and is advanced by the next call
        obtain ⟨x, y, hx, hy, hp, hperm, hstep⟩ : ∃ x y : WeightedIterator, x.hash = w.hash ∧
          y.hash = w.hash ∧
            y.priority < x.priority ∧ (A ++ B₁ ++ [y] ++ x :: B₂).Perm (A ++ w :: (B₁ ++ c :: B₂)) ∧
            next (fuel + 1) (A ++ w₀ :: (B₁ ++ c :: B₂)) A.length =
              (next fuel (A ++ B₁ ++ [y] ++ x :: B₂) (A ++ B₁ ++ [y]).length).map fun r =>
                (true, r.2) := by
          have hbehind : (A ++ B₁ ++ [w] ++ c :: B₂).Perm (A ++ w :: (B₁ ++ c :: B₂)) := by
            simpa using Perm.append_left A perm_middle
          rw [next_clash hnext hb hc]
          by_cases hp : w.priority < c.priority
          · exact ⟨c, w, hc, rfl, hp, hbehind, by rw [if_pos hp]⟩
          · have hne : c.priority ≠ w₀.priority := by
              have hnodup := h.priorities
              rw [map_append] at hnodup
              exact fun heq =>
                ((nodup_cons.mp (nodup_append.mp hnodup).2.1).1) (heq ▸ mem_map_of_mem (by simp))
            have hpriority := hw.priority
            refine ⟨w, c, rfl, hc, by omega, .trans ?_ hbehind, by rw [if_neg hp]⟩
            simpa using ((Perm.swap w c B₂).append_left B₁).append_left A
        obtain ⟨B', hresult, hclosed⟩ := ih (h.clash hw hb hx hy hperm) (by
          have hsize := size_perm hperm
          have := hw.size
          simp only [size_append, size_cons] at hfuel hsize ⊢
          omega)
        refine ⟨B₁ ++ [y] ++ B', ?_, hclosed.cascade hw hperm (hx.trans hy.symm) hp⟩
        rw [hstep, hresult]
        simp [Except.map]

/-! ## positioning the iterators -/

/-- The iterators `P` are at keys of their own, which `positioned` has, and `S` are still to be
positioned. -/
structure Positioned (P S : List WeightedIterator) (positioned : GoMap Hash Nat) : Prop where
  mapped : ∀ h j, positioned.lookup h = some j ↔ ∃ w, P[j]? = some w ∧ w.hash = h
  ok : ∀ w ∈ P, Ok w
  pending : ∀ w ∈ S, w.it.stale = false ∧ w.it.keys.Pairwise fun x y => x.1 < y.1
  priorities : ((P ++ S).map WeightedIterator.priority).Nodup

/-- The iterators are at keys of their own. -/
structure Distinct (l : List WeightedIterator) : Prop where
  hashes : l.Pairwise fun a b => a.hash ≠ b.hash
  ok : ∀ w ∈ l, Ok w
  priorities : (l.map WeightedIterator.priority).Nodup

theorem aheads_nil : aheads [] = ∅ := by
  simp [aheads]

/-- What is ahead of a list is ahead of its first iterator or of the others. -/
theorem aheads_cons (w : WeightedIterator) (l : List WeightedIterator) :
    aheads (w :: l) = ahead w ∪ aheads l := by
  ext x
  simp [aheads]

/-- An iterator that is to be positioned again. -/
theorem pool_pending (P S : List WeightedIterator) (w : WeightedIterator) :
    pool (P ++ [w]) ∪ aheads S = insert (w.priority, w.it.cur) (pool P ∪ aheads (w :: S)) := by
  rw [pool_append, pool_singleton, Set.union_insert, Set.insert_union, Set.union_assoc, aheads_cons]

theorem exists_append_of_getElem? {A : Type} {l : List A} {i : Nat} {x : A} (h : l[i]? = some x) :
    ∃ l1 l2, l = l1 ++ x :: l2 ∧ l1.length = i := by
  obtain ⟨hlt, rfl⟩ := List.getElem?_eq_some_iff.mp h
  exact ⟨l.take i, l.drop (i + 1), by simp, by simp; omega⟩

/-- Exchanging two iterators of a list is a permutation. -/
theorem perm_swap (P1 P2 S : List WeightedIterator) (a b : WeightedIterator) :
    ((P1 ++ a :: P2) ++ b :: S).Perm ((P1 ++ b :: P2) ++ a :: S) := by
  have hfront : ∀ a b : WeightedIterator,
      ((P1 ++ a :: P2) ++ b :: S).Perm (b :: a :: (P1 ++ P2 ++ S)) := fun a b =>
    perm_middle.trans (((@perm_middle _ _ P1 _).append_right S).cons b)
  exact (hfront a b).trans ((Perm.swap a b _).trans (hfront b a).symm)

namespace Positioned

variable {it : WeightedIterator}

/-- Once all iterators are positioned, no two of them are at the same key. -/
theorem distinct (h : Positioned P [] positioned) : Distinct P := by
  refine ⟨pairwise_iff_getElem.mpr fun i j hi hj hlt heq => ?_, h.ok, by simpa using h.priorities⟩
  have hi' := (h.mapped P[i].hash i).mpr ⟨_, getElem?_eq_getElem hi, rfl⟩
  have hj' := (h.mapped P[i].hash j).mpr ⟨_, getElem?_eq_getElem hj, heq.symm⟩
  rw [hi', some.injEq] at hj'
  omega

section

variable (h : Positioned P (it :: S) positioned)
include h

/-- An exhausted iterator is dropped. -/
theorem exhausted {S' : List WeightedIterator} (hperm : S'.Perm S) :
    Positioned P S' positioned := by
  refine ⟨h.mapped, h.ok, fun w hw => h.pending w (mem_cons_of_mem _ (hperm.subset hw)), ?_⟩
  have hnodup := h.priorities.sublist (((sublist_cons_self it S).append_left P).map _)
  exact (((hperm.append_left P).map _).nodup_iff).mpr hnodup

/-- The iterator stays at a key of its own. -/
theorem settled (hok : Ok w) (hpriority : w.priority = it.priority)
    (hnew : positioned.lookup w.hash = none) :
    Positioned (P ++ [w]) S (positioned.insert w.hash P.length) := by
  refine ⟨fun x j => ?_, fun y hy => ?_, fun y hy => h.pending y (mem_cons_of_mem _ hy), ?_⟩
  · have hmapped := h.mapped x j
    by_cases hx : x = w.hash
    · subst hx
      rw [AList.lookup_insert]
      grind
    · rw [AList.lookup_insert_ne hx]
      grind
  · have hall := h.ok y
    grind
  · simpa [hpriority] using h.priorities

/-- The iterator is at a key of one above it, and stays to be positioned. -/
theorem again (hok : Ok w) (hpriority : w.priority = it.priority) :
    Positioned P (w :: S) positioned := by
  refine ⟨h.mapped, h.ok, fun y hy => ?_, by simpa [hpriority] using h.priorities⟩
  obtain rfl | hy := mem_cons.mp hy
  · exact hok.keys
  · exact h.pending y (mem_cons_of_mem _ hy)

end

/-- The iterator takes the place of the one that was at its key. -/
theorem swapped {P1 P2 : List WeightedIterator} {old : WeightedIterator}
    (h : Positioned (P1 ++ old :: P2) (it :: S) positioned) (hok : Ok w)
    (hpriority : w.priority = it.priority)
    (hhash : old.hash = w.hash) : Positioned (P1 ++ w :: P2) (old :: S) positioned := by
  refine ⟨fun x j => ?_, fun y hy => ?_, fun y hy => ?_, ?_⟩
  · rw [h.mapped]
    have hset : (P1 ++ w :: P2) = (P1 ++ old :: P2).set P1.length w := (set_middle P1 P2 old w).symm
    by_cases hj : j = P1.length
    · subst hj
      simp [hhash]
    · rw [hset, getElem?_set_ne (Ne.symm hj)]
  · have hall := h.ok y
    grind
  · obtain rfl | hy := mem_cons.mp hy
    · exact (h.ok y (by simp)).keys
    · exact h.pending y (mem_cons_of_mem _ hy)
  · exact (((perm_swap P1 P2 S w old).map priority).nodup_iff).mpr
      (by simpa [hpriority] using h.priorities)

end Positioned

/-- **Positioning** all iterators at keys of their own leaves out only entries that do not count. -/
theorem initLoop_spec (h : Positioned P S positioned) (hfuel : size P + size S < fuel) :
    ∃ L, initLoop fuel (P ++ S) P.length positioned = .ok L ∧ Distinct L ∧
      Prunes (pool P ∪ aheads S) (pool L) := by
  induction fuel generalizing P S positioned with
  | zero => omega
  | succ fuel ih =>
    cases S with
    | nil =>
      refine ⟨P, ?_, h.distinct, ?_⟩
      · simp [initLoop]
      · rw [aheads_nil, Set.union_empty]
        exact .refl _
    | cons it S =>
      obtain ⟨hstale, hkeys⟩ := h.pending it mem_cons_self
      rw [size_cons] at hfuel
      cases hnext : it.next with
      | none =>
        have hempty : ahead it = ∅ := by
          simp [ahead, next_none hnext hstale]
        -- what takes the place of the iterator
        have hlast : ∃ S', S'.Perm S ∧ initLoop (fuel + 1) (P ++ it :: S) P.length positioned =
            initLoop fuel (P ++ S') P.length positioned := by
          simp only [initLoop, get_middle, hnext]
          obtain rfl | ⟨S', last, rfl⟩ := eq_nil_or_concat S
          · simp
          · refine ⟨last :: S', ?_, ?_⟩
            · rw [concat_eq_append]
              exact (perm_append_singleton last S').symm
            · rw [concat_eq_append,
                show P ++ it :: (S' ++ [last]) = (P ++ it :: S') ++ [last] by simp]
              simp only [getLast?_append, getLast?_singleton, some_or]
              rw [set_append_left _ _ (by simp), set_middle, dropLast_concat]
        obtain ⟨S', hperm, hstep⟩ := hlast
        have hsize := size_perm hperm
        obtain ⟨L, hL, hdistinct, hprunes⟩ := ih (h.exhausted hperm) (by omega)
        refine ⟨L, hstep.trans hL, hdistinct, ?_⟩
        have hsame : aheads S' = aheads S := by
          simp [aheads, hperm.mem_iff]
        rwa [aheads_cons, hempty, Set.empty_union, ← hsame]
      | some w =>
        obtain ⟨hok, hpriority, hahead, hlen⟩ := first_step hstale hkeys hnext
        rw [aheads_cons, hahead, ← Set.union_assoc, ← pool_append]
        simp only [initLoop, get_middle, hnext, set_middle]
        cases hother : positioned.lookup w.hash with
        | none =>
          obtain ⟨L, hL, hdistinct, hprunes⟩ := ih (h.settled hok hpriority hother) (by
            simp only [size_append, size_cons, size_nil]
            omega)
          exact ⟨L, by simpa using hL, hdistinct, hprunes⟩
        | some other =>
          obtain ⟨old, hold, hhash⟩ := (h.mapped _ _).mp hother
          obtain ⟨P1, P2, rfl, rfl⟩ := exists_append_of_getElem? hold
          have hget : ((P1 ++ old :: P2) ++ w :: S)[P1.length]? = some old := by
            rw [append_assoc]
            exact get_middle P1 _ old
          simp only [hget]
          by_cases hp : old.priority < w.priority
          · rw [if_pos hp]
            obtain ⟨L, hL, hdistinct, hprunes⟩ := ih (h.again hok hpriority) (by
              rw [size_cons]
              omega)
            refine ⟨L, hL, hdistinct, .trans ?_ hprunes⟩
            rw [pool_pending]
            exact prunes_clash hhash.symm hp (.inl ⟨old, by simp, rfl, mem_cons_self⟩)
          · have hlt : w.priority < old.priority := by
              have hne : old.priority ≠ it.priority := by
                have hnodup := h.priorities
                rw [map_append] at hnodup
                exact ((nodup_append.mp hnodup).2.2) _ (mem_map_of_mem (by simp))
                  _ (mem_map_of_mem mem_cons_self)
              omega
            rw [if_neg hp]
            obtain ⟨L, hL, hdistinct, hprunes⟩ := ih (h.swapped hok hpriority hhash) (by
              simp only [size_append, size_cons] at hfuel ⊢
              omega)
            refine ⟨L, ?_, hdistinct, .trans ?_ hprunes⟩
            · rw [← hL]
              simp
            rw [pool_perm (perm_swap P1 P2 [] old w), pool_pending]
            exact prunes_clash hhash hlt (.inl ⟨w, by simp, rfl, mem_cons_self⟩)

/-- **`init`** starts with the iterators in ascending order. -/
theorem init_spec (hpending : ∀ w ∈ S, w.it.stale = false ∧ w.it.keys.Pairwise fun x y => x.1 < y.1)
    (hpriorities : (S.map priority).Nodup) :
    ∃ L, init S = .ok ⟨L, false, none⟩ ∧ Sorted L ∧ Prunes (aheads S) (pool L) := by
  have hstart : Positioned [] S ∅ := by
    refine ⟨fun h j => ?_, by simp, hpending, by simpa using hpriorities⟩
    simp
  obtain ⟨L, hL, hdistinct, hprunes⟩ :=
    initLoop_spec hstart (show size [] + size S < size S + 1 by simp [size_nil])
  have hperm : (L.mergeSort le).Perm L := mergeSort_perm _ _
  refine ⟨L.mergeSort le, ?_, ⟨?_, fun w hw => hdistinct.ok w (hperm.subset hw), ?_⟩, ?_⟩
  · simp only [nil_append, length_nil] at hL
    simp [init, hL]
  · -- the order of `Cmp`, where no two hashes are the same
    have hle : (L.mergeSort le).Pairwise fun a b => a.le b = true := by
      refine pairwise_mergeSort (fun a b c hab hbc => ?_) (fun a b => ?_) L
      · simp only [le, Bool.or_eq_true, Bool.and_eq_true, decide_eq_true_eq] at hab hbc ⊢
        grind
      · simp only [le, Bool.or_eq_true, Bool.and_eq_true, decide_eq_true_eq]
        grind
    have hne : (L.mergeSort le).Pairwise fun a b => a.hash ≠ b.hash :=
      (hperm.pairwise_iff fun h => h.symm).mpr hdistinct.hashes
    refine (hle.and hne).imp fun h => ?_
    simp only [le, Bool.or_eq_true, Bool.and_eq_true, decide_eq_true_eq] at h
    exact h.1.resolve_right fun h' => h.2 h'.1
  · exact ((hperm.map _).nodup_iff).mpr hdistinct.priorities
  · rw [pool_perm hperm]
    simpa [pool_nil] using hprunes

/-! ## iterating -/

/-- The first iterator has the smallest key, and no other has it. -/
theorem Sorted.least (h : Sorted (w :: l)) {p : Nat} {k : Hash} {v : Option Bytes}
    (hmem : (p, k, v) ∈ pool (w :: l)) : p = w.priority ∧ (k, v) = w.it.cur ∨ w.hash < k := by
  obtain ⟨x, hx, rfl, hitem⟩ := hmem
  have hx' := h.ok x hx
  -- the keys of an iterator are not below the one it is at
  have hge : (k, v) = x.it.cur ∨ x.hash < k := by
    obtain heq | hkey := mem_cons.mp hitem
    · exact .inl heq
    · exact .inr ((pairwise_cons.mp hx'.ascending).1 _ hkey)
  obtain rfl | hx := mem_cons.mp hx
  · obtain heq | hlt := hge
    · exact .inl ⟨rfl, heq⟩
    · exact .inr hlt
  · have hlt : w.hash < x.hash := (pairwise_cons.mp h.ascending).1 x hx
    obtain heq | hlt' := hge
    · right
      rwa [show k = x.hash from congrArg Prod.fst heq]
    · exact .inr (hlt.trans hlt')

/-- What counts for the key of the first iterator is its entry. -/
theorem Sorted.best_head (h : Sorted (w :: l)) (v : Option Bytes) :
    Best (pool (w :: l)) w.hash v ↔ v = w.it.cur.2 := by
  constructor
  · rintro ⟨p, hmem, -⟩
    obtain ⟨-, heq⟩ | hlt := h.least hmem
    · exact congrArg Prod.snd heq
    · exact absurd hlt (lt_irrefl _)
  · rintro rfl
    refine ⟨w.priority, ⟨w, mem_cons_self, rfl, mem_cons_self⟩, fun p v hmem => ?_⟩
    obtain ⟨rfl, -⟩ | hlt := h.least hmem
    · exact le_refl _
    · exact absurd hlt (lt_irrefl _)

/-- The other keys have values in what is left when the first iterator is advanced. -/
theorem best_rest (l : List WeightedIterator) {k : Hash} (hk : k ≠ w.hash) (v : Option Bytes) :
    Best (pool (w :: l)) k v ↔ Best (ahead w ∪ pool l) k v := by
  have hmem : ∀ p v, (p, k, v) ∈ pool (w :: l) ↔ (p, k, v) ∈ ahead w ∪ pool l := by
    intro p v
    rw [pool_cons, Set.insert_union, Set.mem_insert_iff, or_iff_right]
    intro heq
    simp only [Prod.mk.injEq] at heq
    exact hk (congrArg Prod.fst heq.2)
  simp [Best, hmem]

/-- One step of the iteration. -/
theorem next_first (h : Sorted (w :: l)) (hfuel : size (w :: l) ≤ fuel) :
    ∃ l', next fuel (w :: l) 0 = .ok (decide (0 < l'.length), l') ∧ Sorted l' ∧
      size l' < size (w :: l) ∧
      (∀ k v, k ≠ w.hash → (Best (pool (w :: l)) k v ↔ Best (pool l') k v)) ∧
      ∀ p k v, (p, k, v) ∈ pool l' → w.hash < k := by
  obtain ⟨hw, hl⟩ := pairwise_cons.mp h.ascending
  have hopen : Open [] w l := ⟨hl, by simp, hw, h.ok, h.priorities⟩
  obtain ⟨l', hnext, hclosed⟩ := next_spec hopen hfuel
  have hprunes : Prunes (ahead w ∪ pool l) (pool l') := by
    simpa [pool_nil] using hclosed.prunes
  have hsub : ahead w ∪ pool l ⊆ pool (w :: l) := by
    rw [pool_cons, Set.insert_union]
    exact Set.subset_insert _ _
  refine ⟨l', hnext, hclosed.sorted, hclosed.smaller, fun k v hk => ?_, fun p k v hmem => ?_⟩
  · rw [best_rest l hk, hprunes.best_iff]
  · obtain ⟨rfl, hkey⟩ | hmem := hprunes.subset hmem
    · exact (pairwise_cons.mp (h.ok w mem_cons_self).ascending).1 _ hkey
    · obtain ⟨rfl, heq⟩ | hlt := h.least (hsub (.inr hmem))
      · obtain ⟨x, hx, hp, -⟩ := hmem
        have hnotin := (nodup_cons.mp h.priorities).1
        have hp : x.priority = w.priority := hp
        exact absurd (hp ▸ mem_map_of_mem hx) hnotin
      · exact hlt

/-- What the loop of `Next` finds behind the first iterator of `l`: nothing, or the entry `k` with
`blob`. -/
inductive Found (l : List WeightedIterator) (k₀ : Hash) :
    Except IterError (Bool × FastIterator) → Prop
  | nothing {fi : FastIterator} :
    (∀ k v, k ≠ k₀ → ¬Best (pool l) k (some v)) → Found l k₀ (.ok (false, fi))
  | entry {w : WeightedIterator} {l' : List WeightedIterator} {blob : Bytes} : Sorted (w :: l') →
      size (w :: l') < size l → w.it.cur.2 = some blob → k₀ < w.hash →
      (∀ k v, k ≠ k₀ → (Best (pool l) k (some v) ↔ Best (pool (w :: l')) k (some v))) →
      (∀ p k v, (p, k, v) ∈ pool (w :: l') → k₀ < k) →
        Found l k₀ (.ok (true, ⟨w :: l', true, some blob⟩))

/-- The loop of `Next` skips the keys that were deleted and stops at the first entry, or at the end
of all iterators. -/
theorem nextLoop_spec (h : Sorted (w :: l)) (hfuel : size (w :: l) < fuel) :
    Found (w :: l) w.hash (nextLoop fuel (w :: l)) := by
  induction fuel generalizing w l with
  | zero => omega
  | succ fuel ih =>
    obtain ⟨l', hnext, hsorted, hsize, hbest, hgt⟩ := next_first h (Nat.le_succ _)
    simp only [nextLoop, hnext]
    cases l' with
    | nil =>
      refine .nothing fun k v hk hv => ?_
      obtain ⟨p, hmem, -⟩ := (hbest k (some v) hk).mp hv
      simp [pool_nil] at hmem
    | cons w' l' =>
      have hlt : w.hash < w'.hash :=
        hgt w'.priority w'.hash w'.it.cur.2 ⟨w', mem_cons_self, rfl, mem_cons_self⟩
      simp only [length_cons, Nat.zero_lt_succ, decide_true, head?_cons]
      cases hcur : w'.it.cur.2 with
      | some blob => exact .entry hsorted hsize hcur hlt (fun k v hk => hbest k (some v) hk) hgt
      | none =>
        -- the entry is deleted, and the search goes on behind it
        have hskip : ∀ v, ¬Best (pool (w :: l)) w'.hash (some v) := by
          intro v hv
          simp [hbest _ _ hlt.ne', hsorted.best_head, hcur] at hv
        have hfound := ih hsorted (by omega)
        generalize nextLoop fuel (w' :: l') = result at hfound ⊢
        cases hfound with
        | nothing hnone =>
          refine .nothing fun k v hk hv => ?_
          by_cases hk' : k = w'.hash
          · exact hskip v (hk' ▸ hv)
          · exact hnone k v hk' ((hbest k (some v) hk).mp hv)
        | entry hsorted' hsize' hblob hlt' hbest' hgt' =>
          refine .entry hsorted' (by omega) hblob (hlt.trans hlt') (fun k v hk => ?_)
            fun p k v hmem =>
            hlt.trans (hgt' p k v hmem)
          by_cases hk' : k = w'.hash
          · subst hk'
            refine iff_of_false (hskip v) ?_
            rintro ⟨p, hmem, -⟩
            exact lt_irrefl _ (hgt' p _ _ hmem)
          · rw [hbest k (some v) hk, hbest' k v hk']

/-- What is yielded behind the entry that the iterator is at. -/
theorem collect_rest (h : Sorted (w :: l)) (cur : Option Bytes) (hfuel : size (w :: l) < fuel) :
    ∃ out, collect fuel ⟨w :: l, true, cur⟩ = .ok out ∧ out.Pairwise (fun x y => x.1 < y.1) ∧
      (∀ x ∈ out, w.hash < x.1) ∧ ∀ k v, (k, v) ∈ out ↔ k ≠ w.hash ∧
        Best (pool (w :: l)) k (some v) := by
  induction fuel generalizing w l cur with
  | zero => omega
  | succ fuel ih =>
    have hfound := nextLoop_spec h (Nat.lt_succ_self (size (w :: l)))
    have hstep : Next ⟨w :: l, true, cur⟩ = nextLoop (size (w :: l) + 1) (w :: l) := rfl
    simp only [collect, hstep]
    generalize nextLoop (size (w :: l) + 1) (w :: l) = result at hfound
    cases hfound with
    | nothing hnone =>
      refine ⟨[], rfl, List.Pairwise.nil, by simp, fun k v => ?_⟩
      simp only [not_mem_nil, false_iff, not_and]
      exact hnone k v
    | @entry w' l' blob hsorted hsize hblob hlt hbest hgt =>
      obtain ⟨out, hout, hpairwise, habove, hmem⟩ := ih hsorted (some blob) (by omega)
      refine ⟨(w'.hash, blob) :: out, ?_, pairwise_cons.mpr ⟨habove, hpairwise⟩,
        forall_mem_cons.mpr ⟨hlt, fun x hx => hlt.trans (habove x hx)⟩, fun k v => ?_⟩
      · simp [hout, Except.map]
      · rw [mem_cons, hmem]
        by_cases hk : k = w'.hash
        · subst hk
          simp only [Prod.mk.injEq, true_and, ne_eq, not_true_eq_false, false_and, or_false,
            hlt.ne', not_false_eq_true]
          rw [hbest _ _ hlt.ne', hsorted.best_head, hblob, some.injEq]
        · simp only [Prod.mk.injEq, hk, false_and, false_or, ne_eq, not_false_eq_true, true_and]
          by_cases hk0 : k = w.hash
          · subst hk0
            simp only [not_true_eq_false, false_and, iff_false]
            rintro ⟨p, hin, -⟩
            exact lt_irrefl _ (hgt p _ _ hin)
          · simp only [hk0, not_false_eq_true, true_and]
            rw [hbest k v hk0]

/-- **All that is yielded** is, in ascending order, what counts. -/
theorem collect_spec (h : Sorted l) (hfuel : size l + 1 < fuel) :
    ∃ out, collect fuel ⟨l, false, none⟩ = .ok out ∧ out.Pairwise (fun x y => x.1 < y.1) ∧
      ∀ k v, (k, v) ∈ out ↔ Best (pool l) k (some v) := by
  obtain ⟨fuel, rfl⟩ : ∃ n, fuel = n + 1 := ⟨fuel - 1, by omega⟩
  cases l with
  | nil =>
    refine ⟨[], rfl, List.Pairwise.nil, fun k v => ?_⟩
    simp [Best, pool_nil]
  | cons w l =>
    cases hcur : w.it.cur.2 with
    | none =>
      -- the first entry is deleted, and `Next` goes on as if it had been yielded
      obtain ⟨out, hout, hpairwise, -, hmem⟩ :=
        collect_rest h none (show size (w :: l) < fuel + 1 by omega)
      have hsame : collect (fuel + 1) ⟨w :: l, false, none⟩ = collect (fuel + 1)
          ⟨w :: l, true, none⟩ := by
        have hstep : Next ⟨w :: l, false, none⟩ = Next ⟨w :: l, true, none⟩ := by simp [Next, hcur]
        simp [collect, hstep]
      refine ⟨out, hsame.trans hout, hpairwise, fun k v => ?_⟩
      rw [hmem]
      by_cases hk : k = w.hash
      · subst hk
        rw [h.best_head, hcur]
        simp
      · simp [hk]
    | some blob =>
      obtain ⟨out, hout, hpairwise, habove, hmem⟩ :=
        collect_rest h (some blob) (show size (w :: l) < fuel by omega)
      refine ⟨(w.hash, blob) :: out, ?_, pairwise_cons.mpr ⟨habove, hpairwise⟩, fun k v => ?_⟩
      · have hstep : Next ⟨w :: l, false, none⟩ = .ok (true, ⟨w :: l, true, some blob⟩) := by
          simp only [Next, hcur]
        simp [collect, hstep, hout, Except.map]
      · rw [mem_cons, hmem]
        by_cases hk : k = w.hash
        · subst hk
          simp [h.best_head, hcur]
        · simp [hk]

end FastIterator

end GoQrl.Snapshot
