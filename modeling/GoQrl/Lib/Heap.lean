import Mathlib.Data.List.Perm.Basic
import Mathlib.Logic.Equiv.Basic
import Mathlib.Order.WithBot

/-!
# GoQrl.Lib.Heap

Binary heaps behind an interface, as `container/heap` of Go has them.

`up` and `down` move one element through the tree by swaps.  The content of a collection is a list,
and the calls keep to places of that list if the collection does what they ask for (`Lawful`).  What
they leave is in order again and has the same elements (`push_spec`, `pop_spec`, `remove_spec`).
-/

namespace GoQrl.Heap

open List

/-- `heap.Interface`; `none` is a panic. -/
structure Interface (σ α : Type) where
  len : σ → Nat
  less : σ → Nat → Nat → Option Bool
  swap : σ → Nat → Nat → Option σ
  push : σ → α → Option σ
  pop : σ → Option (α × σ)

section

variable {σ α : Type} (I : Interface σ α)

/-- `up`, in at most `fuel` rounds. -/
def up : Nat → σ → Nat → Option σ
  | 0, s, _ => some s
  | fuel + 1, s, j =>
    let i := (j - 1) / 2
    if i = j then some s else do
      if ← I.less s j i then up fuel (← I.swap s i j) i else some s

/-- The lesser one of the child at `j` and the next. -/
def lesser (n : Nat) (s : σ) (j : Nat) : Option Nat :=
  if j + 1 < n then do if ← I.less s (j + 1) j then some (j + 1) else some j else some j

/-- `down`, in at most `fuel` rounds, with the place it ends at. -/
def down (n : Nat) : Nat → σ → Nat → Option (σ × Nat)
  | 0, s, i => some (s, i)
  | fuel + 1, s, i =>
    if n ≤ 2 * i + 1 then some (s, i) else do
      let j ← lesser I n s (2 * i + 1)
      if ← I.less s j i then down n fuel (← I.swap s i j) j else some (s, i)

/-- `Push` -/
def push (s : σ) (x : α) : Option σ := do
  let s ← I.push s x
  up I (I.len s - 1) s (I.len s - 1)

/-- `Pop` -/
def pop (s : σ) : Option (α × σ) := do
  let n := I.len s - 1
  let r ← down I n n (← I.swap s 0 n) 0
  I.pop r.1

/-- `Remove` -/
def remove (s : σ) (i : Nat) : Option (α × σ) := do
  let n := I.len s - 1
  if n = i then I.pop s
  else
    let r ← down I n n (← I.swap s i n) i
    I.pop (← if i < r.2 then some r.1 else up I i r.1 i)

end

/-! ## order -/

section

variable {β : Type} [LinearOrder β] {f : Nat → β} {n i j : Nat}

/-- The element at `k` is below the one at `p`. -/
def Child (p k : Nat) : Prop := k = 2 * p + 1 ∨ k = 2 * p + 2

theorem Child.lt {p k : Nat} (h : Child p k) : p < k := by
  unfold Child at h
  omega

theorem Child.unique {p q k : Nat} (h : Child p k) (h' : Child q k) : p = q := by
  unfold Child at *
  omega

theorem child_parent {k : Nat} (h : 0 < k) : Child ((k - 1) / 2) k := by
  unfold Child
  omega

/-- No element is less than its parent, among the first `n`. -/
def Ordered (n : Nat) (f : Nat → β) : Prop := ∀ p k, Child p k → k < n → f p ≤ f k

/-- The element at the front of a heap is not greater than any other. -/
theorem Ordered.front_le (h : Ordered n f) (k : Nat) (hk : k < n) : f 0 ≤ f k := by
  induction k using Nat.strongRecOn with
  | ind k ih =>
    by_cases h0 : k = 0
    · rw [h0]
    · have hc := child_parent (Nat.pos_of_ne_zero h0)
      exact (ih _ hc.lt (hc.lt.trans hk)).trans (h _ k hc hk)

/-- The order but for the element at `i`, whose children are not less than its parent. -/
structure Hole (n : Nat) (f : Nat → β) (i : Nat) : Prop where
  off : ∀ p k, Child p k → k < n → k ≠ i → p ≠ i → f p ≤ f k
  grand : ∀ p k, Child p i → Child i k → k < n → f p ≤ f k

/-- The element at `i` is not less than its parent. -/
def Above (f : Nat → β) (i : Nat) : Prop := ∀ p, Child p i → f p ≤ f i

/-- No child of the element at `i` is less. -/
def Below (n : Nat) (f : Nat → β) (i : Nat) : Prop := ∀ k, Child i k → k < n → f i ≤ f k

/-- An element that fits between its parent and its children closes the hole. -/
theorem Hole.ordered (h : Hole n f i) (hbelow : Below n f i) (habove : 0 < i → Above f i) :
    Ordered n f := by
  intro p k hc hn
  by_cases hk : k = i
  · subst hk
    exact habove (p.zero_le.trans_lt hc.lt) p hc
  · by_cases hp : p = i
    · subst hp
      exact hbelow k hc hn
    · exact h.off p k hc hn hk hp

omit [LinearOrder β] in
theorem swap_apply (f : Nat → β) (i j k : Nat) :
    (f ∘ Equiv.swap i j) k = if k = i then f j else if k = j then f i else f k := by
  simp only [Function.comp, Equiv.swap_apply_def]
  split_ifs <;> rfl

/-- A round of `up`: the hole moves to the parent. -/
theorem Hole.up (h : Hole n f j) (hc : Child i j) (hn : j < n) (hlt : f j < f i) :
    Hole n (f ∘ Equiv.swap i j) i ∧ Below n (f ∘ Equiv.swap i j) i := by
  obtain ⟨off, grand⟩ := h
  have := hc.lt
  refine ⟨⟨fun p k hk => ?_, fun p k hp hk => ?_⟩, fun k hk => ?_⟩
  all_goals
    simp only [swap_apply]
    grind [Child.lt, Child.unique]

/-- A round of `down`: the hole moves to the lesser child. -/
theorem Hole.down (h : Hole n f i) (hc : Child i j) (hn : j < n)
    (hmin : ∀ k, Child i k → k < n → f j ≤ f k) (hlt : f j < f i) :
    Hole n (f ∘ Equiv.swap i j) j ∧ Above (f ∘ Equiv.swap i j) j := by
  obtain ⟨off, grand⟩ := h
  have := hc.lt
  refine ⟨⟨fun p k hk => ?_, fun p k hp hk => ?_⟩, fun p hp => ?_⟩
  all_goals
    simp only [swap_apply]
    grind [Child.lt, Child.unique]

end

/-! ## content -/

section

variable {α β : Type} {key : α → β} {l l' l'' : List α} {n i j : Nat} {x y : α}

/-- The keys by places; places behind the end have none. -/
def keys (key : α → β) (l : List α) (k : Nat) : WithBot β := (l[k]?).elim ⊥ fun x => ↑(key x)

theorem keys_of_getElem? (h : l[i]? = some x) : keys key l i = key x := by
  rw [keys, h]
  rfl

theorem keys_congr {k : Nat} (h : l'[k]? = l[j]?) : keys key l' k = keys key l j := by
  rw [keys, keys, h]

theorem getElem?_swap (hi : l[i]? = some x) (hj : l[j]? = some y) (k : Nat) :
    ((l.set i y).set j x)[k]? = l[Equiv.swap i j k]? := by
  rw [Equiv.swap_apply_def]
  grind

theorem keys_swap (key : α → β) (hi : l[i]? = some x) (hj : l[j]? = some y) :
    keys key ((l.set i y).set j x) = keys key l ∘ Equiv.swap i j :=
  funext fun k => keys_congr (getElem?_swap hi hj k)

/-- The same elements, in the same places from `n` on. -/
structure Same (n : Nat) (l l' : List α) : Prop where
  perm : l'.Perm l
  rest : ∀ k, n ≤ k → l'[k]? = l[k]?

theorem Same.refl (n : Nat) (l : List α) : Same n l l := ⟨.refl l, fun _ _ => rfl⟩

theorem Same.trans (h : Same n l l') (h' : Same n l' l'') : Same n l l'' :=
  ⟨h'.perm.trans h.perm, fun k hk => (h'.rest k hk).trans (h.rest k hk)⟩

theorem perm_swap (hi : l[i]? = some x) (hj : l[j]? = some y) : ((l.set i y).set j x).Perm l := by
  obtain ⟨hilt, rfl⟩ := List.getElem?_eq_some_iff.mp hi
  obtain ⟨hjlt, rfl⟩ := List.getElem?_eq_some_iff.mp hj
  exact set_set_perm hilt hjlt

theorem same_swap (hi : l[i]? = some x) (hj : l[j]? = some y) (hin : i < n) (hjn : j < n) :
    Same n l ((l.set i y).set j x) := by
  refine ⟨perm_swap hi hj, fun k hk => ?_⟩
  rw [getElem?_swap hi hj, Equiv.swap_apply_of_ne_of_ne (by omega) (by omega)]

end

/-! ## lawful collections -/

/-- The collection has a content, and compares and swaps its elements. -/
structure Lawful {σ α β : Type} [LinearOrder β] (I : Interface σ α) (key : α → β)
    (Rel : σ → List α → Prop) : Prop where
  len {s l} : Rel s l → I.len s = l.length
  less {s l i j x y} : Rel s l → l[i]? = some x → l[j]? = some y →
    I.less s i j = some (decide (key x < key y))
  swap {s l i j x y} : Rel s l → l[i]? = some x → l[j]? = some y →
    ∃ s', I.swap s i j = some s' ∧ Rel s' ((l.set i y).set j x)

section

variable {σ α β : Type} [LinearOrder β] {I : Interface σ α} {key : α → β}
  {Rel : σ → List α → Prop} {s s₁ : σ} {n i j fuel : Nat} {l : List α} {x : α}

/-- `Less` by the keys of places. -/
theorem Lawful.less_keys (L : Lawful I key Rel) (hrel : Rel s l) (hi : i < l.length)
    (hj : j < l.length) : I.less s i j = some (decide (keys key l i < keys key l j)) := by
  rw [L.less hrel (getElem?_eq_getElem hi) (getElem?_eq_getElem hj),
    keys_of_getElem? (getElem?_eq_getElem hi), keys_of_getElem? (getElem?_eq_getElem hj)]
  simp only [WithBot.coe_lt_coe]

/-- `Swap` of two of the first `n` elements. -/
theorem Lawful.swap_keys (L : Lawful I key Rel) (hrel : Rel s l) (hi : i < n) (hj : j < n)
    (hn : n ≤ l.length) : ∃ s' l', I.swap s i j = some s' ∧ Rel s' l' ∧
      keys key l' = keys key l ∘ Equiv.swap i j ∧ Same n l l' := by
  have hi' := getElem?_eq_getElem (hi.trans_le hn)
  have hj' := getElem?_eq_getElem (hj.trans_le hn)
  obtain ⟨s', hswap, hrel'⟩ := L.swap hrel hi' hj'
  exact ⟨s', _, hswap, hrel', keys_swap key hi' hj', same_swap hi' hj' hi hj⟩

/-- **`up`** puts an element in order that is not greater than its children. -/
theorem up_spec (L : Lawful I key Rel) (hrel : Rel s l) (hn : n ≤ l.length) (hj : j < n)
    (hfuel : j ≤ fuel) (h : Hole n (keys key l) j) (hbelow : Below n (keys key l) j) :
    ∃ s' l', up I fuel s j = some s' ∧ Rel s' l' ∧ Ordered n (keys key l') ∧ Same n l l' := by
  induction fuel generalizing s l j with
  | zero => exact ⟨s, l, rfl, hrel, h.ordered hbelow (by omega), .refl ..⟩
  | succ fuel ih =>
    by_cases h0 : j = 0
    · exact ⟨s, l, by simp [up, h0], hrel, h.ordered hbelow (by omega), .refl ..⟩
    have hc := child_parent (Nat.pos_of_ne_zero h0)
    generalize hi : (j - 1) / 2 = i at hc
    have hlt := hc.lt
    simp only [up, hi, if_neg hlt.ne,
      L.less_keys hrel (hj.trans_le hn) ((hlt.trans hj).trans_le hn)]
    by_cases hless : keys key l j < keys key l i
    · obtain ⟨s₁, l₁, hswap, hrel₁, hkeys, hsame₁⟩ := L.swap_keys hrel (hlt.trans hj) hj hn
      obtain ⟨h₁, hbelow₁⟩ := h.up hc hj hless
      rw [← hkeys] at h₁ hbelow₁
      obtain ⟨s', l', heq, hrel', hord, hsame⟩ :=
        ih hrel₁ (hsame₁.perm.length_eq ▸ hn) (hlt.trans hj) (by omega) h₁ hbelow₁
      exact ⟨s', l', by simp [hless, hswap, heq], hrel', hord, hsame₁.trans hsame⟩
    · refine ⟨s, l, by simp [hless], hrel, h.ordered hbelow fun _ p hp => ?_, .refl ..⟩
      rw [hp.unique hc]
      exact not_lt.mp hless

/-- `down` compares with a child that is not greater than the other. -/
theorem lesser_spec (L : Lawful I key Rel) (hrel : Rel s l) (hn : n ≤ l.length)
    (hi : 2 * i + 1 < n) :
    ∃ j, lesser I n s (2 * i + 1) = some j ∧ Child i j ∧ j < n ∧
      ∀ k, Child i k → k < n → keys key l j ≤ keys key l k := by
  unfold lesser Child
  by_cases hr : 2 * i + 1 + 1 < n
  · simp only [if_pos hr, L.less_keys hrel (hr.trans_le hn) (hi.trans_le hn)]
    by_cases hless : keys key l (2 * i + 1 + 1) < keys key l (2 * i + 1)
    · exact ⟨_, by simp [hless], .inr rfl, hr,
        by rintro k (rfl | rfl) _; exacts [hless.le, le_rfl]⟩
    · exact ⟨_, by simp [hless], .inl rfl, hi,
        by rintro k (rfl | rfl) _; exacts [le_rfl, not_lt.mp hless]⟩
  · refine ⟨_, if_neg hr, .inl rfl, hi, ?_⟩
    rintro k (rfl | rfl) hk
    exacts [le_rfl, absurd hk hr]

/-- **`down`** ends at a place where the element is not greater than its children, and if it moved
away from `i₀`, not less than its parent. -/
theorem down_spec (i₀ : Nat) (L : Lawful I key Rel) (hrel : Rel s l) (hn : n ≤ l.length)
    (hfuel : n ≤ i + fuel) (h : Hole n (keys key l) i) (habove : i₀ < i → Above (keys key l) i) :
    ∃ s' k l', down I n fuel s i = some (s', k) ∧ Rel s' l' ∧ Hole n (keys key l') k ∧
      Below n (keys key l') k ∧ i ≤ k ∧ (i₀ < k → Above (keys key l') k) ∧ Same n l l' := by
  induction fuel generalizing s l i with
  | zero =>
    refine ⟨s, i, l, rfl, hrel, h, fun k hk hkn => ?_, le_rfl, habove, .refl ..⟩
    have := hk.lt
    omega
  | succ fuel ih =>
    by_cases hleft : n ≤ 2 * i + 1
    · refine ⟨s, i, l, by simp [down, hleft], hrel, h, fun k hk hkn => ?_, le_rfl, habove, .refl ..⟩
      unfold Child at hk
      omega
    obtain ⟨j, hj, hc, hjn, hmin⟩ := lesser_spec L hrel hn (not_le.mp hleft)
    have hlt := hc.lt
    simp only [down, if_neg hleft, hj, Option.bind_eq_bind, Option.bind_some,
      L.less_keys hrel (hjn.trans_le hn) ((hlt.trans hjn).trans_le hn)]
    by_cases hless : keys key l j < keys key l i
    · obtain ⟨s₁, l₁, hswap, hrel₁, hkeys, hsame₁⟩ := L.swap_keys hrel (hlt.trans hjn) hjn hn
      obtain ⟨h₁, habove₁⟩ := h.down hc hjn hmin hless
      rw [← hkeys] at h₁ habove₁
      obtain ⟨s', k, l', heq, hrel', h', hbelow, hle, habove', hsame⟩ :=
        ih hrel₁ (hsame₁.perm.length_eq ▸ hn) (by omega) h₁ fun _ => habove₁
      exact ⟨s', k, l', by simp [hless, hswap, heq], hrel', h', hbelow, by omega, habove',
        hsame₁.trans hsame⟩
    · exact ⟨s, i, l, by simp [hless], hrel, h,
        fun k hk hkn => (not_lt.mp hless).trans (hmin k hk hkn), le_rfl, habove, .refl ..⟩

/-- **`Push`** of an element that the collection puts behind its content. -/
theorem push_spec (L : Lawful I key Rel) (hord : Ordered l.length (keys key l))
    (hpush : I.push s x = some s₁) (hrel : Rel s₁ (l ++ [x])) :
    ∃ s' l', push I s x = some s' ∧ Rel s' l' ∧ Ordered l'.length (keys key l') ∧
      l'.Perm (l ++ [x]) := by
  have hoff {k : Nat} (hk : k < l.length) : keys key (l ++ [x]) k = keys key l k :=
    keys_congr (getElem?_append_left hk)
  have hlen : (l ++ [x]).length = l.length + 1 := length_append
  have h : Hole (l.length + 1) (keys key (l ++ [x])) l.length := by
    constructor
    · intro p k hc hk hkn hpn
      have := hc.lt
      rw [hoff (by omega), hoff (by omega)]
      exact hord p k hc (by omega)
    · intro p k _ hc hk
      have := hc.lt
      omega
  obtain ⟨s', l', heq, hrel', hord', hsame⟩ := up_spec L hrel hlen.ge l.length.lt_succ_self le_rfl h
    fun k hc hk => by have := hc.lt; omega
  exact ⟨s', l', by simp [push, hpush, L.len hrel, heq], hrel',
    by rwa [hsame.perm.length_eq, hlen], hsame.perm⟩

/-- The last element is swapped with another one, and goes down from there. -/
theorem take_spec (L : Lawful I key Rel) (hrel : Rel s l) (hlen : l.length = n + 1)
    (hord : Ordered (n + 1) (keys key l)) (hi : i ≤ n) :
    ∃ s₁ s' k l', I.swap s i n = some s₁ ∧ down I n n s₁ i = some (s', k) ∧ Rel s' l' ∧
      Hole n (keys key l') k ∧ Below n (keys key l') k ∧ i ≤ k ∧ (i < k → Above (keys key l') k) ∧
      l'[n]? = l[i]? ∧ l'.Perm l := by
  have hin := getElem?_eq_getElem (show i < l.length by omega)
  have hnn := getElem?_eq_getElem (show n < l.length by omega)
  obtain ⟨s₁, hswap, hrel₁⟩ := L.swap hrel hin hnn
  have hperm := perm_swap hin hnn
  have hkeys := keys_swap key hin hnn
  have hget := getElem?_swap hin hnn n
  generalize (l.set i l[n]).set n l[i] = l₁ at hrel₁ hperm hkeys hget
  have happly {k : Nat} (hk : k < n) (hki : k ≠ i) : keys key l₁ k = keys key l k := by
    rw [hkeys, Function.comp, Equiv.swap_apply_of_ne_of_ne hki hk.ne]
  have h : Hole n (keys key l₁) i := by
    constructor
    · intro p k hc hk hki hpi
      have := hc.lt
      rw [happly (by omega) hpi, happly hk hki]
      exact hord p k hc (by omega)
    · intro p k hp hc hk
      have := hp.lt
      have := hc.lt
      rw [happly (by omega) (by omega), happly hk (by omega)]
      exact (hord p i hp (by omega)).trans (hord i k hc (by omega))
  obtain ⟨s', k, l', heq, hrel', h', hbelow, hle, habove, hsame⟩ :=
    down_spec i L hrel₁ (by rw [hperm.length_eq]; omega) (Nat.le_add_left ..) h (by simp)
  refine ⟨s₁, s', k, l', hswap, heq, hrel', h', hbelow, hle, habove, ?_, hsame.perm.trans hperm⟩
  rw [hsame.rest n le_rfl, hget, Equiv.swap_apply_right]

/-- A list by its last element. -/
theorem split_last {l' : List α} (hlen : l'.length = n + 1) (hlast : l'[n]? = some x)
    (hord : Ordered n (keys key l')) :
    ∃ l₀, l' = l₀ ++ [x] ∧ Ordered l₀.length (keys key l₀) := by
  obtain rfl | ⟨l₀, z, rfl⟩ := eq_nil_or_concat' l'
  · cases hlen
  obtain rfl : l₀.length = n := by simpa using hlen
  rw [getElem?_concat_length, Option.some_inj] at hlast
  subst hlast
  refine ⟨l₀, rfl, fun p k hc hk => ?_⟩
  have h := hord p k hc hk
  rwa [keys_congr (getElem?_append_left (hc.lt.trans hk)),
    keys_congr (getElem?_append_left hk)] at h

/-- **`Pop`** takes the element at the front. -/
theorem pop_spec (L : Lawful I key Rel) (hrel : Rel s l) (hord : Ordered l.length (keys key l))
    (hx : l[0]? = some x) :
    ∃ s' l', pop I s = I.pop s' ∧ Rel s' (l' ++ [x]) ∧ Ordered l'.length (keys key l') ∧
      (l' ++ [x]).Perm l := by
  obtain ⟨n, hlen⟩ : ∃ n, l.length = n + 1 :=
    Nat.exists_eq_add_one.mpr (List.getElem?_eq_some_iff.mp hx).1
  rw [hlen] at hord
  obtain ⟨s₁, s', k, l', hswap, heq, hrel', h', hbelow, -, habove, hlast, hperm⟩ :=
    take_spec L hrel hlen hord n.zero_le
  obtain ⟨l₀, rfl, hord₀⟩ := split_last (hperm.length_eq.trans hlen) (hlast.trans hx)
    (h'.ordered hbelow habove)
  exact ⟨s', l₀, by simp [pop, L.len hrel, hlen, hswap, heq], hrel', hord₀, hperm⟩

/-- **`Remove`** takes the element at a place. -/
theorem remove_spec (L : Lawful I key Rel) (hrel : Rel s l) (hord : Ordered l.length (keys key l))
    (hx : l[i]? = some x) :
    ∃ s' l', remove I s i = I.pop s' ∧ Rel s' (l' ++ [x]) ∧ Ordered l'.length (keys key l') ∧
      (l' ++ [x]).Perm l := by
  have hi := (List.getElem?_eq_some_iff.mp hx).1
  obtain ⟨n, hlen⟩ : ∃ n, l.length = n + 1 := Nat.exists_eq_add_one.mpr (i.zero_le.trans_lt hi)
  rw [hlen] at hord
  by_cases hlast : n = i
  · subst hlast
    obtain ⟨l₀, rfl, hord₀⟩ := split_last hlen hx fun p k hc hk => hord p k hc (by omega)
    exact ⟨s, l₀, by simp [remove, L.len hrel, hlen], hrel, hord₀, .refl _⟩
  obtain ⟨s₁, s₂, k, l₂, hswap, heq, hrel₂, h₂, hbelow, hle, habove, hat, hperm⟩ :=
    take_spec L hrel hlen hord (show i ≤ n by omega)
  by_cases hk : i < k
  · obtain ⟨l₀, rfl, hord₀⟩ := split_last (hperm.length_eq.trans hlen) (hat.trans hx)
      (h₂.ordered hbelow fun _ => habove hk)
    exact ⟨s₂, l₀, by simp [remove, L.len hrel, hlen, hlast, hswap, heq, hk], hrel₂, hord₀, hperm⟩
  · -- the element did not go down, so it goes up
    obtain rfl : k = i := by omega
    have hlen₂ := hperm.length_eq.trans hlen
    obtain ⟨s', l', heq', hrel', hord', hsame⟩ :=
      up_spec L hrel₂ (by omega) (show k < n by omega) le_rfl h₂ hbelow
    obtain ⟨l₀, rfl, hord₀⟩ := split_last (hsame.perm.length_eq.trans hlen₂)
      ((hsame.rest n le_rfl).trans (hat.trans hx)) hord'
    exact ⟨s', l₀, by simp [remove, L.len hrel, hlen, hlast, hswap, heq, heq'], hrel', hord₀,
      hsame.perm.trans hperm⟩

end

end GoQrl.Heap
