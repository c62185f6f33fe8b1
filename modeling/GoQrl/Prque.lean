import GoQrl.Bytes
import GoQrl.Lib.Heap
import Mathlib.Data.Multiset.AddSub

/-!
# GoQrl.Prque

Priority queues, `common/prque/prque.go`, over the blocks of `common/prque/sstack.go`.

An element is found through the active block and an offset, or by division of its place; both views
agree after any calls, and no block is indexed out of range (`Rel`).  The calls are those of
`container/heap` (`GoQrl.Lib.Heap`) on the blocks, which compare and swap as it asks for (`lawful`).
The callback tells where each value is, as long as no value is pushed while it is held
(`reaches_spec`, `reaches_twice`).
-/

namespace GoQrl.Prque

open List Function

def blockSize : Nat := 4096

/-- `item` -/
structure Item (P V : Type) where
  value : V
  priority : P

/-- `sstack` -/
structure Sstack (P V : Type) where
  /-- Whether there is a callback. -/
  setIndex : Bool
  size : Nat
  capacity : Nat
  offset : Nat
  /-- `len(blocks)` -/
  blocks : Nat
  /-- The blocks, by offsets; `none` is a nil pointer. -/
  cells : Nat → Nat → Option (Item P V)
  /-- The block that `active` shares its memory with. -/
  active : Nat
  /-- What the callback was last called with. -/
  reported : V → Option Int

variable {P V : Type}

namespace Sstack

/-- `newSstack` -/
def new (setIndex : Bool) (reported : V → Option Int) : Sstack P V :=
  { setIndex, size := 0, capacity := blockSize, offset := 0, blocks := 1,
    cells := fun _ _ => none, active := 0, reported }

/-- The item at an offset of a block. -/
def get (s : Sstack P V) (b o : Nat) : Option (Item P V) :=
  if b < s.blocks ∧ o < blockSize then s.cells b o else none

/-- A write to an offset of a block. -/
def put (s : Sstack P V) (b o : Nat) (x : Option (Item P V)) : Option (Sstack P V) :=
  if b < s.blocks ∧ o < blockSize then
    some { s with cells := Function.update s.cells b (Function.update (s.cells b) o x) }
  else none

/-- `s.active = s.blocks[b]`, with an offset. -/
def activate (s : Sstack P V) (b o : Nat) : Option (Sstack P V) :=
  if b < s.blocks then some { s with active := b, offset := o } else none

/-- The first part of `Push`: a new block, or the next one if the active one is full. -/
def expand (s : Sstack P V) : Option (Sstack P V) :=
  if s.size = s.capacity then
    some { s with
      active := s.blocks
      blocks := s.blocks + 1
      cells := Function.update s.cells s.blocks fun _ => none
      capacity := s.capacity + blockSize
      offset := 0 }
  else if s.offset = blockSize then s.activate (s.size / blockSize) 0
  else some s

/-- The first part of `Pop`: the block before if the active one is empty. -/
def shrink (s : Sstack P V) : Option (Sstack P V) :=
  let s := { s with size := s.size - 1 }
  if s.offset = 0 then s.activate (s.size / blockSize) (blockSize - 1)
  else some { s with offset := s.offset - 1 }

/-- The item at a place. -/
def item (s : Sstack P V) (i : Nat) : Option (Item P V) := s.get (i / blockSize) (i % blockSize)

/-- `Less`: higher priorities are first. -/
def less [LinearOrder P] (s : Sstack P V) (i j : Nat) : Option Bool := do
  some (decide ((← s.item j).priority < (← s.item i).priority))

variable [DecidableEq V]

/-- A call of the callback. -/
def report (s : Sstack P V) (v : V) (i : Int) : Sstack P V :=
  { s with reported := bif s.setIndex then Function.update s.reported v (some i) else s.reported }

/-- `Push` -/
def push (s : Sstack P V) (x : Item P V) : Option (Sstack P V) := do
  let s ← s.expand
  let s ← (s.report x.value s.size).put s.active s.offset (some x)
  some { s with offset := s.offset + 1, size := s.size + 1 }

/-- `Pop` -/
def pop (s : Sstack P V) : Option (Item P V × Sstack P V) := do
  if s.size = 0 then none else
  let s ← s.shrink
  let x ← s.get s.active s.offset
  let s ← s.put s.active s.offset none
  some (x, s.report x.value (-1))

/-- `Swap` -/
def swap (s : Sstack P V) (i j : Nat) : Option (Sstack P V) := do
  let a ← s.item j
  let b ← s.item i
  let s ← ((s.report a.value i).report b.value j).put (i / blockSize) (i % blockSize) (some a)
  s.put (j / blockSize) (j % blockSize) (some b)

end Sstack

/-! ## what the callback was told -/

/-- The last index of each value is its place, and -1 for the values that are `gone`. -/
structure Indexed (reported : V → Option Int) (gone : Set V) (l : List (Item P V)) : Prop where
  held : ∀ (i : Nat) (x : Item P V), l[i]? = some x → reported x.value = some (i : Int)
  gone : ∀ v ∈ gone, reported v = some (-1)

namespace Indexed

variable [DecidableEq V] {reported : V → Option Int} {gone : Set V} {i j : Nat}
  {l : List (Item P V)} {x y : Item P V}

theorem swap (h : Indexed reported gone l) (hi : l[i]? = some x) (hj : l[j]? = some y) :
    Indexed (update (update reported y.value (some i)) x.value (some j)) gone
      ((l.set i y).set j x) := by
  have hi' := h.held i x hi
  have hj' := h.held j y hj
  constructor
  · intro k z hk
    have := h.held k z
    grind
  · intro v hv
    grind [h.gone v hv]

theorem push (h : Indexed reported gone l) (hx : ∀ y ∈ l, y.value ≠ x.value) :
    Indexed (update reported x.value (some l.length)) (gone \ {x.value}) (l ++ [x]) := by
  constructor
  · intro k z hk
    have := h.held k z
    grind
  · intro v hv
    rw [update_of_ne hv.2, h.gone v hv.1]

theorem pop (h : Indexed reported gone (l ++ [x])) :
    Indexed (update reported x.value (some (-1))) (insert x.value gone) l := by
  have hx := h.held l.length x
  constructor
  · intro k z hk
    have := h.held k z
    grind
  · rintro v (rfl | hv)
    · exact update_self ..
    · grind [h.gone v hv]

end Indexed

/-! ## two views of the blocks -/

theorem blockSize_pos : 0 < blockSize := by decide

/-- The active block and the offset are found by division, too. -/
theorem divide {n i j : Nat} (hplace : n = blockSize * i + j) (hj : j < blockSize) :
    n / blockSize = i ∧ n % blockSize = j := by
  subst hplace
  simp [Nat.mul_add_div blockSize_pos, Nat.div_eq_of_lt hj, Nat.mod_eq_of_lt hj]

/-- The queue has the items of a list, and if no value was pushed while it was held, the callback
was told where they are. -/
structure Rel (b : Bool) (fresh : Prop) (gone : Set V) (s : Sstack P V) (l : List (Item P V)) :
    Prop where
  setIndex : s.setIndex = b
  size : s.size = l.length
  capacity : s.capacity = blockSize * s.blocks
  place : l.length = blockSize * s.active + s.offset
  offset : s.offset ≤ blockSize
  active : s.active < s.blocks
  items : ∀ i < l.length, s.cells (i / blockSize) (i % blockSize) = l[i]?
  indexed : fresh → b → Indexed s.reported gone l

namespace Rel

variable {b : Bool} {fresh : Prop} {gone : Set V} {s : Sstack P V} {i j : Nat}
  {l : List (Item P V)} {x y : Item P V}

theorem new {reported : V → Option Int} (hgone : fresh → b → ∀ v ∈ gone, reported v = some (-1)) :
    Rel b fresh gone (Sstack.new b reported) ([] : List (Item P V)) :=
  ⟨rfl, rfl, rfl, rfl, Nat.zero_le _, Nat.one_pos, by simp, fun hf hb => ⟨by simp, hgone hf hb⟩⟩

/-- Every place is in a block. -/
theorem place_lt (h : Rel b fresh gone s l) (hi : i < l.length) :
    i / blockSize < s.blocks ∧ i % blockSize < blockSize := by
  refine ⟨Nat.div_lt_of_lt_mul ?_, Nat.mod_lt i blockSize_pos⟩
  calc i < blockSize * s.active + s.offset := h.place ▸ hi
    _ ≤ blockSize * (s.active + 1) := by rw [Nat.mul_succ]; exact Nat.add_le_add_left h.offset _
    _ ≤ blockSize * s.blocks := Nat.mul_le_mul_left _ h.active

theorem item (h : Rel b fresh gone s l) (hi : l[i]? = some x) : s.item i = some x := by
  have hlt := index_lt hi
  rw [Sstack.item, Sstack.get, if_pos (h.place_lt hlt), h.items i hlt, hi]

/-- Before `Push` writes, the active block has room at the offset. -/
theorem expand (h : Rel b fresh gone s l) :
    ∃ s', s.expand = some s' ∧ Rel b fresh gone s' l ∧ s'.offset < blockSize := by
  have hpos := blockSize_pos
  have hactive := h.active
  rw [Sstack.expand]
  split
  next hfull =>
    refine ⟨_, rfl, { h with
      capacity := by simp [h.capacity, Nat.mul_add]
      place := by rw [← h.size, hfull, h.capacity, add_zero]
      offset := Nat.zero_le _
      active := Nat.lt_succ_self _
      items := fun i hi => ?_ }, hpos⟩
    exact (congrFun (update_of_ne (h.place_lt hi).1.ne _ _) _).trans (h.items i hi)
  next hroom =>
    split
    next hoffset =>
      have hplace : l.length = blockSize * (s.active + 1) := by rw [h.place, hoffset, Nat.mul_succ]
      have hne : s.active + 1 ≠ s.blocks :=
        fun heq => hroom (by rw [h.size, hplace, h.capacity, heq])
      have hlt : s.active + 1 < s.blocks := by omega
      have hdiv : s.size / blockSize = s.active + 1 := by
        rw [h.size, hplace, Nat.mul_div_cancel_left _ hpos]
      exact ⟨{ s with active := s.active + 1, offset := 0 },
        by rw [Sstack.activate, hdiv, if_pos hlt],
        { h with place := hplace, offset := Nat.zero_le _, active := hlt }, hpos⟩
    next hoffset => exact ⟨s, rfl, h, by have := h.offset; omega⟩

/-- Before `Pop` reads, the active block and the offset are those of the last item. -/
theorem shrink (h : Rel b fresh gone s (l ++ [x])) :
    ∃ a o, s.shrink = some { s with size := l.length, active := a, offset := o } ∧
      l.length = blockSize * a + o ∧ o < blockSize ∧ a < s.blocks := by
  have hpos := blockSize_pos
  have hplace := h.place
  have hactive := h.active
  have hoffset := h.offset
  have hsize : s.size - 1 = l.length := by simp [h.size]
  rw [length_append, length_singleton] at hplace
  simp only [Sstack.shrink, Sstack.activate, hsize]
  by_cases h0 : s.offset = 0
  · cases hb : s.active with
    | zero => simp [hb, h0] at hplace
    | succ a =>
      rw [hb, h0, Nat.mul_succ] at hplace
      have hn : l.length = blockSize * a + (blockSize - 1) := by omega
      exact ⟨a, blockSize - 1, by rw [if_pos h0, (divide hn (by omega)).1, if_pos (by omega)], hn,
        by omega, by omega⟩
  · exact ⟨s.active, s.offset - 1, if_neg h0, by omega, by omega, hactive⟩

/-- What is at the places after a write. -/
theorem update_place {cells : Nat → Nat → Option (Item P V)} {z : Option (Item P V)} (k : Nat) :
    update cells (i / blockSize) (update (cells (i / blockSize)) (i % blockSize) z) (k / blockSize)
      (k % blockSize) = if k = i then z else cells (k / blockSize) (k % blockSize) := by
  have hi := Nat.div_add_mod i blockSize
  have hk := Nat.div_add_mod k blockSize
  simp only [update_apply, ite_apply]
  grind

variable [DecidableEq V]

theorem swap (h : Rel b fresh gone s l) (hi : l[i]? = some x) (hj : l[j]? = some y) :
    ∃ s', s.swap i j = some s' ∧ Rel b fresh gone s' ((l.set i y).set j x) := by
  have hilt := h.place_lt (index_lt hi)
  have hjlt := h.place_lt (index_lt hj)
  refine ⟨_, by
    simp [Sstack.swap, h.item hi, h.item hj, Sstack.put, Sstack.report, hilt, hjlt]
    rfl, ?_⟩
  refine { h with
    size := by simp [h.size], place := by simp [h.place], items := fun k hk => ?_,
    indexed := fun hf hb => ?_ }
  · simp only [update_place, h.items k (by simpa using hk)]
    grind
  · simpa [h.setIndex, hb] using (h.indexed hf hb).swap hi hj

theorem push (h : Rel b fresh gone s l) (hx : fresh → ∀ y ∈ l, y.value ≠ x.value) :
    ∃ s', s.push x = some s' ∧ Rel b fresh (gone \ {x.value}) s' (l ++ [x]) := by
  obtain ⟨s₁, hexpand, h₁, hlt⟩ := h.expand
  obtain ⟨hdiv, hmod⟩ := divide h₁.place hlt
  refine ⟨_, by simp [Sstack.push, hexpand, Sstack.report, Sstack.put, h₁.active, hlt]; rfl, ?_⟩
  refine { h₁ with
    size := by simp [h₁.size], place := by simp [h₁.place, add_assoc], offset := hlt,
    items := fun k hk => ?_, indexed := fun hf hb => ?_ }
  · simp only [← hdiv, ← hmod, update_place]
    grind [h₁.items k]
  · simpa [h₁.setIndex, hb, h₁.size] using (h₁.indexed hf hb).push (hx hf)

theorem pop (h : Rel b fresh gone s (l ++ [x])) :
    ∃ s', s.pop = some (x, s') ∧ Rel b fresh (insert x.value gone) s' l := by
  obtain ⟨a, o, hshrink, hplace, hlt, hactive⟩ := h.shrink
  obtain ⟨hdiv, hmod⟩ := divide hplace hlt
  have hitem := h.items l.length (by simp)
  rw [hdiv, hmod, getElem?_concat_length] at hitem
  refine ⟨_, by
    simp [Sstack.pop, h.size, hshrink, Sstack.get, Sstack.put, Sstack.report, hactive, hlt, hitem]
    rfl, ?_⟩
  refine { h with
    size := rfl, place := hplace, offset := hlt.le, active := hactive, items := fun k hk => ?_,
    indexed := fun hf hb => ?_ }
  · simp only [← hdiv, ← hmod, update_place, if_neg hk.ne]
    rw [h.items k (by simp; omega), getElem?_append_left hk]
  · simpa [h.setIndex, hb] using (h.indexed hf hb).pop

end Rel

/-! ## calls -/

section

variable {l : List (Item P V)} {x : Item P V}

/-- A queue with an item has a front. -/
theorem exists_front {held : Multiset (Item P V)} (hheld : ↑l = held + {x}) :
    ∃ y, l[0]? = some y := by
  cases l with
  | nil => simpa using (congrArg Multiset.card hheld).symm
  | cons y l => exact ⟨y, rfl⟩

/-- What is left of the plain model when an item was taken. -/
theorem held_of_perm {held : Multiset (Item P V)} {l' : List (Item P V)} (hheld : ↑l = held + {x})
    (hperm : (l' ++ [x]).Perm l) : ↑l' = held := by
  rw [← Multiset.coe_eq_coe, hheld, ← Multiset.coe_add] at hperm
  exact Multiset.add_left_inj.mp hperm

theorem Item.ext_of_eq {x y : Item P V} (h : (x.value, x.priority) = (y.value, y.priority)) :
    x = y := by
  cases x
  cases y
  simpa using h

end

variable [LinearOrder P] [DecidableEq V]

/-- The blocks as `heap.Interface`. -/
def cont : Heap.Interface (Sstack P V) (Item P V) where
  len := Sstack.size
  less := Sstack.less
  swap := Sstack.swap
  push := Sstack.push
  pop := Sstack.pop

/-- `Push` -/
def push (s : Sstack P V) (data : V) (priority : P) : Option (Sstack P V) :=
  Heap.push cont s ⟨data, priority⟩

/-- `Peek` -/
def peek (s : Sstack P V) : Option (V × P) := (s.get 0 0).map fun x => (x.value, x.priority)

/-- `Pop` -/
def pop (s : Sstack P V) : Option ((V × P) × Sstack P V) := do
  let (x, s) ← Heap.pop cont s
  some ((x.value, x.priority), s)

/-- `PopItem` -/
def popItem (s : Sstack P V) : Option (V × Sstack P V) := do
  let (x, s) ← Heap.pop cont s
  some (x.value, s)

/-- `Remove` -/
def remove (s : Sstack P V) (i : Nat) : Option (V × Sstack P V) := do
  let (x, s) ← Heap.remove cont s i
  some (x.value, s)

/-- `Reset` -/
def reset (s : Sstack P V) : Sstack P V := .new s.setIndex s.reported

/-- The key of an item: higher priorities are first. -/
def key (x : Item P V) : Pᵒᵈ := OrderDual.toDual x.priority

variable {b : Bool} {fresh : Prop} {gone : Set V} {s : Sstack P V} {i : Nat} {l : List (Item P V)}
  {x : Item P V}

theorem lawful (b : Bool) (fresh : Prop) (gone : Set V) :
    Heap.Lawful (cont : Heap.Interface (Sstack P V) (Item P V)) key (Rel b fresh gone) where
  len h := h.size
  less h hi hj := by simp [cont, Sstack.less, h.item hi, h.item hj, key]
  swap h hi hj := h.swap hi hj

/-- The items of a queue, in the order of a heap. -/
structure Queue (b : Bool) (fresh : Prop) (gone : Set V) (s : Sstack P V) (l : List (Item P V)) :
    Prop extends Rel b fresh gone s l where
  ordered : Heap.Ordered l.length (Heap.keys key l)

namespace Queue

theorem push (h : Queue b fresh gone s l) (hx : fresh → ∀ y ∈ l, y.value ≠ x.value) :
    ∃ s' l', Prque.push s x.value x.priority = some s' ∧
      Queue b fresh (gone \ {x.value}) s' l' ∧ l'.Perm (l ++ [x]) := by
  obtain ⟨s₁, hpush, h₁⟩ := h.toRel.push hx
  obtain ⟨s', l', heq, h', hord, hperm⟩ := Heap.push_spec (lawful ..) h.ordered hpush h₁
  exact ⟨s', l', heq, ⟨h', hord⟩, hperm⟩

omit [DecidableEq V] in
/-- The front has the greatest priority. -/
theorem front (h : Queue b fresh gone s l) (hx : l[0]? = some x) :
    peek s = some (x.value, x.priority) ∧ ∀ y ∈ l, y.priority ≤ x.priority := by
  have hget : s.get 0 0 = some x := h.item hx
  refine ⟨by rw [peek, hget, Option.map_some], fun y hy => ?_⟩
  obtain ⟨k, hk, rfl⟩ := mem_iff_getElem.mp hy
  have hle := h.ordered.front_le k hk
  rwa [Heap.keys_of_getElem? hx, Heap.keys_of_getElem? (getElem?_eq_getElem hk),
    WithBot.coe_le_coe] at hle

/-- `heap.Pop` takes the front. -/
theorem pop (h : Queue b fresh gone s l) (hx : l[0]? = some x) :
    ∃ s' l', Heap.pop cont s = some (x, s') ∧ Queue b fresh (insert x.value gone) s' l' ∧
      (l' ++ [x]).Perm l := by
  obtain ⟨s₁, l', heq, h₁, hord, hperm⟩ := Heap.pop_spec (lawful ..) h.toRel h.ordered hx
  obtain ⟨s', hpop, h'⟩ := h₁.pop
  exact ⟨s', l', heq.trans hpop, ⟨h', hord⟩, hperm⟩

/-- `heap.Remove` takes the item at the index. -/
theorem remove (h : Queue b fresh gone s l) (hx : l[i]? = some x) :
    ∃ s' l', Heap.remove cont s i = some (x, s') ∧ Queue b fresh (insert x.value gone) s' l' ∧
      (l' ++ [x]).Perm l := by
  obtain ⟨s₁, l', heq, h₁, hord, hperm⟩ := Heap.remove_spec (lawful ..) h.toRel h.ordered hx
  obtain ⟨s', hpop, h'⟩ := h₁.pop
  exact ⟨s', l', heq.trans hpop, ⟨h', hord⟩, hperm⟩

end Queue

/-! ## runs -/

/-- The plain model: the held items, whether no value was pushed while it was held, and the values
that were removed and not pushed again. -/
structure Plain (P V : Type) where
  held : Multiset (Item P V)
  fresh : Prop
  gone : Set V

/-- The states after any calls, with the plain model.  `PopItem` and `Remove` do not return the
priority: what they take is the item that `Peek` shows, and the one at the index. -/
inductive Reaches (b : Bool) : Sstack P V → Plain P V → Prop
  | new : Reaches b (.new b fun _ => none) ⟨0, True, ∅⟩
  | push {s s' m x} : Reaches b s m → push s x.value x.priority = some s' →
      Reaches b s' ⟨m.held + {x}, m.fresh ∧ ∀ y ∈ m.held, y.value ≠ x.value, m.gone \ {x.value}⟩
  | pop {s s' held fresh gone x} : Reaches b s ⟨held + {x}, fresh, gone⟩ →
      pop s = some ((x.value, x.priority), s') → Reaches b s' ⟨held, fresh, insert x.value gone⟩
  | popItem {s s' held fresh gone x} : Reaches b s ⟨held + {x}, fresh, gone⟩ →
      peek s = some (x.value, x.priority) → popItem s = some (x.value, s') →
      Reaches b s' ⟨held, fresh, insert x.value gone⟩
  | remove {s s' held fresh gone i x} : Reaches b s ⟨held + {x}, fresh, gone⟩ → i < s.size →
      s.item i = some x → remove s i = some (x.value, s') →
      Reaches b s' ⟨held, fresh, insert x.value gone⟩
  | reset {s m} : Reaches b s m → Reaches b (reset s) ⟨0, m.fresh, m.gone⟩

theorem Reaches.queue {m : Plain P V} (h : Reaches b s m) :
    ∃ l : List (Item P V), ↑l = m.held ∧ Queue b m.fresh m.gone s l := by
  induction h with
  | new => exact ⟨[], rfl, .new (by simp), fun p k _ hk => absurd hk k.not_lt_zero⟩
  | @push s _ m x _ heq ih =>
    obtain ⟨l, hheld, h⟩ := ih
    have hfresh : Queue b (m.fresh ∧ ∀ y ∈ m.held, y.value ≠ x.value) m.gone s l :=
      { h with indexed := fun hf => h.indexed hf.1 }
    obtain ⟨s', l', heq', h', hperm⟩ :=
      hfresh.push fun hf y hy => hf.2 y (by simpa [← hheld] using hy)
    obtain rfl := Option.some.inj (heq.symm.trans heq')
    exact ⟨l', by rw [← hheld]; exact Multiset.coe_eq_coe.mpr hperm, h'⟩
  | @pop s _ _ _ _ x _ heq ih =>
    obtain ⟨l, hheld, h⟩ := ih
    obtain ⟨y, hy⟩ := exists_front hheld
    obtain ⟨s', l', hpop, h', hperm⟩ := h.pop hy
    simp only [Prque.pop, hpop, Option.bind_eq_bind, Option.bind_some, Option.some_inj] at heq
    obtain ⟨hxy, rfl⟩ := Prod.mk.inj heq
    obtain rfl := Item.ext_of_eq hxy
    exact ⟨l', held_of_perm hheld hperm, h'⟩
  | @popItem s _ _ _ _ x _ hpeek heq ih =>
    obtain ⟨l, hheld, h⟩ := ih
    obtain ⟨y, hy⟩ := exists_front hheld
    obtain rfl := Item.ext_of_eq (Option.some.inj ((h.front hy).1.symm.trans hpeek))
    obtain ⟨s', l', hpop, h', hperm⟩ := h.pop hy
    simp only [Prque.popItem, hpop, Option.bind_eq_bind, Option.bind_some, Option.some_inj] at heq
    obtain ⟨-, rfl⟩ := Prod.mk.inj heq
    exact ⟨l', held_of_perm hheld hperm, h'⟩
  | @remove s _ _ _ _ i x _ hi hitem heq ih =>
    obtain ⟨l, hheld, h⟩ := ih
    obtain ⟨y, hy⟩ : ∃ y, l[i]? = some y := ⟨_, getElem?_eq_getElem (h.size ▸ hi)⟩
    obtain rfl := Option.some.inj ((h.item hy).symm.trans hitem)
    obtain ⟨s', l', hpop, h', hperm⟩ := h.remove hy
    simp only [Prque.remove, hpop, Option.bind_eq_bind, Option.bind_some, Option.some_inj] at heq
    obtain ⟨-, rfl⟩ := Prod.mk.inj heq
    exact ⟨l', held_of_perm hheld hperm, h'⟩
  | reset _ ih =>
    obtain ⟨l, hheld, h⟩ := ih
    rw [Prque.reset, h.setIndex]
    exact ⟨[], rfl, .new fun hf hb => (h.indexed hf hb).gone,
      fun p k _ hk => absurd hk k.not_lt_zero⟩

/-- **After any calls** the items are those of the plain model, and no call indexes a block out of
range: `Push` returns, `Pop` and `PopItem` return an item of greatest priority, and `Remove` returns
the value at the index.  If no value was pushed while it was held, the callback was last called with
the place of each held value, so that `Remove` with that index returns that value, and with -1 for
each value that was removed. -/
theorem reaches_spec {b : Bool} {s : Sstack P V} {m : Plain P V} (h : Reaches b s m) :
    ∃ l : List (Item P V), ↑l = m.held ∧ s.size = l.length ∧ (∀ i < l.length, s.item i = l[i]?) ∧
      (m.fresh → b → Indexed s.reported m.gone l) ∧
      (∀ data priority, ∃ s', push s data priority = some s') ∧
      (m.held ≠ 0 → ∃ x ∈ m.held, (∀ y ∈ m.held, y.priority ≤ x.priority) ∧
        peek s = some (x.value, x.priority) ∧
        ∃ s', pop s = some ((x.value, x.priority), s') ∧ popItem s = some (x.value, s')) ∧
      (∀ i x, l[i]? = some x → ∃ s', remove s i = some (x.value, s')) ∧
      (m.fresh → b → ∀ x ∈ m.held, ∃ i s',
        s.reported x.value = some (Int.ofNat i) ∧ remove s i = some (x.value, s')) := by
  obtain ⟨l, hheld, h⟩ := h.queue
  have hremove : ∀ i x, l[i]? = some x → ∃ s', remove s i = some (x.value, s') := by
    intro i x hi
    obtain ⟨s', -, heq, -⟩ := h.remove hi
    exact ⟨s', by simp [remove, heq]⟩
  refine ⟨l, hheld, h.size, fun i hi => ?_, h.indexed, fun data priority => ?_, fun hne => ?_,
    hremove, fun hf hb x hx => ?_⟩
  · rw [h.item (getElem?_eq_getElem hi), getElem?_eq_getElem hi]
  · have hrel : Queue b False m.gone s l := { h with indexed := False.elim }
    obtain ⟨s', -, hpush, -⟩ := hrel.push (x := ⟨data, priority⟩) False.elim
    exact ⟨s', hpush⟩
  · simp only [← hheld, Multiset.mem_coe] at hne ⊢
    obtain ⟨x, hx⟩ : ∃ x, l[0]? = some x :=
      ⟨_, getElem?_eq_getElem (length_pos_iff.mpr fun hnil => hne (by rw [hnil]; rfl))⟩
    obtain ⟨hpeek, hmax⟩ := h.front hx
    obtain ⟨s', -, heq, -⟩ := h.pop hx
    exact ⟨x, mem_of_getElem? hx, hmax, hpeek, s', by simp [pop, heq], by simp [popItem, heq]⟩
  · rw [← hheld, Multiset.mem_coe] at hx
    obtain ⟨i, hi⟩ := mem_iff_getElem?.mp hx
    obtain ⟨s', heq⟩ := hremove i x hi
    exact ⟨i, s', (h.indexed hf hb).held i x hi, heq⟩

/-- Three values are pushed, the one of greatest priority is popped, and another one is removed. -/
theorem reaches_sample : ∃ (s : Sstack Nat Nat) (m : Plain Nat Nat) (l : List (Item Nat Nat)),
    Reaches true s m ∧ m.fresh ∧ m.held = {⟨3, 6⟩} ∧ ↑l = m.held ∧ s.size = 1 ∧
    s.reported 3 = some 0 ∧ s.reported 2 = some (-1) ∧ Indexed s.reported m.gone l := by
  have h₁ : Reaches true _ _ := .push (x := (⟨3, 6⟩ : Item Nat Nat)) .new rfl
  have h₂ : Reaches true _ _ := .push (x := (⟨1, 5⟩ : Item Nat Nat)) h₁ rfl
  have h₃ : Reaches true _ _ := .push (x := (⟨2, 7⟩ : Item Nat Nat)) h₂ rfl
  have h₄ : Reaches true _ _ := .pop h₃ rfl
  have h₅ : Reaches true _ _ := .remove (i := 1) h₄ (by decide) rfl rfl
  obtain ⟨l, hheld, -, -, hindexed, -⟩ := reaches_spec h₅
  exact ⟨_, _, l, h₅, by simp, rfl, hheld, rfl, rfl, rfl, hindexed (by simp) rfl⟩

/-- A value that was pushed twice is held, but was last reported as removed. -/
theorem reaches_twice : (do
    let s ← push (Sstack.new true fun _ => none) () 0
    let s ← push s () 0
    let (_, s) ← pop s
    some (s.size, peek s, s.reported ())) = some (1, some ((), 0), some (-1)) := by
  decide +kernel

end GoQrl.Prque
