import Mathlib.Logic.Function.Basic

/-!
# GoQrl.Lib.Overlay

Stores and changes of stores, over arbitrary keys and values.

A store says of every key what it holds, and a change says of some keys what they hold from then
on.  Changes are applied to stores (`apply`) and put one after
the other (`after`); both ways of applying two changes agree (`apply_after`).
-/

namespace GoQrl.Overlay

variable {K V : Type}

/-- What the keys hold. -/
abbrev Store (K V : Type) := K → V

/-- What some of the keys hold from now on. -/
abbrev Change (K V : Type) := K → Option V

/-- The store after a change. -/
def apply (c : Change K V) (s : Store K V) : Store K V := fun k => (c k).getD (s k)

/-- One change after another. -/
def after (new old : Change K V) : Change K V := fun k => (new k).or (old k)

theorem apply_of_some {c : Change K V} {s : Store K V} {k : K} {v : V} (h : c k = some v) :
    apply c s k = v := by
  rw [apply, h, Option.getD_some]

theorem apply_of_none {c : Change K V} {s : Store K V} {k : K} (h : c k = none) :
    apply c s k = s k := by
  rw [apply, h, Option.getD_none]

/-- **Two changes** may be put together before they are applied. -/
theorem apply_after (new old : Change K V) (s : Store K V) :
    apply (after new old) s = apply new (apply old s) := by
  funext k
  cases h : new k with
  | some v => rw [apply_of_some h, apply_of_some (by rw [after, h]; rfl)]
  | none => simp [apply, after, h]

end GoQrl.Overlay
