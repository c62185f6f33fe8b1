import Mathlib.Data.List.Basic

/-!
# GoQrl.Lib.Simulation

Components that answer calls, over arbitrary states, calls and answers.

A step may fail; a run collects the answers of its steps.  If a component matches another on
every call that the other one admits (`Simulates`), then their runs match (`Simulates.run`).
-/

namespace GoQrl.Simulation

variable {S T I O P : Type}

/-- The answers of a run, unless a step fails. -/
def run (step : S → I → Option (O × S)) : S → List I → Option (List O × S)
  | s, [] => some ([], s)
  | s, i :: is =>
    match step s i with
    | none => none
    | some (o, s) =>
      match run step s is with
      | none => none
      | some (os, s) => some (o :: os, s)

/-- A run that does not fail, from its first step on. -/
theorem run_cons {step : S → I → Option (O × S)} {s s' : S} {i : I} {is : List I} {os : List O} :
    run step s (i :: is) = some (os, s') ↔
      ∃ o s1 os', step s i = some (o, s1) ∧ run step s1 is = some (os', s') ∧ os = o :: os' := by
  constructor
  · intro h
    simp only [run] at h
    split at h
    · contradiction
    · next o s1 hstep =>
      split at h
      · contradiction
      · next os' s2 hrun =>
        cases h
        exact ⟨o, s1, os', hstep, hrun, rfl⟩
  · rintro ⟨o, s1, os', hstep, hrun, rfl⟩
    simp [run, hstep, hrun]

/-- Two results match: both fail, or the answers and the states are related. -/
def Matches (R : S → T → Prop) (Q : O → P → Prop) : Option (O × S) → Option (P × T) → Prop
  | none, none => True
  | some (o, s), some (p, t) => Q o p ∧ R s t
  | _, _ => False

/-- The components match on every call that the second one admits. -/
def Simulates (R : S → T → Prop) (Q : O → P → Prop) (admits : T → I → Prop)
    (step : S → I → Option (O × S)) (step' : T → I → Option (P × T)) : Prop :=
  ∀ s t i, admits t i → R s t → Matches R Q (step s i) (step' t i)

/-- All calls of a run are admitted. -/
def Admitted (admits : T → I → Prop) (step : T → I → Option (P × T)) : T → List I → Prop
  | _, [] => True
  | t, i :: is => admits t i ∧ ∀ p t', step t i = some (p, t') → Admitted admits step t' is

variable {R : S → T → Prop} {Q : O → P → Prop} {admits : T → I → Prop}
    {step : S → I → Option (O × S)}
  {step' : T → I → Option (P × T)}

theorem Matches.none_left {r : Option (P × T)} (h : Matches R Q (none : Option (O × S)) r) :
    r = none := by
  cases r with
  | none => rfl
  | some x => exact h.elim

theorem Matches.some_left {o : O} {s : S} {r : Option (P × T)} (h : Matches R Q (some (o, s)) r) :
    ∃ p t, r = some (p, t) ∧ Q o p ∧ R s t := by
  cases r with
  | none => exact h.elim
  | some x => exact ⟨x.1, x.2, rfl, h⟩

/-- **Runs** from related states match. -/
theorem Simulates.run (h : Simulates R Q admits step step') {is : List I} {s : S} {t : T}
    (his : Admitted admits step' t is) (hst : R s t) :
    Matches R (List.Forall₂ Q) (Simulation.run step s is) (Simulation.run step' t is) := by
  induction is generalizing s t with
  | nil => exact ⟨.nil, hst⟩
  | cons i is ih =>
    have hstep := h s t i his.1 hst
    cases hs : step s i with
    | none =>
      rw [hs] at hstep
      simp only [Simulation.run, hs, hstep.none_left]
      trivial
    | some r =>
      obtain ⟨o, s'⟩ := r
      rw [hs] at hstep
      obtain ⟨p, t', ht, hq, hst'⟩ := hstep.some_left
      have hrest := ih (his.2 p t' ht) hst'
      cases hrun : Simulation.run step s' is with
      | none =>
        rw [hrun] at hrest
        simp only [Simulation.run, hs, ht, hrun, hrest.none_left]
        trivial
      | some r =>
        rw [hrun] at hrest
        obtain ⟨ps, t'', ht', hqs, hst''⟩ := hrest.some_left
        simp only [Simulation.run, hs, ht, hrun, ht']
        exact ⟨.cons hq hqs, hst''⟩

end GoQrl.Simulation
