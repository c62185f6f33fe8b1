import GoQrl.State.Operations
import GoQrl.Lib.Simulation
import Mathlib.Data.List.TakeWhile

/-!
# GoQrl.State.Machine

Runs with snapshots, over any state.

`Call` are the calls of a block: the changes and reads of transactions, snapshots and reverts
to them, and `Finalise`, `IntermediateRoot`, `SetTxContext` and `Prepare` between them.  A
`Meaning` says what they do to a state without snapshots; `Machine` adds the snapshots, by
saving whole states and putting them back.
-/

namespace GoQrl.State

open Rlp Mpt Mpt.Tree GoQrl.Types List Option Simulation

/-! ## calls -/

/-- The calls of a block. -/
inductive Call
  | set (op : Setter)
  | get (q : Getter)
  | snapshot
  | revertToSnapshot (revid : Nat)
  | finalise (deleteEmptyObjects : Bool)
  | intermediateRoot (deleteEmptyObjects : Bool)
  | setTxContext (thash : Hash) (ti : Nat)
  | prepare (sender coinbase : Address) (dst : Option Address) (precompiles : List Address)
      (list : List AccessTuple)

/-! ## the machine -/

/-- The answer with the identifiers of snapshots moved by `k`. -/
def Answer.shift (k : Nat) : Answer → Answer
  | .revision revid => .revision (revid + k)
  | a => a

/-- What the calls do to a state.  Reads do not return snapshots. -/
structure Meaning (W : Type) where
  set : W → Setter → Option W
  get : W → Getter → Option Answer
  finalise : Bool → W → W
  intermediateRoot : Bool → W → Option (Hash × W)
  setTxContext : Hash → Nat → W → W
  setAccessList : AccessList → W → W
  unshifted : ∀ w q a k, get w q = some a → a.shift k = a

/-- A state, and the states at the snapshots that may be reverted to: those with identifiers
from `first` on. -/
structure Machine (W : Type) where
  world : W
  marks : List (Nat × W)
  first : Nat
  next : Nat

/-- The machine at the start. -/
def Machine.start {W : Type} (w : W) : Machine W := ⟨w, [], 0, 0⟩

namespace Machine

section

variable {W : Type}

/-- A change that is not undone by a revert: the snapshots before it are given up. -/
def jump (m : Machine W) (w : W) : Machine W := ⟨w, [], m.next, m.next⟩

/-- The state of the snapshot is put back, and the later snapshots are given up. -/
def revertToSnapshot (m : Machine W) (revid : Nat) : Option (Machine W) :=
  match m.marks.dropWhile (·.1 ≠ revid) with
  | [] => none
  | (_, w) :: _ => some { m with world := w, marks := m.marks.takeWhile (·.1 ≠ revid) }

/-- The two sides of a transaction. -/
def sides (sender : Address) : Option Address → AccessList
  | none => (AccessList.new.addAddress sender).2
  | some dst => ((AccessList.new.addAddress sender).2.addAddress dst).2

/-- The access list at the start of a transaction. -/
def prepared (sender coinbase : Address) (dst : Option Address) (precompiles : List Address)
    (list : List AccessTuple) : Option AccessList :=
  (StateDB.prepareList list
    (precompiles.foldl (fun al addr => (al.addAddress addr).2) (sides sender dst))).map
      fun al => (al.addAddress coinbase).2

/-- The meaning of a call. -/
def step (M : Meaning W) (m : Machine W) : Call → Option (Answer × Machine W)
  | .set op => (M.set m.world op).map fun w => (.unit, { m with world := w })
  | .get q => (M.get m.world q).map fun a => (a, m)
  | .snapshot =>
    some (.revision m.next, { m with marks := m.marks ++ [(m.next, m.world)], next := m.next + 1 })
  | .revertToSnapshot revid => (m.revertToSnapshot revid).map fun m => (.unit, m)
  | .finalise deleteEmptyObjects => some (.unit, m.jump (M.finalise deleteEmptyObjects m.world))
  | .intermediateRoot deleteEmptyObjects =>
    (M.intermediateRoot deleteEmptyObjects m.world).map fun (root, w) => (.hash root, m.jump w)
  | .setTxContext thash ti => some (.unit, m.jump (M.setTxContext thash ti m.world))
  | .prepare sender coinbase dst precompiles list =>
    (prepared sender coinbase dst precompiles list).map fun al =>
    (.unit, m.jump (M.setAccessList al m.world))

/-- Calls whose meaning is that of the machine: reverts to snapshots it knows of, or that do
not exist, and reads that leave no trace. -/
def Admits (seen : Log → Log) (m : Machine W) : Call → Prop
  | .get q => StateDB.ReadsOnly seen q
  | .revertToSnapshot revid => m.first ≤ revid
  | _ => True

end

end Machine

/-! ## runs -/

/-- The calls after which the snapshots before are not reverted to. -/
def Call.Jumps : Call → Prop
  | .finalise _ | .intermediateRoot _ | .setTxContext .. | .prepare .. => True
  | _ => False

instance : DecidablePred Call.Jumps := fun c => by
  cases c <;> unfold Call.Jumps <;> infer_instance

/-- The identifier of the next snapshot after a call. -/
def Call.next (next : Nat) : Call → Nat
  | .snapshot => next + 1
  | _ => next

/-- The reverts of a run are to snapshots from `first` on, and never to one that was taken
before a `SetTxContext` or `Prepare`: these are not journalled. -/
def Nested : Nat → Nat → List Call → Prop
  | _, _, [] => True
  | first, next, c :: calls =>
    (∀ revid, c = .revertToSnapshot revid → first ≤ revid) ∧
      Nested (if c.Jumps then next else first) (c.next next) calls

/-- A call within a transaction, after the snapshot with this identifier. -/
def Call.InTransaction (revid : Nat) : Call → Prop
  | .set _ | .get _ | .snapshot => True
  | .revertToSnapshot later => revid < later
  | _ => False

namespace Machine

variable {W : Type} {M : Meaning W} {m m' : Machine W} {a : Answer} {c : Call}

/-- What a call does to the identifiers. -/
theorem step_ids (h : m.step M c = some (a, m')) :
    m'.first = (if c.Jumps then m.next else m.first) ∧ m'.next = c.next m.next := by
  cases c with
  | set | get | prepare =>
    obtain ⟨w, -, hw⟩ := map_eq_some_iff.mp h
    cases hw
    exact ⟨rfl, rfl⟩
  | snapshot | finalise | setTxContext =>
    cases h
    exact ⟨rfl, rfl⟩
  | revertToSnapshot revid =>
    obtain ⟨m1, hm, hw⟩ := map_eq_some_iff.mp h
    cases hw
    unfold revertToSnapshot at hm
    split at hm
    · contradiction
    · cases hm
      exact ⟨rfl, rfl⟩
  | intermediateRoot =>
    obtain ⟨⟨root, w⟩, -, hw⟩ := map_eq_some_iff.mp h
    cases hw
    exact ⟨rfl, rfl⟩

/-- The machine admits nested runs. -/
theorem admitted_of_nested {seen : Log → Log} {calls : List Call} (h : Nested m.first m.next calls)
    (hreads : ∀ q, .get q ∈ calls → StateDB.ReadsOnly seen q) :
    Simulation.Admitted (Admits seen) (step M) m calls := by
  induction calls generalizing m with
  | nil => exact trivial
  | cons c calls ih =>
    refine ⟨?_, fun a m' hstep => ?_⟩
    · cases c <;> first | exact trivial | exact hreads _ mem_cons_self | exact h.1 _ rfl
    · obtain ⟨hfirst, hnext⟩ := step_ids hstep
      exact ih (by rw [hfirst, hnext]; exact h.2) fun q hq => hreads q (mem_cons_of_mem _ hq)

end Machine

/-! ### renaming of snapshots -/

/-- The call with the identifiers of snapshots moved by `k`. -/
def Call.shift (k : Nat) : Call → Call
  | .revertToSnapshot revid => .revertToSnapshot (revid + k)
  | c => c

namespace Machine

variable {W : Type} {M : Meaning W} {m m' : Machine W} {a : Answer} {c : Call} {revid : Nat}
    {calls : List Call}

/-- The machine with the identifiers of snapshots moved by `k`. -/
def shift (k : Nat) (m : Machine W) : Machine W :=
  ⟨m.world, m.marks.map (Prod.map (· + k) id), m.first + k, m.next + k⟩

theorem revertToSnapshot_shift (k revid : Nat) :
    (m.shift k).revertToSnapshot (revid + k) = (m.revertToSnapshot revid).map (shift k) := by
  have hsame : ((fun mark : Nat × W => decide (mark.1 ≠ revid + k)) ∘ Prod.map (· + k) id) =
      fun mark => decide (mark.1 ≠ revid) := by
    funext mark
    simp
  unfold revertToSnapshot
  simp only [shift, dropWhile_map, takeWhile_map, hsame]
  cases hdrop : m.marks.dropWhile (·.1 ≠ revid) with
  | nil | cons => rfl

/-- Snapshots may be renamed. -/
theorem step_shift (k : Nat) (m : Machine W) (c : Call) :
    (m.shift k).step M (c.shift k) = (m.step M c).map (Prod.map (Answer.shift k) (shift k)) := by
  cases c with
  | set | intermediateRoot | prepare =>
    simp only [step, Option.map_map]
    rfl
  | get q =>
    show (M.get m.world q).map _ = ((M.get m.world q).map _).map _
    cases ha : M.get m.world q with
    | none => rfl
    | some a => simp [M.unshifted m.world q a k ha]
  | snapshot =>
    show some _ = some _
    simp only [shift, map_append, map_cons, map_nil, Prod.map_apply, Answer.shift, id]
    congr 3
    omega
  | revertToSnapshot revid =>
    show ((m.shift k).revertToSnapshot (revid + k)).map _ = ((m.revertToSnapshot revid).map _).map _
    rw [revertToSnapshot_shift, Option.map_map, Option.map_map]
    rfl
  | finalise | setTxContext => rfl

/-- Runs with renamed snapshots. -/
theorem run_shift (k : Nat) (m : Machine W) (calls : List Call) :
    run (step M) (m.shift k) (calls.map (Call.shift k)) =
      (run (step M) m calls).map (Prod.map (List.map (Answer.shift k)) (shift k)) := by
  induction calls generalizing m with
  | nil => rfl
  | cons c calls ih =>
    simp only [map_cons, run, step_shift]
    cases m.step M c with
    | none => rfl
    | some r =>
      obtain ⟨a, m'⟩ := r
      simp only [map_some, Prod.map_apply, ih]
      cases run (step M) m' calls with
      | none | some => rfl

/-- Calls within a transaction are nested. -/
theorem nested_of_inTransaction (h : ∀ c ∈ calls, c.InTransaction revid) {first next : Nat}
    (hfirst : first ≤ revid) : Nested first next calls := by
  induction calls generalizing next with
  | nil => exact trivial
  | cons c calls ih =>
    have hc := h c mem_cons_self
    have hjumps : ¬ c.Jumps := by
      cases c <;> first | exact id | exact fun _ => hc
    refine ⟨fun later hlater => ?_, ?_⟩
    · subst hlater
      exact hfirst.trans hc.le
    · rw [if_neg hjumps]
      exact ih fun c hc => h c (mem_cons_of_mem _ hc)

/-- The snapshots of a nested run may be renamed. -/
theorem nested_shift (k first next : Nat) (h : Nested first next calls) :
    Nested (first + k) (next + k) (calls.map (Call.shift k)) := by
  induction calls generalizing first next with
  | nil => exact trivial
  | cons c calls ih =>
    obtain ⟨hfirst, hrest⟩ := h
    refine ⟨fun revid hrevid => ?_, ?_⟩
    · cases c with
      | revertToSnapshot later =>
        cases hrevid
        exact Nat.add_le_add_right (hfirst later rfl) k
      | _ => cases hrevid
    · have hids : (if (c.shift k).Jumps then next + k else first + k) =
          (if c.Jumps then next else first) + k ∧
          (c.shift k).next (next + k) = c.next next + k := by
        cases c <;> simp [Call.shift, Call.Jumps, Call.next]
        omega
      rw [hids.1, hids.2]
      exact ih _ _ hrest

/-! ### transactions -/

/-- Within a transaction the snapshot before it is kept. -/
theorem step_keeps_mark {w : W} {rest : List (Nat × W)} (hmarks : m.marks = (revid, w) :: rest)
    (hc : c.InTransaction revid) (h : m.step M c = some (a, m')) :
    ∃ rest', m'.marks = (revid, w) :: rest' := by
  cases c with
  | set | get =>
    obtain ⟨w, -, hw⟩ := map_eq_some_iff.mp h
    cases hw
    exact ⟨rest, hmarks⟩
  | snapshot =>
    cases h
    exact ⟨rest ++ [(m.next, m.world)], by rw [hmarks]; rfl⟩
  | revertToSnapshot later =>
    obtain ⟨m1, hm, hw⟩ := map_eq_some_iff.mp h
    cases hw
    unfold revertToSnapshot at hm
    split at hm
    · contradiction
    · cases hm
      have hne : revid ≠ later := hc.ne
      exact ⟨rest.takeWhile (·.1 ≠ later), by simp [hmarks, hne]⟩
  | finalise | intermediateRoot | setTxContext | prepare => exact hc.elim

/-- A transaction keeps the snapshot before it. -/
theorem run_keeps_mark {w : W} {as : List Answer} (hmarks : ∃ rest, m.marks = (revid, w) :: rest)
    (hcalls : ∀ c ∈ calls, c.InTransaction revid) (h : run (step M) m calls = some (as, m')) :
    m'.first = m.first ∧ m.next ≤ m'.next ∧ ∃ rest, m'.marks = (revid, w) :: rest := by
  induction calls generalizing m as with
  | nil =>
    cases h
    exact ⟨rfl, le_rfl, hmarks⟩
  | cons c calls ih =>
    obtain ⟨a, m1, as', hstep, hrun, -⟩ := run_cons.mp h
    have hc := hcalls c mem_cons_self
    have hids : ¬ c.Jumps ∧ m.next ≤ c.next m.next := by
      cases c <;> simp [Call.Jumps, Call.next] <;> exact hc.elim
    obtain ⟨rest, hrest⟩ := hmarks
    obtain ⟨hfirst, hnext⟩ := step_ids hstep
    rw [if_neg hids.1] at hfirst
    obtain ⟨hfirst', hnext', hmark⟩ := ih (step_keeps_mark hrest hc hstep)
      (fun c hc => hcalls c (mem_cons_of_mem _ hc)) hrun
    exact ⟨hfirst'.trans hfirst, by omega, hmark⟩

end Machine

end GoQrl.State
