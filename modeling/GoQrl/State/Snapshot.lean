import GoQrl.State.Root
import GoQrl.State.Machine

/-!
# GoQrl.State.Snapshot

Snapshots of a `StateDB` over whole runs.

A `StateDB` answers every run as the machine does that saves whole worlds
(`step_simulates`).  A revert therefore puts back all that can be seen, and what comes after it
is answered as if the reverted calls had never been made (`revertToSnapshot_restores`).
-/

namespace GoQrl.State

open Rlp Mpt Mpt.Tree GoQrl.Types Machine Simulation StateDB World
open List hiding nil get insert

section

variable [Keccak]

/-- A call and its answer. -/
def StateDB.step [MapOrder] (s : StateDB) : Call → Option (Answer × StateDB)
  | .set op => (s.set op).map fun s => (.unit, s)
  | .get q => s.get q
  | .snapshot => some (s.snapshot.map .revision id)
  | .revertToSnapshot revid => (s.revertToSnapshot revid).map fun s => (.unit, s)
  | .finalise deleteEmptyObjects => some (.unit, s.finalise deleteEmptyObjects)
  | .intermediateRoot deleteEmptyObjects =>
    (s.intermediateRoot deleteEmptyObjects).map (·.map .hash id)
  | .setTxContext thash ti => some (.unit, s.setTxContext thash ti)
  | .prepare sender coinbase dst precompiles list =>
    (s.prepare sender coinbase dst precompiles list).map fun s => (.unit, s)

/-- The calls on worlds. -/
noncomputable def World.meaning (seen : Log → Log) : Meaning World where
  set := World.set seen
  get := World.get
  finalise deleteEmptyObjects w := w.finalise deleteEmptyObjects
  intermediateRoot deleteEmptyObjects w := w.intermediateRoot deleteEmptyObjects
  setTxContext thash ti w := { w with thash := thash, txIndex := ti }
  setAccessList al w := { w with accessList := al }
  unshifted w q a k ha := by
    cases q with
    | slotInAccessList addr slot =>
      obtain ⟨r, -, rfl⟩ := Option.map_eq_some_iff.mp ha
      rfl
    | _ => cases ha; rfl

variable {w : World} {calls : List Call}

namespace StateDB

variable {base : Base} {seen : Log → Log} {s : StateDB} {m : Machine World}

/-- The state stands for the machine. -/
def Refines (base : Base) (seen : Log → Log) (s : StateDB) (m : Machine World) : Prop :=
  ∃ below ws, Journalled base seen below s m.world ws ∧
    UndoLog.Savepoints Revision.id Revision.journalIndex below.length m.first m.next (m.world :: ws)
      s.validRevisions m.marks ∧
    s.nextRevisionId = m.next

omit [Keccak] in
/-- `Prepare` starts with an access list of its own. -/
theorem prepare_eq (s : StateDB) (sender coinbase : Address) (dst : Option Address)
    (precompiles : List Address) (list : List AccessTuple) :
    s.prepare sender coinbase dst precompiles list =
      (prepared sender coinbase dst precompiles list).map fun al =>
      { s with accessList := al } := by
  unfold prepare prepared
  cases dst <;> simp only [sides] <;> cases prepareList list _ <;> rfl

omit [Keccak] in
/-- The access list at the start of a transaction is made without a panic. -/
theorem prepared_wf (sender coinbase : Address) (dst : Option Address) (precompiles : List Address)
    (list : List AccessTuple) :
    ∃ al, prepared sender coinbase dst precompiles list = some al ∧ al.WF := by
  have hslots : ∀ (address : Address) (keys : List Hash) (al : AccessList), al.WF →
      ∃ al', prepareSlots address keys al = some al' ∧ al'.WF := by
    intro address keys
    induction keys with
    | nil => exact fun al hal => ⟨al, rfl, hal⟩
    | cons key keys ih =>
      intro al hal
      obtain ⟨mods, al', hadd, hal'⟩ := hal.addSlot address key
      obtain ⟨al'', hrest, hal''⟩ := ih al' hal'
      exact ⟨al'', by simp [prepareSlots, hadd, hrest], hal''⟩
  have hlist : ∀ (list : List AccessTuple) (al : AccessList), al.WF →
      ∃ al', prepareList list al = some al' ∧ al'.WF := by
    intro list
    induction list with
    | nil => exact fun al hal => ⟨al, rfl, hal⟩
    | cons el list ih =>
      intro al hal
      obtain ⟨al', hkeys, hal'⟩ := hslots el.address el.storageKeys _ (hal.addAddress el.address)
      obtain ⟨al'', hrest, hal''⟩ := ih al' hal'
      exact ⟨al'', by simp [prepareList, hkeys, hrest], hal''⟩
  have hfold : ∀ (l : List Address) (al : AccessList), al.WF →
      (l.foldl (fun al addr => (al.addAddress addr).2) al).WF := by
    intro l
    induction l with
    | nil => exact fun al hal => hal
    | cons a l ih => exact fun al hal => ih _ (hal.addAddress a)
  have hstart : (sides sender dst).WF := by
    have hsender := AccessList.wf_new.addAddress sender
    cases dst with
    | none => exact hsender
    | some dst => exact hsender.addAddress dst
  obtain ⟨al, hal, hwf⟩ := hlist list _ (hfold precompiles _ hstart)
  exact ⟨(al.addAddress coinbase).2, by unfold prepared; rw [hal]; rfl, hwf.addAddress coinbase⟩

/-- The length of the journal. -/
theorem Journalled.length {below : List JournalEntry} {ws : List World}
    (h : Journalled base seen below s w ws) :
    s.journal.entries.length = below.length + ws.length := by
  obtain ⟨es, hes, hchain⟩ := h.chain
  have hlen := hchain.length
  rw [length_cons] at hlen
  rw [hes, length_append]
  omega

/-- Changes of the world that keep the accounts and the journal; from here on more or less may be
seen of the logs. -/
theorem Refines.jump {seen' : Log → Log} (h : Refines base seen' s m) {s' : StateDB}
    (hrel : Rel base seen s' w) (hquiet : Quiet s s') (hrefund : w.refund = m.world.refund)
    (hdirties : w.dirties = m.world.dirties) :
    Refines base seen s' (m.jump w) := by
  obtain ⟨below, ws, hj, hsave, hnext⟩ := h
  refine ⟨s.journal.entries, [], ⟨hrel, ⟨[], by rw [hquiet.journal]; rfl, .base _⟩, ?_⟩, ?_,
    hquiet.next.trans hnext⟩
  · intro hnil w0 hw0
    obtain rfl := Option.some.inj hw0
    have hlen := hj.length
    rw [hnil, length_nil] at hlen
    obtain rfl : below = [] := length_eq_zero_iff.mp (by omega)
    obtain rfl : ws = [] := length_eq_zero_iff.mp (by omega)
    show w.refund = 0 ∧ ∀ a, w.dirties a = none
    rw [hrefund, hdirties]
    exact hj.bottom rfl m.world rfl
  · rw [hquiet.valid, hj.length]
    exact hsave.forget w

/-- The revisions are not a part of the world. -/
theorem Journalled.setRevisions {below : List JournalEntry} {ws : List World}
    (h : Journalled base seen below s w ws) (revisions : List Revision) (next : Nat) :
    Journalled base seen below
      { s with validRevisions := revisions, nextRevisionId := next } w ws := by
  have hrel : Rel base seen { s with validRevisions := revisions, nextRevisionId := next } w :=
    { h.rel with
      onBase := { h.rel.onBase with }
      accounts := fun a => (h.rel.accounts a).transfer rfl rfl }
  exact ⟨hrel, h.chain, h.bottom⟩

/-- `SetTxContext`. -/
theorem Rel.setTxContext (h : Rel base seen s w) (thash : Hash) (ti : Nat) :
    Rel base seen (s.setTxContext thash ti) { w with thash := thash, txIndex := ti } :=
  { h with
    onBase := { h.onBase with }
    accounts := fun a => (h.accounts a).transfer rfl rfl
    thash := rfl
    txIndex := rfl }

/-- A revert puts the world of the snapshot back, or fails if there is none. -/
theorem Refines.revertToSnapshot (h : Refines base seen s m) {revid : Nat}
    (hfirst : m.first ≤ revid) :
    Matches (Refines base seen) (fun a b => Answer.see seen a = b)
      ((s.revertToSnapshot revid).map fun s => (.unit, s)) ((m.revertToSnapshot revid).map fun m =>
        (.unit, m)) := by
  obtain ⟨below, ws, hj, hsave, hnext⟩ := h
  have hsplit := takeWhile_append_dropWhile (p := (·.1 ≠ revid)) (l := m.marks)
  unfold StateDB.revertToSnapshot Machine.revertToSnapshot
  cases hdrop : m.marks.dropWhile (·.1 ≠ revid) with
  | nil =>
    have hmissing : revid ∉ m.marks.map Prod.fst := fun hmem => by
      obtain ⟨mark, hmark, rfl⟩ := mem_map.mp hmem
      simpa using dropWhile_eq_nil_iff.mp hdrop mark hmark
    simp only []
    cases hget : s.validRevisions[s.validRevisions.findIdx (revid ≤ ·.id)]? with
    | none => exact trivial
    | some rev =>
      simp only [if_pos (hsave.missing hfirst hmissing (mem_of_getElem? hget))]
      exact trivial
  | cons mark rest =>
    obtain ⟨n, w⟩ := mark
    obtain rfl : n = revid := by
      have hhead := head?_dropWhile_not (·.1 ≠ revid) m.marks
      rw [hdrop] at hhead
      simpa using hhead
    rw [← hsplit, hdrop] at hsave
    obtain ⟨rev, ws', hget, hid, hplace, hsuffix, hleft⟩ := hsave.restore
    obtain ⟨s', hrevert, hj', hrevs⟩ := hj.revertN hsuffix
    have hle := hsuffix.length_le
    simp only [length_cons] at hle
    have hcount : s.journal.entries.length - rev.journalIndex = ws.length - ws'.length := by
      rw [hj.length]
      omega
    have hbound : ¬ s.journal.entries.length < rev.journalIndex := by
      rw [hj.length]
      omega
    simp only [hget, hid, ne_eq, not_true_eq_false, if_false, if_neg hbound, hcount, hrevert]
    refine ⟨rfl, below, ws', ?_, ?_, hrevs.next.trans hnext⟩
    · exact hj'.setRevisions _ _
    · rwa [hrevs.valid]

/-! ### the start -/

/-- An account as it is loaded from the base. -/
theorem sees_base (hbacks : base.Backs s.db s.snap) {addr : Address} {acc : StateAccount}
    (hacc : base.accounts addr = some acc) (hdestruct : s.stateObjectsDestruct.lookup addr = none) :
    Sees base s addr (newObject addr (some acc))
      ((newObject addr (some acc)).view s.db (base.slots addr) fun _ => False) where
  on := by
    have hopens := hbacks.opensStorage addr acc hacc
    have hslots := hbacks.slots addr acc hacc
    refine ⟨⟨_, hopens, hslots⟩, ⟨_, hopens.valid, hslots, hbacks.root addr acc hacc⟩,
      fun k v hk => ?_, fun _ k _ => ?_, fun k hk => ?_, fun _ => ?_, fun hdel => ?_⟩
    · simp [newObject] at hk
    · simp [hdestruct, newObject, StateObject.view]
    · simp [newObject] at hk
    · simp [hdestruct, newObject, hacc]
    · simp [newObject] at hdel
  view := rfl
  address := rfl
  codeHash := hbacks.codeHash addr acc hacc
  reads _ hk := hk.elim

end StateDB

/-- The world at the start of a block. -/
def World.ofBase (base : Base) : World where
  accounts addr := (base.accounts addr).map fun acc =>
    (newObject addr (some acc)).view base.db (base.slots addr) fun _ => False
  written := base.accounts
  destruct _ := none
  dirties _ := none
  pending _ := none
  dirty _ := none
  accountDiffs _ := none
  storageDiffs _ := none
  accountOrigins _ := none
  storageOrigins _ := none
  refund := 0
  thash := Hash.zero
  txIndex := 0
  logs _ := []
  logSize := 0
  preimages _ := none
  accessList := .new

namespace StateDB

/-- **`New`** opens the base. -/
theorem new_refines (seen : Log → Log) {snap : Option Snapshot} (h : base.Backs base.db snap) :
    ∃ s, new base.root base.db snap = .ok s ∧ Refines base seen s (.start (.ofBase base)) := by
  obtain ⟨tr, htr, hinv⟩ := new_spec h.opens
  have hempty : ∀ (V : Type) (a : Address), (∅ : GoMap Address V).lookup a = none := fun V a =>
      AList.lookup_empty a
  refine ⟨_, by rw [new, htr], [], [], ⟨?_, ⟨[], rfl, .base _⟩, ?_⟩, .nil _ _ _ _, rfl⟩
  · constructor
    case onBase =>
      exact ⟨h, rfl, rfl, ⟨_, hinv, h.accounts⟩, h.encodable, fun _ _ => rfl, fun a obj hobj => by
        rw [hempty] at hobj; contradiction⟩
    case accounts =>
      intro a
      simp only [peek, hempty, start, ofBase]
      cases hacc : base.accounts a with
      | none => exact trivial
      | some acc => exact sees_base h hacc (hempty _ a)
    case indices => exact AccessList.wf_new
    case live => exact fun a ha => by simp [start, ofBase, World.Touched] at ha
    case counts => exact fun _ _ hn => by contradiction
    case markers => exact fun _ _ ho => by contradiction
    all_goals first | rfl | exact fun a => AList.lookup_empty a | exact fun _ => rfl
  · rintro - w0 hw0
    obtain rfl := Option.some.inj hw0
    exact ⟨rfl, fun _ => rfl⟩

variable [MapOrder]

/-- **Every call** of a `StateDB` is answered as by the machine. -/
theorem step_simulates (base : Base) (haddrs : AddressesApart) (hslots : KeysApart Hash.bytes)
    (hseen : SeesLogs seen) :
    Simulates (Refines base seen) (fun a b => Answer.see seen a = b) (Admits seen)
      step (Machine.step (meaning seen)) := by
  intro s m call hadmits h
  cases call with
  | set op =>
    obtain ⟨below, ws, hj, hsave, hnext⟩ := h
    obtain ⟨s', w', hs, hw, ws', hj', hsuffix, hrevs⟩ | ⟨hs, hw⟩ := hj.set op
    · simp only [step, Machine.step, meaning, hs, hw, Option.map_some]
      exact ⟨rfl, below, ws', hj', hrevs.valid ▸ hsave.grow hsuffix, hrevs.next.trans hnext⟩
    · simp only [step, Machine.step, meaning, hs, hw, Option.map_none]
      exact trivial
  | get q =>
    obtain ⟨below, ws, hj, hsave, hnext⟩ := h
    obtain ⟨a, s', hs, hw, hrel, hquiet⟩ := get_spec hj.rel hseen hadmits
    simp only [step, Machine.step, meaning, hs, hw, Option.map_some]
    exact ⟨rfl, below, ws, hj.keep hrel hquiet, hquiet.valid ▸ hsave, hquiet.next.trans hnext⟩
  | snapshot =>
    obtain ⟨below, ws, hj, hsave, hnext⟩ := h
    refine ⟨congrArg Answer.revision hnext, below, ws, hj.setRevisions _ _, ?_,
      congrArg (· + 1) hnext⟩
    exact hsave.save hnext hj.length
  | revertToSnapshot revid => exact h.revertToSnapshot hadmits
  | finalise deleteEmptyObjects =>
    obtain ⟨below, ws, hj, hsave, hnext⟩ := h
    obtain ⟨hj', -, hvalid, hnext'⟩ := finalise_spec haddrs hj deleteEmptyObjects
    exact ⟨rfl, [], [], hj', hvalid ▸ .nil _ _ _ _, hnext'.trans hnext⟩
  | intermediateRoot deleteEmptyObjects =>
    obtain ⟨below, ws, hj, hsave, hnext⟩ := h
    obtain ⟨root, s', w', hs, hw, hj', hvalid, hnext'⟩ | ⟨hs, hw⟩ :=
      intermediateRoot_spec haddrs hslots hj deleteEmptyObjects
    · simp only [step, Machine.step, meaning, hs, hw, Option.map_some]
      exact ⟨rfl, [], [], hj', hvalid ▸ .nil _ _ _ _, hnext'.trans hnext⟩
    · simp only [step, Machine.step, meaning, hs, hw, Option.map_none]
      exact trivial
  | setTxContext thash ti =>
    exact ⟨rfl, h.jump (h.choose_spec.choose_spec.1.rel.setTxContext thash ti)
      ⟨⟨rfl, rfl⟩, rfl⟩ rfl rfl⟩
  | prepare sender coinbase dst precompiles list =>
    obtain ⟨al, hal, hwf⟩ := prepared_wf sender coinbase dst precompiles list
    simp only [step, Machine.step, meaning, prepare_eq, hal, Option.map_some]
    exact ⟨rfl, h.jump (h.choose_spec.choose_spec.1.rel.setAccessList hwf)
      ⟨⟨rfl, rfl⟩, rfl⟩ rfl rfl⟩

end StateDB

/-- The calls that write into logs. -/
def Call.stamps : Call → Bool
  | .get (.getLogs ..) => true
  | _ => false

/-- What is seen of the logs after some calls: all, unless `GetLogs` was one of them. -/
def seenLogs (calls : List Call) : Log → Log := if calls.any Call.stamps then Log.unstamped else id

omit [Keccak] in
theorem seesLogs_seenLogs (calls : List Call) : StateDB.SeesLogs (seenLogs calls) := by
  unfold seenLogs
  split
  · exact fun _ _ _ => rfl
  · exact fun _ _ _ => rfl

omit [Keccak] in
theorem readsOnly_seenLogs {q : Getter} (h : .get q ∈ calls) :
    StateDB.ReadsOnly (seenLogs calls) q := by
  unfold seenLogs
  split
  · cases q <;> first | exact trivial | exact fun _ _ _ => rfl
  · next hno =>
    cases q <;> first | exact trivial | exact absurd (any_eq_true.mpr ⟨_, h, rfl⟩) hno

/-! ## snapshots -/

namespace StateDB

variable {base : Base} {seen : Log → Log} {s s' : StateDB} {m : Machine World}

/-- States that stand for the same world answer reads in the same way. -/
theorem get_same (h : Rel base seen s w) (h' : Rel base seen s' w) (hseen : SeesLogs seen)
    (q : Getter) :
    (s'.get q).map (·.1.see seen) = (s.get q).map (·.1.see seen) := by
  by_cases hq : ReadsOnly seen q
  · obtain ⟨a, t, hget, hw, -⟩ := get_spec h hseen hq
    obtain ⟨a', t', hget', hw', -⟩ := get_spec h' hseen hq
    rw [hget, hget']
    exact hw'.symm.trans hw
  · cases q with
    | getLogs txhash n b =>
      have hstamp : ∀ t, Rel base seen t w → (t.logs txhash).map (Log.stamp n b) =
          (w.logs txhash).map (Log.stamp n b) := fun t ht => by
        rw [← ht.logs, map_map]
        exact (map_congr_left fun l _ => hseen l n b).symm
      exact congrArg (fun l => some (Answer.logs l)) ((hstamp s' h').trans (hstamp s h).symm)
    | _ => exact absurd trivial hq

/-- More or less may be seen of the logs of a state. -/
theorem Refines.see {seen' : Log → Log} (h : Refines base seen' s m) (seen : Log → Log) :
    ∃ w, Refines base seen s ⟨w, [], s.nextRevisionId, s.nextRevisionId⟩ := by
  obtain ⟨below, ws, hj, -, hnext⟩ := id h
  have hrel : Rel base seen s { m.world with logs := fun h => (s.logs h).map seen } :=
    { hj.rel with logs := fun _ => rfl }
  rw [hnext]
  exact ⟨_, h.jump hrel (.refl s) rfl rfl⟩

variable [MapOrder]

/-- The answers of a run, as far as they are seen. -/
def answers (seen : Log → Log) (s : StateDB) (calls : List Call) : Option (List Answer) :=
  (Simulation.run step s calls).map fun r => r.1.map (Answer.see seen)

/-- The answers of a nested run are those of the machine. -/
theorem answers_eq (haddrs : AddressesApart) (hslots : KeysApart Hash.bytes) (hseen : SeesLogs seen)
    (h : Refines base seen s m) (hcalls : Nested m.first m.next calls)
    (hreads : ∀ q, .get q ∈ calls → ReadsOnly seen q) :
    s.answers seen calls = (run (Machine.step (meaning seen)) m calls).map Prod.fst := by
  have hrun := (step_simulates base haddrs hslots hseen).run (admitted_of_nested hcalls hreads) h
  unfold answers
  cases hs : run step s calls with
  | none =>
    rw [hs] at hrun
    rw [hrun.none_left]
    rfl
  | some r =>
    obtain ⟨as, s'⟩ := r
    rw [hs] at hrun
    obtain ⟨bs, m', hm, hsame, -⟩ := hrun.some_left
    have hmap : as.map (Answer.see seen) = bs := by
      rwa [← forall₂_eq_eq_eq, forall₂_map_left_iff]
    rw [hm, ← hmap]
    rfl

/-- Every state that is reached stands for a machine. -/
theorem refines_of_run (haddrs : AddressesApart) (hslots : KeysApart Hash.bytes)
    {snap : Option Snapshot}
    (hbacks : base.Backs base.db snap) {s0 : StateDB} (hnew : new base.root base.db snap = .ok s0)
    (hcalls : Nested 0 0 calls) {as : List Answer} (hrun : run step s0 calls = some (as, s)) :
    ∃ m, Refines base Log.unstamped s m := by
  obtain ⟨s1, hnew', hrefines⟩ := new_refines Log.unstamped hbacks
  obtain rfl : s1 = s0 := Except.ok.inj (hnew'.symm.trans hnew)
  have hreads : ∀ q, .get q ∈ calls → ReadsOnly Log.unstamped q := fun q _ => by
    cases q <;> first | exact trivial | exact fun _ _ _ => rfl
  have hseen : SeesLogs Log.unstamped := fun _ _ _ => rfl
  have hmatch :=
    (step_simulates base haddrs hslots hseen).run (admitted_of_nested hcalls hreads) hrefines
  rw [hrun] at hmatch
  obtain ⟨bs, m, -, -, hm⟩ := hmatch.some_left
  exact ⟨m, hm⟩

/-- A revert leads back to the world of the snapshot. -/
theorem Refines.restores (haddrs : AddressesApart) (hslots : KeysApart Hash.bytes)
    (hseen : SeesLogs seen)
    (h : Refines base seen s ⟨w, [], s.nextRevisionId, s.nextRevisionId⟩) {ops : List Call}
    (hops : ∀ c ∈ ops, c.InTransaction s.snapshot.1) (hreads : ∀ q, .get q ∈ ops → ReadsOnly seen q)
    {as : List Answer} (hrun : run step s.snapshot.2 ops = some (as, s')) :
    ∃ s'' k, s'.revertToSnapshot s.snapshot.1 = some s'' ∧
      s''.nextRevisionId = s.nextRevisionId + k ∧
      Refines base seen s'' (shift k ⟨w, [], s.nextRevisionId, s.nextRevisionId⟩) := by
  have hsim := step_simulates base haddrs hslots hseen
  obtain ⟨-, hsaved⟩ := hsim s _ .snapshot trivial h
  have hmatch := hsim.run (admitted_of_nested (nested_of_inTransaction hops le_rfl) hreads) hsaved
  change Matches _ _ (run step s.snapshot.2 ops) _ at hmatch
  rw [hrun] at hmatch
  obtain ⟨bs, m, hm, -, hrefines⟩ := hmatch.some_left
  obtain ⟨hfirst, hnext, rest, hmarks⟩ := run_keeps_mark ⟨[], rfl⟩ hops hm
  have hback := hrefines.revertToSnapshot hfirst.le
  have hmachine : m.revertToSnapshot s.nextRevisionId =
      some { m with world := w, marks := [] } := by
    simp [Machine.revertToSnapshot, hmarks, snapshot]
  rw [hmachine] at hback
  cases hrevert : s'.revertToSnapshot s.nextRevisionId with
  | none =>
    rw [hrevert] at hback
    exact hback.elim
  | some s'' =>
    rw [hrevert] at hback
    obtain ⟨-, hrefines'⟩ := hback
    obtain ⟨below, ws, hj, -, hnext'⟩ := id hrefines'
    have hjump := hrefines'.jump hj.rel (.refl s'') rfl rfl
    have hle : s.nextRevisionId + 1 ≤ m.next := hnext
    obtain ⟨k, hk⟩ := Nat.exists_eq_add_of_le (Nat.le_of_succ_le hle)
    refine ⟨s'', k, hrevert, hnext'.trans hk, ?_⟩
    unfold shift
    simp only [← hk]
    exact hjump

/-- **Snapshots are exact.**  After a revert all reads are answered as at the snapshot, and
every later run, with or without `IntermediateRoot`, is answered as if the reverted calls had
never been made.  Of the logs the block number and hash are not restored, which `GetLogs`
writes into them. -/
theorem revertToSnapshot_restores (haddrs : AddressesApart) (hslots : KeysApart Hash.bytes)
    {snap : Option Snapshot} (hbacks : base.Backs base.db snap) {s₀ : StateDB}
    (hnew : StateDB.new base.root base.db snap = .ok s₀) {before : List Call}
    (hbefore : Nested 0 0 before)
    {as₀ : List Answer} (hreach : Simulation.run step s₀ before = some (as₀, s)) {ops : List Call}
    (hops : ∀ c ∈ ops, c.InTransaction s.snapshot.1) {as : List Answer} {s' : StateDB}
    (hrun : Simulation.run step s.snapshot.2 ops = some (as, s')) :
    ∃ s'' k, s'.revertToSnapshot s.snapshot.1 = some s'' ∧ s''.logSize = s.logSize ∧
      (∀ q, (s''.get q).map (·.1.see (seenLogs ops)) = (s.get q).map (·.1.see (seenLogs ops))) ∧
      ∀ later, Nested s.nextRevisionId s.nextRevisionId later →
        s''.answers (seenLogs (ops ++ later)) (later.map (Call.shift k)) =
          (s.answers (seenLogs (ops ++ later)) later).map (List.map (Answer.shift k)) := by
  obtain ⟨m, hm⟩ := refines_of_run haddrs hslots hbacks hnew hbefore hreach
  -- the revert does not depend on what is seen of the logs
  have hseen : ∀ calls, ops <+: calls → ∃ s'' k w, s'.revertToSnapshot s.snapshot.1 = some s'' ∧
      s''.nextRevisionId = s.nextRevisionId + k ∧
      Refines base (seenLogs calls) s ⟨w, [], s.nextRevisionId, s.nextRevisionId⟩ ∧
      Refines base (seenLogs calls) s''
        (Machine.shift k ⟨w, [], s.nextRevisionId, s.nextRevisionId⟩) := by
    intro calls hpre
    obtain ⟨w, hw⟩ := hm.see (seenLogs calls)
    obtain ⟨s'', k, hrevert, hk, hw'⟩ := hw.restores haddrs hslots (seesLogs_seenLogs calls) hops
      (fun q hq => readsOnly_seenLogs (hpre.subset hq)) hrun
    exact ⟨s'', k, w, hrevert, hk, hw, hw'⟩
  obtain ⟨s'', k, w, hrevert, hk, ⟨_, _, hj, -, -⟩, ⟨_, _, hj'', -, -⟩⟩ := hseen ops prefix_rfl
  refine ⟨s'', k, hrevert, hj''.rel.logSize.trans hj.rel.logSize.symm,
    get_same hj.rel hj''.rel (seesLogs_seenLogs ops), fun later hlater => ?_⟩
  obtain ⟨t, k', w', ht, hk', hw, hw'⟩ := hseen (ops ++ later) (prefix_append _ _)
  obtain rfl : s'' = t := Option.some.inj (hrevert.symm.trans ht)
  obtain rfl : k = k' := Nat.add_left_cancel (hk.symm.trans hk')
  have hreads : ∀ q, .get q ∈ later → ReadsOnly (seenLogs (ops ++ later)) q := fun q hq =>
    readsOnly_seenLogs (mem_append_right _ hq)
  have hreads' : ∀ q, .get q ∈ later.map (Call.shift k) →
      ReadsOnly (seenLogs (ops ++ later)) q := by
    intro q hq
    obtain ⟨c, hc, hcq⟩ := mem_map.mp hq
    cases c <;> cases hcq
    exact hreads q hc
  rw [answers_eq haddrs hslots (seesLogs_seenLogs _) hw hlater hreads,
    answers_eq haddrs hslots (seesLogs_seenLogs _) hw' (Machine.nested_shift k _ _ hlater) hreads',
    Machine.run_shift, Option.map_map, Option.map_map]
  rfl

/-- **A `StateDB` is the plain world**: from `New` on a run is answered as by the machine over the
accounts and slots of the base, whether there is a snapshot or not, and in whatever order maps are
ranged over. -/
theorem answers_of_new (haddrs : AddressesApart) (hslots : KeysApart Hash.bytes)
    {snap : Option Snapshot} (hbacks : base.Backs base.db snap) (hcalls : Nested 0 0 calls) :
    ∃ s, StateDB.new base.root base.db snap = .ok s ∧ s.answers (seenLogs calls) calls =
      (run (Machine.step (World.meaning (seenLogs calls))) (.start (.ofBase base)) calls).map
        Prod.fst := by
  obtain ⟨s, hnew, hrefines⟩ := new_refines (seenLogs calls) hbacks
  exact ⟨s, hnew, answers_eq haddrs hslots (seesLogs_seenLogs calls) hrefines hcalls fun _ =>
    readsOnly_seenLogs⟩

end StateDB

end

/-! ### worked runs -/

/-- The sample digest keeps addresses and slots apart. -/
theorem wide_apart : @AddressesApart Keccak.wide ∧ @KeysApart Keccak.wide Hash Hash.bytes := by
  constructor
  · intro a b h
    have hlen : ∀ a : Address, a.bytes.length = 20 := Subtype.property
    have hne : ∀ a : Address, ¬ a.bytes.length = 32 := fun a => by rw [hlen a]; decide
    rw [Keccak.wide_hash, Keccak.wide_hash, dif_neg (hne a), dif_neg (hne b)] at h
    have hbytes := congrArg Hash.bytes h
    rw [sampleHash_of_le (by rw [hlen a]; decide),
      sampleHash_of_le (by rw [hlen b]; decide)] at hbytes
    have htake := congrArg (List.take 20) hbytes
    simp only [append_assoc] at htake
    rw [take_append_of_length (hlen a), take_append_of_length (hlen b)] at htake
    exact Subtype.ext htake
  · intro a b h
    rwa [Keccak.wide_hash, Keccak.wide_hash, dif_pos a.length_bytes, dif_pos b.length_bytes] at h

section

variable [Keccak]

/-- The tree of one entry. -/
def leafTree (key value : Bytes) : Tree := .short (keybytesToHex (hashKey key).bytes) (.value value)

theorem leafTree_eq (key value : Bytes) :
    leafTree key value = (Radix.Tree.nil : Tree).insert value
      (keybytesToHex (hashKey key).bytes) := by
  obtain ⟨a, hex, heq⟩ := exists_cons_of_length_pos
    ((length_keybytesToHex (hashKey key).bytes).trans_gt (Nat.succ_pos _))
  rw [leafTree, Radix.Tree.insert, heq, Radix.Tree.chain]

theorem keyed_leafTree {K : Type} [DecidableEq K] {key : K → Bytes} (hkey : KeysApart key) (k : K)
    {v : Bytes} {m : K → Option Bytes} (hm : ∀ k', m k' = if k' = k then some v else none) :
    Keyed key (leafTree (key k) v) m := by
  obtain rfl : m = Function.update (fun _ => none) k (some v) :=
    funext fun k' => by rw [hm, Function.update_apply]
  exact (keyed_nil key).update hkey k (by rw [leafTree_eq, ofTree_insert valid_nil])

theorem opens_leafTree {db : Hash → Option Reader} {id : ID} {r : Reader} {key value : Bytes}
    (hv : ValueOK value) (hid : id.root = rootHash (leafTree key value))
    (hdb : db id.stateRoot = some r) (hr : ∀ p h, r id.owner p h = some (enc (leafTree key value)))
    (hstate : id.stateRoot ≠ Hash.zero ∧ id.stateRoot ≠ emptyRootHash)
    (hroot : id.root ≠ Hash.zero ∧ id.root ≠ emptyRootHash) : Opens db id (leafTree key value) := by
  refine ⟨leafTree_eq key value ▸ valid_nil.insert (hashKey key) hv, ⟨_, ?_, serves_leaf hr⟩,
    .inl hid, fun _ => hroot⟩
  rw [newTrieReader, if_neg (not_or.mpr hstate), hdb]

def sampleAddress : Address := Fixed.ofBytes 20 [1]

def sampleStorage : Tree := leafTree Hash.zero.bytes (encodeString [7])

def sampleAccount : StateAccount := ⟨1, 9, rootHash sampleStorage, emptyCodeHash.bytes⟩

def sampleAccounts : Tree := leafTree sampleAddress.bytes sampleAccount.enc

/-- A state with one account, which has one slot. -/
def sampleBase : Base where
  db := ⟨fun _ => some fun owner _ _ =>
    some (enc (if owner = Hash.zero then sampleAccounts else sampleStorage)), fun _ => none⟩
  root := rootHash sampleAccounts
  accounts a := if a = sampleAddress then some sampleAccount else none
  slots a k := if a = sampleAddress ∧ k = Hash.zero then Hash.ofBytes [7] else Hash.zero
  accountTree := sampleAccounts
  storageTree _ := sampleStorage

/-- A snapshot that can only answer for the account and its slot. -/
def sampleSnapshot : Snapshot where
  account h := if h = Keccak.hash sampleAddress.bytes then some (some sampleAccount.slim) else none
  storage h k :=
    if h = Keccak.hash sampleAddress.bytes ∧ k = Keccak.hash Hash.zero.bytes then
      some (slotBytes (Hash.ofBytes [7]))
    else none

end

theorem sampleBase_backs :
    letI := Keccak.wide
    sampleBase.Backs sampleBase.db (some sampleSnapshot) := by
  let _ := Keccak.wide
  have hacc : ∀ {a acc}, sampleBase.accounts a = some acc → a = sampleAddress ∧
      acc = sampleAccount := by
    simp only [sampleBase]
    grind
  have hroots : (rootHash sampleAccounts ≠ Hash.zero ∧ rootHash sampleAccounts ≠ emptyRootHash) ∧
      rootHash sampleStorage ≠ Hash.zero ∧ rootHash sampleStorage ≠ emptyRootHash := by
    decide +kernel
  have henc : sampleAccount.Encodable := ⟨by decide, by decide +kernel⟩
  have hslot : encodeSlot (Hash.ofBytes [7]) = some (encodeString [7]) := by decide +kernel
  have howner : Keccak.hash sampleAddress.bytes ≠ Hash.zero := by decide +kernel
  exact {
    accounts := keyed_leafTree wide_apart.1 sampleAddress fun a => apply_ite _ _ _ _
    opens := opens_leafTree ⟨by decide +kernel, henc.fits⟩ rfl rfl
      (fun _ _ => rfl) hroots.1 hroots.1
    encodable a acc h := (hacc h).2 ▸ henc
    slots a acc h := keyed_leafTree wide_apart.2 Hash.zero fun k => by
      rw [(hacc h).1, ← hslot]
      simp only [sampleBase, true_and]
      exact apply_ite _ _ _ _
    opensStorage a acc h := by
      obtain ⟨rfl, rfl⟩ := hacc h
      exact opens_leafTree ⟨by decide, by decide⟩ rfl rfl (fun _ _ => by rw [if_neg howner]; rfl)
        hroots.1 hroots.2
    root a acc h := by rw [(hacc h).2]; rfl
    snapAccount := by
      rintro _ ⟨⟩ a acc h
      obtain ⟨heq, ⟨⟩⟩ := Option.ite_none_right_eq_some.mp h
      obtain rfl := wide_apart.1 _ _ heq
      decide +kernel
    snapStorage := by
      rintro _ ⟨⟩ a k e h
      obtain ⟨⟨ha, hk⟩, ⟨⟩⟩ := Option.ite_none_right_eq_some.mp h
      rw [wide_apart.1 _ _ ha, wide_apart.2 _ _ hk]
      rfl
    absent a h k := by
      simp only [sampleBase] at h ⊢
      grind
    codeHash a acc h := by rw [(hacc h).2]; exact Hash.length_bytes _ }

/-- The account is created over and written to, with a nested snapshot. -/
def sampleOps : List Call :=
  [.set (.createAccount sampleAddress), .set (.setState sampleAddress Hash.zero (Hash.ofBytes [8])),
    .snapshot, .set (.setNonce sampleAddress 3), .revertToSnapshot 1,
      .get (.getBalance sampleAddress)]

theorem revertToSnapshot_restores_sample :
    letI := Keccak.wide
    letI := MapOrder.listed
    let before := [.get (.getState sampleAddress Hash.zero), .set (.setBalance sampleAddress 5)]
    let calls := sampleOps ++ [.intermediateRoot true]
    ∃ s₀ as₀ s as s' s'' k,
      StateDB.new sampleBase.root sampleBase.db (some sampleSnapshot) = .ok s₀ ∧
      Simulation.run StateDB.step s₀ before = some (as₀, s) ∧
      Simulation.run StateDB.step s.snapshot.2 sampleOps = some (as, s') ∧
      s'.revertToSnapshot s.snapshot.1 = some s'' ∧
      (∀ q, (s''.get q).map (·.1.see (seenLogs sampleOps)) =
        (s.get q).map (·.1.see (seenLogs sampleOps))) ∧
      s''.answers (seenLogs calls) [.intermediateRoot true] =
        (s.answers (seenLogs calls) [.intermediateRoot true]).map (List.map (Answer.shift k)) := by
  let _ := Keccak.wide
  let _ := MapOrder.listed
  intro before calls
  have hsome : (match StateDB.new sampleBase.root sampleBase.db (some sampleSnapshot) with
      | .error _ => false
      | .ok s₀ =>
        match Simulation.run StateDB.step s₀ before with
        | none => false
        | some (_, s) => decide (s.snapshot.1 = 0) &&
          (Simulation.run StateDB.step s.snapshot.2 sampleOps).isSome) = true := by decide +kernel
  cases hnew : StateDB.new sampleBase.root sampleBase.db (some sampleSnapshot) with
  | error e => simp [hnew] at hsome
  | ok s₀ =>
    cases hreach : Simulation.run StateDB.step s₀ before with
    | none => simp [hnew, hreach] at hsome
    | some r =>
      obtain ⟨as₀, s⟩ := r
      simp only [hnew, hreach, Bool.and_eq_true, decide_eq_true_eq] at hsome
      obtain ⟨⟨as, s'⟩, hrun⟩ := Option.isSome_iff_exists.mp hsome.2
      have hops : ∀ c ∈ sampleOps, c.InTransaction s.snapshot.1 := by
        rw [hsome.1]
        simp [sampleOps, Call.InTransaction]
      have hbefore : Nested 0 0 before := by simp [before, Nested]
      obtain ⟨s'', k, hrevert, -, hreads, hlater⟩ := StateDB.revertToSnapshot_restores wide_apart.1
        wide_apart.2 sampleBase_backs hnew hbefore hreach hops hrun
      exact ⟨s₀, as₀, s, as, s', s'', k, rfl, hreach, hrun, hrevert, hreads,
        hlater [.intermediateRoot true] (by simp [Nested])⟩

/-- A balance is set and a nonce reverted before the root is taken. -/
theorem answers_of_new_sample :
    letI := Keccak.wide
    letI := MapOrder.listed
    let calls : List Call := [.get (.getState sampleAddress Hash.zero),
      .set (.setBalance sampleAddress 5), .snapshot, .set (.setNonce sampleAddress 3),
      .revertToSnapshot 0, .intermediateRoot true]
    ∃ s, StateDB.new sampleBase.root sampleBase.db (some sampleSnapshot) = .ok s ∧
      s.answers (seenLogs calls) calls =
        (Simulation.run (Machine.step (World.meaning (seenLogs calls)))
          (.start (.ofBase sampleBase))
          calls).map Prod.fst := by
  let _ := Keccak.wide
  let _ := MapOrder.listed
  exact StateDB.answers_of_new wide_apart.1 wide_apart.2 sampleBase_backs
    (by simp [Nested, Call.Jumps])

/-- The blocks of the logs without a transaction, in an answer. -/
def Answer.logBlocks : Option Answer → List UInt64
  | some (.allLogs all) => (all Hash.zero).map Log.blockNumber
  | _ => []

/-- The block that `GetLogs` writes into a log is still there after the revert. -/
theorem revertToSnapshot_keeps_block :
    letI := Keccak.wide
    letI := MapOrder.listed
    let log : Log := ⟨Fixed.ofBytes 20 [1], [], [], 0, Hash.zero, 0, Hash.zero, 0⟩
    ∃ s₀ as₀ s as s' s'', StateDB.new emptyRootHash ⟨fun _ => none, fun _ => none⟩ none = .ok s₀ ∧
      Simulation.run StateDB.step s₀ [.set (.addLog log)] = some (as₀, s) ∧
      Simulation.run StateDB.step s.snapshot.2 [.get (.getLogs Hash.zero 5 Hash.zero)] =
        some (as, s') ∧ s'.revertToSnapshot s.snapshot.1 = some s'' ∧
      (s''.get .logs).map Prod.fst ≠ (s.get .logs).map Prod.fst := by
  refine ⟨_, _, _, _, _, _, rfl, rfl, rfl, rfl, fun h => ?_⟩
  exact absurd (congrArg Answer.logBlocks h) (by decide)

end GoQrl.State
