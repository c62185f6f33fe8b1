import GoQrl.Bytes

/-!
# GoQrl.ForkId

Fork identifiers, `core/forkid/forkid.go`.

An identifier is the checksum of the genesis hash and of the forks that a head has passed, with the
fork that comes next.  A filter finds the first fork that its own head has not passed, and compares
the checksum of a remote with the running checksums of all forks it knows.

Both depend on the head only by the number of forks it has passed (`newID_eq`, `newFilter_eq`).  Two
heads on the same forks accept each other, and two heads behind the first fork in which their lists
differ reject each other (`filter_spec`).
-/

namespace GoQrl.ForkId

open List

/-! ## checksums -/

/-- An entry of `crc32.IEEETable`, made by `simplePopulateTable`. -/
def tableEntry (i : UInt32) : UInt32 :=
  (List.range 8).foldl
    (fun crc _ => if crc &&& 1 == 1 then (crc >>> 1) ^^^ 0xedb88320 else crc >>> 1) i

/-- `crc32.Update` with `IEEETable`. -/
def crcUpdate (crc : UInt32) (p : Bytes) : UInt32 :=
  ~~~ p.foldl (fun crc v => tableEntry (crc.toUInt8 ^^^ v).toUInt32 ^^^ (crc >>> 8)) (~~~ crc)

/-- `crc32.ChecksumIEEE`. -/
def checksumIEEE (p : Bytes) : UInt32 := crcUpdate 0 p

/-- `checksumUpdate`. -/
def checksumUpdate (hash : UInt32) (fork : UInt64) : UInt32 :=
  crcUpdate hash ((List.range 8).map fun i => (fork >>> (56 - 8 * UInt64.ofNat i)).toUInt8)

/-- `checksumToBytes`. -/
def checksumToBytes (hash : UInt32) : Bytes :=
  (List.range 4).map fun i => (hash >>> (24 - 8 * UInt32.ofNat i)).toUInt8

/-! ## the forks of a configuration -/

/-- The value of a field of `ChainConfig`: a `*uint64`, a `*big.Int`, or something else. -/
inductive Value
  | uint64 (rule : Option UInt64)
  | bigInt (rule : Option Int)
  | other

/-- A field of `ChainConfig`, as reflection shows it. -/
structure Field where
  name : String
  value : Value

/-- `params.ChainConfig`. -/
abbrev ChainConfig := List Field

/-- What `gatherForks` appends to the forks by time for a field. -/
def Field.time? (f : Field) : Option UInt64 :=
  match f.value with
  | .uint64 rule => if f.name.endsWith "Time" || f.name.endsWith "Block" then rule else none
  | _ => none

/-- What `gatherForks` appends to the forks by block for a field. -/
def Field.block? (f : Field) : Option UInt64 :=
  match f.value with
  | .bigInt rule =>
    if f.name.endsWith "Time" || f.name.endsWith "Block" then rule.map fun n =>
      UInt64.ofNat n.natAbs else none
  | _ => none

/-- The loop that removes equal neighbours, behind a first entry. -/
def dedupFrom (prev : UInt64) : List UInt64 → List UInt64
  | [] => []
  | x :: l => if x = prev then dedupFrom prev l else x :: dedupFrom x l

/-- The loop that removes equal neighbours. -/
def dedup : List UInt64 → List UInt64
  | [] => []
  | x :: l => x :: dedupFrom x l

/-- `slices.Sort`. -/
def sort (l : List UInt64) : List UInt64 := l.mergeSort fun a b => decide (a ≤ b)

/-- The forks by block number and those by time. -/
structure Forks where
  byBlock : List UInt64
  byTime : List UInt64
deriving DecidableEq

/-- `gatherForks`; what is active at genesis is skipped. -/
def gatherForks (config : ChainConfig) (genesis : UInt64) : Forks where
  byBlock :=
    match dedup (sort (config.filterMap Field.block?)) with
    | [] => []
    | fork :: forks => if fork = 0 then forks else fork :: forks
  byTime := (dedup (sort (config.filterMap Field.time?))).dropWhile fun fork =>
    decide (fork ≤ genesis)

/-! ## identifiers and filters -/

/-- What of the genesis block is used. -/
structure Genesis where
  hash : Hash
  time : UInt64

/-- Number and time of the head. -/
structure Head where
  number : UInt64
  time : UInt64

/-- `ID`. -/
structure ID where
  hash : Bytes
  next : UInt64

/-- The loops of `NewID`: the checksum behind the passed forks, and the first fork that is not
passed. -/
def passForks (head : UInt64) : List UInt64 → UInt32 → UInt32 × Option UInt64
  | [], hash => (hash, none)
  | fork :: forks, hash =>
    if fork ≤ head then passForks head forks (checksumUpdate hash fork) else (hash, some fork)

/-- `NewID`. -/
def newID (config : ChainConfig) (genesis : Genesis) (head : Head) : ID :=
  let forks := gatherForks config genesis.time
  match passForks head.number forks.byBlock (checksumIEEE genesis.hash.bytes) with
  | (hash, some fork) => ⟨checksumToBytes hash, fork⟩
  | (hash, none) =>
    match passForks head.time forks.byTime hash with
    | (hash, some fork) => ⟨checksumToBytes hash, fork⟩
    | (hash, none) => ⟨checksumToBytes hash, 0⟩

inductive FilterError
  | remoteStale
  | localIncompatibleOrStale
deriving DecidableEq

/-- The running checksums. -/
def runningSums (hash : UInt32) : List UInt64 → List Bytes
  | [] => [checksumToBytes hash]
  | fork :: forks => checksumToBytes hash :: runningSums (checksumUpdate hash fork) forks

def timestampThreshold : UInt64 := 1438269973

def maxUint64 : UInt64 := 18446744073709551615

/-- What is compared with the fork at `i`. -/
def Head.at (head : Head) (blocks i : Nat) : UInt64 := if i ≥ blocks then head.time else head.number

/-- The rules of the filter, at the first fork that is not passed. -/
def rules (sums : List Bytes) (forks : List UInt64) (i : Nat) (head time : UInt64) (id : ID) :
    Except FilterError Unit :=
  if sums[i]? = some id.hash then
    if id.next > 0 ∧ (head ≥ id.next ∨ (id.next > timestampThreshold ∧ time ≥ id.next)) then
      .error .localIncompatibleOrStale
    else .ok ()
  else
    match (List.range i).find? fun j => sums[j]? = some id.hash with
    | some j => if forks[j]? ≠ some id.next then .error .remoteStale else .ok ()
    | none =>
      if (sums.drop (i + 1)).contains id.hash then .ok () else .error .localIncompatibleOrStale

/-- The loop of the filter; if even the sentry is passed, it accepts. -/
def filterLoop (sums : List Bytes) (forks : List UInt64) (blocks : Nat) (head : Head) (id : ID) :
    Nat → List UInt64 → Except FilterError Unit
  | _, [] => .ok ()
  | i, fork :: rest =>
    if head.at blocks i ≥ fork then filterLoop sums forks blocks head id (i + 1) rest
    else rules sums forks i (head.at blocks i) head.time id

/-- `newFilter`, at a head. -/
def newFilter (config : ChainConfig) (genesis : Genesis) (head : Head) (id : ID) :
    Except FilterError Unit :=
  let gathered := gatherForks config genesis.time
  let forks := gathered.byBlock ++ gathered.byTime
  let sums := runningSums (checksumIEEE genesis.hash.bytes) forks
  let blocks := if gathered.byTime.length = 0 then gathered.byBlock.length + 1
    else gathered.byBlock.length
  filterLoop sums (forks ++ [maxUint64]) blocks head id 0 (forks ++ [maxUint64])

/-! ## gathered forks -/

theorem dedupFrom_sorted {l : List UInt64} {prev : UInt64} (h : (prev :: l).Pairwise (· ≤ ·)) :
    (prev :: dedupFrom prev l).Pairwise (· < ·) := by
  induction l generalizing prev with
  | nil => simp [dedupFrom]
  | cons x l ih =>
    obtain ⟨hprev, hl⟩ := pairwise_cons.mp h
    rw [dedupFrom]
    split
    next heq =>
      subst heq
      exact ih hl
    next hne =>
      have hlt : prev < x := UInt64.lt_of_le_of_ne (hprev x mem_cons_self) (Ne.symm hne)
      have hrest := ih hl
      refine pairwise_cons.mpr ⟨fun y hy => ?_, hrest⟩
      obtain rfl | hy := mem_cons.mp hy
      · exact hlt
      · exact UInt64.lt_trans hlt ((pairwise_cons.mp hrest).1 y hy)

/-- The forks are gathered in ascending order, each once. -/
theorem dedup_sort_sorted (l : List UInt64) : (dedup (sort l)).Pairwise (· < ·) := by
  have hsorted : (sort l).Pairwise (· ≤ ·) := by
    have h : (sort l).Pairwise fun a b => decide (a ≤ b) = true :=
      pairwise_mergeSort
        (fun a b c hab hbc => by simp only [decide_eq_true_eq] at *; exact UInt64.le_trans hab hbc)
        (fun a b => by simpa using UInt64.le_total a b) l
    exact h.imp fun hab => by simpa using hab
  cases hl : sort l with
  | nil => simp [dedup]
  | cons x l => exact dedupFrom_sorted (hl ▸ hsorted)

/-- **The gathered forks** ascend. -/
theorem gatherForks_sorted (config : ChainConfig) (genesis : UInt64) :
    (gatherForks config genesis).byBlock.Pairwise (· < ·) ∧
    (gatherForks config genesis).byTime.Pairwise (· < ·) := by
  constructor
  · have h := dedup_sort_sorted (config.filterMap Field.block?)
    simp only [gatherForks]
    cases hl : dedup (sort (config.filterMap Field.block?)) with
    | nil => simp
    | cons fork forks =>
      rw [hl] at h
      simp only
      split
      · exact (pairwise_cons.mp h).2
      · exact h
  · exact (dedup_sort_sorted _).sublist (dropWhile_sublist _)

/-! ## the forks that a head has passed -/

/-- The number of forks that are passed before the first that is not. -/
def passed (head : Head) (blocks : Nat) : Nat → List UInt64 → Nat
  | _, [] => 0
  | i, fork :: forks => if fork ≤ head.at blocks i then passed head blocks (i + 1) forks + 1 else 0

variable {fork : UInt64} {forks : List UInt64} {head : Head} {i j k : Nat}

section Passed

variable {blocks : Nat}

theorem passed_le (i : Nat) (forks : List UInt64) : passed head blocks i forks ≤ forks.length := by
  induction forks generalizing i with
  | nil => simp [passed]
  | cons fork forks ih =>
    grind [passed]

/-- The first fork that is not passed is ahead of the head. -/
theorem not_passed (h : forks[passed head blocks i forks]? = some fork) :
    ¬ fork ≤ head.at blocks (i + passed head blocks i forks) := by
  induction forks generalizing i with
  | nil => simp at h
  | cons x forks ih =>
    rw [passed] at h ⊢
    split at h
    next hx =>
      rw [if_pos hx]
      have := ih (by simpa using h)
      rwa [show i + (passed head blocks (i + 1) forks + 1) = i + 1 + passed head blocks
        (i + 1) forks by omega]
    next hx =>
      rw [if_neg hx]
      obtain rfl : x = fork := by simpa using h
      exact hx

/-- Only what is compared with the forks matters. -/
theorem passed_congr {blocks' : Nat}
    (h : ∀ j, i ≤ j → j < i + forks.length → head.at blocks' j = head.at blocks j) :
    passed head blocks' i forks = passed head blocks i forks := by
  induction forks generalizing i with
  | nil => rfl
  | cons fork forks ih =>
    simp only [length_cons] at h
    rw [passed, passed, h i (le_refl i) (by omega), ih fun j hj hj' => h j (by omega) (by omega)]

/-- With the sentry behind the forks. -/
theorem passed_append (i : Nat) (forks : List UInt64) (x : UInt64) :
    passed head blocks i (forks ++ [x]) =
    if passed head blocks i forks = forks.length ∧
      x ≤ head.at blocks (i + forks.length) then forks.length + 1
    else passed head blocks i forks := by
  induction forks generalizing i with
  | nil => simp [passed]
  | cons fork forks ih =>
    rw [cons_append, passed, passed, ih]
    by_cases hx : fork ≤ head.at blocks i <;> grind

/-- The loop of the filter applies the rules at the first fork that is not passed. -/
theorem filterLoop_eq (sums : List Bytes) (all : List UInt64) (id : ID) (i : Nat)
    (forks : List UInt64) :
    filterLoop sums all blocks head id i forks =
      if passed head blocks i forks < forks.length then
        rules sums all (i + passed head blocks i forks)
          (head.at blocks (i + passed head blocks i forks)) head.time id
      else .ok () := by
  induction forks generalizing i with
  | nil => simp [filterLoop]
  | cons fork forks ih =>
    rw [filterLoop, passed]
    split
    next hx =>
      rw [ih (i + 1), show i + 1 + passed head blocks (i + 1) forks =
        i + (passed head blocks (i + 1) forks + 1) by omega]
      simp
    next hx => simp

/-- The identifier of a head, from the number of forks it has passed. -/
def idAt (hash : UInt32) (forks : List UInt64) (k : Nat) : ID :=
  ⟨checksumToBytes ((forks.take k).foldl checksumUpdate hash), forks[k]?.getD 0⟩

/-- The checksum is updated fork by fork. -/
theorem idAt_cons_succ (hash : UInt32) (fork : UInt64) (forks : List UInt64) (k : Nat) :
    idAt hash (fork :: forks) (k + 1) = idAt (checksumUpdate hash fork) forks k := by
  simp [idAt]

/-- The second loop of `NewID`. -/
theorem passForks_times (forks : List UInt64) (hash : UInt32) (hi : blocks ≤ i) :
    (match passForks head.time forks hash with
      | (hash, some fork) => (⟨checksumToBytes hash, fork⟩ : ID)
      | (hash, none) =>
        ⟨checksumToBytes hash, 0⟩) = idAt hash forks (passed head blocks i forks) := by
  induction forks generalizing hash i with
  | nil => simp [passForks, passed, idAt]
  | cons fork forks ih =>
    have hat : head.at blocks i = head.time := by simp [Head.at, hi]
    rw [passForks, passed, hat]
    by_cases hx : fork ≤ head.time
    · rw [if_pos hx, if_pos hx, idAt_cons_succ, ← ih _ (show blocks ≤ i + 1 by omega)]
    · simp [hx, idAt]

/-- Both loops of `NewID`. -/
theorem passForks_blocks (head : Head) (forks times : List UInt64) (hash : UInt32)
    (hi : i + forks.length = blocks) :
    (match passForks head.number forks hash with
      | (hash, some fork) => (⟨checksumToBytes hash, fork⟩ : ID)
      | (hash, none) =>
        match passForks head.time times hash with
        | (hash, some fork) => ⟨checksumToBytes hash, fork⟩
        | (hash, none) => ⟨checksumToBytes hash, 0⟩) =
      idAt hash (forks ++ times) (passed head blocks i (forks ++ times)) := by
  induction forks generalizing hash i with
  | nil => exact passForks_times times hash (show blocks ≤ i by simpa using hi.ge)
  | cons fork forks ih =>
    simp only [length_cons] at hi
    have hat : head.at blocks i = head.number := by
      simp [Head.at, if_neg (show ¬ i ≥ blocks by omega)]
    rw [passForks, cons_append, passed, hat]
    by_cases hx : fork ≤ head.number
    · rw [if_pos hx, if_pos hx, idAt_cons_succ,
        ← ih _ (show i + 1 + forks.length = blocks by omega)]
    · simp [hx, idAt]

end Passed

namespace Forks

/-- All forks, in the order of the filter. -/
def all (f : Forks) : List UInt64 := f.byBlock ++ f.byTime

/-- The number of forks that are compared with the block number, with the sentry if there are no
others. -/
def blocks (f : Forks) :
    Nat := if f.byTime.length = 0 then f.byBlock.length + 1 else f.byBlock.length

/-- The number of forks that the head has passed. -/
def passed (f : Forks) (head : Head) : Nat := ForkId.passed head f.blocks 0 f.all

/-- What the filter compares with its sentry. -/
def last (f : Forks) (head : Head) : UInt64 := head.at f.blocks f.all.length

/-- The time forks are later than the block forks. -/
def Follows (f : Forks) (head : Head) :
    Prop := (∃ t ∈ f.byTime, t ≤ head.time) → ∀ b ∈ f.byBlock, b ≤ head.number

variable (f : Forks) (head : Head)

variable {f head} in
theorem not_passed (h : f.all[f.passed head]? = some fork) :
    ¬ fork ≤ head.at f.blocks (f.passed head) := by
  simpa [passed] using ForkId.not_passed h

theorem length_all : f.all.length = f.byBlock.length + f.byTime.length := length_append

theorem passed_le : f.passed head ≤ f.all.length := ForkId.passed_le 0 f.all

/-- The sentry apart, the forks by block are compared with the number. -/
theorem at_blocks (h : j < f.all.length) : head.at f.blocks j = head.at f.byBlock.length j := by
  have := f.length_all
  grind [Head.at, blocks]

end Forks

/-- **The identifier** depends on the head by the forks it has passed. -/
theorem newID_eq (config : ChainConfig) (genesis : Genesis) (head : Head) :
    newID config genesis head = idAt (checksumIEEE genesis.hash.bytes)
      (gatherForks config genesis.time).all
      ((gatherForks config genesis.time).passed head) := by
  have h := passForks_blocks head (gatherForks config genesis.time).byBlock
    (gatherForks config genesis.time).byTime (checksumIEEE genesis.hash.bytes) (zero_add _)
  rwa [Forks.passed, passed_congr fun j _ hj => Forks.at_blocks _ head (by omega)]

/-- **The filter** depends on the head by the forks it has passed, unless even the sentry is passed.
-/
theorem newFilter_eq (config : ChainConfig) (genesis : Genesis) (head : Head) (id : ID) :
    newFilter config genesis head id =
      let f := gatherForks config genesis.time
      if f.passed head = f.all.length ∧ maxUint64 ≤ f.last head then .ok ()
      else rules (runningSums (checksumIEEE genesis.hash.bytes) f.all) (f.all ++ [maxUint64])
        (f.passed head)
        (head.at f.blocks (f.passed head)) head.time id := by
  generalize hf : gatherForks config genesis.time = f
  have hloop : newFilter config genesis head id =
      filterLoop (runningSums (checksumIEEE genesis.hash.bytes) f.all)
        (f.all ++ [maxUint64]) f.blocks head id 0
        (f.all ++ [maxUint64]) := by
    rw [newFilter, hf]
    rfl
  have hle := f.passed_le head
  have hpassed : passed head f.blocks 0 f.all = f.passed head := rfl
  rw [hloop, filterLoop_eq, passed_append, hpassed, zero_add]
  by_cases h : f.passed head = f.all.length ∧ maxUint64 ≤ f.last head
  · simp [h, show maxUint64 ≤ head.at f.blocks f.all.length from h.2]
  · rw [if_neg h, if_neg
      (show ¬ (f.passed head = f.all.length ∧ maxUint64 ≤ head.at f.blocks f.all.length) from h)]
    simp only [zero_add]
    rw [if_pos (by simp only [length_append, length_singleton]; omega)]

/-! ## comparing two heads -/

/-- The sums of the filter are the checksums after each fork. -/
theorem getElem?_runningSums (hash : UInt32) (forks : List UInt64) (k : Nat)
    (h : k ≤ forks.length) :
    (runningSums hash forks)[k]? = some (idAt hash forks k).hash := by
  induction forks generalizing hash k with
  | nil =>
    obtain rfl : k = 0 := by simpa using h
    rfl
  | cons fork forks ih =>
    cases k with
    | zero => rfl
    | succ k =>
      rw [idAt_cons_succ, ← ih _ _ (by simpa using h)]
      rfl

theorem length_runningSums (hash : UInt32) (forks : List UInt64) :
    (runningSums hash forks).length = forks.length + 1 := by
  induction forks generalizing hash with
  | nil => rfl
  | cons fork forks ih => simp [runningSums, ih]

theorem mem_drop_of_getElem? {l : List Bytes} {x : Bytes} (h : l[j]? = some x) (hle : k ≤ j) :
    x ∈ l.drop k := by
  refine mem_of_getElem? (i := j - k) ?_
  rw [getElem?_drop, show k + (j - k) = j by omega, h]

/-- A checksum that is not known is rejected. -/
theorem rules_of_not_mem {sums : List Bytes} {id : ID} (h : id.hash ∉ sums)
    (forks : List UInt64) (i : Nat)
    (head time : UInt64) : rules sums forks i head time id = .error .localIncompatibleOrStale := by
  have hne : ∀ j, sums[j]? ≠ some id.hash := fun j hj => h (mem_of_getElem? hj)
  have hfind : (List.range i).find? (fun j => decide (sums[j]? = some id.hash)) = none := by
    simp [hne]
  have hdrop : id.hash ∉ sums.drop (i + 1) := fun hmem => h (mem_of_mem_drop hmem)
  rw [rules, if_neg (hne i), hfind]
  simp [hdrop]

/-- **Two heads on the same forks**: the filter of one accepts the identifier of the other. -/
theorem rules_idAt {hash : UInt32} (hnodup : (runningSums hash forks).Nodup) {k' : Nat}
    (hk : k ≤ forks.length) (hk' : k' ≤ forks.length) {head time : UInt64}
    (hnext : ∀ fork, forks[k]? = some fork → ¬ fork ≤ head ∧
      (fork > timestampThreshold → ¬ fork ≤ time)) :
    rules (runningSums hash forks) (forks ++ [maxUint64]) k head time (idAt hash forks k') =
      .ok () := by
  have hget := getElem?_runningSums hash forks
  have hiff : ∀ j, (runningSums hash forks)[j]? = some (idAt hash forks k').hash ↔
      j = k' := fun j => by
    rw [← hget k' hk', eq_comm, getElem?_inj (by rw [length_runningSums]; omega) hnodup, eq_comm]
  simp only [rules, hiff]
  by_cases heq : k = k'
  · -- the same state: the next fork of the remote is the one that is not passed here
    subst heq
    rw [if_pos rfl]
    refine if_neg fun h => ?_
    cases hfork : forks[k]? with
    | none => simp [idAt, hfork] at h
    | some fork =>
      obtain ⟨hhead, htime⟩ := hnext fork hfork
      simp only [idAt, hfork, Option.getD_some] at h
      obtain ⟨-, h | h⟩ := h
      · exact hhead h
      · exact htime h.1 h.2
  · rw [if_neg heq]
    obtain hlt | hlt := Nat.lt_or_gt_of_ne heq
    · -- the remote is ahead
      have hfind : (List.range k).find? (fun j => decide (j = k')) = none := by
        simp only [find?_eq_none, mem_range, decide_eq_true_eq]
        omega
      have hmem : (idAt hash forks k').hash ∈ (runningSums hash forks).drop (k + 1) :=
        mem_drop_of_getElem? (hget k' hk') (by omega)
      rw [hfind]
      simp [hmem]
    · -- the remote is behind
      have hfork : k' < forks.length := by omega
      have hfind : (List.range k).find? (fun j => decide (j = k')) = some k' := by
        simp [find?_range_eq_some, hlt]
        omega
      simp [hfind, idAt, hfork, getElem?_append_left hfork]

/-- Forks at later places are later. -/
theorem lt_of_getElem? {l : List UInt64} (h : l.Pairwise (· < ·)) {x y : UInt64}
    (hx : l[i]? = some x) (hy : l[j]? = some y) (hij : i < j) : x < y := by
  grind [pairwise_iff_getElem]

namespace Forks

variable {f : Forks}

/-- A head that has passed a fork has passed those before it. -/
theorem lt_passed (hblock : f.byBlock.Pairwise (· < ·)) (htime : f.byTime.Pairwise (· < ·))
    (hfollows : f.Follows head) (hfork : f.all[i]? = some fork)
    (h : fork ≤ head.at f.byBlock.length i) :
    i < f.passed head := by
  by_contra hle
  have hi : i < f.all.length := index_lt hfork
  obtain ⟨x, hx⟩ : ∃ x, f.all[f.passed head]? = some x := ⟨_, getElem?_eq_getElem (by omega)⟩
  have hnot : ¬ x ≤ head.at f.byBlock.length (f.passed head) := by
    rw [← f.at_blocks head (by omega)]
    exact not_passed hx
  have hne : f.passed head ≠ i := by
    intro heq
    rw [heq] at hx hnot
    rw [hx, Option.some.injEq] at hfork
    exact hnot (hfork ▸ h)
  refine hnot ?_
  by_cases hi : i < f.byBlock.length
  · -- both are forks by block
    rw [all, getElem?_append_left hi] at hfork
    rw [all, getElem?_append_left (by omega)] at hx
    have hlt := lt_of_getElem? hblock hx hfork (by omega)
    rw [Head.at, if_neg (by omega)] at h ⊢
    exact UInt64.le_trans (UInt64.le_of_lt hlt) h
  · rw [all, getElem?_append_right (by omega)] at hfork
    rw [Head.at, if_pos (by omega)] at h
    by_cases hpassed : f.passed head < f.byBlock.length
    · -- all forks by block are before the forks by time
      rw [all, getElem?_append_left hpassed] at hx
      rw [Head.at, if_neg (by omega)]
      exact hfollows ⟨fork, mem_of_getElem? hfork, h⟩ x (mem_of_getElem? hx)
    · rw [all, getElem?_append_right (by omega)] at hx
      have hlt := lt_of_getElem? htime hx hfork (by omega)
      rw [Head.at, if_pos (by omega)]
      exact UInt64.le_trans (UInt64.le_of_lt hlt) h

/-- What the filter compares with the first fork that is not passed is below it. -/
theorem next_of_passed (hthreshold : ∀ b ∈ f.byBlock, b < timestampThreshold)
    (hfork : f.all[f.passed head]? = some fork) :
    ¬ fork ≤ head.at f.blocks (f.passed head) ∧
      (fork > timestampThreshold → ¬ fork ≤ head.time) := by
  have hnot := not_passed hfork
  refine ⟨hnot, fun hlarge => ?_⟩
  have hlt : f.passed head < f.all.length := index_lt hfork
  have htime : f.byBlock.length ≤ f.passed head := by
    by_contra hblock
    rw [all, getElem?_append_left (by omega)] at hfork
    exact UInt64.lt_irrefl _ (UInt64.lt_trans hlarge (hthreshold fork (mem_of_getElem? hfork)))
  have hat := f.at_blocks head hlt
  rw [Head.at, Head.at, if_pos htime] at hat
  exact fun h => hnot (by rw [passed, Head.at] at *; rwa [hat])

end Forks

/-- The first of two lists of forks that differ behind `pre` has none of the checksums that the
second has behind it. -/
theorem not_mem_runningSums {hash : UInt32} {forks' pre rest rest' : List UInt64} {a a' : UInt64}
    (hforks : forks = pre ++ a :: rest) (hforks' : forks' = pre ++ a' :: rest')
    (hnodup' : (runningSums hash forks').Nodup)
    (hdisjoint : ((runningSums hash forks).drop (pre.length + 1)).Disjoint
      ((runningSums hash forks').drop (pre.length + 1)))
    (hpre : pre.length < k) (hk : k ≤ forks'.length) :
    (idAt hash forks' k).hash ∉ runningSums hash forks := by
  intro hmem
  obtain ⟨j, hj⟩ := mem_iff_getElem?.mp hmem
  have hjlen : j < forks.length + 1 := by
    rw [← length_runningSums hash forks]
    exact index_lt hj
  have hget := getElem?_runningSums hash forks' k hk
  by_cases hle : j ≤ pre.length
  · -- in the part that both have
    have hsame : idAt hash forks j = ⟨(idAt hash forks' j).hash, (idAt hash forks j).next⟩ := by
      rw [idAt, idAt, hforks, hforks', take_append_of_le_length hle, take_append_of_le_length hle]
    have hj' : (runningSums hash forks')[j]? = some (idAt hash forks' k).hash := by
      rw [getElem?_runningSums hash forks' j (by omega), ← hj,
        getElem?_runningSums hash forks j (by omega), hsame]
    have heq := (getElem?_inj (by rw [length_runningSums]; omega) hnodup').mp (hj'.trans hget.symm)
    omega
  · exact hdisjoint (mem_drop_of_getElem? hj (by omega)) (mem_drop_of_getElem? hget (by omega))

/-- Behind the first fork in which the lists differ, a filter rejects the identifier of the other.
-/
theorem newFilter_differs {config config' : ChainConfig} {genesis : Genesis} {f f' : Forks}
    (hf : gatherForks config genesis.time = f) (hf' : gatherForks config' genesis.time = f')
    {pre rest rest' : List UInt64} {a a' : UInt64} (hforks : f.all = pre ++ a :: rest)
    (hforks' : f'.all = pre ++ a' :: rest')
    (hnodup' : (runningSums (checksumIEEE genesis.hash.bytes) f'.all).Nodup)
    (hdisjoint : ((runningSums (checksumIEEE genesis.hash.bytes) f.all).drop
      (pre.length + 1)).Disjoint
      ((runningSums (checksumIEEE genesis.hash.bytes) f'.all).drop (pre.length + 1))) {head' : Head}
    (hfollows' : f'.Follows head') (hpassed' : a' ≤ head'.at f'.byBlock.length pre.length)
    (hlast : ¬ maxUint64 ≤ f.last head) :
    newFilter config genesis head (newID config' genesis head') =
      .error .localIncompatibleOrStale := by
  obtain ⟨hblock', htime'⟩ := gatherForks_sorted config' genesis.time
  rw [hf'] at hblock' htime'
  have hlt' := Forks.lt_passed hblock' htime' hfollows' (by simp [hforks']) hpassed'
  rw [newFilter_eq, newID_eq, hf, hf']
  rw [if_neg fun h => hlast h.2]
  exact rules_of_not_mem
    (not_mem_runningSums hforks hforks' hnodup' hdisjoint hlt' (f'.passed_le head')) _ _ _ _

/-- **Fork identifiers.**  If the running checksums differ, heads on the same forks accept each
other.  Heads on lists of forks that differ reject each other behind the first different fork, if
the filter's own head is not at the sentry. -/
theorem filter_spec {config : ChainConfig} {genesis : Genesis} {f : Forks}
    (hf : gatherForks config genesis.time = f)
    (hthreshold : ∀ b ∈ f.byBlock, b < timestampThreshold)
    (hnodup : (runningSums (checksumIEEE genesis.hash.bytes) f.all).Nodup) :
    (∀ head head', newFilter config genesis head (newID config genesis head') = .ok ()) ∧
      ∀ (config' : ChainConfig) (f' : Forks) (pre rest rest' : List UInt64) (a a' : UInt64),
        gatherForks config' genesis.time = f' → f.all = pre ++ a :: rest →
          f'.all = pre ++ a' :: rest' →
        (runningSums (checksumIEEE genesis.hash.bytes) f'.all).Nodup →
        ((runningSums (checksumIEEE genesis.hash.bytes) f.all).drop (pre.length + 1)).Disjoint
          ((runningSums (checksumIEEE genesis.hash.bytes) f'.all).drop (pre.length + 1)) →
        ∀ head head' : Head, f.Follows head → f'.Follows head' →
          a ≤ head.at f.byBlock.length pre.length → a' ≤ head'.at f'.byBlock.length pre.length →
          (f.last head < maxUint64 →
            newFilter config genesis head (newID config' genesis head') =
              .error .localIncompatibleOrStale) ∧ (f'.last head' < maxUint64 →
            newFilter config' genesis head' (newID config genesis head) =
              .error .localIncompatibleOrStale) := by
  refine ⟨fun head head' => ?_, ?_⟩
  · rw [newFilter_eq, newID_eq, hf]
    simp only
    split
    next => rfl
    next =>
      exact rules_idAt hnodup (f.passed_le head) (f.passed_le head') fun fork hfork =>
        Forks.next_of_passed hthreshold hfork
  · intro config' f' pre rest rest' a a' hf' hforks hforks' hnodup' hdisjoint head head' hfollows
      hfollows' hpassed hpassed'
    exact ⟨fun hlast => newFilter_differs hf hf' hforks hforks' hnodup' hdisjoint hfollows' hpassed'
      (UInt64.not_le.mpr hlast), fun hlast =>
        newFilter_differs hf' hf hforks' hforks hnodup
          (fun _ h h' => hdisjoint h' h) hfollows hpassed (UInt64.not_le.mpr hlast)⟩

/-- A configuration with one fork by block. -/
def sampleConfig (fork : Int) :
    ChainConfig := [⟨"ChainID", .bigInt (some 1)⟩, ⟨"ForkBlock", .bigInt (some fork)⟩]

def sampleGenesis : Genesis := ⟨Hash.zero, 0⟩

theorem gatherForks_sampleConfig :
    gatherForks (sampleConfig 1) 0 = ⟨[1], []⟩ ∧ gatherForks (sampleConfig 2) 0 = ⟨[2], []⟩ := by
  decide +kernel

theorem filter_sample :
    (∀ head head', newFilter (sampleConfig 1) sampleGenesis head
      (newID (sampleConfig 1) sampleGenesis head') = .ok ()) ∧
      newFilter (sampleConfig 1) sampleGenesis ⟨5, 0⟩
        (newID (sampleConfig 2) sampleGenesis ⟨6, 0⟩) =
        .error .localIncompatibleOrStale := by
  have h := filter_spec
      (show gatherForks (sampleConfig 1) sampleGenesis.time = _ from gatherForks_sampleConfig.1)
    (by simp [timestampThreshold]) (by decide +kernel)
  have hdisjoint : ∀ x ∈ (runningSums (checksumIEEE sampleGenesis.hash.bytes) [1]).drop 1,
      x ∉ (runningSums (checksumIEEE sampleGenesis.hash.bytes) [2]).drop 1 := by decide +kernel
  refine ⟨h.1, (h.2 (sampleConfig 2) ⟨[2], []⟩ [] [] [] 1 2 gatherForks_sampleConfig.2 rfl rfl
    (by decide +kernel)
    hdisjoint ⟨5, 0⟩ ⟨6, 0⟩ (by simp [Forks.Follows]) (by simp [Forks.Follows]) (by decide)
      (by decide)).1 (by decide)⟩

/-- **At the sentry**, a filter accepts every identifier. -/
theorem filter_at_sentry :
    (gatherForks (sampleConfig 1) sampleGenesis.time).all = [] ++ 1 :: [] ∧
      (gatherForks (sampleConfig 2) sampleGenesis.time).all = [] ++ 2 :: [] ∧
      (runningSums (checksumIEEE sampleGenesis.hash.bytes) [1] ++
        (runningSums (checksumIEEE sampleGenesis.hash.bytes) [2]).drop 1).Nodup ∧
      newFilter (sampleConfig 1) sampleGenesis ⟨maxUint64, 0⟩
        (newID (sampleConfig 2) sampleGenesis ⟨6, 0⟩) = .ok () := by
  decide +kernel

end GoQrl.ForkId
