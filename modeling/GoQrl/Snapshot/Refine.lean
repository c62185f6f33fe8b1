import GoQrl.Snapshot.Cap

/-!
# GoQrl.Snapshot.Refine

The tree of snapshots over runs of `Update`, `Cap` and reads.

The states of the roots are tracked next to the tree: an update applies its changes to the state of
its parent.  If `Cap` never merges a layer on which another layer of the tree stands, then every
layer of the tree answers with the values of its state, except for keys that the generator has not
covered (`reads_of_alone`).  Without this condition a layer can stay in the tree on a stale one
(`stale_layer`).
-/

namespace GoQrl.Snapshot

open Overlay List Function
open State (GoMap lookup_insert_cases)

/-- What happens to a tree. -/
inductive Op
  /-- `Update` -/
  | update (blockRoot parentRoot : Hash) (destructs : GoMap Hash Unit) (accounts : GoMap Hash Bytes)
      (storage : GoMap Hash (GoMap Hash Bytes))
  /-- `Cap` -/
  | cap (root : Hash) (layers : Int)
  /-- `AccountRLP` or `Storage` of `Snapshot(root)` -/
  | read (root : Hash) (key : Key)
  /-- The cache drops what is not to be kept. -/
  | evict (keep : Bytes → Bool)

/-- The root that an update makes. -/
def Op.newRoot? : Op → Option Hash
  | .update blockRoot _ _ _ _ => some blockRoot
  | _ => none

/-- The states after a call: those of the other roots stay. -/
def Op.track (st : States) : Op → States
  | .update blockRoot parentRoot destructs accounts storage =>
    match st parentRoot with
    | none => st
    | some s => Function.update st blockRoot
      (some (apply (updateChange destructs accounts storage) s))
  | _ => st

theorem Op.track_update_of_ne (st : States) {r blockRoot : Hash} (hne : r ≠ blockRoot)
    (parentRoot : Hash) (destructs : GoMap Hash Unit) (accounts : GoMap Hash Bytes)
    (storage : GoMap Hash (GoMap Hash Bytes)) :
    (Op.update blockRoot parentRoot destructs accounts storage).track st r = st r := by
  cases hs : st parentRoot with
  | none => simp [Op.track, hs]
  | some s =>
    simp only [Op.track, hs]
    exact update_of_ne hne _ _

namespace Tree

variable {F : Type} [Bloom F]

/-- The tree after a call. -/
def step (t : Tree F) : Op → Tree F
  | .update blockRoot parentRoot destructs accounts storage =>
    (t.update blockRoot parentRoot destructs accounts storage).2
  | .cap root layers => (t.cap root layers).2
  | .read root key =>
    match t.layers.lookup root with
    | none => t
    | some ptr => (t.read ptr key).2
  | .evict keep => { t with cache := fun k => if keep k then t.cache k else none }

/-- Whether a call merges no layer on which another layer of the tree stands. -/
def alone (t : Tree F) : Op → Bool
  | .cap root layers => t.capsAlone root layers
  | _ => true

/-- Whether this holds of all calls of a run. -/
def aloneRun : Tree F → List Op → Bool
  | _, [] => true
  | t, op :: ops => t.alone op && aloneRun (t.step op) ops

/-- There is only a disk layer, which has the state as far as its marker says. -/
structure Fresh (t : Tree F) (dk : DiskLayer) (s : State) : Prop where
  heap : t.heap = [.disk dk]
  live : dk.stale = false
  layers : t.layers = (∅ : GoMap Hash Nat).insert dk.root 0
  ok : t.DiskOK dk.genMarker s

end Tree

/-- The states at the start. -/
def startStates (root : Hash) (s : State) : States := Function.update (fun _ => none) root (some s)

section

variable {F : Type} {t : Tree F} {st : States} {rank : Nat → Nat} {base : Nat} {dk : DiskLayer}

/-! ## one call -/

/-- Only the states of the roots in the tree matter. -/
theorem Shape.congr_states (h : Shape t st rank base dk) {st' : States}
    (hsame : ∀ r p, t.layers.lookup r = some p → st' r = st r) : Shape t st' rank base dk := by
  obtain ⟨s0, hs0, hok⟩ := h.content
  refine ⟨h.disk, h.live, h.bottom, h.only, ⟨s0, (hsame _ _ h.bottom).trans hs0, hok⟩,
    fun r p hr hp => ?_, h.ranks, h.apart⟩
  obtain ⟨e, hptr, rfl, he⟩ := h.diffs r p hr hp
  obtain ⟨q, s, hq, hqroot, hs, hst⟩ := he.parent
  exact ⟨e, hptr, rfl, he.toInTree, he.lower, q, s, hq, hqroot, (hsame _ _ hqroot).trans hs,
    (hsame _ _ he.lookup).trans hst⟩

/-- The cache may change, as long as it is right. -/
theorem Shape.with_cache (h : Shape t st rank base dk) {cache : Bytes → Option Bytes} {s0 : State}
    (hs0 : st dk.root = some s0) (hok : Tree.DiskOK dk.genMarker { t with cache := cache } s0) :
    Shape { t with cache := cache } st rank base dk := by
  have hin : ∀ {e : Entry F}, InTree { t with cache := cache } e ↔ InTree t e := fun {e} =>
    ⟨fun he => ⟨he.lookup, { he.entry with }⟩, fun he => ⟨he.lookup, { he.entry with }⟩⟩
  refine ⟨h.disk, h.live, h.bottom, h.only, ⟨s0, hs0, hok⟩, fun r p hr hp => ?_, h.ranks,
    fun e e' he he' => h.apart e e' (hin.mp he) (hin.mp he')⟩
  obtain ⟨e, hptr, hroot, he⟩ := h.diffs r p hr hp
  exact ⟨e, hptr, hroot, hin.mpr he.toInTree, he.lower, he.parent⟩

variable [Bloom F]

theorem Blooms.congr_states (hbloom : Blooms t st base dk) (h : Shape t st rank base dk)
    {st' : States}
    (hsame : ∀ r p, t.layers.lookup r = some p → st' r = st r) : Blooms t st' base dk := by
  intro e he
  have he' := hbloom e he
  refine ⟨he'.origin, fun s s0 hs hs0 => ?_⟩
  rw [hsame _ _ he.lookup] at hs
  rw [hsame _ _ h.bottom] at hs0
  exact he'.hits s s0 hs hs0

theorem Blooms.with_cache (hbloom : Blooms t st base dk) (cache : Bytes → Option Bytes) :
    Blooms { t with cache := cache } st base dk :=
  fun e he => hbloom e ⟨he.lookup, { he.entry with }⟩

/-- The tree is in order, with this marker of the generator. -/
def InOrder (t : Tree F) (st : States) (marker : Option Bytes) : Prop :=
  ∃ rank base dk, dk.genMarker = marker ∧ Shape t st rank base dk ∧ Blooms t st base dk

variable {marker : Option Bytes}

theorem inOrder_update (h : InOrder t st marker) {blockRoot : Hash} (hfresh : st blockRoot = none)
    (parentRoot : Hash) (destructs : GoMap Hash Unit) (accounts : GoMap Hash Bytes)
    (storage : GoMap Hash (GoMap Hash Bytes)) :
    InOrder (t.step (.update blockRoot parentRoot destructs accounts storage))
      ((Op.update blockRoot parentRoot destructs accounts storage).track st) marker := by
  obtain ⟨rank, base, dk, hmarker, hshape, hbloom⟩ := h
  have hnot : t.layers.lookup blockRoot = none := by
    cases hr : t.layers.lookup blockRoot with
    | none => rfl
    | some p =>
      obtain ⟨s, hs⟩ := hshape.state hr
      simp [hfresh] at hs
  cases hparent : t.layers.lookup parentRoot with
  | none =>
    -- nothing happens, and a state may be tracked for a root that is not in the tree
    have hsame : ∀ r p, t.layers.lookup r = some p →
        (Op.update blockRoot parentRoot destructs accounts storage).track st r = st r := by
      intro r p hr
      refine Op.track_update_of_ne st (fun heq => ?_) parentRoot destructs accounts storage
      rw [heq, hnot] at hr
      cases hr
    have hstep : t.step (.update blockRoot parentRoot destructs accounts storage) = t := by
      by_cases heq : blockRoot = parentRoot
      · simp [Tree.step, Tree.update, if_pos heq]
      · simp [Tree.step, Tree.update, if_neg heq, hparent]
    rw [hstep]
    exact ⟨rank, base, dk, hmarker, hshape.congr_states hsame, hbloom.congr_states hshape hsame⟩
  | some p =>
    obtain ⟨s, hs⟩ := hshape.state hparent
    obtain ⟨t', rank', hupdate, hshape', hbloom'⟩ :=
      hshape.update hbloom hparent hs hnot destructs accounts storage
    simp only [Op.track, hs, Tree.step, hupdate]
    exact ⟨rank', base, dk, hmarker, hshape', hbloom'⟩

/-- **One call** keeps the tree in order. -/
theorem inOrder_step (h : InOrder t st marker) {op : Op} (hfresh : ∀ r, op.newRoot? = some r →
    st r = none)
    (halone : t.alone op = true) : InOrder (t.step op) (op.track st) marker := by
  cases op with
  | update blockRoot parentRoot destructs accounts storage =>
    exact inOrder_update h (hfresh _ rfl) parentRoot destructs accounts storage
  | cap root layers =>
    obtain ⟨rank, base, dk, hmarker, hshape, hbloom⟩ := h
    obtain ⟨-, rank', base', dk', hmarker', hshape', hbloom'⟩ := cap_spec hshape hbloom halone
    exact ⟨rank', base', dk', hmarker'.trans hmarker, hshape', hbloom'⟩
  | read root key =>
    cases hr : t.layers.lookup root with
    | none =>
      simp only [Tree.step, hr]
      exact h
    | some p =>
      obtain ⟨rank, base, dk, hmarker, hshape, hbloom⟩ := h
      obtain ⟨s, hs⟩ := hshape.state hr
      obtain ⟨-, cache, s0, hread, hs0, hok⟩ := read_spec hshape hbloom hr hs key
      simp only [Tree.step, hr, hread]
      exact ⟨rank, base, dk, hmarker, hshape.with_cache hs0 hok, hbloom.with_cache cache⟩
  | evict keep =>
    obtain ⟨rank, base, dk, hmarker, hshape, hbloom⟩ := h
    obtain ⟨s0, hs0, hok⟩ := hshape.content
    refine ⟨rank, base, dk, hmarker,
      hshape.with_cache hs0 ⟨hok.disk, fun key hcov blob hblob => ?_⟩, hbloom.with_cache _⟩
    change (if keep key.bytes then t.cache key.bytes else none) = some blob at hblob
    split at hblob
    · exact hok.cache key hcov blob hblob
    · cases hblob

/-! ## runs -/

theorem track_fresh {used : List Hash} {op : Op} (hused : ∀ r, r ∉ used → st r = none) {r : Hash}
    (hr : r ∉ used ++ op.newRoot?.toList) : op.track st r = none := by
  rw [mem_append, not_or] at hr
  cases op with
  | update blockRoot parentRoot destructs accounts storage =>
    have hne : r ≠ blockRoot := by simpa [Op.newRoot?] using hr.2
    exact (Op.track_update_of_ne st hne parentRoot destructs accounts storage).trans (hused r hr.1)
  | cap | read | evict => exact hused r hr.1

/-- **A run** keeps the tree in order. -/
theorem inOrder_run (h : InOrder t st marker) {used : List Hash} (hused : ∀ r, r ∉ used →
    st r = none) {ops : List Op}
    (hroots : (used ++ ops.filterMap Op.newRoot?).Nodup) (halone : t.aloneRun ops = true) :
    InOrder (ops.foldl Tree.step t) (ops.foldl Op.track st) marker := by
  induction ops generalizing t st used with
  | nil => exact h
  | cons op ops ih =>
    rw [Tree.aloneRun, Bool.and_eq_true] at halone
    have hsplit : (op :: ops).filterMap Op.newRoot? = op.newRoot?.toList ++
        ops.filterMap Op.newRoot? := by
      cases hop : op.newRoot? <;> simp [hop]
    rw [hsplit, ← append_assoc] at hroots
    have hfresh : ∀ r, op.newRoot? = some r → st r = none := by
      intro r hr
      refine hused r fun hmem => ?_
      exact ((nodup_append.mp (nodup_append.mp hroots).1).2.2 r hmem r
        (by rw [hr]; exact mem_singleton_self r)) rfl
    exact ih (inOrder_step h hfresh halone.1) (fun r hr => track_fresh hused hr) hroots halone.2

theorem Tree.Fresh.inOrder {s : State} (h : t.Fresh dk s) :
    InOrder t (startStates dk.root s) dk.genMarker := by
  have hone : ∀ {r p}, t.layers.lookup r = some p → r = dk.root ∧ p = 0 := by
    intro r p hr
    rw [h.layers] at hr
    exact (lookup_insert_cases hr).resolve_right nofun
  have hdisk : t.heap[0]? = some (.disk dk) := by rw [h.heap]; rfl
  have hnone : ∀ {e : Entry F}, ¬InTree t e := by
    intro e he
    have hheap := he.entry.heap
    simp [(hone he.lookup).2, hdisk] at hheap
  refine ⟨fun _ => 0, 0, dk, rfl,
    ⟨hdisk, h.live, ?_, fun r hr => (hone hr).1, ⟨s, update_self _ _ _, h.ok⟩,
    fun r p hr hp => absurd (hone hr).2 hp, fun r p hr => ?_, fun e e' he => absurd he hnone⟩,
      fun e he => absurd he hnone⟩
  · rw [h.layers]
    exact AList.lookup_insert _
  · rw [h.heap]
    exact Nat.zero_lt_one

/-- **Every layer of the tree answers with the values of its state**, or the generator has not
covered the key, when `Cap` merges no layer on which another layer of the tree stands. -/
theorem reads_of_alone {s₀ : State} (hstart : t.Fresh dk s₀) {ops : List Op}
    (hroots : (dk.root :: ops.filterMap Op.newRoot?).Nodup)
    (halone : t.aloneRun ops = true) {r : Hash} {p : Nat}
    (hr : (ops.foldl Tree.step t).layers.lookup r = some p) :
    ∃ s, ops.foldl Op.track (startStates dk.root s₀) r = some s ∧
      ∀ key, ((ops.foldl Tree.step t).read p key).1 = .ok (s key) ∨
        covered dk.genMarker key.bytes = false ∧
          ((ops.foldl Tree.step t).read p key).1 = .error .notCovered := by
  have hused : ∀ r, r ∉ [dk.root] → startStates dk.root s₀ r = none := fun r hr =>
    update_of_ne (by simpa using hr) _ _
  obtain ⟨rank, base, dk', hmarker, hshape, hbloom⟩ :=
    inOrder_run hstart.inOrder hused hroots halone
  obtain ⟨s, hs⟩ := hshape.state hr
  refine ⟨s, hs, fun key => ?_⟩
  rw [← hmarker]
  exact (read_spec hshape hbloom hr hs key).1

end

/-! ## filters that are exact -/

instance : Bloom (List BloomKey) where
  new := []
  add f k := k :: f
  contains f k := f.contains k
  contains_add f k := by simp
  contains_of f k k' h := by simpa using .inr (by simpa using h)

def sampleRoot (k : Nat) : Hash := Hash.ofHead (byte k)

def sampleDisk : DiskLayer := ⟨sampleRoot 0, false, none, false⟩

/-- A disk layer without accounts. -/
def sampleTree : Tree (List BloomKey) where
  heap := [.disk sampleDisk]
  data := []
  slots := []
  layers := (∅ : GoMap Hash Nat).insert (sampleRoot 0) 0
  diskdb := fun _ => none
  cache := fun _ => none

theorem fresh_sampleTree : sampleTree.Fresh sampleDisk (fun _ => []) :=
  ⟨rfl, rfl, rfl, fun _ _ => rfl, fun _ _ _ h => by cases h⟩

/-- An account is made in the first of three layers, and the lower two are merged. -/
def sampleCalls : List Op :=
  [.update (sampleRoot 1) (sampleRoot 0) ∅ ((∅ : GoMap Hash Bytes).insert (sampleRoot 9) [7]) ∅,
    .update (sampleRoot 2) (sampleRoot 1) ∅ ∅ ∅, .update (sampleRoot 3) (sampleRoot 2) ∅ ∅ ∅,
      .cap (sampleRoot 3) 1]

theorem lookup_sampleCalls :
    (sampleCalls.foldl Tree.step sampleTree).layers.lookup (sampleRoot 3) = some 3 := by
  decide +kernel

theorem reads_of_alone_sample :
    (sampleCalls.foldl Tree.step sampleTree).layers.lookup (sampleRoot 3) = some 3 ∧
      ∃ s, sampleCalls.foldl Op.track (startStates sampleDisk.root fun _ => [])
        (sampleRoot 3) = some s ∧
        ∀ key, ((sampleCalls.foldl Tree.step sampleTree).read 3 key).1 = .ok (s key) ∨
          covered sampleDisk.genMarker key.bytes = false ∧
            ((sampleCalls.foldl Tree.step sampleTree).read 3 key).1 = .error .notCovered :=
  ⟨lookup_sampleCalls,
    reads_of_alone fresh_sampleTree (by decide +kernel) (by decide +kernel) lookup_sampleCalls⟩

/-- Two layers on the second one, of which one is cut off; then `Cap` is called for the other. -/
def siblingCalls : List Op :=
  [.update (sampleRoot 1) (sampleRoot 0) ∅ ((∅ : GoMap Hash Bytes).insert (sampleRoot 9) [7]) ∅,
    .update (sampleRoot 2) (sampleRoot 1) ∅ ∅ ∅, .update (sampleRoot 3) (sampleRoot 2) ∅ ∅ ∅,
    .update (sampleRoot 4) (sampleRoot 2) ∅ ∅ ∅, .cap (sampleRoot 3) 1]

/-- A slot is written in the second layer and again in the third, and both are merged into the
first. -/
def slotCalls : List Op :=
  let slot (value : Bytes) : GoMap Hash (GoMap Hash Bytes) :=
    (∅ : GoMap Hash (GoMap Hash Bytes)).insert (sampleRoot 9)
      ((∅ : GoMap Hash Bytes).insert (sampleRoot 8) value)
  [.update (sampleRoot 1) (sampleRoot 0) ∅ ∅ ∅,
    .update (sampleRoot 2) (sampleRoot 1) ∅ ∅ (slot [1]),
    .update (sampleRoot 3) (sampleRoot 2) ∅ ∅ (slot [2]),
      .update (sampleRoot 4) (sampleRoot 3) ∅ ∅ ∅]

/-- **A sibling of the layer that was cut off** stays in the tree; a `Cap` for it succeeds, and it
answers that it is stale.  A layer that was merged and is still held answers with a value of a later
state. -/
theorem stale_layer :
    sampleTree.Fresh sampleDisk (fun _ => []) ∧
      ((sampleDisk.root :: siblingCalls.filterMap Op.newRoot?).Nodup ∧
        ((siblingCalls.foldl Tree.step sampleTree).cap (sampleRoot 4) 5).1 = .ok () ∧
        ((siblingCalls.foldl Tree.step sampleTree).cap (sampleRoot 4) 5).2.layers.lookup
        (sampleRoot 4) = some 4 ∧
        (((siblingCalls.foldl Tree.step sampleTree).cap (sampleRoot 4) 5).2.read 4
          (.account (sampleRoot 9))).1 =
          .error .stale) ∧
      (sampleDisk.root :: slotCalls.filterMap Op.newRoot?).Nodup ∧
        (slotCalls.foldl Tree.step sampleTree).layers.lookup (sampleRoot 2) = some 2 ∧
        ((slotCalls.foldl Tree.step sampleTree).read 2 (.slot (sampleRoot 9) (sampleRoot 8))).1 =
          .ok [1] ∧ (((slotCalls.foldl Tree.step sampleTree).cap (sampleRoot 4) 1).2.read 2
          (.slot (sampleRoot 9) (sampleRoot 8))).1 =
          .ok [2] :=
  ⟨fresh_sampleTree,
    ⟨by decide +kernel, by decide +kernel, by decide +kernel, by decide +kernel⟩, by decide +kernel,
    by decide +kernel, by decide +kernel, by decide +kernel⟩

end GoQrl.Snapshot
