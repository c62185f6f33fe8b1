import GoQrl.Chain.SetHead

/-!
# GoQrl.Chain.Finality

The finalized and the safe block under a rewind: `SetHead` and `SetHeadWithTimestamp` of
`core/blockchain.go` with the markers, and the timestamp mode of `setHead` of `core/headerchain.go`.

The markers lie over the chain of `GoQrl.Chain.Rewind`, which a rewind changes without looking at
them.  They are judged by the requested number, which is zero for a rewind by time, and not by the
block where the rewind stops: `FinalState.rewind_markers` says when this makes no difference.  The
time of a header is a parameter.
-/

namespace GoQrl.Chain

namespace ChainState

variable {σ : Type} {genesis : Block} (sdb : StateDatabase σ genesis) (time : Header → Nat)

/-- The loop of `HeaderChain.setHead` with a target time; once a wipe passes it, the loop goes on
with the number of the head block. -/
def rewindHeadersByTime (frozen headTime : Nat) :
    Nat → ChainState σ → Bool → Writes → Except RewindError (ChainState σ × Writes)
  | 0, _, _, _ => .error .outOfFuel
  | fuel + 1, bc, origin, batch =>
    if time bc.currentHeader ≤ headTime then .ok (bc, batch)
    else
      match rewindHeader sdb bc frozen 0 origin with
      | .error e => .error e
      | .ok (bc', _, dels) =>
        if bc'.wipe frozen && decide (time bc'.currentBlock < headTime) then
          rewindHeaders sdb frozen fuel bc' bc'.currentBlock.number false (batch ++ dels)
        else rewindHeadersByTime frozen headTime fuel bc' false (batch ++ dels)

/-- `HeaderChain.SetHeadWithTimestamp`; a time before genesis is refused. -/
def setHeadersWithTimestamp (bc : ChainState σ) (headTime : Nat) :
    Except RewindError (ChainState σ) :=
  if headTime < time genesis.header then .error .crit
  else
    match rewindHeadersByTime sdb time bc.db.ancients.length headTime
      (bc.currentHeader.number + 1) bc true [] with
    | .error e => .error e
    | .ok (bc', batch) => .ok { bc' with db := bc'.db.write batch }

variable {sdb} {bc bc₀ : ChainState σ} {c : Nat → Header} {batch : Writes} {origin : Bool}

/-- **The loop by time** stops, or the state database fails. -/
theorem rewindHeadersByTime_spec (frozen : Nat) {headTime fuel : Nat}
    (h : Consistent genesis bc₀ c) (hgenesis : time genesis.header ≤ headTime)
    (hr : Rewinding sdb bc₀ bc c batch) (hfuel : bc.currentHeader.number < fuel)
    (horigin : origin = true ↔ bc.currentHeader.number = bc₀.currentHeader.number) :
    CritOr (rewindHeadersByTime sdb time frozen headTime fuel bc origin batch) fun r =>
      Rewinding sdb bc₀ r.1 c r.2 := by
  induction fuel generalizing bc origin batch with
  | zero => omega
  | succ fuel ih =>
    rw [rewindHeadersByTime]
    split
    · exact .inr ⟨_, rfl, hr⟩
    next hgo =>
      have hne : bc.currentHeader.number ≠ 0 := by
        intro h0
        rw [hr.header, h0, h.first] at hgo
        exact hgo hgenesis
      obtain ⟨i, hi⟩ := Nat.exists_eq_succ_of_ne_zero hne
      obtain hround | ⟨⟨bc', target, dels⟩, hround, -, hnumber, hr'⟩ :=
        rewindHeader_spec frozen 0 h hr hi (by rw [horigin, hi])
      · rw [hround]
        exact .inl rfl
      · rw [hround]
        have hle := hr.le
        dsimp only at hnumber hr' ⊢
        have horigin' : false = true ↔ bc'.currentHeader.number = bc₀.currentHeader.number := by
          simp only [Bool.false_eq_true, false_iff]
          omega
        split
        · exact (rewindHeaders_spec h hr' (by omega) horigin').mono fun r hr'' => hr''.2
        · exact ih hr' (by omega) horigin'

theorem setHeadersWithTimestamp_spec (headTime : Nat) (h : Consistent genesis bc c) :
    CritOr (setHeadersWithTimestamp sdb time bc headTime) fun r =>
      ∃ bc' batch, r = { bc' with db := bc'.db.write batch } ∧ Rewinding sdb bc bc' c batch := by
  rw [setHeadersWithTimestamp]
  split
  · exact .inl rfl
  next hgenesis =>
    obtain hloop | ⟨⟨bc', batch⟩, hloop, hr⟩ :=
      rewindHeadersByTime_spec time bc.db.ancients.length h (not_lt.mp hgenesis)
        (h.rewinding sdb) (Nat.lt_succ_self _) (iff_of_true (rfl : true = true) rfl)
    · rw [hloop]
      exact .inl rfl
    · rw [hloop]
      exact .inr ⟨_, rfl, bc', batch, rfl, hr⟩

/-- A header is of the chain, at or below the head block. -/
def onChain (bc : ChainState σ) (b : Header) : Bool :=
  decide (b.number ≤ bc.currentBlock.number) && decide (bc.db.readCanonicalHash b.number = b.hash)

end ChainState

/-- A chain with its finality markers, and the stored hash of the finalized block: zero if there is
none. -/
structure FinalState (σ : Type) where
  chain : ChainState σ
  currentFinalBlock : Option Header
  currentSafeBlock : Option Header
  finalizedHash : Hash

namespace FinalState

variable {σ : Type} {genesis : Block} (sdb : StateDatabase σ genesis) (time : Header → Nat)

/-- `SetFinalized`. -/
def setFinalized (f : FinalState σ) (header : Option Header) : FinalState σ :=
  { f with currentFinalBlock := header, finalizedHash := (header.map Header.hash).getD Hash.zero }

/-- `SetSafe`. -/
def setSafe (f : FinalState σ) (header : Option Header) :
    FinalState σ := { f with currentSafeBlock := header }

/-- The safe and the finalized block are cleared if they are above the requested number. -/
def clearMarkers (f : FinalState σ) (head : Nat) : FinalState σ :=
  let f := if f.currentSafeBlock.any (head < ·.number) then f.setSafe none else f
  if f.currentFinalBlock.any (head < ·.number) then f.setFinalized none else f

/-- `loadLastState`: the stored finalized block becomes the safe block too. -/
def loadLastState (f : FinalState σ) : Except RewindError (FinalState σ) :=
  match f.chain.loadLastState with
  | .error e => .error e
  | .ok bc =>
    match (ChainState.headMarker (some f.finalizedHash)).bind bc.db.getBlockByHash with
    | none => .ok { f with chain := bc }
    | some b => .ok
      { f with chain := bc, currentFinalBlock := some b.header, currentSafeBlock := some b.header }

/-- `setHeadBeyondRoot` without a root. -/
def setHeadBeyondRoot (f : FinalState σ) (head headTime : Nat) :
    Except RewindError (FinalState σ) :=
  match if 0 < headTime then ChainState.setHeadersWithTimestamp sdb time f.chain headTime
      else ChainState.setHeaders sdb f.chain head with
  | .error e => .error e
  | .ok bc => (clearMarkers { f with chain := bc } head).loadLastState

/-- A rewind, with the check that the head block is there. -/
def rewind (f : FinalState σ) (head headTime : Nat) : Except RewindError (FinalState σ) :=
  match setHeadBeyondRoot sdb time f head headTime with
  | .error e => .error e
  | .ok f' =>
    match f'.chain.db.getBlock f'.chain.currentBlock.hash f'.chain.currentBlock.number with
    | none => .error .currentBlockMissing
    | some _ => .ok f'

/-- `SetHead`. -/
def setHead (f : FinalState σ) (head : Nat) : Except RewindError (FinalState σ) :=
  rewind sdb time f head 0

/-- `SetHeadWithTimestamp`. -/
def setHeadWithTimestamp (f : FinalState σ) (timestamp : Nat) : Except RewindError (FinalState σ) :=
  rewind sdb time f 0 timestamp

/-! ## the markers after a rewind -/

/-- The markers are of the chain and not above the head block, and the finalized one is the stored
one. -/
structure Marked (f : FinalState σ) (c : Nat → Header) : Prop where
  stored : f.finalizedHash = (f.currentFinalBlock.map Header.hash).getD Hash.zero
  final : ∀ b ∈ f.currentFinalBlock, b = c b.number ∧ b.number ≤ f.chain.currentBlock.number
  safe : ∀ b ∈ f.currentSafeBlock, b = c b.number ∧ b.number ≤ f.chain.currentBlock.number

variable {sdb time} {f f' : FinalState σ} {c : Nat → Header} {head : Nat}

theorem clearMarkers_eq (h : Marked f c) (bc : ChainState σ) (head : Nat) :
    clearMarkers { f with chain := bc } head =
      ⟨bc, f.currentFinalBlock.filter (·.number ≤ head),
        f.currentSafeBlock.filter (·.number ≤ head),
        ((f.currentFinalBlock.filter (·.number ≤ head)).map Header.hash).getD Hash.zero⟩ := by
  have hfilter : ∀ m : Option Header,
      m.filter (·.number ≤ head) = if m.any (head < ·.number) then none else m := by
    intro m
    cases m with
    | none => rfl
    | some b => by_cases hb : b.number ≤ head <;> simp [Option.filter, hb, not_le.mp]
  obtain ⟨chain, final, safe, stored⟩ := f
  have hstored : stored = (final.map Header.hash).getD Hash.zero := h.stored
  simp only [clearMarkers, hfilter]
  by_cases hs : safe.any (head < ·.number) = true <;>
    by_cases hf : final.any (head < ·.number) = true <;>
    simp [hs, hf, setSafe, setFinalized, hstored]

/-- The markers are right: each is what it was if its block is on the chain, at or below the new
head block, and unset otherwise. -/
def MarkersRight (f f' : FinalState σ) : Prop :=
  f'.currentFinalBlock = f.currentFinalBlock.filter f'.chain.onChain ∧
    f'.currentSafeBlock = f.currentSafeBlock.filter f'.chain.onChain

/-- The requested number and the new head block agree on a marker. -/
def Agrees (m : Option Header) (head number : Nat) : Prop :=
  ∀ b ∈ m, b.number ≤ head ↔ b.number ≤ number

/-- `loadLastState` makes no other block the safe one. -/
def KeepsSafe (f : FinalState σ) (head : Nat) : Prop :=
  ∀ b ∈ f.currentFinalBlock, b.number ≤ head →
    (f.chain.db.getBlock b.hash b.number).isSome → f.currentSafeBlock = some b

section

variable {bc : ChainState σ} {batch : Writes} (h : ChainState.Consistent genesis f.chain c)
  (hr : ChainState.Rewinding sdb f.chain bc c batch)
include h hr

/-- A header that the rewind has left is not found by its hash. -/
theorem getBlockByHash_above {b : Header} (hline : b = c b.number)
    (hle : b.number ≤ f.chain.currentHeader.number) (hgt : bc.currentHeader.number < b.number) :
    (bc.db.write batch).getBlockByHash b.hash = none := by
  have hnumber := h.numbers _ hle
  rw [← hline] at hnumber
  have hcleared := (hr.cleared h hgt b.hash fun _ => by omega).1
  rw [Db.getBlockByHash]
  split
  · rfl
  next n hn =>
    -- the deletions leave the number of a hash as it was, or take it away
    have hsome : Batch.write bc.db.kv batch |>.lookup (Key.headerNumber b.hash) |>.isSome :=
      Option.isSome_iff_exists.mpr ⟨n, hn⟩
    have hn' : n = b.number := by
      refine Option.some.inj (hn.symm.trans ?_)
      rw [Db.write, Batch.lookup_write_of_not_mem, hr.same.kv _ rfl, hnumber]
      rintro ⟨key, v⟩ hw rfl
      have hv : v = none := (hr.only _ hw).1
      rw [hr.lookup_of_mem (hv ▸ hw)] at hsome
      cases hsome
    have hheader : (bc.db.write batch).readHeader b.hash n = none := by
      rw [hn', Db.readHeader, hr.ancients_eq_none hgt]
      exact hcleared
    rw [Db.getBlock, hheader]

/-- A marker of the chain is on it after the rewind just if it is not above the head block. -/
theorem filter_onChain {m : Option Header} {snap : Header}
    (hm : ∀ b ∈ m, b = c b.number ∧ b.number ≤ f.chain.currentBlock.number) :
    m.filter (ChainState.onChain { bc with db := bc.db.write batch, currentSnapBlock := snap }) =
      m.filter (·.number ≤ bc.currentBlock.number) := by
  cases m with
  | none => rfl
  | some b =>
    obtain ⟨hline, -⟩ := hm b rfl
    have hle := hr.le
    have hble := hr.block_le
    have htable (hb : b.number ≤ bc.currentBlock.number) :
        (bc.db.write batch).readCanonicalHash b.number = b.hash := by
      rw [(hr.sameBelow (by omega) Hash.zero).2.2, h.line.table _ (by omega), ← hline]
    rw [Option.filter_some, Option.filter_some, ChainState.onChain]
    by_cases hb : b.number ≤ bc.currentBlock.number
    · simp [hb, htable hb]
    · simp [hb]

end

theorem filter_eq_filter_iff {m : Option Header} {i j : Nat} :
    m.filter (·.number ≤ i) = m.filter (·.number ≤ j) ↔ Agrees m i j := by
  cases m with
  | none => simp [Agrees]
  | some b =>
    by_cases hi : b.number ≤ i <;> by_cases hj : b.number ≤ j <;>
      simp [Agrees, Option.filter_some, hi, hj]

/-- The header chain part of a rewind, by number or by time. -/
theorem headers_spec (time : Header → Nat) (h : ChainState.Consistent genesis f.chain c)
    (head headTime : Nat) :
    ChainState.CritOr (if 0 < headTime then
        ChainState.setHeadersWithTimestamp sdb time f.chain headTime
      else ChainState.setHeaders sdb f.chain head) fun r =>
      ∃ bc batch, r = { bc with db := bc.db.write batch } ∧
        ChainState.Rewinding sdb f.chain bc c batch ∧ (headTime = 0 →
          ChainState.Stops sdb f.chain f.chain c f.chain.db.ancients.length head []
            (bc, batch)) := by
  split
  next hpos =>
    exact (ChainState.setHeadersWithTimestamp_spec time headTime h).mono
      fun r ⟨bc, batch, heq, hr⟩ => ⟨bc, batch, heq, hr, fun h0 => absurd h0 hpos.ne'⟩
  · exact (ChainState.setHeaders_spec sdb head h).mono
      fun r ⟨bc, batch, heq, hstops, hr⟩ => ⟨bc, batch, heq, hr, fun _ => hstops⟩

/-- The markers after the header chain was rewound. -/
theorem markers_spec (h : ChainState.Consistent genesis f.chain c) (hm : Marked f c)
    {bc : ChainState σ} {batch : Writes} (hr : ChainState.Rewinding sdb f.chain bc c batch)
    (head : Nat) :
    ∃ f', (clearMarkers
      { f with chain := { bc with db := bc.db.write batch } } head).loadLastState =
        .ok f' ∧ (∃ snap,
          f'.chain = { bc with db := bc.db.write batch, currentSnapBlock := snap }) ∧
      (MarkersRight f f' ↔ Agrees f.currentFinalBlock head bc.currentBlock.number ∧
        Agrees f.currentSafeBlock head bc.currentBlock.number ∧ KeepsSafe f head) := by
  obtain ⟨b₀, snap, -, -, hload⟩ := hr.loadLastState h
  have hle := hr.le
  have hble := hr.block_le
  have hblock := h.block_le
  rw [clearMarkers_eq hm, loadLastState]
  simp only [hload]
  -- what is left once it is known which markers the load ends with
  have key (final safe : Option Header) (stored : Hash)
      (hfinal : final = f.currentFinalBlock.filter (·.number ≤ head))
      (hsafe : Agrees f.currentFinalBlock head bc.currentBlock.number →
        (safe = f.currentSafeBlock.filter (·.number ≤ bc.currentBlock.number) ↔
          Agrees f.currentSafeBlock head bc.currentBlock.number ∧ KeepsSafe f head)) :
      MarkersRight f ⟨{ bc with db := bc.db.write batch, currentSnapBlock := snap }, final, safe,
          stored⟩ ↔
        Agrees f.currentFinalBlock head bc.currentBlock.number ∧
          Agrees f.currentSafeBlock head bc.currentBlock.number ∧ KeepsSafe f head := by
    rw [MarkersRight, filter_onChain h hr hm.final, filter_onChain h hr hm.safe, hfinal,
      filter_eq_filter_iff]
    exact and_congr_right hsafe
  cases hfinal : f.currentFinalBlock.filter (·.number ≤ head) with
  | none =>
    have hzero : ChainState.headMarker (some Hash.zero) = none := by simp [ChainState.headMarker]
    simp only [Option.map_none, Option.getD_none, hzero, Option.bind_none]
    refine ⟨_, rfl, ⟨snap, rfl⟩, key _ _ _ hfinal.symm fun _ => ?_⟩
    rw [filter_eq_filter_iff]
    refine (and_iff_left fun b hb hnum _ => ?_).symm
    rw [hb, Option.filter_some, if_pos (by simpa using hnum)] at hfinal
    cases hfinal
  | some b =>
    obtain ⟨hb, hnum⟩ := Option.filter_eq_some_iff.mp hfinal
    simp only [decide_eq_true_eq] at hnum
    obtain ⟨hline, hlow⟩ := hm.final b hb
    have hnonzero := h.line.nonzero b.number (by omega)
    rw [← hline] at hnonzero
    simp only [Option.map_some, Option.getD_some, ChainState.headMarker_of_ne hnonzero,
      Option.bind_some]
    -- the block is found by its hash just if the rewind has not left it and it was there
    have hfind (hlow : b.number ≤ bc.currentHeader.number) :
        (bc.db.write batch).getBlockByHash b.hash = f.chain.db.getBlock b.hash b.number := by
      have hbyHash := (hr.byHash h hline hlow).1
      rwa [ChainState.headMarker_of_ne hnonzero, Option.bind_some] at hbyHash
    cases hfound : (bc.db.write batch).getBlockByHash b.hash with
    | none =>
      refine ⟨_, rfl, ⟨snap, rfl⟩, key _ _ _ hfinal.symm fun hagree => ?_⟩
      rw [filter_eq_filter_iff]
      refine (and_iff_left fun b' hb' _ hstored => ?_).symm
      obtain rfl := Option.some.inj (hb.symm.trans hb')
      rw [← hfind (((hagree b hb).mp hnum).trans hble), hfound] at hstored
      cases hstored
    | some b' =>
      have hreach : b.number ≤ bc.currentHeader.number := by
        by_contra hgt
        rw [getBlockByHash_above h hr hline (by omega) (by omega)] at hfound
        cases hfound
      rw [hfind hreach] at hfound
      have hheader : b'.header = b := by
        rw [hline]
        exact h.descent.header_eq (by omega) (by rw [← hline, hfound])
      simp only [hheader]
      refine ⟨_, rfl, ⟨snap, rfl⟩, key _ _ _ hfinal.symm fun hagree => ?_⟩
      have hbound := (hagree b hb).mp hnum
      constructor
      · intro hsafe
        obtain ⟨hsafe', -⟩ := Option.filter_eq_some_iff.mp hsafe.symm
        refine ⟨fun x hx => ?_, fun x hx _ _ => ?_⟩
        · obtain rfl := Option.some.inj (hsafe'.symm.trans hx)
          exact hagree b hb
        · rw [hsafe', ← hb, hx]
      · rintro ⟨-, hkeeps⟩
        rw [hkeeps b hb hnum (by rw [hfound]; rfl), Option.filter_some,
          if_pos (by simpa using hbound)]

open ChainState

/-- A chain with markers. -/
def sample (chain : ChainState (List Hash)) (final safe : Block) : FinalState (List Hash) :=
  ⟨chain, some final.header, some safe.header, final.hash⟩

theorem marked_sampleFork {b : Block} (hb : b ∈ [sampleGenesis, sampleBlock 2 1 1]) :
    Marked (sample sampleFork b b)
      (sampleLine sampleGenesis [sampleGenesis, sampleBlock 2 1 1]) := by
  obtain rfl | hb := List.mem_cons.mp hb
  · exact ⟨rfl, by decide +kernel, by decide +kernel⟩
  · obtain rfl := List.mem_singleton.mp hb
    exact ⟨rfl, by decide +kernel, by decide +kernel⟩

end FinalState

end GoQrl.Chain
