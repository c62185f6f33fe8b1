import GoQrl.Chain.Wipe

/-!
# GoQrl.Chain.SetHead

`SetHead` leaves a consistent chain.

`HeaderLine` says that the table has exactly the head header and its ancestors.  During the rewind
the database is that of before up to the current height (`SameBelow`), and the batch has what is
above (`Rewinding`).  The main result is `ChainState.setHead_spec`.
-/

namespace GoQrl.Chain

open List Option Batch Db

/-- The headers from genesis to a head are stored, and the table has their hashes and no others. -/
structure HeaderLine (db : Db) (head : Header) (c : Nat → Header) : Prop where
  top : c head.number = head
  number : ∀ k ≤ head.number, (c k).number = k
  stored : ∀ k ≤ head.number, db.readHeader (c k).hash k = some (c k)
  parent : ∀ k < head.number, (c (k + 1)).parentHash = (c k).hash
  nonzero : ∀ k ≤ head.number, (c k).hash ≠ Hash.zero
  table : ∀ k ≤ head.number, db.readCanonicalHash k = (c k).hash
  above : ∀ k, head.number < k → db.readCanonicalHash k = Hash.zero

/-! ## reads during the rewind -/

/-- The markers that a rewind lowers. -/
def Key.isMarker : Key → Bool
  | .headHeaderHash | .headBlockHash | .headFastBlockHash => true
  | _ => false

/-- The database during a rewind: the markers apart it is that of before, with the freezer cut above
a height. -/
structure SameBelow (db₀ db : Db) (j : Nat) : Prop where
  kv : ∀ k : Key, k.isMarker = false → db.kv.lookup k = db₀.kv.lookup k
  ancients : db.ancients = db₀.ancients.take (j + 1)

variable {batch : Writes} {db db₀ : Db} {hash : Hash} {j k : Nat} {b : Block}

namespace SameBelow

variable (h : SameBelow db₀ db j)
include h

/-- The freezer agrees up to the number. -/
theorem getElem? (hk : k ≤ j) : db.ancients[k]? = db₀.ancients[k]? := by
  rw [h.ancients, getElem?_take_of_lt (by omega)]

/-- Headers up to the number are read as in the first database. -/
theorem readHeader (hk : k ≤ j) : db.readHeader hash k = db₀.readHeader hash k := by
  rw [Db.readHeader, Db.readHeader, h.getElem? hk, h.kv _ rfl]

/-- So is the table of canonical hashes. -/
theorem readCanonicalHash (hk : k ≤ j) : db.readCanonicalHash k = db₀.readCanonicalHash k := by
  rw [Db.readCanonicalHash, Db.readCanonicalHash, h.getElem? hk, h.kv _ rfl]

/-- And so are the blocks. -/
theorem getBlock (hk : k ≤ j) : db.getBlock hash k = db₀.getBlock hash k := by
  rw [Db.getBlock, Db.getBlock, h.readHeader hk, Db.readBody, Db.readBody,
    h.getElem? hk, h.kv _ rfl]

/-- What is not in the database is not there after the freezer is cut. -/
theorem getBlock_eq_none (hnone : db₀.getBlock hash k = none) : db.getBlock hash k = none := by
  by_cases hk : k ≤ j
  · rw [h.getBlock hk, hnone]
  · have hcut : db.ancients[k]? = none := by
      rw [h.ancients, getElem?_eq_none_iff]
      exact le_trans (length_take_le _ _) (by omega)
    rw [Db.getBlock, Db.readHeader, Db.readBody, hcut, h.kv _ rfl, h.kv _ rfl]
    rw [Db.getBlock, Db.readHeader, Db.readBody] at hnone
    cases hx : db₀.ancients[k]? with
    | none => rwa [hx] at hnone
    | some b =>
      by_cases heq : b.hash = hash
      · simp only [hx, if_pos heq] at hnone
        cases hnone
      · simpa [hx, if_neg heq] using hnone

/-- The headers of the store are still those of the first database. -/
theorem rest : Db.Rest db₀ db where
  headers _ _ := h.kv _ rfl
  frozen := by
    rw [h.ancients]
    exact length_take_le' _ _

/-- Writing the head markers changes nothing below the number. -/
theorem write (hb : ∀ w ∈ batch, w.key.isMarker = true) : SameBelow db₀ (db.write batch) j where
  kv k hk := by
    rw [← h.kv k hk]
    refine lookup_write_of_not_mem fun w hw heq => ?_
    simp [← heq, hb w hw] at hk
  ancients := h.ancients

end SameBelow

/-! ## the new head block -/

/-- The headers that a rewind passes. -/
structure Descent (db : Db) (genesis : Block) (c : Nat → Header) (j : Nat) : Prop where
  number : ∀ k ≤ j, (c k).number = k
  stored : ∀ k ≤ j, db.readHeader (c k).hash k = some (c k)
  parent : ∀ k < j, (c (k + 1)).parentHash = (c k).hash
  first : c 0 = genesis.header
  genesisStored : db.getBlock genesis.hash 0 = some genesis
  genesisParent : db.getBlock genesis.parentHash (pred64 0) = none
  bound : j < 2 ^ 64

variable {genesis : Block} {c : Nat → Header}

/-- The line can be walked down from each of its headers. -/
theorem Descent.mono {i : Nat} (h : Descent db genesis c j) (hi : i ≤ j) : Descent db genesis c i :=
  { h with
    number := fun k hk => h.number k (le_trans hk hi)
    stored := fun k hk => h.stored k (le_trans hk hi)
    parent := fun k hk => h.parent k (lt_of_lt_of_le hk hi)
    bound := lt_of_le_of_lt hi h.bound }

/-- The line is still there in a database that agrees below its end. -/
theorem Descent.same (h : Descent db₀ genesis c j) (hs : SameBelow db₀ db j) :
    Descent db genesis c j :=
  { h with
    stored := fun k hk => by rw [hs.readHeader hk, h.stored k hk]
    genesisStored := by rw [hs.getBlock (Nat.zero_le j), h.genesisStored]
    genesisParent := hs.getBlock_eq_none h.genesisParent }

/-- A block that is read at a hash of the line has the header of the line. -/
theorem Descent.header_eq (h : Descent db genesis c j) (hk : k ≤ j)
    (hb : db.getBlock (c k).hash k = some b) :
    b.header = c k := by
  rw [Db.getBlock, h.stored k hk] at hb
  cases hbody : db.readBody (c k).hash k with
  | none =>
    simp [hbody] at hb
  | some txs =>
    rw [hbody] at hb
    rw [← some.inj hb]

namespace ChainState

variable {σ : Type} {genesis : Block} {sdb : StateDatabase σ genesis} {c : Nat → Header}
    {s : σ} {i : Nat}
  {bc bc₀ : ChainState σ} {origin : Bool}

/-- A head block at most as high as `i`, that is stored and has its state. -/
structure GoodHead (sdb : StateDatabase σ genesis) (db : Db) (c : Nat → Header) (i : Nat)
    (b : Header) (s : σ) : Prop where
  line : b = c b.number
  le : b.number ≤ i
  stored : (db.getBlock b.hash b.number).isSome
  state : sdb.hasState s b.root = true

/-- A result with a property, unless the state database fails. -/
def CritOr {α : Type} (r : Except RewindError α) (P : α → Prop) :
    Prop := r = .error .crit ∨ ∃ a, r = .ok a ∧ P a

/-- What holds of a result can be weakened. -/
theorem CritOr.mono {α : Type} {r : Except RewindError α} {P Q : α → Prop} (h : CritOr r P)
    (hPQ : ∀ a, P a → Q a) :
    CritOr r Q :=
  h.imp_right fun ⟨a, hr, ha⟩ => ⟨a, hr, hPQ a ha⟩

theorem CritOr.map {α β : Type} {r : Except RewindError α} {P : α → Prop} {Q : β → Prop} {f : α → β}
    (h : CritOr r P) (hPQ : ∀ a, P a → Q (f a)) : CritOr (r.map f) Q := by
  obtain rfl | ⟨a, rfl, ha⟩ := h
  · exact .inl rfl
  · exact .inr ⟨f a, rfl, hPQ a ha⟩

/-- Resetting the state makes the state of the genesis block available. -/
theorem resetState_spec (sdb : StateDatabase σ genesis) (s : σ) :
    CritOr (resetState sdb s) (sdb.hasState · genesis.root = true) := by
  rw [resetState]
  split
  next h => exact .inr ⟨s, rfl, h⟩
  · cases hc : sdb.commitGenesis s with
    | none => exact .inl rfl
    | some s' => exact .inr ⟨s', rfl, sdb.hasState_commitGenesis hc⟩

/-- A good head for a number is one for every number above. -/
theorem GoodHead.mono {b : Header} (h : GoodHead sdb db c k b s) (hk : k ≤ j) :
    GoodHead sdb db c j b s :=
  { h with le := le_trans h.le hk }

section

variable (h : Descent db genesis c j)
include h

/-- A stored block of the line with its state is a good head. -/
theorem goodHead_of_stored (hk : k ≤ j) (hb : b.header = c k)
    (hstored : db.getBlock b.hash k = some b) (hs : sdb.hasState s b.root = true) :
    GoodHead sdb db c k b.header s := by
  have hnumber : b.header.number = k := by rw [hb, h.number k hk]
  rw [Block.hash] at hstored
  exact ⟨by rw [hnumber, hb], hnumber.le, by rw [hnumber, hstored]; rfl, hs⟩

/-- A stored block of the line becomes the head, with its state reset or recovered if needed. -/
theorem restore_spec (hk : k ≤ j) (hb : b.header = c k)
    (hstored : db.getBlock b.hash k = some b) (s : σ) :
    CritOr (restore sdb b s) fun r => GoodHead sdb db c k r.1.header r.2 := by
  have hnumber : b.header.number = k := by rw [hb, h.number k hk]
  have good : ∀ s', sdb.hasState s' b.root = true → GoodHead sdb db c k b.header s' := fun _ =>
    goodHead_of_stored h hk hb hstored
  rw [restore]
  split
  next hzero =>
    have hgenesis : b.root = genesis.root := by
      rw [Block.root, Block.root, hb, ← h.first, show k = 0 from hnumber.symm.trans hzero]
    exact (resetState_spec sdb s).map fun s' hs' => good s' (by rw [hgenesis, hs'])
  · split
    next hs => exact .inr ⟨_, rfl, good s hs⟩
    · cases hr : sdb.recover s b.root with
      | none => exact .inl rfl
      | some s' => exact .inr ⟨_, rfl, good s' (sdb.hasState_recover hr)⟩

/-- The genesis block can always be made the head. -/
theorem restore_genesis (k : Nat) (s : σ) :
    CritOr (restore sdb genesis s) fun r => GoodHead sdb db c k r.1.header r.2 :=
  (restore_spec h (Nat.zero_le j) h.first.symm h.genesisStored s).mono fun _ hg =>
    hg.mono (Nat.zero_le k)

/-- **The walk back from a block of the chain** ends at a good head, or the state database fails. -/
theorem rewindBlock_spec {fuel : Nat} {pivot : Option Nat} (hk : k ≤ j)
    (hb : b.header = c k) (hstored : db.getBlock b.hash k = some b) (hfuel : k < fuel) :
    CritOr (rewindBlock sdb db pivot s fuel b) fun r => GoodHead sdb db c k r.1.header r.2 := by
  induction fuel generalizing b k with
  | zero => omega
  | succ fuel ih =>
    have hnumber : b.number = k := by rw [Block.number, hb, h.number k hk]
    rw [rewindBlock]
    split
    · exact restore_spec h hk hb hstored s
    · split
      · cases k with
        | zero =>
          have hparent : b.parentHash = genesis.parentHash := by
            rw [Block.parentHash, hb, h.first]; rfl
          rw [hparent, hnumber, h.genesisParent]
          exact restore_genesis h _ s
        | succ k =>
          have hparent : b.parentHash = (c k).hash := by rw [Block.parentHash, hb, h.parent k hk]
          have hbound := h.bound
          rw [hparent, hnumber, pred64_succ (by omega)]
          cases hp : db.getBlock (c k).hash k with
          | none => exact restore_genesis h _ s
          | some parent =>
            have hheader := h.header_eq (by omega) hp
            exact (ih (show k ≤ j by omega) hheader (by rw [Block.hash, hheader, hp])
              (by omega)).mono
              fun _ hg => hg.mono (Nat.le_succ k)
      · exact restore_genesis h _ s

end

/-- A block of the line whose state is there, where the blocks above it are stored up to the head
block, the pivot is not above it, and the state database recovers nothing. -/
structure Anchored (sdb : StateDatabase σ genesis) (bc : ChainState σ)
    (c : Nat → Header) (t : Nat) : Prop where
  state : sdb.hasState bc.state (c t).root = true
  fixed : ∀ root, sdb.stateRecoverable bc.state root = false
  stored : ∀ k, t ≤ k → k ≤ bc.currentBlock.number → (bc.db.getBlock (c k).hash k).isSome
  pivot : bc.pivot.all (· ≤ t) = true

/-- The walk back does not go below an anchor. -/
theorem Anchored.rewindBlock {t fuel : Nat} (ha : Anchored sdb bc c t)
    (h : Descent bc.db genesis c i) (hk : k ≤ i) (hkb : k ≤ bc.currentBlock.number) (htk : t ≤ k)
    (hb : b.header = c k) (hfuel : k < fuel) :
    ∃ b', rewindBlock sdb bc.db bc.pivot bc.state fuel b = .ok (b', bc.state) ∧ t ≤ b'.number := by
  induction fuel generalizing b k with
  | zero => omega
  | succ fuel ih =>
    have hnumber : b.number = k := by rw [Block.number, hb, h.number k hk]
    rw [ChainState.rewindBlock, ha.fixed, Bool.or_false]
    split
    next hs =>
      refine ⟨b, ?_, by omega⟩
      rw [restore, resetState, if_pos hs]
      split
      next hzero =>
        have hroot : genesis.root = b.root := by
          rw [Block.root, Block.root, hb, ← hnumber, hzero, h.first]
        rw [if_pos (hroot ▸ hs)]
        rfl
      · rfl
    next hs =>
      have hne : k ≠ t := fun heq => hs (by rw [Block.root, hb, heq, ha.state])
      obtain ⟨k, rfl⟩ := Nat.exists_eq_succ_of_ne_zero (show k ≠ 0 by omega)
      have hpivot : bc.pivot.all (· < b.number) = true := by
        have hle := ha.pivot
        cases hp : bc.pivot with
        | none => rfl
        | some p =>
          simp only [hp, all_some, decide_eq_true_eq] at hle ⊢
          omega
      have hparent : b.parentHash = (c k).hash := by rw [Block.parentHash, hb, h.parent k hk]
      have hbound := h.bound
      obtain ⟨p, hp⟩ := isSome_iff_exists.mp (ha.stored k (by omega) (by omega))
      rw [if_pos hpivot, hparent, hnumber, pred64_succ (by omega), hp]
      exact ih (by omega) (by omega) (by omega) (h.header_eq (by omega) hp) (by omega)

/-- The new head is not below a block with state, and the state is not touched. -/
theorem Anchored.newHeadBlock {t : Nat} {r : Block × σ} (ha : Anchored sdb bc c t)
    (h : Descent bc.db genesis c i) (hib : i ≤ bc.currentBlock.number) (hti : t ≤ i)
    (hr : newHeadBlock sdb bc (c i) = .ok r) : t ≤ r.1.number ∧ r.2 = bc.state := by
  obtain ⟨b, hb⟩ := isSome_iff_exists.mp (ha.stored i hti hib)
  have hheader := h.header_eq (le_refl i) hb
  obtain ⟨b', hwalk, ht⟩ := ha.rewindBlock h (le_refl i) hib hti hheader
    (show i < b.number + 1 by rw [Block.number, hheader, h.number i (le_refl i)]; omega)
  rw [ChainState.newHeadBlock, h.number i (le_refl i), hb] at hr
  obtain rfl := Except.ok.inj (hwalk.symm.trans hr)
  exact ⟨ht, rfl⟩

/-- The new head is a block of the line at or below the header, with its state. -/
theorem newHeadBlock_spec (sdb : StateDatabase σ genesis) (h : Descent bc.db genesis c i) :
    CritOr (newHeadBlock sdb bc (c i)) fun r => GoodHead sdb bc.db c i r.1.header r.2 := by
  rw [newHeadBlock, h.number i (le_refl i)]
  cases hb : bc.db.getBlock (c i).hash i with
  | none =>
    exact (resetState_spec sdb bc.state).map fun _ hs' =>
      (goodHead_of_stored h (Nat.zero_le i) h.first.symm h.genesisStored hs').mono (Nat.zero_le i)
  | some b =>
    have hheader := h.header_eq (le_refl i) hb
    exact rewindBlock_spec h (le_refl i) hheader (by rw [Block.hash, hheader, hb])
      (by rw [Block.number, hheader, h.number i (le_refl i)]; omega)

/-! ## a round -/

/-- The chain after the markers are lowered to the header at `i`. -/
structure Lowered (sdb : StateDatabase σ genesis) (bc bc' : ChainState σ) (c : Nat → Header)
    (i : Nat) : Prop where
  header : bc'.currentHeader = c i
  writes : ∃ batch : Writes, bc'.db = bc.db.write batch ∧ ∀ w ∈ batch, w.key.isMarker = true
  headerMarker : bc'.db.kv.lookup Key.headHeaderHash = some (c i).hash
  blockMarker : bc.db.kv.lookup Key.headBlockHash = some bc.currentBlock.hash →
    bc'.db.kv.lookup Key.headBlockHash = some bc'.currentBlock.hash
  pivot : bc'.pivot = bc.pivot
  block : (i ≤ bc.currentBlock.number ∧ GoodHead sdb bc.db c i bc'.currentBlock bc'.state) ∨
    (bc.currentBlock.number < i ∧ bc'.currentBlock = bc.currentBlock ∧ bc'.state = bc.state)
  anchored : ∀ t ≤ i, t ≤ bc.currentBlock.number → Anchored sdb bc c t →
    t ≤ bc'.currentBlock.number ∧ bc'.state = bc.state

/-- The head block is lowered to one with state, and its marker is written. -/
theorem updateBlock_spec (sdb : StateDatabase σ genesis) (h : Descent bc.db genesis c i) :
    CritOr (updateBlock sdb bc (c i)) fun r =>
      ∃ b s', r.1 = { bc with currentBlock := b, state := s' } ∧
        ((r.2 = [⟨.headBlockHash, some b.hash⟩] ∧ i ≤ bc.currentBlock.number ∧
            GoodHead sdb bc.db c i b s') ∨
          (r.2 = [] ∧ bc.currentBlock.number < i ∧ b = bc.currentBlock ∧ s' = bc.state)) ∧
        ∀ t ≤ i, t ≤ bc.currentBlock.number → Anchored sdb bc c t →
          t ≤ b.number ∧ s' = bc.state := by
  have hnumber := h.number i (le_refl i)
  rw [updateBlock]
  split
  next hle =>
    obtain hr | ⟨r, hr, hg⟩ := newHeadBlock_spec sdb h
    · rw [hr]
      exact .inl rfl
    · rw [hr]
      exact .inr ⟨_, rfl, r.1.header, r.2, rfl, .inl ⟨rfl, by omega, hg⟩,
        fun t hti _ ha => ha.newHeadBlock h (by omega) hti hr⟩
  next hlt =>
    exact .inr ⟨_, rfl, bc.currentBlock, bc.state, rfl, .inr ⟨rfl, by omega, rfl, rfl⟩,
      fun t _ ht _ => ⟨ht, rfl⟩⟩

/-- The head of snap sync is lowered, and its marker is written. -/
theorem updateSnapBlock_spec (genesis : Block) (bc : ChainState σ) (header : Header) :
    ∃ snap batch, updateSnapBlock genesis bc header =
      ({ bc with currentSnapBlock := snap }, batch) ∧
      ∀ w ∈ batch, w.key = .headFastBlockHash := by
  rw [updateSnapBlock]
  split
  · exact ⟨_, _, rfl, fun w hw => by rw [mem_singleton.mp hw]⟩
  · exact ⟨bc.currentSnapBlock, [], rfl, fun w hw => by cases hw⟩

/-- The target of the next round: the head block, if its height is to be wiped. -/
def nextTarget (bc : ChainState σ) (frozen headBlock : Nat) : Nat :=
  if bc.wipe frozen && decide (bc.currentBlock.number < headBlock) then bc.currentBlock.number
  else headBlock

/-- The target of the rewind only sinks. -/
theorem nextTarget_le (bc : ChainState σ) (frozen headBlock : Nat) :
    bc.nextTarget frozen headBlock ≤ headBlock := by
  rw [nextTarget]
  split
  next hlt =>
    simp only [Bool.and_eq_true, decide_eq_true_eq] at hlt
    exact hlt.2.le
  · exact le_refl _

/-- It does not sink below a number that both the head and the target are above. -/
theorem le_nextTarget {t headBlock : Nat} (frozen : Nat) (hb : t ≤ bc.currentBlock.number)
    (hh : t ≤ headBlock) : t ≤ bc.nextTarget frozen headBlock := by
  rw [nextTarget]
  split <;> assumption

/-- All markers are lowered to the header, and the target is the next one. -/
theorem lowerMarkers_spec (sdb : StateDatabase σ genesis) (frozen headBlock : Nat)
    (h : Descent bc.db genesis c i) :
    CritOr (lowerMarkers sdb bc frozen headBlock (c i)) fun r =>
      r.2 = r.1.nextTarget frozen headBlock ∧ Lowered sdb bc r.1 c i := by
  rw [lowerMarkers]
  obtain hr | ⟨⟨_, blockBatch⟩, hr, b, s', rfl, hblock, hanchored⟩ := updateBlock_spec sdb h
  · rw [hr]
    exact .inl rfl
  · obtain ⟨snap, batch, hsnap, hbatch⟩ :=
      updateSnapBlock_spec genesis { bc with currentBlock := b, state := s' } (c i)
    simp only [hr, hsnap]
    have hkeys : ∀ w ∈ blockBatch, w = ⟨.headBlockHash, some b.hash⟩ := by
      obtain ⟨rfl, -⟩ | ⟨rfl, -⟩ := hblock <;> simp
    refine .inr ⟨_, rfl, rfl, rfl, ⟨_, rfl, fun w hw => ?_⟩, ?_, fun hm => ?_, rfl,
      hblock.imp And.right And.right, hanchored⟩
    · simp only [mem_append, mem_singleton] at hw
      obtain (hw | hw) | rfl := hw
      · rw [hkeys w hw]
        rfl
      · rw [hbatch w hw]
        rfl
      · rfl
    · exact lookup_write_of_mem (by simp) fun v' hv' => by grind
    · obtain ⟨rfl, -⟩ | ⟨rfl, -, rfl, -⟩ := hblock
      · exact lookup_write_of_mem (by simp) fun v' hv' => by grind
      · rw [← hm]
        exact lookup_write_of_not_mem fun w hw => by grind

/-! ## the loop -/

/-- A chain with consistent markers: the head block is on the line of the head header, the markers
and the numbers of hashes are stored, bodies and receipts come with their headers, and headers above
the head with their parents. -/
structure Consistent (genesis : Block) (bc : ChainState σ) (c : Nat → Header) : Prop where
  line : HeaderLine bc.db bc.currentHeader c
  first : c 0 = genesis.header
  genesisStored : bc.db.getBlock genesis.hash 0 = some genesis
  genesisParent : bc.db.getBlock genesis.parentHash (pred64 0) = none
  bound : bc.currentHeader.number < 2 ^ 64
  blockLine : bc.currentBlock = c bc.currentBlock.number
  block_le : bc.currentBlock.number ≤ bc.currentHeader.number
  blockStored : (bc.db.getBlock bc.currentBlock.hash bc.currentBlock.number).isSome
  blockMarker : bc.db.kv.lookup Key.headBlockHash = some bc.currentBlock.hash
  headerMarker : bc.db.kv.lookup Key.headHeaderHash = some bc.currentHeader.hash
  numbers : ∀ k ≤ bc.currentHeader.number, bc.db.kv.lookup (Key.headerNumber (c k).hash) = some k
  frozen : bc.db.ancients.length ≤ bc.currentHeader.number + 1
  distinct : ∀ hash i k, (bc.db.readHeader hash i).isSome → (bc.db.readHeader hash k).isSome → i = k
  content : ∀ k hash, (bc.db.kv.lookup (Key.body k hash)).isSome ∨
    (bc.db.kv.lookup (Key.receipts k hash)).isSome →
    (bc.db.kv.lookup (Key.header k hash)).isSome
  parents : ∀ k hash header, bc.currentHeader.number < k →
    bc.db.kv.lookup (Key.header (k + 1) hash) = some header →
      (bc.db.kv.lookup (Key.header k header.parentHash)).isSome

/-- The line of a consistent chain can be walked down from its head header. -/
theorem Consistent.descent (h : Consistent genesis bc c) :
    Descent bc.db genesis c bc.currentHeader.number :=
  { h.line, h with }

/-- Above the head the headers have no gap. -/
theorem Consistent.full (h : Consistent genesis bc c) (hk : bc.currentHeader.number < k)
    (hne : bc.db.readAllHashes k ≠ []) (hi : bc.currentHeader.number < i) (hik : i ≤ k) :
    bc.db.readAllHashes i ≠ [] := by
  induction k with
  | zero => omega
  | succ k ih =>
    by_cases heq : i = k + 1
    · rwa [heq]
    · obtain ⟨hash, hmem⟩ := exists_mem_of_ne_nil _ hne
      obtain ⟨header, hheader⟩ := isSome_iff_exists.mp (mem_readAllHashes.mp hmem)
      have hparent := mem_readAllHashes.mpr (h.parents k hash header (by omega) hheader)
      exact ih (by omega) (ne_nil_of_mem hparent) (by omega)

/-- During the rewind of `bc₀`, with the deletions in the batch. -/
structure Rewinding (sdb : StateDatabase σ genesis) (bc₀ bc : ChainState σ) (c : Nat → Header)
    (batch : Writes) : Prop where
  le : bc.currentHeader.number ≤ bc₀.currentHeader.number
  header : bc.currentHeader = c bc.currentHeader.number
  same : SameBelow bc₀.db bc.db bc.currentHeader.number
  blockMarker : bc.db.kv.lookup Key.headBlockHash = some bc.currentBlock.hash
  headerMarker : bc.db.kv.lookup Key.headHeaderHash = some bc.currentHeader.hash
  blockLine : bc.currentBlock = c bc.currentBlock.number
  block_le : bc.currentBlock.number ≤ bc.currentHeader.number
  blockStored : (bc₀.db.getBlock bc.currentBlock.hash bc.currentBlock.number).isSome
  pivot : bc.pivot = bc₀.pivot
  lowered : bc.currentBlock.number ≤ bc₀.currentBlock.number
  anchored : ∀ t ≤ bc.currentHeader.number, t ≤ bc₀.currentBlock.number → Anchored sdb bc₀ c t →
    t ≤ bc.currentBlock.number ∧ bc.state = bc₀.state
  state : sdb.hasState bc.state bc.currentBlock.root = true ∨
    bc.currentHeader.number = bc₀.currentHeader.number ∨
      bc₀.currentBlock.number < bc.currentHeader.number
  kept : bc.currentHeader.number = bc₀.currentHeader.number ∨
      bc₀.currentBlock.number < bc.currentHeader.number →
    bc.currentBlock = bc₀.currentBlock ∧ bc.state = bc₀.state
  spared : ∀ w ∈ batch, ∀ k hash, Db.Spared bc₀.db k hash →
    w.key ≠ .body k hash ∧ w.key ≠ .receipts k hash
  only : ∀ w ∈ batch, w.value = none ∧ Db.Above bc₀.db bc.currentHeader.number w.key
  all : ∀ k, bc.currentHeader.number < k → bc.currentHeader.number < bc₀.currentHeader.number →
    (k ≤ bc₀.currentHeader.number ∨ bc₀.db.readAllHashes k ≠ []) → Db.Wiped bc₀.db batch k

/-- A consistent chain is at the start of a rewind. -/
theorem Consistent.rewinding (h : Consistent genesis bc c) (sdb : StateDatabase σ genesis) :
    Rewinding sdb bc bc c [] :=
  { h with
    le := le_refl _
    header := h.line.top.symm
    same := ⟨fun _ _ => rfl, (take_of_length_le h.frozen).symm⟩
    pivot := rfl
    lowered := le_refl _
    anchored := fun t _ ht _ => ⟨ht, rfl⟩
    state := .inr (.inl rfl)
    kept := fun _ => ⟨rfl, rfl⟩
    spared := fun w hw => by cases hw
    only := fun w hw => by cases hw
    all := fun k _ hlt => absurd hlt (lt_irrefl _) }

/-- What is above a number is above the smaller ones. -/
theorem Above_mono (hij : i ≤ j) {k : Key} (h : Db.Above db j k) : Db.Above db i k := by
  cases k with
  | headerNumber hash =>
    obtain ⟨n, hn, hs⟩ := h
    exact ⟨n, by omega, hs⟩
  | header n _ | body n _ | receipts n _ | canonicalHash n => exact lt_of_le_of_lt hij h
  | _ => exact h

/-- The heights that a round deletes. -/
theorem mem_roundNumbers (h : Consistent genesis bc₀ c) (hrest : Db.Rest bc₀.db db) {num : Nat}
    (horigin : origin = true ↔ num = bc₀.currentHeader.number) : k ∈ roundNumbers db origin num ↔
      k = num ∨ (origin = true ∧ num < k ∧ bc₀.db.readAllHashes k ≠ []) := by
  cases origin with
  | false => simp [roundNumbers]
  | true =>
    have htop := horigin.mp rfl
    simp only [roundNumbers, if_true, mem_append, mem_singleton, true_and]
    constructor
    · rintro (hk | hk)
      · obtain ⟨hlt, hne⟩ := le_of_mem_leftovers hk
        exact .inr ⟨hlt, fun hnil => hne ((hrest.readAllHashes_eq k).trans hnil)⟩
      · exact .inl hk
    · rintro (hk | ⟨hlt, hne⟩)
      · exact .inr hk
      · refine .inl (mem_leftovers hlt ?_ fun i hi hik => ?_)
        · obtain ⟨hash, hmem⟩ := exists_mem_of_ne_nil _ hne
          rw [mem_readAllHashes, ← hrest.headers] at hmem
          have := le_topHeight hmem
          omega
        · rw [hrest.readAllHashes_eq]
          exact h.full (by omega) hne (by omega) hik

/-- The heights of a round come from the highest down. -/
theorem pairwise_roundNumbers (db : Db) (origin : Bool) (num : Nat) :
    (roundNumbers db origin num).Pairwise (· > ·) := by
  rw [roundNumbers]
  split
  · refine pairwise_append.mpr ⟨pairwise_leftovers, pairwise_singleton _ _, fun a ha b hb => ?_⟩
    rw [mem_singleton.mp hb]
    exact (le_of_mem_leftovers ha).1
  · exact pairwise_singleton _ _

/-- The database after the deletions of a round. -/
theorem same_deleteNumbers (h : Consistent genesis bc₀ c) (hsame : SameBelow bc₀.db db (i + 1))
    (horigin : origin = true ↔ i + 1 = bc₀.currentHeader.number) (hdr : Header) :
    SameBelow bc₀.db (db.deleteNumbers hdr (roundNumbers db origin (i + 1))).1 i := by
  have hcut : (db.deleteNumbers hdr (roundNumbers db origin (i + 1))).1 =
      db.truncateHead (i + 1) := by
    rw [deleteNumbers_fst, roundNumbers]
    split
    next htrue =>
      have hkeep : (db.leftovers (db.topHeight + 1) (i + 1 + 1)).foldl truncateHead db = db := by
        refine foldl_truncateHead_of_le fun n hn => ?_
        have hlow := (le_of_mem_leftovers hn).1
        have hlen := hsame.rest.frozen
        have hfrozen := h.frozen
        have htop := horigin.mp htrue
        omega
      rw [foldl_append, hkeep]
      rfl
    · rfl
  rw [hcut]
  refine ⟨fun k hk => hsame.kv k hk, ?_⟩
  rw [truncateHead, hsame.ancients, take_take, Nat.min_eq_left (by omega)]

/-- An anchor of before is one during the rewind. -/
theorem Rewinding.anchor {t : Nat} (hr : Rewinding sdb bc₀ bc c batch)
    (ht : t ≤ bc.currentHeader.number) (htb : t ≤ bc₀.currentBlock.number)
    (ha : Anchored sdb bc₀ c t) : Anchored sdb bc c t := by
  have hstate := (hr.anchored t ht htb ha).2
  refine ⟨hstate ▸ ha.state, hstate ▸ ha.fixed, fun k htk hk => ?_, hr.pivot ▸ ha.pivot⟩
  rw [hr.same.getBlock (hk.trans hr.block_le)]
  exact ha.stored k htk (hk.trans hr.lowered)

section Round

variable (hr : Rewinding sdb bc₀ bc c batch) (hi : bc.currentHeader.number = i + 1)
include hr hi

/-- The head block after the markers are lowered: one with state, or still that of the start. -/
theorem Rewinding.block {bc' : ChainState σ} (hl : Lowered sdb bc bc' c i) :
    bc'.currentBlock = c bc'.currentBlock.number ∧ bc'.currentBlock.number ≤ i ∧
      (bc₀.db.getBlock bc'.currentBlock.hash bc'.currentBlock.number).isSome ∧
      (sdb.hasState bc'.state bc'.currentBlock.root = true ∨ bc₀.currentBlock.number < i) ∧
      (bc₀.currentBlock.number < i →
        bc'.currentBlock = bc₀.currentBlock ∧ bc'.state = bc₀.state) := by
  obtain ⟨hlow, hg⟩ | ⟨hlt, hcur, hst⟩ := hl.block
  · refine ⟨hg.line, hg.le, ?_, .inl hg.state, fun hkept => ?_⟩
    · rw [← hr.same.getBlock (hi ▸ le_trans hg.le (Nat.le_succ _))]
      exact hg.stored
    · rw [(hr.kept (.inr (by omega))).1] at hlow
      omega
  · rw [hcur, hst]
    refine ⟨hr.blockLine, hlt.le, hr.blockStored, ?_, fun hkept => hr.kept (.inr (by omega))⟩
    obtain hs | hkept := hr.state
    · exact .inl hs
    · rw [(hr.kept hkept).1] at hlt
      exact .inr hlt

variable (h : Consistent genesis bc₀ c) (hsame : SameBelow bc₀.db db (i + 1))
  (horigin : origin = true ↔ i + 1 = bc₀.currentHeader.number)
include h hsame horigin

omit hi in
/-- The deletions of a round spare the contents of frozen blocks. -/
theorem Rewinding.spared_round : ∀ w ∈ batch ++
      (db.deleteNumbers bc.currentHeader (roundNumbers db origin (i + 1))).2,
    ∀ k hash, Db.Spared bc₀.db k hash → w.key ≠ .body k hash ∧ w.key ≠ .receipts k hash := by
  have hle := hr.le
  have hfrozen := h.frozen
  intro w hw k hash hspare
  obtain hw | hw := mem_append.mp hw
  · exact hr.spared w hw k hash hspare
  · refine spared_deleteNumbers hsame.rest (pairwise_roundNumbers ..) (fun n hn hlt => ?_) hw hspare
    rw [hsame.ancients, length_take]
    obtain rfl | ⟨htop, hgt, -⟩ := (mem_roundNumbers h hsame.rest horigin).mp hn
    · omega
    · have := horigin.mp htop
      omega

/-- They are above the header that the round ends at. -/
theorem Rewinding.only_round : ∀ w ∈ batch ++
      (db.deleteNumbers bc.currentHeader (roundNumbers db origin (i + 1))).2,
    w.value = none ∧ Db.Above bc₀.db i w.key := by
  have hle := hr.le
  intro w hw
  obtain hw | hw := mem_append.mp hw
  · exact ⟨(hr.only w hw).1, Above_mono (by omega) (hr.only w hw).2⟩
  · refine above_deleteNumbers hsame.rest (fun n hn => ?_) (fun n hn hnil => ?_) hw
    · obtain rfl | ⟨_, hlt, _⟩ := (mem_roundNumbers h hsame.rest horigin).mp hn <;> omega
    · obtain rfl | ⟨_, _, hne⟩ := (mem_roundNumbers h hsame.rest horigin).mp hn
      · rw [hr.header, hi, h.line.stored _ (by omega)]
        rfl
      · exact absurd hnil hne

/-- With those of the rounds before, they wipe every height above it. -/
theorem Rewinding.all_round (hk : i < k)
    (hkeep : k ≤ bc₀.currentHeader.number ∨ bc₀.db.readAllHashes k ≠ []) : Db.Wiped bc₀.db (batch ++
      (db.deleteNumbers bc.currentHeader (roundNumbers db origin (i + 1))).2) k := by
  have hle := hr.le
  have hmem := mem_roundNumbers (k := k) h hsame.rest horigin
  by_cases hround : k ∈ roundNumbers db origin (i + 1)
  · exact (wiped_deleteNumbers hsame.rest hround).mono (subset_append_right _ _)
  · have hne : k ≠ i + 1 := fun heq => hround (hmem.mpr (.inl heq))
    refine (hr.all k (by omega) ?_ hkeep).mono (subset_append_left _ _)
    have hnot : i + 1 ≠ bc₀.currentHeader.number := by
      intro heq
      obtain hle' | hstored := hkeep
      · omega
      · exact hround (hmem.mpr (.inr ⟨horigin.mpr heq, by omega, hstored⟩))
    omega

end Round

/-- **A round of the rewind.** -/
theorem rewindHeader_spec (frozen headBlock : Nat) (h : Consistent genesis bc₀ c)
    (hr : Rewinding sdb bc₀ bc c batch) (hi : bc.currentHeader.number = i + 1)
    (horigin : origin = true ↔ i + 1 = bc₀.currentHeader.number) :
    CritOr (rewindHeader sdb bc frozen headBlock origin) fun r =>
      r.2.1 = r.1.nextTarget frozen headBlock ∧ r.1.currentHeader.number = i ∧
        Rewinding sdb bc₀ r.1 c (batch ++ r.2.2) := by
  have hle := hr.le
  have hbound := h.bound
  have hsame := hr.same
  rw [hi] at hsame
  have hdescent : Descent bc.db genesis c (i + 1) := (h.descent.mono (by omega)).same hsame
  have hheader : bc.currentHeader = c (i + 1) := by rw [hr.header, hi]
  have hparent : parentHeader genesis bc.db bc.currentHeader = c i := by
    rw [parentHeader, hi, hheader, pred64_succ (by omega), hdescent.parent i (by omega),
      hdescent.stored i (by omega)]
    rfl
  rw [rewindHeader, hparent]
  obtain hm | ⟨⟨bc1, target⟩, hm, htarget, hl⟩ := lowerMarkers_spec sdb frozen headBlock
    (hdescent.mono (Nat.le_succ i))
  · rw [hm]
    exact .inl rfl
  · dsimp only at htarget hl
    simp only [hm, hi]
    obtain ⟨markers, hdb, hmarkers⟩ := hl.writes
    have hsame1 : SameBelow bc₀.db bc1.db (i + 1) := by
      rw [hdb]
      exact hsame.write hmarkers
    have hnumber : bc1.currentHeader.number = i := by rw [hl.header, hdescent.number i (by omega)]
    refine .inr ⟨_, rfl, htarget, hnumber, ?_⟩
    subst hnumber
    obtain ⟨hline, hblock, hstored, hstate, hkept⟩ := hr.block hi hl
    exact
      { le := show bc1.currentHeader.number ≤ _ by omega
        header := hl.header
        same := same_deleteNumbers h hsame1 horigin bc.currentHeader
        blockMarker := by
          simp only [deleteNumbers_kv]
          exact hl.blockMarker hr.blockMarker
        headerMarker := by
          rw [deleteNumbers_kv, hl.headerMarker, ← hl.header]
        blockLine := hline
        block_le := hblock
        blockStored := hstored
        pivot := hl.pivot.trans hr.pivot
        lowered := by
          obtain ⟨hlow, hg⟩ | ⟨-, hcur, -⟩ := hl.block
          · exact (hg.le.trans hlow).trans hr.lowered
          · exact hcur ▸ hr.lowered
        anchored := fun t ht htb ha => by
          have hti : t ≤ bc.currentHeader.number := by dsimp only at ht; omega
          obtain ⟨htb', hstate⟩ := hr.anchored t hti htb ha
          rw [← hstate]
          exact hl.anchored t ht htb' (hr.anchor hti htb ha)
        state := hstate.imp_right .inr
        kept := fun hk => hkept (hk.resolve_left (by dsimp only; omega))
        spared := hr.spared_round h hsame1 horigin
        only := hr.only_round hi h hsame1 horigin
        all := fun k hk _ => hr.all_round hi h hsame1 horigin hk }

/-- Where the loop stops that goes on at `bc` with a target.  Above the head block nothing changes
but the header: the next target is the head block if it is wiped, and the same one if not. -/
structure Stops (sdb : StateDatabase σ genesis) (bc₀ bc : ChainState σ) (c : Nat → Header)
    (frozen headBlock : Nat) (batch : Writes) (r : ChainState σ × Writes) : Prop where
  low : r.1.currentHeader.number ≤ headBlock
  still : bc.currentHeader.number ≤ headBlock → r = (bc, batch)
  wiped : bc₀.wipe frozen = true → bc₀.currentBlock.number < headBlock →
    headBlock < bc.currentHeader.number → r.1.currentHeader.number ≤ bc₀.currentBlock.number
  reached : bc₀.wipe frozen = false → bc₀.currentBlock.number < headBlock →
    headBlock ≤ bc.currentHeader.number → r.1.currentHeader.number = headBlock
  anchored : ∀ t ≤ bc.currentHeader.number, t ≤ headBlock → t ≤ bc₀.currentBlock.number →
    Anchored sdb bc₀ c t → t ≤ r.1.currentHeader.number

/-- While the header is above the head block, the target stays that of the start. -/
theorem Rewinding.nextTarget_eq (hr : Rewinding sdb bc₀ bc c batch)
    (hlt : bc₀.currentBlock.number < bc.currentHeader.number) (frozen headBlock : Nat) :
    bc.nextTarget frozen headBlock = bc₀.nextTarget frozen headBlock := by
  rw [nextTarget, nextTarget, wipe, wipe, (hr.kept (.inr hlt)).1, hr.pivot]

/-- **The loop of the rewind** ends at or below the target, or the state database fails. -/
theorem rewindHeaders_spec {frozen headBlock fuel : Nat} (h : Consistent genesis bc₀ c)
    (hr : Rewinding sdb bc₀ bc c batch) (hfuel : bc.currentHeader.number < fuel)
    (horigin : origin = true ↔ bc.currentHeader.number = bc₀.currentHeader.number) :
    CritOr (rewindHeaders sdb frozen fuel bc headBlock origin batch) fun r =>
      Stops sdb bc₀ bc c frozen headBlock batch r ∧ Rewinding sdb bc₀ r.1 c r.2 := by
  induction fuel generalizing bc headBlock origin batch with
  | zero => omega
  | succ fuel ih =>
    rw [rewindHeaders]
    split
    next hdone =>
      exact .inr ⟨_, rfl, ⟨hdone, fun _ => rfl, fun _ _ hlt => absurd hdone hlt.not_ge,
        fun _ _ hle => le_antisymm hdone hle, fun t ht _ _ _ => ht⟩, hr⟩
    next hgo =>
      obtain ⟨i, hi⟩ := Nat.exists_eq_succ_of_ne_zero (show bc.currentHeader.number ≠ 0 by omega)
      obtain hround | ⟨⟨bc', target, dels⟩, hround, htarget, hnumber, hr'⟩ :=
        rewindHeader_spec frozen headBlock h hr hi (by rw [horigin, hi])
      · rw [hround]
        exact .inl rfl
      · rw [hround]
        have hle := hr.le
        dsimp only at htarget hnumber hr' ⊢
        subst htarget
        have hnext := bc'.nextTarget_le frozen headBlock
        refine (ih hr' (by omega) (by simp only [Bool.false_eq_true, false_iff]; omega)).mono
          fun r ⟨hs, hr''⟩ =>
            ⟨⟨hs.low.trans hnext, fun hdone => absurd hdone hgo, ?_, ?_, ?_⟩, hr''⟩
        · -- the first round above the head block lowers the target to it
          intro hw hlow _
          have hlow' := hs.low
          rw [hr'.nextTarget_eq (by omega), nextTarget, hw] at hlow'
          simpa [hlow] using hlow'
        · intro hw hlow hle'
          have hsame : bc'.nextTarget frozen headBlock = headBlock := by
            rw [hr'.nextTarget_eq (by omega), nextTarget, hw]
            rfl
          rw [hsame] at hs
          exact hs.reached hw hlow (by omega)
        · intro t _ hthead htb ha
          have htb' := (hr'.anchored t (by omega) htb ha).1
          exact hs.anchored t (by omega) (le_nextTarget frozen htb' hthead) htb ha

/-! ## the result -/

/-- What a rewind leaves: a head block at most as high as the target that is stored and has its
state, a head header at most as high as the target, a table of exactly that header and its
ancestors, and nothing of any block above it in the store or the freezer. -/
structure Rewound (sdb : StateDatabase σ genesis) (head : Nat) (bc : ChainState σ)
    (c : Nat → Header) : Prop where
  block_le : bc.currentBlock.number ≤ head
  blockStored : ∃ b, bc.db.getBlock bc.currentBlock.hash bc.currentBlock.number = some b ∧
    b.header = bc.currentBlock
  blockState : sdb.hasState bc.state bc.currentBlock.root = true
  header_le : bc.currentHeader.number ≤ head
  line : HeaderLine bc.db bc.currentHeader c
  headers : ∀ k hash, bc.currentHeader.number < k → bc.db.readHeader hash k = none
  bodies : ∀ k hash, bc.currentHeader.number < k → bc.db.readBody hash k = none
  receipts : ∀ k hash, bc.currentHeader.number < k → bc.db.hasReceipts hash k = false
  frozen : bc.db.ancients.length ≤ bc.currentHeader.number + 1

/-- At the heights that the rewind has not left, the deletions change nothing. -/
theorem Rewinding.sameBelow (h : Rewinding sdb bc₀ bc c batch) (hk : k ≤ bc.currentHeader.number)
    (hash : Hash) :
    (bc.db.write batch).readHeader hash k = bc₀.db.readHeader hash k ∧
      (bc.db.write batch).getBlock hash k = bc₀.db.getBlock hash k ∧
      (bc.db.write batch).readCanonicalHash k = bc₀.db.readCanonicalHash k := by
  have hkeep : ∀ key : Key, ¬ Db.Above bc₀.db bc.currentHeader.number key →
      (write bc.db.kv batch).lookup key = bc.db.kv.lookup key := by
    intro key hkey
    refine lookup_write_of_not_mem fun w hw heq => hkey ?_
    rw [← heq]
    exact (h.only w hw).2
  have hheader := hkeep (.header k hash) (not_lt.mpr hk)
  have hbody := hkeep (.body k hash) (not_lt.mpr hk)
  have htable := hkeep (.canonicalHash k) (not_lt.mpr hk)
  refine ⟨?_, ?_, ?_⟩
  · rw [← h.same.readHeader hk, Db.readHeader, Db.readHeader, Db.write, hheader]
  · rw [← h.same.getBlock hk, Db.getBlock, Db.getBlock, Db.readHeader, Db.readHeader, Db.readBody,
      Db.readBody, Db.write, hheader, hbody]
  · rw [← h.same.readCanonicalHash hk, Db.readCanonicalHash, Db.readCanonicalHash, Db.write, htable]

variable {key : Key}

section Cleared

variable {bc₀ bc : ChainState σ} (h : Rewinding sdb bc₀ bc c batch)
include h

/-- A key that the batch deletes. -/
theorem Rewinding.lookup_of_mem (hmem : ⟨key, none⟩ ∈ batch) :
    (write bc.db.kv batch).lookup key = none :=
  lookup_write_of_mem hmem fun _ hv => (h.only _ hv).1

/-- A key that was not there. -/
theorem Rewinding.lookup_of_none (hkey : key.isMarker = false)
    (hnone : bc₀.db.kv.lookup key = none) :
    (write bc.db.kv batch).lookup key = none :=
  lookup_write_eq_none (fun w hw => (h.only w hw).1) (by rw [h.same.kv key hkey, hnone])

/-- The freezer has nothing above the head header. -/
theorem Rewinding.ancients_eq_none (hk : bc.currentHeader.number < k) :
    (bc.db.write batch).ancients[k]? = none := by
  rw [ancients_write, h.same.ancients, getElem?_eq_none_iff]
  exact le_trans (length_take_le _ _) (by omega)

section

variable (hcon : Consistent genesis bc₀ c)
include hcon

/-- **What is left above** in the store: no header, and body and receipts only of what is spared. -/
theorem Rewinding.cleared (hk : bc.currentHeader.number < k) (hash : Hash)
    (hmoved : (bc₀.db.kv.lookup (Key.header k hash)).isSome →
      bc.currentHeader.number < bc₀.currentHeader.number) :
    (write bc.db.kv batch).lookup (Key.header k hash) = none ∧
      (¬ Db.Spared bc₀.db k hash → (write bc.db.kv batch).lookup (Key.body k hash) = none ∧
        (write bc.db.kv batch).lookup (Key.receipts k hash) = none) := by
  cases hs : bc₀.db.kv.lookup (Key.header k hash) with
  | none =>
    obtain ⟨hbody, hreceipts⟩ :=
      not_or.mp (mt (hcon.content k hash) (by rw [hs]; exact Bool.false_ne_true))
    exact ⟨h.lookup_of_none rfl hs, fun _ =>
      ⟨h.lookup_of_none rfl (not_isSome_iff_eq_none.mp hbody),
        h.lookup_of_none rfl (not_isSome_iff_eq_none.mp hreceipts)⟩⟩
  | some header =>
    have hsome : (bc₀.db.kv.lookup (Key.header k hash)).isSome := by rw [hs]; rfl
    have hw : Db.Wiped bc₀.db batch k :=
      h.all k hk (hmoved hsome) (.inr (ne_nil_of_mem (mem_readAllHashes.mpr hsome)))
    exact ⟨h.lookup_of_mem (hw.header hash hsome), fun hspare =>
      (hw.content hash hsome hspare).imp h.lookup_of_mem h.lookup_of_mem⟩

omit hcon in
/-- What is spared stays as it was. -/
theorem Rewinding.lookup_of_spared (hspare : Db.Spared bc₀.db k hash) :
    (write bc.db.kv batch).lookup (Key.body k hash) = bc₀.db.kv.lookup (Key.body k hash) ∧
      (write bc.db.kv batch).lookup (Key.receipts k hash) =
        bc₀.db.kv.lookup (Key.receipts k hash) := by
  rw [← h.same.kv _ rfl, ← h.same.kv _ rfl]
  exact ⟨lookup_write_of_not_mem fun w hw => (h.spared w hw k hash hspare).1,
    lookup_write_of_not_mem fun w hw => (h.spared w hw k hash hspare).2⟩

/-- Above the new head the table is empty. -/
theorem Rewinding.table_above (hk : bc.currentHeader.number < k) :
    (bc.db.write batch).readCanonicalHash k = Hash.zero := by
  rw [Db.readCanonicalHash, h.ancients_eq_none hk]
  by_cases hmem : ⟨.canonicalHash k, none⟩ ∈ batch
  · rw [Db.write, h.lookup_of_mem hmem]
    rfl
  · have hlarge : bc₀.currentHeader.number < k := by
      by_contra hge
      exact hmem (h.all k hk (by omega) (.inl (by omega))).table
    have hzero := hcon.line.above k hlarge
    rw [readCanonicalHash_of_le (by have := hcon.frozen; omega)] at hzero
    rw [Db.write, lookup_write_of_not_mem, h.same.kv _ rfl]
    · exact hzero
    · rintro ⟨key, v⟩ hw rfl
      have hvalue : v = none := (h.only _ hw).1
      rw [hvalue] at hw
      exact hmem hw

/-- The number of a header that stays is still stored. -/
theorem Rewinding.headerNumber (hk : k ≤ bc.currentHeader.number) :
    (write bc.db.kv batch).lookup (Key.headerNumber (c k).hash) = some k := by
  have hle := h.le
  rw [lookup_write_of_not_mem, h.same.kv _ rfl, hcon.numbers k (by omega)]
  intro w hw heq
  have habove := (h.only w hw).2
  rw [heq] at habove
  obtain ⟨i, hi, hs⟩ := habove
  have hstored : (bc₀.db.readHeader (c k).hash k).isSome := by
    rw [hcon.line.stored k (by omega)]
    rfl
  have := hcon.distinct _ i k hs hstored
  omega

end

/-- A marker is not deleted. -/
theorem Rewinding.marker (hkey : key.isMarker = true) :
    (write bc.db.kv batch).lookup key = bc.db.kv.lookup key := by
  refine lookup_write_of_not_mem fun w hw heq => ?_
  have habove := (h.only w hw).2
  rw [heq] at habove
  cases key <;> first | exact habove | cases hkey

end Cleared

theorem headMarker_of_ne (h : hash ≠ Hash.zero) : headMarker (some hash) = some hash := by
  simp [headMarker, h]

/-- A marker of a block of the line is found. -/
theorem Rewinding.byHash (h : Rewinding sdb bc₀ bc c batch) (hcon : Consistent genesis bc₀ c)
    {b : Header} (hline : b = c b.number) (hle : b.number ≤ bc.currentHeader.number) :
    (headMarker (some b.hash)).bind (bc.db.write batch).getBlockByHash =
      bc₀.db.getBlock b.hash b.number ∧
      (headMarker (some b.hash)).bind (bc.db.write batch).getHeaderByHash =
        bc₀.db.readHeader b.hash b.number := by
  have hnumber := h.headerNumber hcon hle
  have hnonzero := hcon.line.nonzero _ (le_trans hle h.le)
  rw [← hline] at hnumber hnonzero
  rw [headMarker_of_ne hnonzero, bind_some, bind_some, getBlockByHash, getHeaderByHash,
    show (bc.db.write batch).kv.lookup (Key.headerNumber b.hash) = _ from hnumber]
  exact ⟨(h.sameBelow hle _).2.1, (h.sameBelow hle _).1⟩

/-- **The markers are loaded back** as the rewind left them. -/
theorem Rewinding.loadLastState (h : Rewinding sdb bc₀ bc c batch)
    (hcon : Consistent genesis bc₀ c) :
    ∃ b snap, bc₀.db.getBlock bc.currentBlock.hash bc.currentBlock.number = some b ∧
      b.header = bc.currentBlock ∧ ChainState.loadLastState { bc with db := bc.db.write batch } =
        .ok { bc with db := bc.db.write batch, currentSnapBlock := snap } := by
  have hle := h.le
  have hble := h.block_le
  obtain ⟨b, hb⟩ := isSome_iff_exists.mp h.blockStored
  have hheader : b.header = bc.currentBlock := by
    rw [h.blockLine]
    refine hcon.descent.header_eq (by omega) ?_
    rw [← h.blockLine, hb]
  have hblock : (bc.db.write batch).kv.lookup Key.headBlockHash = some bc.currentBlock.hash :=
    (h.marker rfl).trans h.blockMarker
  have hhead : (bc.db.write batch).kv.lookup Key.headHeaderHash = some bc.currentHeader.hash :=
    (h.marker rfl).trans h.headerMarker
  have hstored := hcon.line.stored _ hle
  rw [← h.header] at hstored
  obtain ⟨snap, hsnap⟩ : ∃ snap,
    (((headMarker ((bc.db.write batch).kv.lookup Key.headFastBlockHash)).bind
      (bc.db.write batch).getBlockByHash).getD b).header = snap := ⟨_, rfl⟩
  rw [ChainState.loadLastState]
  simp [hblock, hhead, (h.byHash hcon h.blockLine hble).1, hb,
    (h.byHash hcon h.header (le_refl _)).2, hstored, hsnap, hheader]

/-- **The header chain** stops at or below the target, unless the state database fails. -/
theorem setHeaders_spec (sdb : StateDatabase σ genesis) (head : Nat)
    (h : Consistent genesis bc₀ c) :
    CritOr (setHeaders sdb bc₀ head) fun r => ∃ bc batch, r = { bc with db := bc.db.write batch } ∧
      Stops sdb bc₀ bc₀ c bc₀.db.ancients.length head [] (bc, batch) ∧
      Rewinding sdb bc₀ bc c batch := by
  rw [setHeaders]
  obtain hloop | ⟨⟨bc, batch⟩, hloop, hstops, hr⟩ :=
    @rewindHeaders_spec [] σ genesis sdb c bc₀ bc₀ true bc₀.db.ancients.length head
      (bc₀.currentHeader.number + 1) h (h.rewinding sdb) (Nat.lt_succ_self _) (by simp)
  · rw [hloop]
    exact .inl rfl
  · rw [hloop]
    exact .inr ⟨_, rfl, bc, batch, rfl, hstops, hr⟩

/-- The rewind comes to a block with state: the head block has one, or a round looks for one. -/
def FindsState (sdb : StateDatabase σ genesis) (bc : ChainState σ) (head : Nat) : Prop :=
  sdb.hasState bc.state bc.currentBlock.root = true ∨
    head < bc.currentHeader.number ∧
      (head ≤ bc.currentBlock.number ∨ bc.wipe bc.db.ancients.length = true)

/-- What is stored above the head header is deleted, or there is nothing. -/
def ClearsAbove (bc : ChainState σ) (head : Nat) : Prop :=
  head < bc.currentHeader.number ∨
    ∀ k hash, bc.currentHeader.number < k → bc.db.kv.lookup (Key.header k hash) = none

/-- Above a height nothing is spared. -/
def SparesNothing (bc : ChainState σ) (number : Nat) : Prop :=
  ∀ k hash, number < k → Db.Spared bc.db k hash →
    bc.db.kv.lookup (Key.body k hash) = none ∧ bc.db.kv.lookup (Key.receipts k hash) = none

section

variable {head : Nat} (h : Consistent genesis bc₀ c) (hr : Rewinding sdb bc₀ bc c batch)
  (hstops : Stops sdb bc₀ bc₀ c bc₀.db.ancients.length head [] (bc, batch))
include h hr hstops

/-- The head block after the loop has its state just if the rewind comes to one. -/
theorem Stops.state_iff :
    sdb.hasState bc.state bc.currentBlock.root = true ↔ FindsState sdb bc₀ head := by
  have hle := hr.le
  have hlow : bc.currentHeader.number ≤ head := hstops.low
  constructor
  · intro hs
    by_contra hno
    obtain ⟨hnone, hno⟩ := not_or.mp hno
    -- otherwise the head block is kept, which has no state
    refine hnone ?_
    suffices hkept : bc.currentBlock = bc₀.currentBlock ∧ bc.state = bc₀.state by
      rwa [hkept.1, hkept.2] at hs
    by_cases hhead : head < bc₀.currentHeader.number
    · obtain ⟨habove, hwipe⟩ := not_or.mp fun hor => hno ⟨hhead, hor⟩
      have hreached := hstops.reached (Bool.eq_false_iff.mpr hwipe) (by omega) (by omega)
      exact hr.kept (.inr (by dsimp only at hreached; omega))
    · obtain ⟨rfl, -⟩ := Prod.mk.inj (hstops.still (by omega))
      exact ⟨rfl, rfl⟩
  · rintro (hs | ⟨hlt, hor⟩)
    · obtain hs' | hkept := hr.state
      · exact hs'
      · rw [(hr.kept hkept).1, (hr.kept hkept).2, hs]
    · refine hr.state.resolve_right fun hkept => ?_
      obtain hle₀ | hwipe := hor
      · omega
      · have hwiped := hstops.wiped hwipe
        dsimp only at hwiped
        omega

/-- After the loop nothing is left above just if all is deleted there and nothing is spared. -/
theorem Stops.cleared_iff :
    (∀ k hash, bc.currentHeader.number < k →
      (write bc.db.kv batch).lookup (Key.header k hash) = none ∧
      (write bc.db.kv batch).lookup (Key.body k hash) = none ∧
      (write bc.db.kv batch).lookup (Key.receipts k hash) = none) ↔
    ClearsAbove bc₀ head ∧ SparesNothing bc₀ bc.currentHeader.number := by
  have hlow := hstops.low
  dsimp only at hlow
  constructor
  · refine fun hnone => ⟨?_, fun k hash hk hspare => ?_⟩
    · by_cases hhead : head < bc₀.currentHeader.number
      · exact .inl hhead
      · obtain ⟨rfl, rfl⟩ := Prod.mk.inj (hstops.still (by omega))
        exact .inr fun k hash hk => (hnone k hash hk).1
    · have hkept := hr.lookup_of_spared hspare
      rw [← hkept.1, ← hkept.2]
      exact (hnone k hash hk).2
  · rintro ⟨habove, hspares⟩ k hash hk
    have hcleared := hr.cleared h hk hash fun hsome => by
      obtain hlt | hnone := habove
      · omega
      · by_contra hge
        simp [hnone k hash (by omega)] at hsome
    refine ⟨hcleared.1, ?_⟩
    by_cases hspare : Db.Spared bc₀.db k hash
    · have hkept := hr.lookup_of_spared hspare
      rw [hkept.1, hkept.2]
      exact hspares k hash hk hspare
    · exact hcleared.2 hspare

end

/-- A state database that keeps the roots it has. -/
def sampleStates (genesis : Block) : StateDatabase (List Hash) genesis where
  hasState s root := s.contains root
  stateRecoverable _ _ := false
  recover _ _ := none
  commitGenesis s := some (genesis.root :: s)
  hasState_recover h := by cases h
  hasState_commitGenesis h := by
    rw [← Option.some.inj h]
    simp

/-- The entries of a store with some blocks, of which those in `canon` are canonical. -/
def sampleEntries (canon stored : List Block) (head : Hash) : List (Sigma Value) :=
  stored.flatMap (fun b => [⟨.header b.number b.hash, b.header⟩, ⟨.body b.number b.hash, b.txs⟩,
      ⟨.receipts b.number b.hash, ([] : Bytes)⟩]) ++
    (canon ++ stored).map (fun b => ⟨.headerNumber b.hash, b.number⟩) ++
    (canon.filter (stored.contains ·)).map (fun b => ⟨.canonicalHash b.number, b.hash⟩) ++
    [⟨.headHeaderHash, head⟩, ⟨.headBlockHash, head⟩, ⟨.headFastBlockHash, head⟩]

section Sample

variable {canon stored : List Block} {head : Hash}

/-- What is read from the worked database was listed. -/
theorem mem_of_lookup_sample {v : Value key}
    (h : (sampleEntries canon stored head).toAList.lookup key = some v) :
    (⟨key, v⟩ : Sigma Value) ∈ sampleEntries canon stored head := by
  rw [AList.lookup_to_alist] at h
  exact of_mem_dlookup h

theorem header_of_sample {header : Header}
    (h : (sampleEntries canon stored head).toAList.lookup (Key.header k hash) = some header) :
    ∃ b ∈ stored, b.number = k ∧ b.hash = hash ∧ b.header = header := by
  have := mem_of_lookup_sample h
  simp [sampleEntries] at this
  grind

/-- Contents in the worked database belong to a stored block. -/
theorem content_of_sample (hkey : key = .header k hash ∨ key = .body k hash ∨
    key = .receipts k hash)
    (h : ((sampleEntries canon stored head).toAList.lookup key).isSome) :
    ∃ b ∈ stored, b.number = k ∧ b.hash = hash := by
  obtain ⟨v, hv⟩ := isSome_iff_exists.mp h
  have := mem_of_lookup_sample hv
  simp [sampleEntries] at this
  grind

theorem isSome_header_sample (h : b ∈ stored) :
    ((sampleEntries canon stored head).toAList.lookup (Key.header b.number b.hash)).isSome := by
  rw [AList.lookup_to_alist, dlookup_isSome, mem_keys]
  refine ⟨b.header, ?_⟩
  simp only [sampleEntries, mem_append, mem_flatMap]
  exact .inl (.inl (.inl ⟨b, h, mem_cons_self⟩))

/-- A chain with the head block at the head header. -/
def sampleChain (canon stored frozen : List Block) (head : Header) (s : List Hash) :
    ChainState (List Hash) :=
  ⟨⟨(sampleEntries canon stored head.hash).toAList, frozen⟩, none, s, head, head, head⟩

/-- The header of a number in the sample. -/
def sampleLine (genesis : Block) (canon : List Block) (k : Nat) :
    Header := (canon[k]?.getD genesis).header

variable {frozen : List Block} {header : Header} {s : List Hash}

theorem readHeader_sample (hfrozen : frozen.map Block.number = List.range frozen.length)
    (h : ((sampleChain canon stored frozen header s).db.readHeader hash k).isSome) :
    ∃ b ∈ stored ++ frozen, b.number = k ∧ b.hash = hash := by
  rw [Db.readHeader] at h
  split at h
  next b hb =>
    split at h
    next heq =>
      have hnumber : (frozen.map Block.number)[k]? = some b.number := by
        rw [getElem?_map, show frozen[k]? = some b from hb]
        rfl
      rw [hfrozen] at hnumber
      obtain ⟨hlt, heq'⟩ := List.getElem?_eq_some_iff.mp hnumber
      rw [getElem_range] at heq'
      exact ⟨b, mem_append_right _ (mem_of_getElem? hb), heq'.symm, heq⟩
    · obtain ⟨b', hb', hnumber⟩ := content_of_sample (.inl rfl) h
      exact ⟨b', mem_append_left _ hb', hnumber⟩
  · obtain ⟨b', hb', hnumber⟩ := content_of_sample (.inl rfl) h
    exact ⟨b', mem_append_left _ hb', hnumber⟩

/-- The conditions on all keys, from checks of the blocks. -/
theorem stored_sample (hfrozen : frozen.map Block.number = List.range frozen.length)
    (hdistinct : ∀ a ∈ stored ++ frozen, ∀ b ∈ stored ++ frozen, a.hash = b.hash →
      a.number = b.number)
    (hparents : ∀ b ∈ stored, header.number + 1 < b.number →
      ∃ p ∈ stored, p.hash = b.parentHash ∧ p.number + 1 = b.number)
    (hlen : frozen.length ≤ header.number + 1) (hnumber : ∀ b ∈ canon, b.number ≤ header.number) :
    let db := (sampleChain canon stored frozen header s).db
    (∀ hash i k, (db.readHeader hash i).isSome → (db.readHeader hash k).isSome → i = k) ∧
      (∀ k hash, (db.kv.lookup (Key.body k hash)).isSome ∨
        (db.kv.lookup (Key.receipts k hash)).isSome →
        (db.kv.lookup (Key.header k hash)).isSome) ∧
      (∀ k hash header', header.number < k → db.kv.lookup (Key.header (k + 1) hash) = some header' →
        (db.kv.lookup (Key.header k header'.parentHash)).isSome) ∧
      ∀ k, header.number < k → db.readCanonicalHash k = Hash.zero := by
  refine ⟨fun hash i k hi hk => ?_, fun k hash h => ?_, fun k hash header' hk h => ?_,
    fun k hk => ?_⟩
  · obtain ⟨a, ha, rfl, hhash⟩ := readHeader_sample hfrozen hi
    obtain ⟨b, hb, rfl, rfl⟩ := readHeader_sample hfrozen hk
    exact hdistinct a ha b hb hhash
  · obtain ⟨b, hb, rfl, rfl⟩ : ∃ b ∈ stored, b.number = k ∧ b.hash = hash := by
      obtain h | h := h
      · exact content_of_sample (.inr (.inl rfl)) h
      · exact content_of_sample (.inr (.inr rfl)) h
    exact isSome_header_sample hb
  · obtain ⟨b, hb, hnumber, -, rfl⟩ := header_of_sample h
    obtain ⟨p, hp, hhash, hpn⟩ := hparents b hb (by omega)
    have hparent := @isSome_header_sample p canon stored header.hash hp
    rwa [hhash, show p.number = k by omega] at hparent
  · rw [readCanonicalHash_of_le (show frozen.length ≤ k by omega)]
    cases hv : (sampleChain canon stored frozen header s).db.kv.lookup (Key.canonicalHash k) with
    | none => rfl
    | some v =>
      have hmem := mem_of_lookup_sample hv
      simp [sampleEntries] at hmem
      obtain ⟨b, hb, hbk, -⟩ := hmem
      have := hnumber b hb.1
      omega

/-- A run whose result passes a check. -/
theorem exists_ok_of_check {ε α : Type} {r : Except ε α} {P : α → Prop} [DecidablePred P]
    (h : r.toOption.any (fun a => decide (P a)) = true) : ∃ a, r = .ok a ∧ P a := by
  cases r with
  | error e => cases h
  | ok a => exact ⟨a, rfl, of_decide_eq_true h⟩

end Sample

/-- A block with the parent of a number, and a root of its own. -/
def sampleBlock (k parent : UInt8) (number : Nat) : Block :=
  ⟨⟨Hash.ofBytes [k], Hash.ofBytes [parent], number, Hash.ofBytes [100 + k]⟩,
    [Hash.ofBytes [200 + k]]⟩

def sampleGenesis : Block := sampleBlock 1 0 0

/-- Genesis is frozen and has its state, its child is the head, and a side chain of two blocks is
stored. -/
def sampleFork : ChainState (List Hash) :=
  sampleChain [sampleGenesis, sampleBlock 2 1 1] [sampleGenesis, sampleBlock 2 1 1,
    sampleBlock 3 1 1, sampleBlock 4 3 2]
    [sampleGenesis] (sampleBlock 2 1 1).header [sampleGenesis.root]

/-- Genesis and its child are frozen, with a side block at the height of the child. -/
def sampleFrozen : ChainState (List Hash) :=
  sampleChain [sampleGenesis, sampleBlock 2 1 1, sampleBlock 5 2 2]
    [sampleGenesis, sampleBlock 3 1 1, sampleBlock 5 2 2]
    [sampleGenesis, sampleBlock 2 1 1] (sampleBlock 5 2 2).header [sampleGenesis.root]

theorem consistent_sampleFork :
    Consistent sampleGenesis sampleFork
      (sampleLine sampleGenesis [sampleGenesis, sampleBlock 2 1 1]) := by
  obtain ⟨hdistinct, hcontent, hparents, habove⟩ :=
    @stored_sample [sampleGenesis, sampleBlock 2 1 1]
      [sampleGenesis, sampleBlock 2 1 1, sampleBlock 3 1 1, sampleBlock 4 3 2] [sampleGenesis]
      (sampleBlock 2 1 1).header [sampleGenesis.root] (by decide +kernel) (by decide +kernel)
      (by decide +kernel) (by decide) (by decide +kernel)
  constructor
  case line => constructor <;> first | exact habove | decide +kernel
  all_goals first | assumption | decide +kernel

theorem consistent_sampleFrozen : Consistent sampleGenesis sampleFrozen
    (sampleLine sampleGenesis [sampleGenesis, sampleBlock 2 1 1, sampleBlock 5 2 2]) := by
  obtain ⟨hdistinct, hcontent, hparents, habove⟩ :=
    @stored_sample [sampleGenesis, sampleBlock 2 1 1, sampleBlock 5 2 2]
      [sampleGenesis, sampleBlock 3 1 1, sampleBlock 5 2 2] [sampleGenesis, sampleBlock 2 1 1]
      (sampleBlock 5 2 2).header [sampleGenesis.root] (by decide +kernel) (by decide +kernel)
      (by decide +kernel) (by decide) (by decide +kernel)
  constructor
  case line => constructor <;> first | exact habove | decide +kernel
  all_goals first | assumption | decide +kernel

end ChainState

end GoQrl.Chain
