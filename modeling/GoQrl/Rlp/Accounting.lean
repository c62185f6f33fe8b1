import GoQrl.Rlp.Fields

/-!
# GoQrl.Rlp.Accounting

The sizes that a stream keeps for the lists it is in, over whole runs of calls.

`Kind` compares the size of a value with what its list had left *before* the header, and
`List` takes the size off what is left *behind* the header.  A list whose header ends the
list around it passes the check, and the subtraction wraps (`run_wraps`).  The sizes are right
just if no header is read whose size is between the two (`run_accounted_iff`).
-/

namespace GoQrl.Rlp.Stream

open Rlp List

/-! ## calls -/

/-- `Raw`: the encoding of the next value, behind a new header. -/
def raw : StreamM Bytes := fun s =>
  match kindAhead s with
  | (.error e, s) => (.error e, s)
  | (.ok (.byte, _), s) => (.ok [s.byteval], { s with kind := none })
  | (.ok (k, size), s) =>
    match readFull size.toNat s with
    | (.error e, s) => (.error e, s)
    | (.ok b, s) =>
      if k = .string then (.ok (puthead 0x80 0xB7 size.toNat ++ b), s)
      else (.ok (puthead 0xC0 0xF7 size.toNat ++ b), s)

/-- `MoreDataInList`. -/
def moreDataInList : StreamM Bool := fun s => (.ok (s.stack.head?.any (· > 0)), s)

/-- The calls on a stream. -/
inductive Call
  | kind
  | list
  | listEnd
  | bytes
  | raw
  | uint (maxbits : Nat)
  | bigInt
  | moreDataInList

/-- The stream after a call, successful or not. -/
def Call.run : Call → Stream → Stream
  | .kind, s => s.kindAhead.2
  | .list, s => s.list.2
  | .listEnd, s => s.listEnd.2
  | .bytes, s => s.bytes.2
  | .raw, s => s.raw.2
  | .uint maxbits, s => (s.uint maxbits).2
  | .bigInt, s => s.decodeBigInt.2
  | .moreDataInList, s => s.moreDataInList.2

/-- The declared sizes of the open lists after a call, the innermost first. -/
def Call.declare : Call → Stream → List UInt64 → List UInt64
  | .list, s, declared =>
    match s.list.1 with
    | .ok size => size :: declared
    | .error _ => declared
  | .listEnd, s, declared =>
    match s.listEnd.1 with
    | .ok () => declared.tail
    | .error _ => declared
  | _, _, declared => declared

/-- The stream after a run of calls, with the declared sizes of the open lists. -/
def runCalls (r : Bytes) (inputLimit : UInt64) (calls : List Call) : Stream × List UInt64 :=
  calls.foldl (fun st call => (call.run st.1, call.declare st.1 st.2)) (reset r inputLimit, [])

/-- The header that is read next is that of a list which is not longer than what the list
around it has left before the header, but longer than what it has left behind the header.
The input has room for it, if it is limited. -/
def overruns (s : Stream) : Bool :=
  match s.kind, s.readKind with
  | none, (.ok (.list, size), s') =>
    s.stack.head?.all (size ≤ ·) && s'.stack.head?.any (· < size) &&
      !(s'.limited && size > s'.remaining)
  | _, _ => false

/-! ## what a call keeps -/

variable {s t : Stream} {declared : List UInt64} {n : Nat}

/-- No open list has more left than it declared. -/
def Stored (declared : List UInt64) (s : Stream) : Prop := List.Forall₂ (· ≤ ·) s.stack declared

/-- No open list has more left than it declared, and a list whose header has been read fits
into what is left around it. -/
structure Accounted (declared : List UInt64) (s : Stream) : Prop where
  stored : Stored declared s
  ahead : s.kind = some .list → s.kinderr = none → s.stack.head?.all (s.size ≤ ·)

theorem Stored.rearm (h : Stored declared s) (hk : s.kind = none) : Accounted declared s :=
  ⟨h, fun hkind => by rw [hk] at hkind; cases hkind⟩

theorem sub_le_of_le {limit n : UInt64} (h : n ≤ limit) : limit - n ≤ limit := by
  rw [UInt64.le_iff_toNat_le, UInt64.toNat_sub_of_le _ _ h]
  exact Nat.sub_le _ _

section

variable (h : Stored declared s)
include h

theorem Stored.willRead {n : UInt64} {res : Except RlpError Unit}
    (hread : willRead n s = (res, t)) :
    Stored declared t ∧ t.kind = none := by
  unfold Stored at h ⊢
  unfold Stream.willRead takeRemaining at hread
  cases hst : s.stack with
  | nil => grind
  | cons limit rest =>
    rw [hst, forall₂_cons_left_iff] at h
    obtain ⟨size, sizes, hlimit, hrest, rfl⟩ := h
    have htake (hle : n ≤ limit) : Forall₂ (· ≤ ·) ((limit - n) :: rest) (size :: sizes) :=
      .cons (UInt64.le_trans (sub_le_of_le hle) hlimit) hrest
    have hleft : Forall₂ (· ≤ ·) (limit :: rest) (size :: sizes) := .cons hlimit hrest
    grind

theorem Stored.readByte {res : Except RlpError UInt8} (hread : readByte s = (res, t)) :
    Stored declared t ∧ t.kind = none := by
  unfold Stream.readByte at hread
  grind [Stored, → Stored.willRead]

theorem Stored.readFull {res : Except RlpError Bytes} (hread : readFull n s = (res, t)) :
    Stored declared t ∧ t.kind = none := by
  unfold Stream.readFull at hread
  grind [Stored, → Stored.willRead]

theorem Stored.readUint {res : Except RlpError UInt64} (hread : readUint n s = (res, t)) :
    Stored declared t ∧ t.kind = none := by
  unfold Stream.readUint at hread
  grind [Stored, → Stored.readByte, → Stored.readFull]

variable {res : Except RlpError (Kind × UInt64)}

theorem Stored.readSizeField {k : Kind} (hread : readSizeField k n s = (res, t)) :
    Stored declared t := by
  unfold Stream.readSizeField at hread
  grind [→ Stored.readUint]

theorem Stored.readKind (hread : readKind s = (res, t)) : Stored declared t := by
  unfold Stream.readKind at hread
  rcases hb : s.readByte with ⟨e | b, s1⟩
  · grind [→ Stored.readByte]
  · have hs : Stored declared { s1 with byteval := 0 } := (h.readByte hb).1
    grind [Stored, → Stored.readSizeField]

end

/-- What `Kind` returns is kept. -/
theorem kindAhead_kept {k : Kind} {size : UInt64} (h : s.kindAhead = (.ok (k, size), t)) :
    t.kind = some k ∧ t.kinderr = none ∧ t.size = size := by
  unfold kindAhead at h
  grind

/-- A list that passes the check of `Kind` fits behind its header if the header does not overrun. -/
theorem fits_of_sizeError {size : UInt64} (hkind : s.kind = none)
    (hread : s.readKind = (.ok (.list, size), t))
    (hsize : sizeError s.stack.head? size t = none) (hno : s.overruns = false) :
    t.stack.head?.all (size ≤ ·) := by
  unfold sizeError at hsize
  simp only [overruns, hkind, hread] at hno
  cases hs : s.stack.head? <;> cases ht : t.stack.head? <;> grind

/-- `Kind` keeps the accounts, whatever it reads, if the header ahead does not overrun. -/
theorem Accounted.kindAhead (h : Accounted declared s) (hno : s.overruns = false)
    (hk : s.kindAhead = (res, t)) : Accounted declared t := by
  unfold Stream.kindAhead at hk
  split at hk
  · grind
  · next hkind =>
    rcases hr : s.readKind with ⟨e | ⟨k, size⟩, s1⟩
    · have hread := h.stored.readKind hr
      grind [Stored, Accounted]
    · have hread := h.stored.readKind hr
      have hfits (hlist : k = .list) (hsize : sizeError s.stack.head? size s1 = none) :=
        fits_of_sizeError hkind (hlist ▸ hr) hsize hno
      grind [Stored, Accounted]

/-- `List` enters the list of a header that overruns, and the rest of the list around it is too
short. -/
theorem list_of_overruns (h : s.overruns = true) :
    ∃ size s' limit, s.list = (.ok size, s') ∧ s.kindAhead.2.stack.head? = some limit ∧
      limit < size := by
  unfold overruns at h
  split at h
  · next size s1 hkind hread =>
    simp only [Bool.and_eq_true, Option.any_eq_true] at h
    obtain ⟨⟨hbefore, limit, hlimit, hlt⟩, hroom⟩ := h
    -- a list that is at its end has no room for a header
    have hopen : s.stack.head? ≠ some 0 := by
      intro hzero
      grind
    have hcheck : sizeError s.stack.head? size s1 = none := by
      unfold sizeError
      cases hs : s.stack.head? <;> grind
    have hk : s.kindAhead =
        (.ok (.list, size), { s1 with kind := some .list, size := size, kinderr := none }) := by
      simp only [kindAhead, hkind, if_neg hopen, hread, hcheck]
    exact ⟨size, s.list.2, limit, by rw [list, hk], by rw [hk]; exact hlimit, by simpa using hlt⟩
  · cases h

/-- `List` takes a list that fits off what is left around it. -/
theorem Accounted.list (hk : Accounted declared s.kindAhead.2) :
    Accounted (Call.list.declare s declared) s.list.2 := by
  rcases hb : s.kindAhead with ⟨e | ⟨k, size⟩, s1⟩ <;> rw [hb] at hk
  · simp only [Call.declare, Stream.list, hb]
    exact hk
  · obtain ⟨hkind, herr, hsize⟩ := kindAhead_kept hb
    have hfit := hk.ahead
    have hstored := hk.stored
    cases k with
    | byte | string => simp only [Call.declare, Stream.list, hb]; exact hk
    | list =>
      simp only [Call.declare, Stream.list, hb]
      refine Stored.rearm (.cons (UInt64.le_refl _) ?_) rfl
      unfold Stored at hstored
      cases hst : s1.stack with
      | nil => rwa [hst] at hstored
      | cons limit rest =>
        simp only [hst, forall₂_cons_left_iff] at hstored ⊢
        grind [sub_le_of_le, UInt64.le_trans]

theorem Accounted.listEnd (h : Accounted declared s) :
    Accounted (Call.listEnd.declare s declared) s.listEnd.2 := by
  have hstored := h.stored
  unfold Stored at hstored
  cases hst : s.stack with
  | nil => simp only [Call.declare, Stream.listEnd, hst]; exact h
  | cons limit rest =>
    rw [hst, forall₂_cons_left_iff] at hstored
    by_cases hl : limit > 0
    · simp only [Call.declare, Stream.listEnd, hst, if_pos hl]; exact h
    · obtain ⟨size, sizes, -, hrest, rfl⟩ := hstored
      simp only [Call.declare, listEnd, hst, if_neg hl]
      exact Stored.rearm hrest rfl

/-- **Every call keeps the accounts**, if the header that it may read does not overrun. -/
theorem Accounted.call (call : Call) (h : Accounted declared s) (hno : s.overruns = false) :
    Accounted (call.declare s declared) (call.run s) := by
  have hk : Accounted declared s.kindAhead.2 := h.kindAhead hno rfl
  have hfull {n : Nat} {s t : Stream} {res : Except RlpError Bytes} (h : Accounted declared s)
      (hread : s.readFull n = (res, t)) : Accounted declared t :=
    (h.stored.readFull hread).1.rearm (h.stored.readFull hread).2
  have huint {n : Nat} {s t : Stream} {res : Except RlpError UInt64} (h : Accounted declared s)
      (hread : s.readUint n = (res, t)) : Accounted declared t :=
    (h.stored.readUint hread).1.rearm (h.stored.readUint hread).2
  have hrearm {s : Stream} (h : Accounted declared s) :
      Accounted declared { s with kind := none } :=
    Stored.rearm (s := { s with kind := none }) h.stored rfl
  -- the other calls leave the value whose header was read, drop it, or read it
  cases call with
  | list => exact hk.list
  | listEnd => exact h.listEnd
  | kind => exact hk
  | moreDataInList => exact h
  | bytes => grind [Call.run, Call.declare, bytes]
  | raw => grind [Call.run, Call.declare, raw]
  | uint maxbits => grind [Call.run, Call.declare, uint]
  | bigInt => grind [Call.run, Call.declare, decodeBigInt, bigIntBuffer]

/-! ## whole runs -/

/-- The accounts after a run in which no header overruns. -/
theorem accounted_runCalls (r : Bytes) (inputLimit : UInt64) (calls : List Call)
    (hno : ∀ start ∈ calls.inits, (runCalls r inputLimit start).1.overruns = false) :
    Accounted (runCalls r inputLimit calls).2 (runCalls r inputLimit calls).1 := by
  induction calls using reverseRecOn with
  | nil => exact Stored.rearm .nil rfl
  | append_singleton calls call ih =>
    have hbefore := ih fun start hstart =>
      hno start ((mem_inits _ _).mpr (((mem_inits _ _).mp hstart).trans (prefix_append _ _)))
    have hcall := hbefore.call call (hno calls ((mem_inits _ _).mpr (prefix_append _ _)))
    rwa [runCalls, foldl_append]

/-- A list that is entered has at most the size that is left around it. -/
theorem Accounted.list_le (h : Accounted declared s) (hno : s.overruns = false) {size : UInt64}
    (hlist : s.list = (.ok size, t)) : ∀ limit ∈ s.kindAhead.2.stack.head?, size ≤ limit := by
  have hk : Accounted declared s.kindAhead.2 := h.kindAhead hno rfl
  intro limit hlimit
  unfold Stream.list at hlist
  split at hlist
  · cases hlist
  · next hb =>
    cases hlist
    obtain ⟨hkind, herr, hsize⟩ := kindAhead_kept hb
    rw [hb] at hk hlimit
    have hfit := hk.ahead hkind herr
    rw [hsize, Option.all_eq_true] at hfit
    simpa using hfit limit hlimit
  · cases hlist

/-- **Where no size wraps:** take any run of calls on any input, limited or not.  At each of its
states a list that `List` enters has at most the size that is left around it, and no open list has
more left than it declared, just if at none of them a header overruns. -/
theorem run_accounted_iff (r : Bytes) (inputLimit : UInt64) (calls : List Call) :
    (∀ start ∈ calls.inits,
      (∀ size s', (runCalls r inputLimit start).1.list = (.ok size, s') →
        ∀ limit ∈ (runCalls r inputLimit start).1.kindAhead.2.stack.head?, size ≤ limit) ∧
      List.Forall₂ (· ≤ ·) (runCalls r inputLimit start).1.stack (runCalls r inputLimit start).2) ↔
    ∀ start ∈ calls.inits, (runCalls r inputLimit start).1.overruns = false := by
  constructor
  · intro h start hstart
    by_contra hover
    obtain ⟨size, s', limit, hlist, hlimit, hlt⟩ := list_of_overruns (Bool.not_eq_false _ ▸ hover)
    exact UInt64.not_lt.mpr ((h start hstart).1 size s' hlist limit hlimit) hlt
  · intro hno start hstart
    have h := accounted_runCalls r inputLimit start fun start' hstart' =>
      hno start' ((mem_inits _ _).mpr
        (((mem_inits _ _).mp hstart').trans ((mem_inits _ _).mp hstart)))
    exact ⟨fun size s' => h.list_le (hno start hstart), h.stored⟩

/-- In `C1 C5` the inner list is longer than all the rest, and `Kind` refuses it. -/
example : (runCalls [0xC1, 0xC5] 2 [.list]).1.overruns = false ∧
    (runCalls [0xC1, 0xC5] 2 [.list]).1.list.1.toOption = none := by
  decide +kernel

/-- **The accounts wrap** on `C1 C1 00`: the inner list of one byte is entered with no byte left
around it, and leaves `2 ^ 64 - 1` bytes in a list of one byte. -/
theorem run_wraps :
    (runCalls [0xC1, 0xC1, 0x00] 3 [.list]).1.list.1.toOption = some 1 ∧
    (runCalls [0xC1, 0xC1, 0x00] 3 [.list]).1.kindAhead.2.stack = [0] ∧
    (runCalls [0xC1, 0xC1, 0x00] 3 [.list, .list]).1.stack = [1, 18446744073709551615] ∧
    (runCalls [0xC1, 0xC1, 0x00] 3 [.list, .list]).2 = [1, 1] := by
  decide +kernel

end GoQrl.Rlp.Stream
