import GoQrl.State.StateDB

/-!
# GoQrl.State.AccessList

The access list keeps its indices in range (`AccessList.WF`), so that none of its calls
panics, and every addition is undone exactly by the deletion that the journal holds for it
(`deleteSlot_addSlot`, `deleteAddress_addAddress`).
-/

namespace GoQrl.State.AccessList

open List Option Function

variable {al al' : AccessList} {address a : Address} {slot : Hash}

/-- Every index is `-1` or that of a slot map, which is not empty. -/
def WF (al : AccessList) : Prop :=
  ∀ address idx, al.addresses address = some idx →
    idx = -1 ∨ ∃ (n : Nat) (slotmap : Finset Hash), idx = (n : Int) ∧
      al.slots[n]? = some slotmap ∧ slotmap ≠ ∅

theorem slotsAt_natCast (al : AccessList) (n : Nat) : al.slotsAt (n : Int) = al.slots[n]? := by
  simp [slotsAt]

theorem wf_new : WF .new := fun _ _ h => by cases h

/-! ## additions -/

section

variable (h : WF al)
include h

theorem WF.addAddress (address : Address) : WF (al.addAddress address).2 := by
  unfold AccessList.addAddress
  split
  · exact h
  · intro a idx ha
    by_cases haddr : a = address
    · simp only [haddr, update_self, some.injEq] at ha
      exact .inl ha.symm
    · simp only [update_of_ne haddr] at ha
      exact h a idx ha

theorem WF.addFirstSlot (address : Address) (slot : Hash) : WF (al.addFirstSlot address slot) := by
  intro a idx ha
  by_cases haddr : a = address
  · subst haddr
    simp only [AccessList.addFirstSlot, update_self, some.injEq] at ha
    exact .inr ⟨al.slots.length, {slot}, ha.symm, by simp [AccessList.addFirstSlot], by simp⟩
  · simp only [AccessList.addFirstSlot, update_of_ne haddr] at ha
    obtain hidx | ⟨n, slotmap, hidx, hn, hne⟩ := h a idx ha
    · exact .inl hidx
    · have hlt : n < al.slots.length := index_lt hn
      refine .inr ⟨n, slotmap, hidx, ?_, hne⟩
      simp [AccessList.addFirstSlot, getElem?_append_left hlt, hn]

/-- What `AddSlot` does: a first slot, nothing, or one more slot. -/
theorem addSlot_cases (address : Address) (slot : Hash) :
    ((al.addresses address = none ∨ al.addresses address = some (-1)) ∧ al.addSlot address slot =
        some (((al.addresses address).isNone, true), al.addFirstSlot address slot)) ∨
    (∃ (n : Nat) (slotmap : Finset Hash), al.addresses address = some (n : Int) ∧
      al.slots[n]? = some slotmap ∧ slotmap ≠ ∅ ∧
      slot ∈ slotmap ∧ al.addSlot address slot = some ((false, false), al)) ∨
    (∃ (n : Nat) (slotmap : Finset Hash), al.addresses address = some (n : Int) ∧
      al.slots[n]? = some slotmap ∧ slotmap ≠ ∅ ∧
      slot ∉ slotmap ∧ al.addSlot address slot =
        some ((false, true), { al with slots := al.slots.set n (insert slot slotmap) })) := by
  cases haddr : al.addresses address with
  | none => exact .inl ⟨.inl rfl, by simp [addSlot, haddr]⟩
  | some idx =>
    obtain rfl | ⟨n, slotmap, rfl, hn, hne⟩ := h address idx haddr
    · exact .inl ⟨.inr rfl, by simp [addSlot, haddr]⟩
    · have hidx : (n : Int) ≠ -1 := by omega
      by_cases hslot : slot ∈ slotmap
      · exact .inr (.inl ⟨n, slotmap, rfl, hn, hne, hslot, by
          simp [addSlot, haddr, hidx, slotsAt_natCast, hn, hslot]⟩)
      · exact .inr (.inr ⟨n, slotmap, rfl, hn, hne, hslot, by
          simp [addSlot, haddr, hidx, slotsAt_natCast, hn, hslot]⟩)

theorem WF.setSlot (n : Nat) (slotmap : Finset Hash) (hne : slotmap ≠ ∅) :
    WF { al with slots := al.slots.set n slotmap } := by
  intro a idx ha
  obtain hidx | ⟨m, slotmap', hidx, hm, hne'⟩ := h a idx ha
  · exact .inl hidx
  · have hlt : m < al.slots.length := index_lt hm
    by_cases hmn : n = m
    · subst hmn
      exact .inr ⟨n, slotmap, hidx, getElem?_set_self hlt, hne⟩
    · exact .inr ⟨m, slotmap', hidx, (getElem?_set_ne hmn).trans hm, hne'⟩

/-- **`AddSlot` does not panic** and keeps the indices in range. -/
theorem WF.addSlot (address : Address) (slot : Hash) :
    ∃ mods al', al.addSlot address slot = some (mods, al') ∧ WF al' := by
  obtain ⟨-, heq⟩ | ⟨n, slotmap, -, -, -, -, heq⟩ | ⟨n, slotmap, -, -, -, -, heq⟩ :=
    addSlot_cases h address slot
  · exact ⟨_, _, heq, h.addFirstSlot address slot⟩
  · exact ⟨_, _, heq, h⟩
  · exact ⟨_, _, heq, h.setSlot n _ (Finset.insert_ne_empty slot slotmap)⟩

/-- `Contains` does not panic. -/
theorem WF.contains (address : Address) (slot : Hash) :
    (al.contains address slot).isSome := by
  cases haddr : al.addresses address with
  | none => simp [AccessList.contains, haddr]
  | some idx =>
    obtain rfl | ⟨n, slotmap, rfl, hn, -⟩ := h address idx haddr
    · simp [AccessList.contains, haddr]
    · have hidx : (n : Int) ≠ -1 := by omega
      simp [AccessList.contains, haddr, hidx, slotsAt_natCast, hn]

end

/-! ## deletions -/

/-- The deletion of an address that was added. -/
theorem deleteAddress_addAddress (h : (al.addAddress address).1 = true) :
    (al.addAddress address).2.deleteAddress address = al := by
  unfold addAddress at h ⊢
  split at h
  · cases h
  · next hnone =>
    have haddr : al.addresses address = none := by simpa using hnone
    rw [if_neg hnone]
    simp only [deleteAddress, update_idem]
    rw [← haddr, update_eq_self]

/-- The deletion of the first slot of an address leaves the address without slots. -/
theorem deleteSlot_addFirstSlot (al : AccessList) (address : Address) (slot : Hash) :
    (al.addFirstSlot address slot).deleteSlot address slot =
      some { al with addresses := Function.update al.addresses address (some (-1)) } := by
  have hat : (al.addFirstSlot address slot).slotsAt (al.slots.length : Int) = some {slot} := by
    rw [slotsAt_natCast]
    simp [addFirstSlot]
  have haddr : (al.addFirstSlot address slot).addresses address = some (al.slots.length : Int) := by
    simp [addFirstSlot]
  simp only [deleteSlot, haddr, hat]
  simp [addFirstSlot]

/-- The deletion of one more slot. -/
theorem deleteSlot_insert {n : Nat} {slotmap : Finset Hash}
    (haddr : al.addresses address = some (n : Int))
    (hn : al.slots[n]? = some slotmap) (hne : slotmap ≠ ∅) (hslot : slot ∉ slotmap) :
    ({ al with slots := al.slots.set n (insert slot slotmap) } : AccessList).deleteSlot address
      slot = some al := by
  obtain ⟨hlt, hget⟩ := List.getElem?_eq_some_iff.mp hn
  have hat : ({ al with slots := al.slots.set n (insert slot slotmap) } : AccessList).slotsAt
      (n : Int) =
      some (insert slot slotmap) :=
    getElem?_set_self hlt
  simp only [deleteSlot, haddr, hat, Finset.erase_insert hslot, if_neg hne,
    Int.toNat_natCast, set_set]
  rw [← hget, set_getElem_self]

/-- **An addition is undone** by the deletions that the journal holds for it: that of the
slot, and then that of the address if it was new. -/
theorem deleteSlot_addSlot (h : WF al) {addrMod slotMod : Bool}
    (hadd : al.addSlot address slot = some ((addrMod, slotMod), al')) :
    (slotMod = false ∧ addrMod = false ∧ al' = al) ∨
    (slotMod = true ∧ ∃ al1, al'.deleteSlot address slot = some al1 ∧
      (if addrMod then al1.deleteAddress address else al1) = al) := by
  obtain ⟨haddr, heq⟩ | ⟨n, slotmap, -, -, -, -, heq⟩ | ⟨n, slotmap, haddr, hn, hne, hslot, heq⟩ :=
    addSlot_cases h address slot
  all_goals
    rw [heq] at hadd
    cases hadd
  · refine .inr ⟨rfl, _, deleteSlot_addFirstSlot al address slot, ?_⟩
    cases haddr with
    | inl hnone =>
      simp only [hnone, isNone_none, if_true, deleteAddress, update_idem]
      rw [← hnone, update_eq_self]
    | inr hsome =>
      simp only [hsome, isNone_some, Bool.false_eq_true, if_false]
      rw [← hsome, update_eq_self]
  · exact .inl ⟨rfl, rfl, rfl⟩
  · exact .inr ⟨rfl, al, deleteSlot_insert haddr hn hne hslot, by simp⟩

end GoQrl.State.AccessList
