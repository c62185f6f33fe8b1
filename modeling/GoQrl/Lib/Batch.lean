import Mathlib.Data.List.AList

/-!
# GoQrl.Lib.Batch

Batches of writes to a key-value store, over arbitrary keys with values of a type that depends on
the key.

A write puts a value or deletes a key, and a batch is applied in order.  What a key holds after a
batch is what the batch writes there (`lookup_write_of_mem`), or what it held before
(`lookup_write_of_not_mem`).
-/

namespace GoQrl.Batch

open List

variable {K : Type} [DecidableEq K] {V : K → Type}

/-- A write: a new value, or nothing to delete the key. -/
structure Write (V : K → Type) where
  key : K
  value : Option (V key)

/-- The store after a write. -/
def Write.apply (s : AList V) (w : Write V) : AList V :=
  match w.value with
  | some v => s.insert w.key v
  | none => s.erase w.key

/-- The store after a batch. -/
def write (s : AList V) (batch : List (Write V)) : AList V := batch.foldl Write.apply s

@[simp] theorem write_cons (s : AList V) (w : Write V) (batch : List (Write V)) :
    write s (w :: batch) = write (w.apply s) batch := rfl

theorem lookup_apply_self (s : AList V) (k : K) (v : Option (V k)) :
    (Write.apply s ⟨k, v⟩).lookup k = v := by
  cases v with
  | none => exact AList.lookup_erase k s
  | some v => exact AList.lookup_insert s

theorem lookup_apply_ne (s : AList V) {w : Write V} {k : K} (h : w.key ≠ k) :
    (w.apply s).lookup k = s.lookup k := by
  rw [Write.apply]
  cases w.value with
  | none => exact AList.lookup_erase_ne h.symm
  | some v => exact AList.lookup_insert_ne h.symm

variable {batch : List (Write V)} {s : AList V}

/-- A key that the batch does not write. -/
theorem lookup_write_of_not_mem {k : K} (h : ∀ w ∈ batch, w.key ≠ k) :
    (write s batch).lookup k = s.lookup k := by
  induction batch generalizing s with
  | nil => rfl
  | cons w batch ih =>
    rw [write_cons, ih fun w' hw' => h w' (mem_cons_of_mem _ hw'),
      lookup_apply_ne s (h w mem_cons_self)]

/-- **A key that the batch writes**, always with the same value. -/
theorem lookup_write_of_mem {k : K} {v : Option (V k)} (hmem : ⟨k, v⟩ ∈ batch)
    (huniq : ∀ v', ⟨k, v'⟩ ∈ batch → v' = v) : (write s batch).lookup k = v := by
  induction batch generalizing s with
  | nil => cases hmem
  | cons w batch ih =>
    rw [write_cons]
    by_cases hrest : ∃ v', ⟨k, v'⟩ ∈ batch
    · obtain ⟨v', hv'⟩ := hrest
      have heq := huniq v' (mem_cons_of_mem _ hv')
      subst heq
      exact ih hv' fun v hv => huniq v (mem_cons_of_mem _ hv)
    · have hw : ⟨k, v⟩ = w := by
        obtain h | h := mem_cons.mp hmem
        · exact h
        · exact absurd ⟨v, h⟩ hrest
      rw [lookup_write_of_not_mem, ← hw, lookup_apply_self]
      rintro ⟨k', v'⟩ hw' rfl
      exact hrest ⟨v', hw'⟩

/-- A batch of deletions adds no key. -/
theorem lookup_write_eq_none {k : K} (hdel : ∀ w ∈ batch, w.value = none)
    (hnone : s.lookup k = none) : (write s batch).lookup k = none := by
  by_cases hmem : ∃ v, ⟨k, v⟩ ∈ batch
  · obtain ⟨v, hv⟩ := hmem
    have hvalue : v = none := hdel _ hv
    subst hvalue
    exact lookup_write_of_mem hv fun v' hv' => hdel _ hv'
  · rw [lookup_write_of_not_mem, hnone]
    rintro ⟨k', v⟩ hw rfl
    exact hmem ⟨v, hw⟩

end GoQrl.Batch
