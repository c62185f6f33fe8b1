import GoQrl.Trie.Encoding

/-!
# GoQrl.Trie.Tracer

The change tracer of `trie/tracer.go`: the paths of inserted and deleted nodes,
with insertions and deletions of one path cancelling out, and the blobs that
were read.

`Tracks` says what the two sets mean: against the set `O` of original node
paths and the set `P` of present ones they are the two halves of the symmetric
difference.
-/

namespace GoQrl.Mpt

/-- `tracer`.  The two sets are lists without an order that matters. -/
structure Tracer where
  inserts : List Hex
  deletes : List Hex
  accessList : Hex → Option Bytes

namespace Tracer

/-- `newTracer`, and the state after `reset`. -/
def new : Tracer := ⟨[], [], fun _ => none⟩

/-- `tracer.onRead`. -/
def onRead (s : Tracer) (path : Hex) (val : Bytes) : Tracer :=
  { s with accessList := Function.update s.accessList path (some val) }

/-- `tracer.onInsert`. -/
def onInsert (s : Tracer) (path : Hex) : Tracer :=
  if path ∈ s.deletes then { s with deletes := s.deletes.filter (· ≠ path) }
  else { s with inserts := path :: s.inserts }

/-- `tracer.onDelete`. -/
def onDelete (s : Tracer) (path : Hex) : Tracer :=
  if path ∈ s.inserts then { s with inserts := s.inserts.filter (· ≠ path) }
  else { s with deletes := path :: s.deletes }

/-- `tracer.deletedNodes`: the deleted nodes that had been read. -/
def deletedNodes (s : Tracer) : List Hex :=
  s.deletes.filter fun path => (s.accessList path).isSome

@[simp] theorem onInsert_accessList (s : Tracer) (path : Hex) :
    (s.onInsert path).accessList = s.accessList := by
  unfold onInsert; split <;> rfl

@[simp] theorem onDelete_accessList (s : Tracer) (path : Hex) :
    (s.onDelete path).accessList = s.accessList := by
  unfold onDelete; split <;> rfl

/-- The two sets are the symmetric difference of the original node paths `O`
and the present ones `P`. -/
structure Tracks (O : Hex → Prop) (s : Tracer) (P : Hex → Prop) : Prop where
  inserts : ∀ p, p ∈ s.inserts ↔ P p ∧ ¬ O p
  deletes : ∀ p, p ∈ s.deletes ↔ O p ∧ ¬ P p

variable {O P : Hex → Prop} {s : Tracer}

theorem tracks_new (O : Hex → Prop) : Tracks O new O :=
  ⟨fun p => by simp [new], fun p => by simp [new]⟩

variable (h : Tracks O s P)
include h

theorem Tracks.onRead (path : Hex) (val : Bytes) : Tracks O (s.onRead path val) P :=
  ⟨h.inserts, h.deletes⟩

theorem Tracks.congr {P' : Hex → Prop} (hp : ∀ p, P p ↔ P' p) : Tracks O s P' :=
  ⟨fun p => by rw [h.inserts, hp], fun p => by rw [h.deletes, hp]⟩

/-- Inserting an absent path adds it to the present ones. -/
theorem Tracks.onInsert {path : Hex} (hpath : ¬ P path) :
    Tracks O (s.onInsert path) fun p => p = path ∨ P p := by
  have hmem : path ∈ s.deletes ↔ O path := (h.deletes path).trans (and_iff_left hpath)
  rw [Tracer.onInsert]
  constructor
  · intro p
    have := h.inserts p
    grind
  · intro p
    have := h.deletes p
    grind

/-- Deleting a present path removes it from the present ones. -/
theorem Tracks.onDelete {path : Hex} (hpath : P path) :
    Tracks O (s.onDelete path) fun p => p ≠ path ∧ P p := by
  have hmem : path ∈ s.inserts ↔ ¬ O path := (h.inserts path).trans (and_iff_right hpath)
  rw [Tracer.onDelete]
  constructor
  · intro p
    have := h.inserts p
    grind
  · intro p
    have := h.deletes p
    grind

end Tracer

end GoQrl.Mpt
