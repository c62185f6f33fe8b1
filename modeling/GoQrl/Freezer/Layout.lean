import GoQrl.Freezer.Table
import GoQrl.Lib.Records

/-!
# GoQrl.Freezer.Layout

How the items of a freezer table lie in its data files.  `Laid` follows the
index entries from one item to the next: an item starts where the one before
it ends, or at the front of a new data file, and a file is left only when
the item that ends it is the last thing in it.
-/

namespace GoQrl

open Records List IndexEntry

/-! ## entries in the index file -/

variable {e p : IndexEntry} {es : List IndexEntry} {c : Nat → Bytes} {xs : List Bytes}

namespace IndexEntry

@[simp] theorem length_marshal (e : IndexEntry) : e.marshal.length = indexEntrySize := by
  simp [marshal, indexEntrySize]

/-- An entry whose parts fit the two fields of the file. -/
def Fits (e : IndexEntry) : Prop := e.filenum < 2 ^ 16 ∧ e.offset < 2 ^ 32

/-- An entry that fits is read back. -/
theorem unmarshalBinary_marshal (h : e.Fits) (rest : Bytes) :
    unmarshalBinary (e.marshal ++ rest) = e := by
  have hf : beNat (beBytes 2 e.filenum) = e.filenum := beNat_beBytes (by simpa using h.1)
  have ho : beNat (beBytes 4 e.offset) = e.offset := beNat_beBytes (by simpa using h.2)
  have h2 : (e.marshal ++ rest).take 2 = beBytes 2 e.filenum :=
    take_left' (length_beBytes 2 _)
  have h4 : ((e.marshal ++ rest).drop 2).take 4 = beBytes 4 e.offset :=
    take_left' (length_beBytes 4 _)
  rw [unmarshalBinary, h2, h4, hf, ho]

end IndexEntry

/-- The index file of the given entries. -/
def indexFile (es : List IndexEntry) : Bytes := es.flatMap IndexEntry.marshal

@[simp] theorem length_indexFile (es : List IndexEntry) :
    (indexFile es).length = es.length * indexEntrySize :=
  length_flatMap length_marshal es

theorem indexFile_append (es fs : List IndexEntry) :
    indexFile (es ++ fs) = indexFile es ++ indexFile fs := flatMap_append

theorem drop_indexFile (es : List IndexEntry) (n : Nat) :
    (indexFile es).drop (n * indexEntrySize) = indexFile (es.drop n) :=
  drop_flatMap length_marshal es n

theorem take_indexFile (es : List IndexEntry) (n : Nat) :
    (indexFile es).take (n * indexEntrySize) = indexFile (es.take n) :=
  take_flatMap length_marshal es n

/-- Resizing to no more than the length only cuts. -/
theorem truncateFreezerFile_of_le {f : Bytes} {n : Nat} (h : n ≤ f.length) :
    truncateFreezerFile f n = f.take n := by
  simp [truncateFreezerFile, Nat.sub_eq_zero_of_le h]

/-- Truncating the index to `n` entries. -/
theorem truncate_indexFile {n : Nat} (h : n ≤ es.length) :
    truncateFreezerFile (indexFile es) (n * indexEntrySize) = indexFile (es.take n) := by
  rw [truncateFreezerFile_of_le, take_indexFile]
  rw [length_indexFile]
  exact Nat.mul_le_mul_right _ h

/-- A run that lies in a file is read. -/
theorem readAt_of_at {f x : Bytes} {s : Nat} (h : At f s x) : readAt f s x.length = .ok x := by
  rw [readAt, h.read]
  by_cases hx : x = []
  · simp [hx]
  · rw [if_pos (Or.inr (h.le_length hx))]

namespace FreezerTable

variable {t : FreezerTable} {i : Nat}

/-- Reading entry `i` of the index file without a check. -/
theorem entryAtUnchecked_eq (hidx : t.index = indexFile es) (hi : es[i]? = some e) (hfit : e.Fits) :
    t.entryAtUnchecked i = e := by
  rw [entryAtUnchecked, hidx, indexFile, take_drop_flatMap length_marshal hi]
  simpa using unmarshalBinary_marshal hfit []

/-- Reading entry `i` of the index file. -/
theorem entryAt_eq (hidx : t.index = indexFile es) (hi : es[i]? = some e) (hfit : e.Fits) :
    t.entryAt i = .ok e := by
  have hlt := index_lt hi
  have hle : i * indexEntrySize + indexEntrySize ≤ t.index.length := by
    rw [hidx, length_indexFile, ← Nat.succ_mul]
    exact Nat.mul_le_mul_right _ hlt
  have hr := entryAtUnchecked_eq hidx hi hfit
  rw [entryAtUnchecked] at hr
  simp [entryAt, readAt, hle, Except.map, hr]

end FreezerTable

/-! ## items in the data files -/

/-- The items `xs` end at the entries `es`, each after the position `p` of the
one before it. -/
def Laid (c : Nat → Bytes) : IndexEntry → List IndexEntry → List Bytes → Prop
  | _, [], [] => True
  | p, e :: es, x :: xs =>
    p.filenum ≤ e.filenum ∧
    e.offset = (p.bounds e).1 + x.length ∧
    At (c e.filenum) (p.bounds e).1 x ∧
    (p.filenum < e.filenum → (c p.filenum).length = p.offset) ∧
    Laid c e es xs
  | _, _, _ => False

@[simp] theorem laid_nil (c : Nat → Bytes) (p : IndexEntry) : Laid c p [] [] ↔ True := Iff.rfl

theorem laid_cons {x : Bytes} :
    Laid c p (e :: es) (x :: xs) ↔ p.filenum ≤ e.filenum ∧ e.offset = (p.bounds e).1 + x.length ∧
        At (c e.filenum) (p.bounds e).1 x ∧
        (p.filenum < e.filenum → (c p.filenum).length = p.offset) ∧ Laid c e es xs := Iff.rfl

theorem IndexEntry.bounds_of_eq (h : p.filenum = e.filenum) :
    (p.bounds e).1 = p.offset := by simp [bounds, h]

theorem IndexEntry.bounds_of_ne (h : p.filenum ≠ e.filenum) :
    (p.bounds e).1 = 0 := by simp [bounds, h]

namespace Laid

variable {c' : Nat → Bytes} {fs : List IndexEntry} {ys : List Bytes}

/-- Induction over the items. -/
@[elab_as_elim]
theorem items {motive : ∀ p es xs, Laid c p es xs → Prop} (nil : ∀ p, motive p [] [] trivial)
    (cons : ∀ p e es x xs hle ho hat hsz (hrest : Laid c e es xs), motive e es xs hrest →
      motive p (e :: es) (x :: xs) ⟨hle, ho, hat, hsz, hrest⟩) (h : Laid c p es xs) :
        motive p es xs h := by
  induction es generalizing p xs with
  | nil =>
    cases xs with
    | nil => exact nil p
    | cons x xs => exact h.elim
  | cons e es ih =>
    cases xs with
    | nil => exact h.elim
    | cons x xs =>
      obtain ⟨hle, ho, hat, hsz, hrest⟩ := laid_cons.mp h
      exact cons p e es x xs hle ho hat hsz hrest (ih hrest)

section

variable (h : Laid c p es xs)
include h

/-- One entry an item. -/
theorem length_eq : es.length = xs.length := by
  induction h using items with
  | nil p => rfl
  | cons p e es x xs hle ho hat hsz hrest ih => rw [length_cons, length_cons, ih]

/-- Laying items out one after the other. -/
theorem append (h' : Laid c (es.getLastD p) fs ys) : Laid c p (es ++ fs) (xs ++ ys) := by
  induction h using items with
  | nil p => exact h'
  | cons p e es x xs hle ho hat hsz hrest ih =>
    rw [getLastD_cons] at h'
    exact laid_cons.mpr ⟨hle, ho, hat, hsz, ih h'⟩

/-- The first `n` items, and the ones after them. -/
theorem split (n : Nat) :
    Laid c p (es.take n) (xs.take n) ∧ Laid c ((es.take n).getLastD p) (es.drop n) (xs.drop n) := by
  induction n generalizing p es xs with
  | zero => exact ⟨by simp, by simpa using h⟩
  | succ n ih =>
    match es, xs, h with
    | [], [], _ => simp
    | e :: es, x :: xs, h =>
      obtain ⟨hle, ho, hat, hsz, hrest⟩ := laid_cons.mp h
      obtain ⟨h1, h2⟩ := ih hrest
      rw [take_succ_cons, take_succ_cons, drop_succ_cons, drop_succ_cons, getLastD_cons]
      exact ⟨laid_cons.mpr ⟨hle, ho, hat, hsz, h1⟩, h2⟩

/-- File numbers do not decrease. -/
theorem filenum_le_last : p.filenum ≤ (es.getLastD p).filenum := by
  induction h using items with
  | nil p => exact le_refl _
  | cons p e es x xs hle ho hat hsz hrest ih =>
    rw [getLastD_cons]
    exact hle.trans ih

/-- Within one file offsets do not decrease. -/
theorem offset_le_last (hf : p.filenum = (es.getLastD p).filenum) :
    p.offset ≤ (es.getLastD p).offset := by
  induction h using items with
  | nil p => exact le_refl _
  | cons p e es x xs hle ho hat hsz hrest ih =>
    rw [getLastD_cons] at hf ⊢
    have hpe : p.filenum = e.filenum := le_antisymm hle (hf ▸ hrest.filenum_le_last)
    rw [bounds_of_eq hpe] at ho
    omega

/-- The file numbers of all entries. -/
theorem filenum_mem (he : e ∈ es) :
    p.filenum ≤ e.filenum ∧ e.filenum ≤ (es.getLastD p).filenum := by
  induction h using items with
  | nil p => simp at he
  | cons p a es x xs hle ho hat hsz hrest ih =>
    rw [getLastD_cons]
    obtain rfl | he := mem_cons.mp he
    · exact ⟨hle, hrest.filenum_le_last⟩
    · exact ⟨hle.trans (ih he).1, (ih he).2⟩

/-- The layout only looks at the files before the last one and at the last
one up to its last offset. -/
theorem congr (hlt : ∀ k, p.filenum ≤ k → k < (es.getLastD p).filenum → c' k = c k)
    (hlast : ∀ s x, s + x.length ≤ (es.getLastD p).offset →
      At (c (es.getLastD p).filenum) s x → At (c' (es.getLastD p).filenum) s x) :
        Laid c' p es xs := by
  induction h using items with
  | nil p => trivial
  | cons p e es x xs hle ho hat hsz hrest ih =>
    rw [getLastD_cons] at hlt hlast
    have hel := hrest.filenum_le_last
    refine laid_cons.mpr ⟨hle, ho, ?_, ?_, ih (fun k hk => hlt k (hle.trans hk)) hlast⟩
    · by_cases hf : e.filenum = (es.getLastD e).filenum
      · have hoff := hrest.offset_le_last hf
        rw [hf]
        exact hlast _ _ (by omega) (hf ▸ hat)
      · rwa [hlt _ hle (lt_of_le_of_ne hel hf)]
    · intro hpe
      rw [hlt _ (le_refl _) (lt_of_lt_of_le hpe hel)]
      exact hsz hpe

end

/-- Starting in front of a file is starting anywhere before it. -/
theorem restart (h : Laid c p (e :: es) xs) (hp : p.filenum ≠ e.filenum ∨ p.offset = 0) :
    Laid c ⟨e.filenum, 0⟩ (e :: es) xs := by
  cases xs with
  | nil => exact h.elim
  | cons x xs =>
    obtain ⟨_, ho, hat, _, hrest⟩ := laid_cons.mp h
    have h0 : (p.bounds e).1 = 0 := by
      by_cases hf : p.filenum = e.filenum
      · rw [bounds_of_eq hf]
        exact hp.resolve_left (not_not_intro hf)
      · exact bounds_of_ne hf
    have h0' : (bounds ⟨e.filenum, 0⟩ e).1 = 0 := by simp [bounds]
    rw [h0] at ho hat
    exact laid_cons.mpr ⟨le_refl _, by rw [h0', ho], by rw [h0']; exact hat,
      fun hlt => absurd hlt (lt_irrefl _), hrest⟩

end Laid

/-! ## items one after the other in one file -/

/-- The entries of items written one after the other to a file. -/
def entriesFrom (file offset : Nat) : List Bytes → List IndexEntry
  | [] => []
  | x :: xs => ⟨file, offset + x.length⟩ :: entriesFrom file (offset + x.length) xs

theorem entriesFrom_append (file offset : Nat) (xs ys : List Bytes) :
    entriesFrom file offset (xs ++ ys) =
      entriesFrom file offset xs ++ entriesFrom file (offset + xs.flatten.length) ys := by
  induction xs generalizing offset with
  | nil => simp [entriesFrom]
  | cons x xs ih => simp [entriesFrom, ih, add_assoc]

/-- The last of the entries, which ends where the items end. -/
theorem getLastD_entriesFrom (file offset : Nat) (xs : List Bytes) (p : IndexEntry)
    (hne : xs ≠ []) :
    (entriesFrom file offset xs).getLastD p = ⟨file, offset + xs.flatten.length⟩ := by
  induction xs generalizing offset p with
  | nil => exact absurd rfl hne
  | cons x xs ih =>
    rw [entriesFrom, getLastD_cons]
    cases xs with
    | nil => simp [entriesFrom]
    | cons y ys =>
      rw [ih _ _ (by simp)]
      simp [add_assoc]

/-- Items that lie in one file one after the other are laid out there. -/
theorem laid_entriesFrom {file offset : Nat} (h : At (c file) offset xs.flatten) :
    Laid c ⟨file, offset⟩ (entriesFrom file offset xs) xs := by
  induction xs generalizing offset with
  | nil => trivial
  | cons x xs ih =>
    rw [flatten_cons] at h
    have hx : At (c file) offset x := (prefix_append _ _).trans h
    have hxs : At (c file) (offset + x.length) xs.flatten := by
      obtain ⟨r, hr⟩ := h
      refine ⟨r, ?_⟩
      rw [← drop_drop, ← hr, append_assoc, drop_left]
    have hb : (bounds ⟨file, offset⟩ ⟨file, offset + x.length⟩).1 = offset := by
      simp [bounds]
    exact laid_cons.mpr ⟨le_refl _, by rw [hb], by rw [hb]; exact hx,
      fun hlt => absurd hlt (lt_irrefl _), ih hxs⟩

end GoQrl
