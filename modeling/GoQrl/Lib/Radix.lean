import Mathlib.Data.List.Basic

/-!
# GoQrl.Lib.Radix

Compressed radix trees over an arbitrary alphabet `α`, with one letter `τ`
reserved as the terminator of every key.  A terminated key is never a proper
prefix of another one, so values sit exactly where a key ends.

The tree has the four shapes of a hexary Merkle-Patricia trie without its
hashes: the empty tree, a stored value, a path-compressed edge and a branching
node.  `insert` and `delete` are the two updates; the results are

* `get_insert` / `get_delete` — both act on the lookup function as the point
  update and the point removal;
* `Canon.insert` / `Canon.delete` — both preserve the compressed normal form;
* `Canon.ext` — a normal form is determined by its lookups.

Nothing here mentions bytes, hashes or storage.
-/

namespace Radix

open List Function

variable {α V : Type}

/-! ## terminated keys -/

/-- `k` ends in the terminator `τ`, which occurs nowhere else. -/
def Terminated (τ : α) : List α → Prop
  | [] => False
  | a :: k => (a = τ ∧ k = []) ∨ (a ≠ τ ∧ Terminated τ k)

variable {τ : α}

@[simp] theorem not_terminated_nil : ¬ Terminated τ [] := id

@[simp] theorem terminated_singleton : Terminated τ [τ] := .inl ⟨rfl, rfl⟩

variable {k p key : List α} {a b : α}

theorem Terminated.ne_nil (h : Terminated τ k) : k ≠ [] := by
  rintro rfl; exact h

/-- A terminated key starting with the terminator is the terminator alone. -/
theorem Terminated.eq_nil_of_cons (h : Terminated τ (τ :: k)) : k = [] := by
  rcases h with ⟨-, hk⟩ | ⟨hne, -⟩
  · exact hk
  · exact absurd rfl hne

/-- The terminator is in every terminated key. -/
theorem Terminated.mem (h : Terminated τ k) : τ ∈ k := by
  induction k with
  | nil => exact h.elim
  | cons a k ih =>
    rcases h with ⟨rfl, -⟩ | ⟨-, hk⟩
    · exact mem_cons_self
    · exact mem_cons_of_mem _ (ih hk)

/-- Past a letter other than the terminator the key is still terminated. -/
theorem Terminated.tail (h : Terminated τ (a :: k)) (ha : a ≠ τ) : Terminated τ k := by
  rcases h with ⟨rfl, -⟩ | ⟨-, hk⟩
  · exact absurd rfl ha
  · exact hk

/-- Past a terminator-free segment a terminated key is still terminated. -/
theorem terminated_append_iff (hp : τ ∉ p) : Terminated τ (p ++ k) ↔ Terminated τ k := by
  induction p with
  | nil => rfl
  | cons a p ih =>
    have ha : a ≠ τ := fun h => hp (by simp [h])
    have hp' : τ ∉ p := fun h => hp (mem_cons_of_mem _ h)
    simp [Terminated, ha, ih hp']

/-- Nothing follows a terminated prefix of a terminated key. -/
theorem Terminated.append_eq_nil {r : List α} (hk : Terminated τ k) (h : Terminated τ (k ++ r)) :
    r = [] := by
  induction k with
  | nil => exact absurd hk not_terminated_nil
  | cons a k ih =>
    rcases hk with ⟨rfl, rfl⟩ | ⟨ha, hk⟩
    · exact h.eq_nil_of_cons
    · exact ih hk (h.tail ha)

/-- Terminated keys are prefix-free. -/
theorem Terminated.eq_of_prefix {k' : List α} (hk : Terminated τ k) (hk' : Terminated τ k')
    (h : k <+: k') :
    k = k' := by
  obtain ⟨r, rfl⟩ := h
  rw [hk.append_eq_nil hk', append_nil]

/-- A proper prefix of a terminated key is free of the terminator. -/
theorem Terminated.not_mem_of_append (h : Terminated τ (p ++ a :: k)) : τ ∉ p := by
  induction p with
  | nil => simp
  | cons b p ih =>
    rcases h with ⟨-, hk⟩ | ⟨hb, hk⟩
    · simp at hk
    · simp [ih hk, Ne.symm hb]

/-! ## trees -/

/-- A compressed radix tree. -/
inductive Tree (α V : Type)
  | nil
  | value (v : V)
  | short (key : List α) (child : Tree α V)
  | full (children : α → Tree α V)

namespace Tree

/-- Put an edge labelled `k` above `t`; an empty label adds nothing. -/
def chain : List α → Tree α V → Tree α V
  | [], t => t
  | a :: k, t => short (a :: k) t

/-- Put a non-empty label above `t`, merging it with the label of an edge. -/
def graft (k : List α) : Tree α V → Tree α V
  | short k' c => short (k ++ k') c
  | t => short k t

open Classical in
/-- A branching node, or the single child it has left. -/
noncomputable def collapse (cs : α → Tree α V) : Tree α V :=
  if h : ∃ a, cs a ≠ nil ∧ ∀ b, cs b ≠ nil → b = a then graft [h.choose] (cs h.choose) else full cs

/-! ## shapes -/

/-- What may sit under the terminator of a branching node. -/
def IsSlot : Tree α V → Prop
  | nil => True
  | value _ => True
  | _ => False

def IsValue : Tree α V → Prop
  | value _ => True
  | _ => False

def IsFull : Tree α V → Prop
  | full _ => True
  | _ => False

/-- Values occur exactly where a terminated key ends. -/
def WF (τ : α) : Tree α V → Prop
  | nil => True
  | value _ => False
  | short k c => (Terminated τ k ∧ c.IsValue) ∨ (k ≠ [] ∧ τ ∉ k ∧ c.WF τ)
  | full cs => (cs τ).IsSlot ∧ ∀ a, a ≠ τ → (cs a).WF τ

/-- A tree, or what may sit where a key ends. -/
def Part (τ : α) (t : Tree α V) : Prop := t.WF τ ∨ t.IsSlot

/-- The compressed normal form: an edge leads to a value or to a branching
node, and a branching node has at least two children. -/
def Canon (τ : α) : Tree α V → Prop
  | nil => True
  | value _ => False
  | short k c => (Terminated τ k ∧ c.IsValue) ∨ (k ≠ [] ∧ τ ∉ k ∧ c.IsFull ∧ c.Canon τ)
  | full cs => ((cs τ).IsSlot ∧ ∀ a, a ≠ τ → (cs a).Canon τ) ∧
      ∃ a b, a ≠ b ∧ cs a ≠ nil ∧ cs b ≠ nil

/-- What may sit under the letter `a` of a branching node in normal form. -/
def CanonAt (τ a : α) (t : Tree α V) : Prop :=
  (a = τ → t.IsSlot) ∧ (a ≠ τ → t.Canon τ)

variable {cs : α → Tree α V} {c : Tree α V} {t : Tree α V}

/-- A canonical tree is well formed. -/
theorem Canon.wf (h : t.Canon τ) : t.WF τ := by
  induction t with
  | nil => trivial
  | value v => exact h
  | short k c ih =>
    rcases h with h | ⟨hk, hτ, -, hc⟩
    · exact .inl h
    · exact .inr ⟨hk, hτ, ih hc⟩
  | full cs ih => exact ⟨h.1.1, fun a ha => ih a (h.1.2 a ha)⟩

theorem WF.label_ne_nil (h : (short k c).WF τ) : k ≠ [] := by
  rcases h with ⟨hk, -⟩ | ⟨hk, -⟩
  · exact hk.ne_nil
  · exact hk

theorem Part.wf_short (h : (short k c).Part τ) : (short k c).WF τ :=
  h.resolve_right id

theorem Part.wf_full (h : (full cs).Part τ) : (full cs).WF τ :=
  h.resolve_right id

/-- Parts of a tree go on below an edge. -/
theorem Part.child_short (h : (short k c).Part τ) : c.Part τ := by
  rcases h.wf_short with ⟨-, hc⟩ | ⟨-, -, hc⟩
  · cases c with
    | value v => exact .inr trivial
    | _ => exact hc.elim
  · exact .inl hc

/-- And below a branch. -/
theorem Part.child_full (h : (full cs).Part τ) (a : α) : (cs a).Part τ := by
  by_cases ha : a = τ
  · subst ha; exact .inr h.wf_full.1
  · exact .inl (h.wf_full.2 a ha)

theorem IsSlot.cases (h : t.IsSlot) : t = nil ∨ ∃ v, t = value v := by
  cases t with
  | nil => exact .inl rfl
  | value v => exact .inr ⟨v, rfl⟩
  | short | full => exact h.elim

theorem IsValue.cases (h : t.IsValue) : ∃ v, t = value v := by
  cases t with
  | value v => exact ⟨v, rfl⟩
  | nil | short | full => exact h.elim

theorem IsFull.cases (h : t.IsFull) : ∃ cs, t = full cs := by
  cases t with
  | full cs => exact ⟨cs, rfl⟩
  | nil | value | short => exact h.elim

/-- A branch of a canonical tree has canonical children, at least two of them. -/
theorem canon_full_iff :
    (full cs).Canon τ ↔ (∀ a, CanonAt τ a (cs a)) ∧ ∃ a b, a ≠ b ∧ cs a ≠ nil ∧ cs b ≠ nil := by
  constructor
  · rintro ⟨⟨hs, hc⟩, h2⟩
    exact ⟨fun a => ⟨fun h => h ▸ hs, hc a⟩, h2⟩
  · rintro ⟨h, h2⟩
    exact ⟨⟨(h τ).1 rfl, fun a => (h a).2⟩, h2⟩

theorem chain_ne_nil (h : t ≠ nil) : chain k t ≠ nil := by
  cases k with
  | nil => exact h
  | cons a k => simp [chain]

/-- The rest of a leaf label below a branching letter is in normal form. -/
theorem canonAt_chain_value (h : Terminated τ (a :: k)) (ht : t.IsValue) :
    CanonAt τ a (chain k t) := by
  obtain ⟨v, rfl⟩ := ht.cases
  constructor
  · rintro rfl
    rw [h.eq_nil_of_cons]
    trivial
  · intro ha
    have hk := h.tail ha
    cases k with
    | nil => exact absurd hk not_terminated_nil
    | cons b k => exact .inl ⟨hk, trivial⟩

/-- The rest of an edge label above a branching node is in normal form. -/
theorem canonAt_chain_full (h : τ ∉ a :: k)
    (hf : t.IsFull) (ht : t.Canon τ) : CanonAt τ a (chain k t) := by
  have ha : a ≠ τ := fun h' => h (by simp [h'])
  refine ⟨fun h' => absurd h' ha, fun _ => ?_⟩
  cases k with
  | nil => exact ht
  | cons b k => exact .inr ⟨by simp, fun hm => h (mem_cons_of_mem _ hm), hf, ht⟩

/-- Below the letter after a common prefix the cut edge is in normal form. -/
theorem Canon.canonAt_cut (h : (short (p ++ a :: k) c).Canon τ) :
    CanonAt τ a (chain k c) ∧ τ ∉ p ∧ c ≠ nil := by
  rcases h with ⟨hk, hc⟩ | ⟨-, hτ, hf, hc⟩
  · refine ⟨canonAt_chain_value ?_ hc, hk.not_mem_of_append, fun h => by rw [h] at hc; exact hc⟩
    exact (terminated_append_iff hk.not_mem_of_append).mp hk
  · refine ⟨canonAt_chain_full (fun h => hτ (mem_append_right _ h)) hf hc,
      fun h => hτ (mem_append_left _ h), fun h => by rw [h] at hf; exact hf⟩

theorem graft_ne_nil (k : List α) (t : Tree α V) : graft k t ≠ nil := by
  cases t <;> simp [graft]

/-- A branching node with a single child left. -/
theorem collapse_eq_graft (ha : cs a ≠ nil)
    (hu : ∀ b, cs b ≠ nil → b = a) : collapse cs = graft [a] (cs a) := by
  have h : ∃ a, cs a ≠ nil ∧ ∀ b, cs b ≠ nil → b = a := ⟨a, ha, hu⟩
  have hc : h.choose = a := hu _ h.choose_spec.1
  rw [collapse, dif_pos h, hc]

/-- A branching node with two children left. -/
theorem collapse_eq_full (hab : a ≠ b) (ha : cs a ≠ nil) (hb : cs b ≠ nil) :
    collapse cs = full cs := by
  rw [collapse, dif_neg]
  rintro ⟨x, -, hx⟩
  exact hab ((hx a ha).trans (hx b hb).symm)

/-- A branch without children is not collapsed. -/
theorem collapse_of_nil (h : ∀ a, cs a = nil) : collapse cs = full cs := by
  rw [collapse, dif_neg]
  rintro ⟨x, hx, -⟩
  exact hx (h x)

theorem collapse_ne_nil (cs : α → Tree α V) : collapse cs ≠ nil := by
  unfold collapse
  split
  · exact graft_ne_nil _ _
  · simp

/-- A label above a tree in normal form merges into a normal form. -/
theorem Canon.graft (ht : t.Canon τ) (h0 : t ≠ nil) (hk : k ≠ [])
    (hτ : τ ∉ k) : (graft k t).Canon τ := by
  cases t with
  | nil => exact absurd rfl h0
  | value v => exact ht.elim
  | full cs => exact .inr ⟨hk, hτ, trivial, ht⟩
  | short k' c =>
    rcases ht with ⟨hk', hc⟩ | ⟨-, hτ', hf, hc⟩
    · exact .inl ⟨(terminated_append_iff hτ).mpr hk', hc⟩
    · exact .inr ⟨by simp [hk], by simp [hτ, hτ'], hf, hc⟩

/-- Collapsing a branch with a child left gives a canonical tree. -/
theorem canon_collapse (hc : ∀ a, CanonAt τ a (cs a))
    (h1 : ∃ a, cs a ≠ nil) : (collapse cs).Canon τ := by
  unfold collapse
  split
  · next h =>
    obtain ⟨hne, -⟩ := h.choose_spec
    by_cases ha : h.choose = τ
    · rcases ((hc h.choose).1 ha).cases with h0 | ⟨v, hv⟩
      · exact absurd h0 hne
      · rw [hv, ha]
        exact .inl ⟨terminated_singleton, trivial⟩
    · exact ((hc h.choose).2 ha).graft hne (by simp) (by simpa using Ne.symm ha)
  · next h =>
    obtain ⟨a, ha⟩ := h1
    obtain ⟨b, hb, hba⟩ : ∃ b, cs b ≠ nil ∧ b ≠ a := by
      by_contra hno
      exact h ⟨a, ha, fun b hb => by_contra fun hne => hno ⟨b, hb, hne⟩⟩
    exact canon_full_iff.mpr ⟨hc, b, a, hba, hb, ha⟩

end Tree

/-! ## where two keys part -/

/-- How a key continues past an edge label. -/
inductive Fork (α : Type)
  /-- The label is used up and `rest` is left of the key. -/
  | matched (rest : List α)
  /-- After the common part `p` the label goes on with `a`, the key with `b`. -/
  | split (p : List α) (a : α) (k : List α) (b : α) (key : List α)
  /-- The key ends inside the label. -/
  | ended

/-- Compare an edge label with a key. -/
def divide [DecidableEq α] : List α → List α → Fork α
  | [], key => .matched key
  | _ :: _, [] => .ended
  | a :: k, b :: key =>
    if a = b then
      match divide k key with
      | .matched rest => .matched rest
      | .split p c k' d key' => .split (a :: p) c k' d key'
      | .ended => .ended
    else .split [] a k b key

variable [DecidableEq α]

/-- What each outcome of `divide` says about the two lists. -/
theorem divide_spec (k key : List α) :
    match divide k key with
    | .matched rest => key = k ++ rest
    | .split p a k' b key' => k = p ++ a :: k' ∧ key = p ++ b :: key' ∧ a ≠ b
    | .ended => ∃ c r, k = key ++ c :: r := by
  induction k generalizing key with
  | nil => simp [divide]
  | cons a k ih =>
    cases key with
    | nil => exact ⟨a, k, rfl⟩
    | cons b key =>
      by_cases hab : a = b
      · have := ih key
        cases hd : divide k key <;> simp_all [divide]
      · simp [divide, hab]

/-- A key that starts with the label. -/
theorem divide_append (k rest : List α) : divide k (k ++ rest) = .matched rest := by
  induction k with
  | nil => rfl
  | cons a k ih => simp [divide, ih]

/-- A key that leaves the label at some symbol. -/
theorem divide_split (p : List α) (k key : List α) (h : a ≠ b) :
    divide (p ++ a :: k) (p ++ b :: key) = .split p a k b key := by
  induction p with
  | nil => simp [divide, h]
  | cons c p ih => simp [divide, ih]

/-- A terminated key cannot end inside an edge label, which has the terminator
at most at its end. -/
theorem divide_ne_ended (hk : τ ∉ k ∨ Terminated τ k) (hkey : Terminated τ key) :
    divide k key ≠ .ended := by
  intro h
  have hs := divide_spec k key
  rw [h] at hs
  obtain ⟨c, r, rfl⟩ := hs
  rcases hk with hk | hk
  · exact hk (mem_append_left _ hkey.mem)
  · simpa using hkey.append_eq_nil hk

/-! ## operations -/

namespace Tree

variable {cs : α → Tree α V} {c : Tree α V} {t : Tree α V} {key' : List α}

/-- The value stored under a key. -/
def get : Tree α V → List α → Option V
  | nil, _ => none
  | value v, _ => some v
  | short k c, key =>
    match divide k key with
    | .matched rest => get c rest
    | _ => none
  | full _, [] => none
  | full cs, a :: key => get (cs a) key

/-- A branching node with the two children `t` at `a` and `u` at `b`. -/
def branch (a : α) (t : Tree α V) (b : α) (u : Tree α V) : α → Tree α V :=
  Function.update (Function.update (fun _ => nil) a t) b u

/-- Store `v` under a key. -/
def insert (v : V) : Tree α V → List α → Tree α V
  | nil, key => chain key (value v)
  | value w, key => if key = [] then value v else value w
  | short k c, key =>
    match divide k key with
    | .matched rest => short k (insert v c rest)
    | .split p a k' b key' => chain p (full (branch a (chain k' c) b (chain key' (value v))))
    | .ended => short k c
  | full cs, [] => full cs
  | full cs, a :: key => full (Function.update cs a (insert v (cs a) key))

open Classical in
/-- Remove a key. -/
noncomputable def delete : Tree α V → List α → Tree α V
  | nil, _ => nil
  | value _, _ => nil
  | short k c, key =>
    match divide k key with
    | .matched [] => nil
    | .matched (a :: rest) => graft k (delete c (a :: rest))
    | _ => short k c
  | full cs, [] => full cs
  | full cs, a :: key =>
    if delete (cs a) key = nil then collapse (Function.update cs a nil)
    else full (Function.update cs a (delete (cs a) key))

/-- Emptying a child of a branching node. -/
theorem Canon.wf_update (h : (full cs).Canon τ) (a : α) : (full (update cs a nil)).WF τ := by
  constructor
  · by_cases ha : τ = a
    · subst ha; simp [IsSlot]
    · simpa [ha] using h.1.1
  · exact (forall_update_iff cs (p := fun b u => b ≠ τ → u.WF τ)).mpr ⟨fun _ => trivial,
      fun b _ hb => (h.1.2 b hb).wf⟩

@[simp] theorem get_nil (key : List α) : (nil : Tree α V).get key = none := rfl
@[simp] theorem get_value (v : V) (key : List α) : (value v).get key = some v := rfl
@[simp] theorem get_full_cons (cs : α → Tree α V) (a : α) (key : List α) :
    (full cs).get (a :: key) = (cs a).get key := rfl

@[simp] theorem get_short_append (k : List α) (c : Tree α V) (rest : List α) :
    (short k c).get (k ++ rest) = c.get rest := by
  simp [get, divide_append]

/-- A key that does not start with the label of an edge is not below it. -/
theorem get_short_eq_none (h : ¬ k <+: key) : (short k c).get key = none := by
  have hs := divide_spec k key
  cases hd : divide k key with
  | matched rest =>
    rw [hd] at hs
    exact absurd ⟨rest, hs.symm⟩ h
  | split | ended => simp [get, hd]

@[simp] theorem get_chain_append (k : List α) (t : Tree α V) (rest : List α) :
    (chain k t).get (k ++ rest) = t.get rest := by
  cases k with
  | nil => rfl
  | cons a k => exact get_short_append (a :: k) t rest

theorem get_chain_eq_none (h : ¬ k <+: key) : (chain k t).get key = none := by
  cases k with
  | nil => exact absurd nil_prefix h
  | cons a k => exact get_short_eq_none h

theorem branch_left (h : a ≠ b) (t u : Tree α V) : branch a t b u a = t := by
  simp [branch, h]

@[simp] theorem branch_right (a b : α) (t u : Tree α V) : branch a t b u b = u := by
  simp [branch]

/-- A branch of two trees has no other children. -/
theorem branch_other {c : α} (ha : c ≠ a) (hb : c ≠ b) (t u : Tree α V) :
    branch a t b u c = nil := by
  simp [branch, ha, hb]

/-- Lookup past a common prefix of label and key. -/
theorem get_short_append_append (p k : List α) (c : Tree α V) (rest : List α) :
    (short (p ++ k) c).get (p ++ rest) = (chain k c).get rest := by
  by_cases h : k <+: rest
  · obtain ⟨r, rfl⟩ := h
    rw [← append_assoc, get_short_append, get_chain_append]
  · rw [get_chain_eq_none h, get_short_eq_none (by rwa [prefix_append_right_inj])]

theorem insert_slot (v : V) (h : t.IsSlot) : t.insert v [] = value v := by
  rcases h.cases with rfl | ⟨w, rfl⟩ <;> rfl

/-! ## insertion -/

/-- A key follows the label of a well-formed edge or leaves it. -/
theorem WF.divide_cases (h : (short k c).WF τ) (hkey : Terminated τ key) :
    (∃ rest, key = k ++ rest ∧ divide k key = .matched rest) ∨
      ∃ p a k' b rest, k = p ++ a :: k' ∧ key = p ++ b :: rest ∧ a ≠ b ∧
        divide k key = .split p a k' b rest := by
  have hs := divide_spec k key
  cases hd : divide k key with
  | matched rest =>
    rw [hd] at hs
    exact .inl ⟨rest, hs, rfl⟩
  | split p a k' b rest =>
    rw [hd] at hs
    exact .inr ⟨p, a, k', b, rest, hs.1, hs.2.1, hs.2.2, rfl⟩
  | ended => exact absurd hd (divide_ne_ended (h.symm.imp (fun h => h.2.1) And.left) hkey)

/-- Lookup in the tree of one key. -/
theorem get_chain_value (v : V) (h : key <+: key' → key = key') :
    (chain key (value v)).get key' = if key' = key then some v else none := by
  by_cases he : key' = key
  · subst he
    simpa using get_chain_append key' (value v) []
  · rw [get_chain_eq_none fun hp => he (h hp).symm, if_neg he]

/-- **Insertion is the point update** of the lookup function. -/
theorem get_insert (ht : t.WF τ) (v : V) (hkey : Terminated τ key) (hkey' : Terminated τ key') :
    (t.insert v key).get key' = if key' = key then some v else t.get key' := by
  induction t generalizing key key' with
  | nil => exact get_chain_value v (hkey.eq_of_prefix hkey')
  | value w => exact ht.elim
  | short k c ih =>
    rcases ht.divide_cases hkey with ⟨rest, rfl, hd⟩ | ⟨p, a, k', b, kr, rfl, rfl, hab, hd⟩
    · simp only [insert, hd]
      by_cases hp : k <+: key'
      · obtain ⟨r, rfl⟩ := hp
        simp only [get_short_append, append_cancel_left_eq]
        rcases ht with ⟨hk, hc⟩ | ⟨-, hτ, hc⟩
        · obtain ⟨w, rfl⟩ := hc.cases
          rw [hk.append_eq_nil hkey, hk.append_eq_nil hkey']
          simp [insert]
        · exact ih hc ((terminated_append_iff hτ).mp hkey) ((terminated_append_iff hτ).mp hkey')
      · have hne : key' ≠ k ++ rest := fun h => hp ⟨rest, h.symm⟩
        simp [get_short_eq_none hp, hne]
    · simp only [insert, hd]
      by_cases hp : p <+: key'
      · obtain ⟨r, rfl⟩ := hp
        rw [get_chain_append, get_short_append_append]
        cases r with
        | nil =>
          exact absurd ((terminated_append_iff hkey.not_mem_of_append).mp hkey') not_terminated_nil
        | cons x r =>
          simp only [append_cancel_left_eq, List.cons.injEq, get_full_cons]
          have hnp : x ≠ a → (chain (a :: k') c).get (x :: r) = none := fun hx =>
            get_chain_eq_none (by simp [Ne.symm hx])
          by_cases hxb : x = b
          · subst hxb
            rw [branch_right, hnp (Ne.symm hab), get_chain_value]
            · simp
            · intro hr
              simpa using hkey.eq_of_prefix hkey' (by simpa using hr)
          · by_cases hxa : x = a
            · subst hxa
              rw [branch_left hab]
              simp only [hab, false_and, if_false]
              exact (get_short_append_append [x] k' c r).symm
            · simp [branch_other hxa hxb, hnp hxa, hxb]
      · have hnp : ¬ (p ++ a :: k') <+: key' := fun h =>
          hp ((prefix_append p _).trans h)
        have hne : key' ≠ p ++ b :: kr := fun h => hp ⟨_, h.symm⟩
        simp [get_chain_eq_none hp, get_short_eq_none hnp, hne]
  | full cs ih =>
    obtain ⟨a, key, rfl⟩ := exists_cons_of_ne_nil hkey.ne_nil
    obtain ⟨b, key', rfl⟩ := exists_cons_of_ne_nil hkey'.ne_nil
    simp only [insert, get_full_cons, List.cons.injEq]
    by_cases hba : b = a
    · subst hba
      simp only [update_self, true_and]
      by_cases hb : b = τ
      · subst hb
        rw [hkey.eq_nil_of_cons, hkey'.eq_nil_of_cons, insert_slot v ht.1]
        simp
      · exact ih b (ht.2 b hb) (hkey.tail hb) (hkey'.tail hb)
    · simp [hba]

/-- The node made of two edges that part is in normal form. -/
theorem canon_chain_branch (hp : τ ∉ p) (hab : a ≠ b) {u : Tree α V} (ht : CanonAt τ a t)
    (hu : CanonAt τ b u)
    (ht0 : t ≠ nil) (hu0 : u ≠ nil) : (chain p (full (branch a t b u))).Canon τ := by
  have hfull : (full (branch a t b u)).Canon τ := by
    refine canon_full_iff.mpr ⟨fun x => ?_, a, b, hab, ?_, ?_⟩
    · by_cases hxb : x = b
      · subst hxb; rwa [branch_right]
      · by_cases hxa : x = a
        · subst hxa; rwa [branch_left hab]
        · rw [branch_other hxa hxb]
          exact ⟨fun _ => trivial, fun _ => trivial⟩
    · rwa [branch_left hab]
    · rwa [branch_right]
  cases p with
  | nil => exact hfull
  | cons x p => exact .inr ⟨by simp, hp, trivial, hfull⟩

/-- A branching node stays in normal form when a child is replaced by a
non-empty one. -/
theorem canon_full_update {x y : α} (hc : ∀ z, CanonAt τ z (cs z)) (hxy : x ≠ y) (hx : cs x ≠ nil)
    (hy : cs y ≠ nil) (ht : CanonAt τ a t) (h0 : t ≠ nil) : (full (update cs a t)).Canon τ := by
  have hkeep : ∀ z, cs z ≠ nil → update cs a t z ≠ nil :=
    (forall_update_iff cs (p := fun z u => cs z ≠ nil → u ≠ nil)).mpr ⟨fun _ => h0, fun _ _ h => h⟩
  exact canon_full_iff.mpr ⟨(forall_update_iff cs (p := CanonAt τ)).mpr ⟨ht, fun z _ => hc z⟩,
    x, y, hxy, hkeep x hx, hkeep y hy⟩

/-- **Insertion keeps the normal form**, never empties a tree, and leaves a
branching node a branching node. -/
theorem Canon.insert (ht : t.Canon τ) (v : V) (hkey : Terminated τ key) :
    (t.insert v key).Canon τ ∧ t.insert v key ≠ nil ∧ (t.IsFull → (t.insert v key).IsFull) := by
  induction t generalizing key with
  | nil =>
    obtain ⟨a, key, rfl⟩ := exists_cons_of_ne_nil hkey.ne_nil
    exact ⟨.inl ⟨hkey, trivial⟩, by simp [Tree.insert, chain], fun h => h.elim⟩
  | value w => exact ht.elim
  | short k c ih =>
    refine ⟨?_, ?_, fun h => h.elim⟩
    · rcases ht.wf.divide_cases hkey with ⟨rest, rfl, hd⟩ | ⟨p, a, k', b, kr, rfl, rfl, hab, hd⟩
      · simp only [Tree.insert, hd]
        rcases ht with ⟨hk, hc⟩ | ⟨hk, hτ, hf, hc⟩
        · obtain ⟨w, rfl⟩ := hc.cases
          rw [hk.append_eq_nil hkey]
          exact .inl ⟨hk, trivial⟩
        · obtain ⟨h1, -, h2⟩ := ih hc ((terminated_append_iff hτ).mp hkey)
          exact .inr ⟨hk, hτ, h2 hf, h1⟩
      · simp only [Tree.insert, hd]
        obtain ⟨hcut, hp, hc0⟩ := ht.canonAt_cut
        exact canon_chain_branch hp hab hcut
          (canonAt_chain_value ((terminated_append_iff hp).mp hkey) trivial)
          (chain_ne_nil hc0) (chain_ne_nil (by simp))
    · cases hd : divide k key with
      | ended | matched => simp [Tree.insert, hd]
      | split p a k' b kr =>
        simp only [Tree.insert, hd]
        exact chain_ne_nil (by simp)
  | full cs ih =>
    obtain ⟨a, key, rfl⟩ := exists_cons_of_ne_nil hkey.ne_nil
    obtain ⟨hc, x, y, hxy, hx, hy⟩ := canon_full_iff.mp ht
    have hnew : CanonAt τ a ((cs a).insert v key) ∧ (cs a).insert v key ≠ nil := by
      by_cases ha : a = τ
      · subst ha
        rw [hkey.eq_nil_of_cons, insert_slot v ((hc a).1 rfl)]
        exact ⟨⟨fun _ => trivial, fun h => absurd rfl h⟩, by simp⟩
      · obtain ⟨h1, h2, -⟩ := ih a ((hc a).2 ha) (hkey.tail ha)
        exact ⟨⟨fun h => absurd h ha, fun _ => h1⟩, h2⟩
    exact ⟨canon_full_update hc hxy hx hy hnew.1 hnew.2, by simp [Tree.insert], fun _ => trivial⟩

/-! ## deletion -/

@[simp] theorem get_graft_append (k : List α) (t : Tree α V) (rest : List α) :
    (graft k t).get (k ++ rest) = t.get rest := by
  cases t with
  | short k' c =>
    rw [graft, get_short_append_append]
    simpa using (get_short_append_append [] k' c rest).symm
  | nil => exact get_short_append k nil rest
  | value v => exact get_short_append k (value v) rest
  | full cs => exact get_short_append k (full cs) rest

theorem get_graft_eq_none (h : ¬ k <+: key) : (graft k t).get key = none := by
  cases t with
  | short k' c => exact get_short_eq_none fun h' => h ((prefix_append k k').trans h')
  | nil | value | full => exact get_short_eq_none h

/-- Collapsing a branch does not change the entries. -/
theorem get_collapse (cs : α → Tree α V) (a : α) (key : List α) :
    (collapse cs).get (a :: key) = (cs a).get key := by
  unfold collapse
  split
  · next h =>
    obtain ⟨-, hu⟩ := h.choose_spec
    by_cases ha : a = h.choose
    · have := get_graft_append [h.choose] (cs h.choose) key
      rw [← ha] at this ⊢
      exact this
    · have hnil : cs a = nil := by
        by_contra hne
        exact ha (hu a hne)
      rw [get_graft_eq_none (by simp [Ne.symm ha]), hnil]
      rfl
  · rfl

theorem delete_slot (h : t.IsSlot) (key : List α) : t.delete key = nil := by
  rcases h.cases with rfl | ⟨w, rfl⟩ <;> rfl

/-- **Deletion keeps the normal form** and never empties a branching node. -/
theorem Canon.delete (ht : t.Canon τ) (hkey : Terminated τ key) :
    (t.delete key).Canon τ ∧ (t.IsFull → t.delete key ≠ nil) := by
  induction t generalizing key with
  | nil => exact ⟨trivial, fun h => h.elim⟩
  | value w => exact ht.elim
  | short k c ih =>
    have hs := divide_spec k key
    refine ⟨?_, fun h => h.elim⟩
    cases hd : divide k key with
    | ended | split => simpa [Tree.delete, hd] using ht
    | matched rest =>
      rw [hd] at hs
      subst hs
      cases rest with
      | nil => simp only [Tree.delete, hd]; trivial
      | cons x rest =>
        simp only [Tree.delete, hd]
        rcases ht with ⟨hk, hc⟩ | ⟨hk, hτ, hf, hc⟩
        · simpa using hk.append_eq_nil hkey
        · obtain ⟨h1, h2⟩ := ih hc ((terminated_append_iff hτ).mp hkey)
          exact h1.graft (h2 hf) hk hτ
  | full cs ih =>
    obtain ⟨a, key, rfl⟩ := exists_cons_of_ne_nil hkey.ne_nil
    obtain ⟨hc, x, y, hxy, hx, hy⟩ := canon_full_iff.mp ht
    have hnew : CanonAt τ a ((cs a).delete key) := by
      by_cases ha : a = τ
      · subst ha
        rw [delete_slot ((hc a).1 rfl)]
        exact ⟨fun _ => trivial, fun _ => trivial⟩
      · exact ⟨fun h => absurd h ha, fun _ => (ih a ((hc a).2 ha) (hkey.tail ha)).1⟩
    simp only [Tree.delete]
    split
    · next h0 =>
      rw [h0] at hnew
      refine ⟨canon_collapse
        ((forall_update_iff cs (p := CanonAt τ)).mpr ⟨hnew, fun z _ => hc z⟩) ?_,
        fun _ => collapse_ne_nil _⟩
      by_cases hxa : x = a
      · exact ⟨y, by simpa [show y ≠ a from fun h => hxy (hxa.trans h.symm)] using hy⟩
      · exact ⟨x, by simpa [hxa] using hx⟩
    · next h0 => exact ⟨canon_full_update hc hxy hx hy hnew h0, fun _ => by simp⟩

/-- **Deletion is the point removal** of the lookup function. -/
theorem get_delete (ht : t.WF τ) (hkey : Terminated τ key) (hkey' : Terminated τ key') :
    (t.delete key).get key' = if key' = key then none else t.get key' := by
  induction t generalizing key key' with
  | nil => simp [delete]
  | value w => exact ht.elim
  | short k c ih =>
    rcases ht.divide_cases hkey with ⟨rest, rfl, hd⟩ | ⟨p, a, k', b, kr, rfl, rfl, hab, hd⟩
    · by_cases hp : k <+: key'
      · obtain ⟨r, rfl⟩ := hp
        cases rest with
        | nil =>
          have hr : r = [] := by
            rw [append_nil] at hkey
            exact hkey.append_eq_nil hkey'
          simp only [delete, hd, get_nil, hr, if_true]
        | cons x rest =>
          simp only [delete, hd, get_graft_append, append_cancel_left_eq, get_short_append]
          rcases ht with ⟨hk, -⟩ | ⟨-, hτ, hc⟩
          · simpa using hk.append_eq_nil hkey
          · exact ih hc ((terminated_append_iff hτ).mp hkey) ((terminated_append_iff hτ).mp hkey')
      · have hne : key' ≠ k ++ rest := fun h => hp ⟨rest, h.symm⟩
        cases rest with
        | nil => simp only [delete, hd, get_nil, if_neg hne, get_short_eq_none hp]
        | cons x rest =>
          simp only [delete, hd, get_graft_eq_none hp, if_neg hne, get_short_eq_none hp]
    · simp only [delete, hd]
      split
      · next h =>
        subst h
        exact get_short_eq_none (by simp [hab])
      · rfl
  | full cs ih =>
    obtain ⟨a, key, rfl⟩ := exists_cons_of_ne_nil hkey.ne_nil
    obtain ⟨b, key', rfl⟩ := exists_cons_of_ne_nil hkey'.ne_nil
    have hstep : ((full cs).delete (a :: key)).get (b :: key') =
        (update cs a ((cs a).delete key) b).get key' := by
      simp only [delete]
      split
      · next h0 => rw [get_collapse, h0]
      · rfl
    rw [hstep]
    simp only [get_full_cons, List.cons.injEq]
    by_cases hba : b = a
    · subst hba
      simp only [update_self, true_and]
      by_cases hb : b = τ
      · subst hb
        rw [hkey.eq_nil_of_cons, hkey'.eq_nil_of_cons, delete_slot ht.1]
        simp
      · exact ih b (ht.2 b hb) (hkey.tail hb) (hkey'.tail hb)
    · simp [hba]

/-! ## uniqueness of normal forms -/

@[simp] theorem get_leaf (k : List α) (v : V) : (short k (value v)).get k = some v := by
  simpa using get_short_append k (value v) []

/-- A key below a letter, given the keys of the tree there. -/
theorem CanonAt.exists_get (hc : CanonAt τ a t) (h0 : t ≠ nil)
    (h : t.Canon τ → ∃ key, Terminated τ key ∧ t.get key ≠ none) :
    ∃ key, Terminated τ (a :: key) ∧ t.get key ≠ none := by
  by_cases ha : a = τ
  · subst ha
    rcases (hc.1 rfl).cases with rfl | ⟨v, rfl⟩
    · exact absurd rfl h0
    · exact ⟨[], terminated_singleton, by simp⟩
  · obtain ⟨key, h1, h2⟩ := h (hc.2 ha)
    exact ⟨key, .inr ⟨ha, h1⟩, h2⟩

/-- A non-empty normal form holds some key. -/
theorem Canon.exists_get (ht : t.Canon τ) (h0 : t ≠ nil) :
    ∃ key, Terminated τ key ∧ t.get key ≠ none := by
  induction t with
  | nil => exact absurd rfl h0
  | value v => exact ht.elim
  | short k c ih =>
    rcases ht with ⟨hk, hc⟩ | ⟨-, hτ, hf, hc⟩
    · obtain ⟨v, rfl⟩ := hc.cases
      exact ⟨k, hk, by simp⟩
    · obtain ⟨key, h1, h2⟩ := ih hc (fun h => by rw [h] at hf; exact hf)
      exact ⟨k ++ key, (terminated_append_iff hτ).mpr h1, by simpa using h2⟩
  | full cs ih =>
    obtain ⟨hc, x, -, -, hx, -⟩ := canon_full_iff.mp ht
    obtain ⟨key, h1, h2⟩ := (hc x).exists_get hx fun h => ih x h hx
    exact ⟨x :: key, h1, h2⟩

/-- A normal form without keys is empty. -/
theorem Canon.eq_nil (ht : t.Canon τ) (h : ∀ key, Terminated τ key → t.get key = none) :
    t = nil := by
  by_contra h0
  obtain ⟨key, h1, h2⟩ := ht.exists_get h0
  exact h2 (h key h1)

/-- Every child of a branching node in normal form holds some key. -/
theorem Canon.exists_get_child (ht : (full cs).Canon τ)
    (ha : cs a ≠ nil) : ∃ key, Terminated τ (a :: key) ∧ (cs a).get key ≠ none :=
  ((canon_full_iff.mp ht).1 a).exists_get ha fun h => h.exists_get ha

/-- A branching node holds a key whose first letter differs from a given one. -/
theorem Canon.exists_get_ne (ht : (full cs).Canon τ) (x : α) :
    ∃ a key, a ≠ x ∧ Terminated τ (a :: key) ∧ (full cs).get (a :: key) ≠ none := by
  obtain ⟨-, y, z, hyz, hy, hz⟩ := canon_full_iff.mp ht
  by_cases hyx : y = x
  · obtain ⟨key, h1, h2⟩ := ht.exists_get_child hz
    exact ⟨z, key, fun h => hyz (hyx.trans h.symm), h1, h2⟩
  · obtain ⟨key, h1, h2⟩ := ht.exists_get_child hy
    exact ⟨y, key, hyx, h1, h2⟩

/-- The label of an edge in normal form is no shorter than any label that
precedes all of its keys. -/
theorem Canon.label_prefix (ht : (short k c).Canon τ) {k' : List α}
    (h : ∀ key, Terminated τ key → (short k c).get key ≠ none → k' <+: key) : k' <+: k := by
  rcases ht with ⟨hk, hc⟩ | ⟨-, hτ, hf, hc⟩
  · obtain ⟨v, rfl⟩ := hc.cases
    exact h k hk (by simp)
  · obtain ⟨cs, rfl⟩ := hf.cases
    obtain ⟨-, x, -, -, hx, -⟩ := canon_full_iff.mp hc
    obtain ⟨key, h1, h2⟩ := hc.exists_get_child hx
    have hpre := h (k ++ x :: key) ((terminated_append_iff hτ).mpr h1) (by simpa using h2)
    rcases prefix_or_prefix_of_prefix hpre (prefix_append k (x :: key)) with hp | ⟨r, hr⟩
    · exact hp
    · -- a longer label would exclude the keys below another letter
      cases r with
      | nil =>
        rw [append_nil] at hr
        exact hr ▸ prefix_rfl
      | cons y r =>
        obtain ⟨a, key', ha, h1', h2'⟩ := hc.exists_get_ne y
        have hpre' := h (k ++ a :: key') ((terminated_append_iff hτ).mpr h1') (by simpa using h2')
        rw [← hr, prefix_append_right_inj, cons_prefix_cons] at hpre'
        exact absurd hpre'.1.symm ha

/-- The keys below an edge start with its label. -/
theorem prefix_of_get_short (h : (short k c).get key ≠ none) : k <+: key := by
  by_contra hp
  exact h (get_short_eq_none hp)

/-- An edge and a branching node in normal form never have the same keys. -/
theorem Canon.short_ne_full (ht : (short k c).Canon τ) (hu : (full cs).Canon τ)
    (h : ∀ key, Terminated τ key → (short k c).get key = (full cs).get key) : False := by
  obtain ⟨x, r, rfl⟩ := exists_cons_of_ne_nil ht.wf.label_ne_nil
  obtain ⟨a, key, ha, h1, h2⟩ := hu.exists_get_ne x
  rw [← h _ h1] at h2
  have := prefix_of_get_short h2
  rw [cons_prefix_cons] at this
  exact ha this.1.symm

/-- **A normal form is determined by its lookups.** -/
theorem Canon.ext {u : Tree α V} (ht : t.Canon τ) (hu : u.Canon τ)
    (h : ∀ key, Terminated τ key → t.get key = u.get key) : t = u := by
  induction t generalizing u with
  | nil => exact (hu.eq_nil fun key hk => (h key hk).symm).symm
  | value v => exact ht.elim
  | short k c ih =>
    cases u with
    | nil => exact ht.eq_nil h
    | value v => exact hu.elim
    | full cs => exact (ht.short_ne_full hu h).elim
    | short k' c' =>
      have hkk : k' <+: k := ht.label_prefix fun key h1 h2 =>
        prefix_of_get_short (by rwa [← h key h1])
      have hkk' : k <+: k' := hu.label_prefix fun key h1 h2 =>
        prefix_of_get_short (by rwa [h key h1])
      have hke : k = k' := IsPrefix.eq_of_length hkk' (Nat.le_antisymm hkk'.length_le hkk.length_le)
      subst hke
      have hget : ∀ r, Terminated τ (k ++ r) → c.get r = c'.get r := fun r hr => by
        simpa using h (k ++ r) hr
      rcases ht with ⟨hk, hc⟩ | ⟨-, hτ, hf, hc⟩
      · rcases hu with ⟨-, hc'⟩ | ⟨-, hτ', -⟩
        · obtain ⟨v, rfl⟩ := hc.cases
          obtain ⟨w, rfl⟩ := hc'.cases
          simpa using hget [] (by simpa using hk)
        · exact absurd hk.mem hτ'
      · rcases hu with ⟨hk', -⟩ | ⟨-, -, hf', hc'⟩
        · exact absurd hk'.mem hτ
        · rw [ih hc hc' fun r hr => hget r ((terminated_append_iff hτ).mpr hr)]
  | full cs ih =>
    cases u with
    | nil => exact ht.eq_nil h
    | value v => exact hu.elim
    | short k' c' => exact (hu.short_ne_full ht fun key hk => (h key hk).symm).elim
    | full cs' =>
      obtain ⟨hc, -⟩ := canon_full_iff.mp ht
      obtain ⟨hc', -⟩ := canon_full_iff.mp hu
      congr 1
      funext a
      by_cases ha : a = τ
      · subst ha
        have hget : (cs a).get [] = (cs' a).get [] := h [a] terminated_singleton
        rcases ((hc a).1 rfl).cases with h1 | ⟨v, h1⟩ <;>
          rcases ((hc' a).1 rfl).cases with h2 | ⟨w, h2⟩ <;> rw [h1, h2] at hget ⊢ <;>
          simp_all
      · exact ih a ((hc a).2 ha) ((hc' a).2 ha) fun key hk => h (a :: key) (.inr ⟨ha, hk⟩)

end Tree

end Radix
