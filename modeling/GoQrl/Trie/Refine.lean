import GoQrl.Trie.Represent

/-!
# GoQrl.Trie.Refine

Lookup, insertion and deletion on partly loaded node structures compute the
operations of the radix tree that the structure represents.

`Step` collects what one operation on the node at path `pre` does: the new node
represents the new tree, everything it loaded is a node of the original store,
the tracer follows the set of node paths, and no stored node gets out of sight
without having been read.  It is reflexive and transitive and goes up from a
child to its parent, so that every case of the three operations is a
composition of a few steps.
-/

namespace GoQrl.Mpt

open Rlp Radix Mpt.Tree Function Radix.Tree Node Tracer
open List hiding nil get insert

/-! ## keys that end inside the tree -/

variable {t c : Tree} {k rest key : Hex} {cs : Nibble → Tree} {i : Nibble}

/-- The key leads to a value position of the tree. -/
def Reach (t : Tree) (key : Hex) : Prop :=
  (t.WF term ∧ Terminated term key) ∨ (t.IsSlot ∧ key = [])

theorem Reach.short (h : Reach (.short k c) key) : (short k c).WF term ∧ Terminated term key :=
  h.resolve_right fun hs => hs.1

/-- A key reaches into the child of an edge. -/
theorem Reach.child_short (h : Reach (.short k c) (k ++ rest)) : Reach c rest := by
  obtain ⟨hwf, hkey⟩ := h.short
  rcases hwf with ⟨hk, hc⟩ | ⟨-, hk, hc⟩
  · obtain ⟨v, rfl⟩ := hc.cases
    exact .inr ⟨trivial, hk.append_eq_nil hkey⟩
  · exact .inl ⟨hc, (terminated_append_iff hk).mp hkey⟩

theorem Reach.full (h : Reach (.full cs) key) : (full cs).WF term ∧ Terminated term key :=
  h.resolve_right fun hs => hs.1

/-- A key reaches into one child of a branch. -/
theorem Reach.child_full (h : Reach (.full cs) (i :: rest)) : Reach (cs i) rest := by
  obtain ⟨hwf, hkey⟩ := h.full
  by_cases hi : i = term
  · subst hi
    exact .inr ⟨hwf.1, hkey.eq_nil_of_cons⟩
  · exact .inl ⟨hwf.2 i hi, hkey.tail hi⟩

/-- A terminated key either passes an edge or leaves it at some digit. -/
theorem Reach.cases_short (h : Reach (.short k c) key) :
    (∃ rest, key = k ++ rest) ∨ ∃ p a k' b rest, k = p ++ a :: k' ∧
      key = p ++ b :: rest ∧ a ≠ b := by
  obtain ⟨hwf, hkey⟩ := h.short
  rcases hwf.divide_cases hkey with ⟨rest, rfl, -⟩ | ⟨p, a, k', b, rest, hk, hr, hab, -⟩
  · exact .inl ⟨rest, rfl⟩
  · exact .inr ⟨p, a, k', b, rest, hk, hr, hab⟩

/-- A key that leads to a node is not empty. -/
theorem Reach.ne_nil (h : Reach t key) (ht : isNode t) : key ≠ [] := by
  obtain ⟨-, hkey⟩ | ⟨hslot, -⟩ := h
  · exact hkey.ne_nil
  · obtain rfl | ⟨v, rfl⟩ := hslot.cases <;> cases ht

/-- The key leads to a value position of a tree in normal form. -/
def CanonReach (t : Tree) (key : Hex) : Prop :=
  (t.Canon term ∧ Terminated term key) ∨ (t.IsSlot ∧ key = [])

theorem CanonReach.reach (h : CanonReach t key) : Reach t key :=
  h.imp_left fun h => ⟨h.1.wf, h.2⟩

/-- Below an edge a key ends at a value, or goes on into a branch. -/
theorem CanonReach.child_short (h : CanonReach (.short k c) (k ++ rest)) :
    (rest = [] ∧ c.IsValue) ∨ (rest ≠ [] ∧ c.IsFull ∧ CanonReach c rest) := by
  obtain ⟨hcanon, hkey⟩ := h.resolve_right fun hs => hs.1
  rcases hcanon with ⟨hk, hc⟩ | ⟨-, hk, hf, hc⟩
  · exact .inl ⟨hk.append_eq_nil hkey, hc⟩
  · have hrest := (terminated_append_iff hk).mp hkey
    exact .inr ⟨hrest.ne_nil, hf, .inl ⟨hc, hrest⟩⟩

theorem CanonReach.child_full (h : CanonReach (.full cs) (i :: rest)) : CanonReach (cs i) rest := by
  obtain ⟨hcanon, hkey⟩ := h.resolve_right fun hs => hs.1
  by_cases hi : i = term
  · subst hi
    exact .inr ⟨hcanon.1.1, hkey.eq_nil_of_cons⟩
  · exact .inl ⟨hcanon.1.2 i hi, hkey.tail hi⟩

variable {o c' : Tree} {s s' : Tracer} {pre : Hex} {flags flags' : NodeFlag} {val : Node}
    {ns : Nibble → Node}
  {r : TrieReader} {fuel : Nat} {a b : Nibble}

/-! ## single steps -/

/-- A new edge above a node, unless its label is empty. -/
def chainNode (k : Hex) (n : Node) : Node := if k = [] then n else .short k n newFlag

/-- The tracer after a new edge was put at the path. -/
def chainTrace (k : Hex) (s : Tracer) (pre : Hex) : Tracer :=
  if k = [] then s else s.onInsert pre

/-- Inserting into nothing gives an edge to the value. -/
theorem insert_nil_chain {key : Hex} (val : Node) (s : Tracer) :
    insert r (fuel + 1) .nil pre key val s =
      (.ok (true, chainNode key val), chainTrace key s pre) := by
  cases key <;> rfl

/-- Splitting an edge in terms of chains, which may be empty. -/
theorem insert_split_chain {p : Hex} (hab : a ≠ b) (val : Node) (flags : NodeFlag) (v : Bytes)
    (s : Tracer) :
    insert r (fuel + 2) (.short (p ++ a :: k) val flags) pre (p ++ b :: rest) (.value v) s =
      (.ok (true, chainNode p (.full (setChild (setChild (fun _ => .nil) a
        (chainNode k val)) b (chainNode rest (.value v))) newFlag)),
       chainTrace p (chainTrace rest (chainTrace k s (pre ++ (p ++ [a]))) (pre ++ (p ++ [b])))
        (pre ++ p)) := by
  rw [insert_short_split hab flags (insert_nil_chain val s) (insert_nil_chain (.value v) _)]
  cases p <;> rfl

/-- An edge that is put on top of a node loads nothing. -/
theorem unloaded_chain (k : Hex) (n : Node) (pre p : Hex) :
    (chainNode k n).Unloaded pre p ↔ n.Unloaded (pre ++ k) p := by
  cases k with
  | nil => simp [chainNode]
  | cons a k => rfl

@[simp] theorem chainTrace_accessList (k : Hex) (s : Tracer) (pre : Hex) :
    (chainTrace k s pre).accessList = s.accessList := by
  unfold chainTrace; split <;> simp

/-- The tracer notes the new edge. -/
theorem tracks_chainTrace {O P : Hex → Prop} (k pre : Hex) (h : s.Tracks O P)
    (hp : k ≠ [] → ¬ P pre) :
    (chainTrace k s pre).Tracks O fun p => (k ≠ [] ∧ p = pre) ∨ P p := by
  unfold chainTrace
  split
  · next hk => exact h.congr fun p => by simp [hk]
  · next hk => exact (h.onInsert (hp hk)).congr fun p => by simp [hk]

/-- The positions of nodes in a chain. -/
theorem nodeAt_chain {q : Hex} :
    NodeAt (chain k c) q ↔ (k ≠ [] ∧ q = []) ∨ ∃ q', q = k ++ q' ∧ NodeAt c q' := by
  cases k with
  | nil => simp [chain]
  | cons a k => simp [chain, NodeAt]

/-- The positions of nodes in a branch of two. -/
theorem nodeAt_branch (hab : a ≠ b) {u : Tree} {q : Hex} : NodeAt (.full (branch a t b u)) q ↔
      q = [] ∨ (∃ q', q = a :: q' ∧ NodeAt t q') ∨ ∃ q', q = b :: q' ∧ NodeAt u q' := by
  cases q with
  | nil => simp [NodeAt]
  | cons c q =>
    by_cases hb : c = b
    · subst hb
      simp [NodeAt, hab.symm]
    · by_cases ha : c = a
      · subst ha
        simp [NodeAt, branch_left hab, hb]
      · simp [NodeAt, branch_other ha hb, ha, hb]

/-- The position of the child that is left. -/
abbrev leftAt (ns : Nibble → Node) : Int := onlyChild ns (-1) (List.finRange 17)

/-- The children that the reduction sees. -/
theorem onlyChild_cases (ns : Nibble → Node) :
    (leftAt ns = -1 ∧ ∀ i, ns i = .nil) ∨
    (∃ i : Nibble, leftAt ns = i.val ∧ ns i ≠ .nil ∧ ∀ j, ns j ≠ .nil → j = i) ∨
    (leftAt ns = -2 ∧ ∃ i j, i ≠ j ∧ ns i ≠ .nil ∧ ns j ≠ .nil) := by
  have hnd := nodup_finRange 17
  rcases onlyChild_spec ns (-1) (.inl rfl) (finRange 17) with
    ⟨h1, h2⟩ | ⟨-, i, -, h1, h2, h3⟩ | ⟨h1, i, -, h2, h3⟩
  · exact .inl ⟨h1, fun i => h2 i (mem_finRange i)⟩
  · exact .inr (.inl ⟨i, h1, h2, fun j hj => h3 hnd j (mem_finRange j) hj⟩)
  · obtain ⟨j, -, hne, hj⟩ := h3 rfl hnd
    exact .inr (.inr ⟨h1, j, i, hne, hj, h2⟩)

/-- The reduction when one child is left. -/
theorem reduce_single (hpos : leftAt ns = i.val) : reduce r ns pre s =
      if i ≠ term then
        (resolve r (ns i) (pre ++ [i]) >>= fun cnode =>
          match cnode with
          | .short ckey val _ => do
            onDelete (pre ++ [i])
            return (true, short (i :: ckey) val newFlag)
          | _ => return (true, .short [i] (ns i) newFlag) : TrieM (Bool × Node)) s
      else (.ok (true, .short [i] (ns i) newFlag), s) := by
  have hcond : 0 ≤ leftAt ns ∧ leftAt ns < 17 := by
    rw [hpos]; omega
  have hi : (⟨(leftAt ns).toNat, by omega⟩ : Nibble) = i :=
    Fin.ext (show (leftAt ns).toNat = i.val by rw [hpos]; rfl)
  unfold reduce
  rw [dif_pos hcond]
  simp only [hi]
  split <;> rfl

/-- The reduction when not exactly one child is left. -/
theorem reduce_full (hpos : leftAt ns < 0) :
    reduce r ns pre s = (.ok (true, .full ns newFlag), s) := by
  unfold reduce
  rw [dif_neg fun h => absurd h.1 (Int.not_le.mpr hpos)]
  rfl

variable [Keccak]

/-! ## steps -/

/-- The tracer has read more, and only what the original store holds. -/
structure Reads (o : Tree) (s s' : Tracer) : Prop where
  mono : ∀ p, s.accessList p ≠ none → s'.accessList p ≠ none
  stored : (∀ p b, s.accessList p = some b → store o p = some b) →
    ∀ p b, s'.accessList p = some b → store o p = some b

theorem Reads.of_eq (h : s'.accessList = s.accessList) : Reads o s s' :=
  ⟨fun p hp => by rwa [h], fun hs p b hb => hs p b (by rwa [← h])⟩

/-- Reads add up. -/
theorem Reads.trans {s'' : Tracer} (h : Reads o s s') (h' : Reads o s' s'') : Reads o s s'' :=
  ⟨fun p hp => h'.mono p (h.mono p hp), fun hs => h'.stored (h.stored hs)⟩

/-- One operation on the node at path `pre`. -/
structure Step (o : Tree) (pre : Hex) (n : Node) (t : Tree) (s : Tracer) (n' : Node) (t' : Tree)
    (s' : Tracer) : Prop where
  rep : Rep o pre n' t'
  reads : Reads o s s'
  covers : ∀ p, store o p ≠ none → n.Unloaded pre p →
    n'.Unloaded pre p ∨ s'.accessList p ≠ none
  loads : ∀ p, n'.Unloaded pre p → n.Unloaded pre p
  tracks : ∀ P, s.Tracks (NodeAt o) P → (∀ q, P (pre ++ q) ↔ NodeAt t q) →
    s'.Tracks (NodeAt o) (replant P pre t')

variable {t' : Tree} {n n' : Node} {s'' : Tracer}

theorem Step.refl (h : Rep o pre n t) (s : Tracer) : Step o pre n t s n t s where
  rep := h
  reads := .of_eq rfl
  covers _ _ hp := .inl hp
  loads _ hp := hp
  tracks _ hs hP := hs.congr (replant_self hP)

/-- Steps follow each other. -/
theorem Step.trans {t'' : Tree} {n'' : Node} (h : Step o pre n t s n' t' s')
    (h' : Step o pre n' t' s' n'' t'' s'') : Step o pre n t s n'' t'' s'' where
  rep := h'.rep
  reads := h.reads.trans h'.reads
  covers p hp hu := by
    rcases h.covers p hp hu with hu' | hr
    · exact h'.covers p hp hu'
    · exact .inr (h'.reads.mono p hr)
  loads p hp := h.loads p (h'.loads p hp)
  tracks P hs hP := by
    have h2 := h'.tracks _ (h.tracks P hs hP) fun q => replant_append t' q
    exact h2.congr fun p => replant_iff (fun q => replant_append t'' q) (fun x hx => by
      rw [replant_outside _ hx, replant_outside _ hx]) p

/-- An operation that did not change the tree may keep the old node. -/
theorem Step.keep (h : Step o pre n t s n' t s') (hrep : Rep o pre n t) : Step o pre n t s n t s' :=
  { h with rep := hrep, covers := fun _ _ hp => .inl hp, loads := fun _ hp => hp }

/-- An operation keeps the old node unless it is dirty. -/
theorem Step.orKeep {dirty : Bool} (h : Step o pre n t s n' t' s') (hrep : Rep o pre n t)
    (hsame : dirty = false → t' = t) : Step o pre n t s (if dirty then n' else n) t' s' := by
  cases dirty with
  | true => exact h
  | false =>
    obtain rfl := hsame rfl
    exact h.keep hrep

/-- Loading the node behind a hash. -/
theorem Step.load (ho : Fit o) (hs : Standalone pre t) (hloc : locate o pre = some t) (s : Tracer) :
    Step o pre (.hash (digest t)) t s (expand (some (digest t)) t) t (s.onRead pre (enc t)) where
  rep := rep_expand ho.sized.part hloc fun k hk => ⟨(Option.some.inj hk).symm, hs⟩
  reads := by
    constructor
    · intro p hp
      by_cases hpre : p = pre
      · simp [onRead, hpre]
      · simpa [onRead, hpre] using hp
    · intro hst p b hb
      by_cases hpre : p = pre
      · subst hpre
        simp only [onRead, update_self, Option.some.injEq] at hb
        rw [← hb]
        exact store_of_locate hloc hs
      · exact hst p b (by simpa [onRead, hpre] using hb)
  covers p hp hu := by
    obtain ⟨q, rfl⟩ := hu
    by_cases hq : q = []
    · subst hq
      exact .inr (by simp [onRead])
    · exact .inl (unloaded_expand ho.sized.part hloc _ hq hp)
  loads _ hp := hp.isPrefix
  tracks P hT hP := (hT.onRead pre (enc t)).congr (replant_self hP)

/-- A step of the child of an edge. -/
theorem Step.short (hk : k ≠ []) {val' : Node} (h : Step o (pre ++ k) val c s val' c' s')
    (hf : FlagOK o pre flags' (.short k c')) (hs : flags'.hash ≠ none → Sealed (pre ++ k) val' c') :
    Step o pre (.short k val flags) (.short k c) s (.short k val' flags') (.short k c') s' where
  rep := .short h.rep hf hs
  reads := h.reads
  covers := h.covers
  loads := h.loads
  tracks P hT hP := by
    refine (h.tracks P hT fun q => ?_).congr (replant_short hk hP)
    rw [append_assoc, hP]
    constructor
    · rintro (h0 | ⟨q', h1, h2⟩)
      · simp [hk] at h0
      · rwa [append_cancel_left h1]
    · exact fun hq => .inr ⟨q, rfl, hq⟩

/-- A step of one child of a branching node. -/
theorem Step.full {n' : Node} (hrep : Rep o pre (.full ns flags) (.full cs))
    (h : Step o (pre ++ [i]) (ns i) (cs i) s n' c' s')
    (hf : FlagOK o pre flags' (.full (update cs i c')))
    (hs : flags'.hash ≠ none → ∀ j, Sealed (pre ++ [j]) (setChild ns i n' j) (update cs i c' j)) :
    Step o pre (.full ns flags) (.full cs) s (.full (setChild ns i n') flags')
      (.full (update cs i c')) s' where
  rep := by
    cases hrep with
    | full hc _ _ =>
      refine .full (fun j => ?_) hf hs
      by_cases hj : j = i
      · subst hj; simpa [setChild] using h.rep
      · simpa [setChild, hj] using hc j
  reads := h.reads
  covers p hp hu := by
    obtain ⟨j, hj⟩ := hu
    by_cases hji : j = i
    · subst hji
      rcases h.covers p hp hj with hu' | hr
      · exact .inl ⟨j, by simpa [setChild] using hu'⟩
      · exact .inr hr
    · exact .inl ⟨j, by simpa [setChild, hji] using hj⟩
  loads p hp := (unloaded_setChild hp).elim (fun hu => ⟨i, h.loads p hu⟩) id
  tracks P hT hP := by
    refine (h.tracks P hT fun q => ?_).congr (replant_full hP)
    rw [append_assoc, hP]
    simp [NodeAt]

/-! ## going down -/

/-- **Going down a key**: what an operation does at every node on the way, when it goes up
from the child that the key leads to, and from a loaded node to the hash in its place.  A node
takes one unit of fuel, and one more when it is loaded. -/
theorem descend {R : Tree → Hex → Prop} {M : Nat → Hex → Node → Tree → Hex → Tracer → Prop}
    (ho : Fit o) (hR : ∀ {t key}, R t key → Reach t key)
    (load : ∀ {fuel pre t key s}, R t key → Standalone pre t → locate o pre = some t →
      M fuel pre (expand (some (digest t)) t) t key (s.onRead pre (enc t)) →
      M (fuel + 1) pre (.hash (digest t)) t key s)
    (nil : ∀ {fuel pre key s}, R .nil key → M (fuel + 1) pre .nil .nil key s)
    (value : ∀ {fuel pre v key s}, R (.value v) key → M (fuel + 1) pre (.value v) (.value v) key s)
    (short : ∀ {fuel pre k c val flags key s}, R (.short k c) key → k ≠ [] →
      Rep o (pre ++ k) val c → FlagOK o pre flags (.short k c) →
      (flags.hash ≠ none → Sealed (pre ++ k) val c) →
      (∀ {rest}, key = k ++ rest → R c rest → M (fuel + 1) (pre ++ k) val c rest s) →
      M (fuel + 2) pre (.short k val flags) (.short k c) key s)
    (full : ∀ {fuel pre cs ns flags i rest s}, R (.full cs) (i :: rest) →
      (∀ j, Rep o (pre ++ [j]) (ns j) (cs j)) → FlagOK o pre flags (.full cs) →
      (flags.hash ≠ none → ∀ j, Sealed (pre ++ [j]) (ns j) (cs j)) →
      (R (cs i) rest → M fuel (pre ++ [i]) (ns i) (cs i) rest s) →
      M (fuel + 1) pre (.full ns flags) (.full cs) (i :: rest) s)
    (hkey : R t key) (hrep : Rep o pre n t) (hf : 2 * key.length + 2 ≤ fuel) (s : Tracer) :
    M fuel pre n t key s := by
  -- a node may first have to be loaded
  have wake : ∀ {t key}, R t key → (∀ {fuel pre n s}, Rep o pre n t → n.isHash = false →
        2 * key.length ≤ fuel → M (fuel + 1) pre n t key s) →
      ∀ {fuel pre n s}, Rep o pre n t → 2 * key.length + 2 ≤ fuel → M fuel pre n t key s := by
    intro t key hkey live fuel pre n s hrep hf
    obtain ⟨fuel, rfl⟩ : ∃ f, fuel = f + 2 := ⟨fuel - 2, by omega⟩
    cases hn : n.isHash with
    | false => exact live hrep hn (by omega)
    | true =>
      cases hrep with
      | hash hp hs hloc =>
        exact load hkey hs hloc (live (Step.load ho hs hloc s).rep (isHash_expand _ _) (by omega))
      | _ => cases hn
  refine wake hkey ?_ hrep hf
  clear hrep hf
  induction t generalizing key with
  | nil =>
    intro fuel pre n s hrep hn hf
    cases hrep with
    | nil => exact nil hkey
    | hash => cases hn
  | value v =>
    intro fuel pre n s hrep hn hf
    cases hrep with
    | value => exact value hkey
    | hash => cases hn
  | short k c ih =>
    intro fuel pre n s hrep hn hf
    obtain ⟨hwf, hterm⟩ := (hR hkey).short
    have hk := length_pos_iff.mpr hwf.label_ne_nil
    have hpos := length_pos_iff.mpr hterm.ne_nil
    obtain ⟨fuel, rfl⟩ : ∃ f, fuel = f + 1 := ⟨fuel - 1, by omega⟩
    cases hrep with
    | hash => cases hn
    | short hc hflags hseal =>
      refine short hkey hwf.label_ne_nil hc hflags hseal fun hrest hchild => ?_
      rw [hrest, length_append] at hf
      exact wake hchild (ih hchild) hc (by omega)
  | full cs ih =>
    intro fuel pre n s hrep hn hf
    obtain ⟨i, rest, rfl⟩ := exists_cons_of_ne_nil (hR hkey).full.2.ne_nil
    rw [length_cons] at hf
    cases hrep with
    | hash => cases hn
    | full hc hflags hseal =>
      exact full hkey hc hflags hseal fun hchild => wake hchild (ih i hchild) (hc i) (by omega)

/-! ## lookup -/

/-- What a lookup does: the value of the represented tree, and a step that
leaves the tree as it is. -/
def Looks (o : Tree) (r : TrieReader) (fuel : Nat) (pre : Hex) (n : Node) (t : Tree) (key : Hex)
    (s : Tracer) : Prop :=
  ∃ n' did s', get r fuel n (pre ++ key) pre.length s = (.ok (t.get key, n', did), s') ∧
    Step o pre n t s n' t s' ∧ (Sealed pre n t → Sealed pre n' t) ∧ (did = false → n' = n)

/-- **Lookup** reads the represented tree. -/
theorem get_spec (ho : Fit o) (hr : Serves r o) (hkey : Reach t key)
    (hrep : Rep o pre n t) (hf : 2 * key.length + 2 ≤ fuel) (s : Tracer) :
    Looks o r fuel pre n t key s := by
  refine descend ho id ?load ?nil ?value ?short ?full hkey hrep hf s
  case load =>
    rintro fuel pre t key s - hs hloc ⟨n', did, s', hget, hstep, hseal, -⟩
    have hpart := Part.locate ho.sized.part hloc
    exact ⟨n', true, s', get_hash rfl (resolveAndTrack_spec ho hr hloc hs s) hget,
      (Step.load ho hs hloc s).trans hstep, fun _ => hseal (sealed_expand hpart _), by simp⟩
  case nil =>
    intro fuel pre key s _
    exact ⟨.nil, false, s, rfl, .refl (.nil pre) s, id, fun _ => rfl⟩
  case value =>
    intro fuel pre v key s _
    exact ⟨.value v, false, s, rfl, .refl (.value pre v) s, id, fun _ => rfl⟩
  case short =>
    intro fuel pre k c val flags key s hkey hk hc hflags hseal ih
    by_cases hpre : k <+: key
    · obtain ⟨rest, rfl⟩ := hpre
      obtain ⟨n', did, s', hget, hstep, hs', hsame⟩ := ih rfl hkey.child_short
      rw [append_assoc] at hget
      have hnode : (if did then n' else val) = n' := by
        cases did with
        | true => rfl
        | false => exact (hsame rfl).symm
      have hexec := get_short_append flags rfl hget
      rw [hnode] at hexec
      refine ⟨_, did, s', ?_, .short hk hstep hflags fun hh => hs' (hseal hh), ?_, ?_⟩
      · rw [hexec, Tree.get_short_append]
      · exact fun hsl => ⟨hsl.1, hs' hsl.2⟩
      · intro hd; rw [hsame hd]
    · refine ⟨_, false, s, ?_, .refl (.short hc hflags hseal) s, id, fun _ => rfl⟩
      rw [get_short_other rfl hpre, get_short_eq_none hpre]
  case full =>
    intro fuel pre cs ns flags i rest s hkey hc hflags hseal ih
    obtain ⟨n', did, s', hget, hstep, hs', hsame⟩ := ih hkey.child_full
    rw [append_assoc] at hget
    have hnode : (if did then setChild ns i n' else ns) = setChild ns i n' := by
      cases did with
      | true => rfl
      | false =>
        rw [hsame rfl]
        exact (update_eq_self i ns).symm
    have hexec := get_full_cons flags rfl hget
    rw [hnode] at hexec
    have hstep' : Step o pre (.full ns flags) (.full cs) s
        (.full (setChild ns i n') flags) (.full (update cs i (cs i))) s' := by
      refine .full (.full hc hflags hseal) hstep (by rwa [update_eq_self]) fun hh => ?_
      rw [update_eq_self]
      exact sealed_setChild hs' (hseal hh)
    rw [update_eq_self] at hstep'
    refine ⟨_, did, s', hexec, hstep', fun h => ⟨h.1, sealed_setChild hs' h.2⟩, ?_⟩
    intro hd
    rw [hsame hd, setChild, update_eq_self]

/-! ## insertion -/

/-- A chain of nodes stands for a chain of trees. -/
theorem Rep.chain (h : Rep o (pre ++ k) n c) : Rep o pre (chainNode k n) (chain k c) := by
  cases k with
  | nil => rw [append_nil] at h; exact h
  | cons a k => exact .short h (flagOK_new _ _ _) (absurd rfl)

/-- A value put below an empty position. -/
theorem Step.plant (pre key : Hex) (v : Bytes) (s : Tracer) :
    Step o pre .nil .nil s (chainNode key (.value v)) (chain key (.value v))
      (chainTrace key s pre) where
  rep := Rep.chain (.value _ v)
  reads := .of_eq (chainTrace_accessList _ _ _)
  covers _ _ hu := hu.elim
  loads _ hu := ((unloaded_chain _ _ _ _).mp hu).elim
  tracks P hT hP := by
    have hpre : ¬ P pre := fun h => (hP []).mp (by simpa using h)
    refine (tracks_chainTrace key pre hT fun _ => hpre).congr
      (replant_iff (fun q => ?_) fun p hp => ?_)
    · rw [hP, nodeAt_chain]
      simp
    · exact or_iff_right fun h => hp (h.2 ▸ prefix_refl _)

/-- The children of a new branching node with two entries. -/
theorem rep_branch {u : Tree} {m m' : Node} (ht : Rep o (pre ++ [a]) m t)
    (hu : Rep o (pre ++ [b]) m' u) (i : Nibble) :
    Rep o (pre ++ [i]) (setChild (setChild (fun _ => .nil) a m) b m' i)
      (branch a t b u i) := by
  unfold setChild branch
  by_cases hb : i = b
  · subst hb; simpa using hu
  · by_cases ha : i = a
    · subst ha; simpa [hb] using ht
    · simpa [ha, hb] using Rep.nil (pre ++ [i])

/-- An edge that is split because a key leaves it. -/
theorem Step.split {p : Hex} (hab : a ≠ b) (hc : Rep o (pre ++ (p ++ a :: k)) val c) (v : Bytes)
    (s : Tracer) :
    Step o pre (.short (p ++ a :: k) val flags) (.short (p ++ a :: k) c) s
      (chainNode p (.full (setChild (setChild (fun _ => .nil) a (chainNode k val)) b
        (chainNode rest (.value v))) newFlag))
      (chain p (.full (branch a (chain k c) b (chain rest (.value v)))))
      (chainTrace p (chainTrace rest (chainTrace k s (pre ++ (p ++ [a]))) (pre ++ (p ++ [b])))
        (pre ++ p)) where
  rep := by
    refine Rep.chain (.full (fun i => rep_branch (Rep.chain ?_) (Rep.chain (.value _ v)) i)
      (flagOK_new _ _ _) (absurd rfl))
    simpa using hc
  reads := .of_eq (by simp)
  covers x _ hu := by
    refine .inl ((unloaded_chain _ _ _ _).mpr ⟨a, ?_⟩)
    have hnode : setChild (setChild (fun _ => .nil) a (chainNode k val)) b
        (chainNode rest (.value v)) a = chainNode k val := by
      simp [setChild, hab]
    rw [hnode, unloaded_chain]
    have hu : val.Unloaded (pre ++ (p ++ a :: k)) x := hu
    simpa using hu
  loads x hx := by
    obtain hx | hx := unloaded_setChild ((unloaded_chain _ _ _ _).mp hx)
    · exact ((unloaded_chain _ _ _ _).mp hx).elim
    obtain hx | ⟨_, hx⟩ := unloaded_setChild hx
    · show val.Unloaded (pre ++ (p ++ a :: k)) x
      simpa using (unloaded_chain _ _ _ _).mp hx
    · exact hx.elim
  tracks P hT hP := by
    have hold : ∀ q, P (pre ++ q) ↔ q = [] ∨ ∃ q', q = p ++ a :: (k ++ q') ∧ NodeAt c q' := by
      intro q
      rw [hP]
      simp [NodeAt]
    have h1 := tracks_chainTrace k (pre ++ (p ++ [a])) hT fun hk => by simp [hold, hk]
    have h2 := tracks_chainTrace rest (pre ++ (p ++ [b])) h1 fun _ => by simp [hold, hab.symm]
    have h3 := tracks_chainTrace p (pre ++ p) h2 fun hp => by simp [hold, hp]
    refine h3.congr (replant_iff (fun q => ?_) fun x hx => ?_)
    · rw [hold]
      simp only [nodeAt_branch hab, nodeAt_chain, nodeAt_value, and_false, exists_false, or_false,
        append_cancel_left_eq]
      grind
    · constructor
      · rintro (⟨-, rfl⟩ | ⟨-, rfl⟩ | ⟨-, rfl⟩ | h)
        on_goal 4 => exact h
        all_goals exact absurd (prefix_append _ _) hx
      · exact fun h => .inr (.inr (.inr h))

/-- What an insertion does. -/
def Inserts (o : Tree) (r : TrieReader) (fuel : Nat) (pre : Hex) (n : Node) (t : Tree) (key : Hex)
    (v : Bytes) (s : Tracer) : Prop :=
  ∃ dirty n' s', insert r fuel n pre key (.value v) s = (.ok (dirty, n'), s') ∧
    Step o pre n t s n' (t.insert v key) s' ∧ (dirty = false → t.insert v key = t)

/-- **Insertion** into a node structure inserts into the represented tree. -/
theorem insert_spec (ho : Fit o) (hr : Serves r o) (hkey : Reach t key)
    (hrep : Rep o pre n t) (hf : 2 * key.length + 2 ≤ fuel) (v : Bytes) (s : Tracer) :
    Inserts o r fuel pre n t key v s := by
  refine descend (M := fun fuel pre n t key s => Inserts o r fuel pre n t key v s) ho id
    ?load ?nil ?value ?short ?full hkey hrep hf s
  case load =>
    rintro fuel pre t key s hkey hs hloc ⟨dirty, n', s', hins, hstep, hsame⟩
    have hload := Step.load ho hs hloc s
    have hexec := insert_hash (hkey.ne_nil hs.1) (resolveAndTrack_spec ho hr hloc hs s) hins
    exact ⟨dirty, _, s', hexec, hload.trans (hstep.orKeep hload.rep hsame), hsame⟩
  case nil =>
    intro fuel pre key s _
    exact ⟨true, _, _, insert_nil_chain _ s, .plant pre key v s, by simp⟩
  case value =>
    intro fuel pre w key s hkey
    obtain rfl : key = [] := (hkey.resolve_left fun h => h.1).2
    refine ⟨w != v, .value v, s, insert_value w v, ?_, ?_⟩
    · exact ⟨.value pre v, .of_eq rfl, fun _ _ hu => hu.elim, fun _ hu => hu.elim,
        fun P hT hP => hT.congr (replant_self hP)⟩
    · intro hd
      have : w = v := by simpa using hd
      rw [this]; rfl
  case short =>
    intro fuel pre k c val flags key s hkey hk hc hflags hseal ih
    rcases hkey.cases_short with ⟨rest, rfl⟩ | ⟨p, a, k', b, rest, rfl, rfl, hab⟩
    · obtain ⟨dirty, n', s', hins, hstep, hsame⟩ := ih rfl hkey.child_short
      have hexec := insert_short_append flags hk hins
      have htree : (short k c).insert v (k ++ rest) = .short k (c.insert v rest) := by
        simp [Tree.insert, divide_append]
      have hnew : Step o pre (.short k val flags) (.short k c) s (.short k n' newFlag)
          (.short k (c.insert v rest)) s' :=
        .short hk hstep (flagOK_new _ _ _) (absurd rfl)
      unfold Inserts
      rw [htree]
      have heq : dirty = false → short k (c.insert v rest) = .short k c := fun hd => by
        rw [hsame hd]
      exact ⟨dirty, _, s', hexec, hnew.orKeep (.short hc hflags hseal) heq, heq⟩
    · have htree : (short (p ++ a :: k') c).insert v (p ++ b :: rest) =
          chain p (.full (branch a (chain k' c) b (chain rest (.value v)))) := by
        simp [Tree.insert, divide_split p k' rest hab]
      exact ⟨true, _, _, insert_split_chain hab val flags v s,
        htree ▸ Step.split hab hc v s, by simp⟩
  case full =>
    intro fuel pre cs ns flags i rest s hkey hc hflags hseal ih
    obtain ⟨dirty, n', s', hins, hstep, hsame⟩ := ih hkey.child_full
    have hexec := insert_full_cons flags hins
    have hrep : Rep o pre (.full ns flags) (.full cs) := .full hc hflags hseal
    have hnew : Step o pre (.full ns flags) (.full cs) s
        (.full (setChild ns i n') newFlag) ((full cs).insert v (i :: rest)) s' :=
      .full hrep hstep (flagOK_new _ _ _) (absurd rfl)
    have heq : dirty = false → (full cs).insert v (i :: rest) = .full cs := fun hd => by
      simp [Tree.insert, hsame hd]
    exact ⟨dirty, _, s', hexec, hnew.orKeep hrep heq, heq⟩

/-! ## deletion -/

/-- A leaf that is removed. -/
theorem Step.uproot (pre k : Hex) (v : Bytes) (flags : NodeFlag) (s : Tracer) :
    Step o pre (.short k (.value v) flags) (.short k (.value v)) s .nil .nil (s.onDelete pre) where
  rep := .nil pre
  reads := .of_eq (by simp)
  covers _ _ hu := hu.elim
  loads _ hu := hu.elim
  tracks P hT hP := by
    have hpre : P pre := by simpa using (hP []).mpr (.inl rfl)
    refine (hT.onDelete hpre).congr (replant_iff (fun q => ?_) fun p hp => ?_)
    · rw [hP]
      simp [NodeAt]
    · exact and_iff_right fun h => hp (h ▸ prefix_refl _)

/-- Two edges in a row are merged. -/
theorem Step.merge {k' : Hex} (hk : k ≠ []) (hk' : k' ≠ []) (hc : Rep o (pre ++ k ++ k') val c)
    (s : Tracer) :
    Step o pre (.short k (.short k' val flags') flags) (.short k (.short k' c)) s
      (.short (k ++ k') val newFlag) (.short (k ++ k') c) (s.onDelete (pre ++ k)) where
  rep := by
    rw [append_assoc] at hc
    exact .short hc (flagOK_new _ _ _) (absurd rfl)
  reads := .of_eq (by simp)
  covers p _ hu := .inl (by rwa [Node.Unloaded, ← append_assoc])
  loads p hu := by rwa [Node.Unloaded, ← append_assoc] at hu
  tracks P hT hP := by
    have hold : ∀ q, P (pre ++ q) ↔ q = [] ∨ q = k ∨ ∃ q', q = k ++ (k' ++ q') ∧ NodeAt c q' := by
      intro q
      rw [hP]
      constructor
      · rintro (h0 | ⟨q', rfl, rfl | ⟨q'', rfl, hq⟩⟩)
        · exact .inl h0
        · exact .inr (.inl (by simp))
        · exact .inr (.inr ⟨q'', rfl, hq⟩)
      · rintro (h0 | rfl | ⟨q', rfl, hq⟩)
        · exact .inl h0
        · exact .inr ⟨[], by simp, .inl rfl⟩
        · exact .inr ⟨_, rfl, .inr ⟨q', rfl, hq⟩⟩
    have hpre : P (pre ++ k) := (hold k).mpr (.inr (.inl rfl))
    refine (hT.onDelete hpre).congr (replant_iff (fun q => ?_) fun p hp => ?_)
    · rw [hold]
      constructor
      · rintro ⟨hne, h0 | rfl | ⟨q', rfl, hq⟩⟩
        · exact .inl h0
        · exact absurd rfl hne
        · exact .inr ⟨q', by simp, hq⟩
      · rintro (rfl | ⟨q', rfl, hq⟩)
        · exact ⟨by simpa using hk.symm, .inl rfl⟩
        · refine ⟨?_, .inr (.inr ⟨q', by simp, hq⟩)⟩
          simp [hk']
    · exact and_iff_right fun h => hp (h ▸ prefix_append _ _)

/-- A branching node with a single child becomes an edge. -/
theorem Step.single
    (hrep : Rep o pre (.full ns flags) (.full cs)) (hu : ∀ j, cs j ≠ .nil → j = i) (s : Tracer) :
    Step o pre (.full ns flags) (.full cs) s (.short [i] (ns i) newFlag) (.short [i] (cs i)) s := by
  cases hrep with
  | full hc _ _ =>
    refine ⟨.short (hc i) (flagOK_new _ _ _) (absurd rfl), .of_eq rfl, ?_, fun p hp => ⟨i, hp⟩, ?_⟩
    · rintro p - ⟨j, hj⟩
      obtain rfl := hu j fun h0 => by rwa [(hc j).nil_iff.mpr h0] at hj
      exact .inl hj
    · intro P hT hP
      refine hT.congr (replant_self fun q => (hP q).trans ?_)
      constructor
      · rintro (h0 | ⟨j, q', rfl, hq⟩)
        · exact .inl h0
        · obtain rfl := hu j fun h0 => by rwa [h0] at hq
          exact .inr ⟨q', rfl, hq⟩
      · rintro (h0 | ⟨q', rfl, hq⟩)
        · exact .inl h0
        · exact .inr ⟨i, q', rfl, hq⟩

/-- A node with new flags. -/
theorem Step.reflag (hrep : Rep o pre (.full ns flags) (.full cs)) (s : Tracer) :
    Step o pre (.full ns flags) (.full cs) s (.full ns newFlag) (.full cs) s := by
  cases hrep with
  | full hc _ _ =>
    exact ⟨.full hc (flagOK_new _ _ _) (absurd rfl), .of_eq rfl,
      fun _ _ hu => .inl hu, fun _ hu => hu, fun P hT hP => hT.congr (replant_self hP)⟩

/-- What an operation that changes the node does. -/
def Yields (o : Tree) (pre : Hex) (n : Node) (t : Tree) (s : Tracer)
    (res : Except TrieError (Bool × Node) × Tracer) (t' : Tree) : Prop :=
  ∃ n' s', res = (.ok (true, n'), s') ∧ Step o pre n t s n' t' s' ∧ n'.isHash = false

/-- The reduction when the only child is not the value slot. -/
theorem reduce_child (ho : Fit o) (hr : Serves r o) (hrep : Rep o pre (.full ns flags) (.full cs))
    (hwf : (cs i).WF term) (hi : i ≠ term) (hnil : cs i ≠ .nil) (hu : ∀ j, cs j ≠ .nil → j = i)
    (hpos : leftAt ns = i.val) (s : Tracer) :
    Yields o pre (.full ns flags) (.full cs) s (reduce r ns pre s) (graft [i] (cs i)) := by
  have hsingle := Step.single hrep hu s
  rw [reduce_single hpos, if_pos hi]
  cases hrep with
  | full hc _ _ =>
    have hci := hc i
    have hne : ([i] : Hex) ≠ [] := by simp
    cases hcase : cs i with
    | nil => exact absurd hcase hnil
    | value v => rw [hcase] at hwf; exact hwf.elim
    | short k c =>
      rw [hcase] at hci hsingle hwf
      cases hn : ns i with
      | nil | value | full => rw [hn] at hci; cases hci
      | short k' val f =>
        rw [hn] at hci hsingle
        cases hci with
        | short hcc _ _ =>
          exact ⟨_, _, rfl, hsingle.trans (.merge hne hwf.label_ne_nil hcc s), rfl⟩
      | hash h =>
        rw [hn] at hci hsingle
        cases hci with
        | hash hp hs hloc =>
          have hload := Step.load ho hs hloc s
          have hexec := resolveAndTrack_spec ho hr hloc hs s
          cases hrl : hload.rep with
          | short hcc _ _ =>
            refine ⟨_, _, TrieM.bind_ok hexec, ?_, rfl⟩
            exact (hsingle.trans (.short hne hload (flagOK_new _ _ _) (absurd rfl))).trans
              (.merge hne hwf.label_ne_nil hcc _)
    | full ds =>
      rw [hcase] at hci hsingle
      cases hn : ns i with
      | nil | value | short => rw [hn] at hci; cases hci
      | full ms f =>
        rw [hn] at hsingle
        exact ⟨_, _, rfl, hsingle, rfl⟩
      | hash h =>
        rw [hn] at hci hsingle
        cases hci with
        | hash hp hs hloc =>
          have hload := (Step.load ho hs hloc s).keep (.hash hp hs hloc)
          refine ⟨_, _, TrieM.bind_ok (resolveAndTrack_spec ho hr hloc hs s), ?_, rfl⟩
          exact hsingle.trans (.short hne hload (flagOK_new _ _ _) (absurd rfl))

/-- **The reduction** of a branching node is the one of the represented tree. -/
theorem reduce_spec (ho : Fit o) (hr : Serves r o) (hrep : Rep o pre (.full ns flags) (.full cs))
    (hwf : (full cs).WF term) (s : Tracer) :
    Yields o pre (.full ns flags) (.full cs) s (reduce r ns pre s) (collapse cs) := by
  have hnil : ∀ i, ns i = .nil ↔ cs i = .nil := by
    cases hrep with
    | full hc _ _ => exact fun i => (hc i).nil_iff
  rcases onlyChild_cases ns with ⟨hpos, hall⟩ | ⟨i, hpos, hi, hu⟩ | ⟨hpos, i, j, hij, hi, hj⟩
  · rw [collapse_of_nil fun i => (hnil i).mp (hall i)]
    exact ⟨_, _, reduce_full (by rw [hpos]; decide), .reflag hrep s, rfl⟩
  · have hi' : cs i ≠ .nil := fun h => hi ((hnil i).mpr h)
    have hu' : ∀ j, cs j ≠ .nil → j = i := fun j hj => hu j fun h => hj ((hnil j).mp h)
    rw [collapse_eq_graft hi' hu']
    by_cases hit : i = term
    · have hsingle := Step.single hrep hu' s
      subst hit
      obtain ⟨v, hv⟩ := hwf.1.cases.resolve_left hi'
      rw [reduce_single hpos]
      rw [hv] at hsingle ⊢
      exact ⟨_, _, rfl, hsingle, rfl⟩
    · exact reduce_child ho hr hrep (hwf.2 i hit) hit hi' hu' hpos s
  · rw [collapse_eq_full hij (fun h => hi ((hnil i).mpr h)) fun h => hj ((hnil j).mpr h)]
    exact ⟨_, _, reduce_full (by rw [hpos]; decide), .reflag hrep s, rfl⟩

/-- What a deletion does. -/
def Deletes (o : Tree) (r : TrieReader) (fuel : Nat) (pre : Hex) (n : Node) (t : Tree) (key : Hex)
    (s : Tracer) : Prop :=
  ∃ dirty n' s', delete r fuel n pre key s = (.ok (dirty, n'), s') ∧
    Step o pre n t s n' (t.delete key) s' ∧ (dirty = false → t.delete key = t) ∧ n'.isHash = false

/-- After a deletion below an edge: a child that became an edge is merged. -/
theorem deletes_edge (hk : k ≠ []) (hrest : rest ≠ []) {child : Node} (hwf : c'.WF term)
    (hdel : delete r fuel val (pre ++ k) rest s = (.ok (true, child), s'))
    (hlive : child.isHash = false) (hstep : Step o (pre ++ k) val c s child c' s') :
    Yields o pre (.short k val flags) (.short k c) s
      (delete r (fuel + 1) (.short k val flags) pre (k ++ rest) s) (graft k c') := by
  have hexec := delete_short_append flags hrest hdel
  have hup : Step o pre (.short k val flags) (.short k c) s (.short k child newFlag)
      (.short k c') s' :=
    .short hk hstep (flagOK_new _ _ _) (absurd rfl)
  cases hrep : hstep.rep with
  | nil | value | full => exact ⟨_, _, hexec, hup, rfl⟩
  | hash => cases hlive
  | short hc _ _ => exact ⟨_, _, hexec, hup.trans (.merge hk hwf.label_ne_nil hc s'), rfl⟩

theorem Yields.deletes (h : Yields o pre n t s (delete r fuel n pre key s) (t.delete key)) :
    Deletes o r fuel pre n t key s := by
  obtain ⟨n', s', hexec, hstep, hn'⟩ := h
  exact ⟨true, n', s', hexec, hstep, by simp, hn'⟩

/-- **Deletion** from a node structure deletes from the represented tree. -/
theorem delete_spec (ho : Fit o) (hr : Serves r o)
    (hkey : CanonReach t key) (hrep : Rep o pre n t) (hf : 2 * key.length + 2 ≤ fuel)
    (s : Tracer) : Deletes o r fuel pre n t key s := by
  refine descend ho CanonReach.reach ?load ?nil ?value ?short ?full hkey hrep hf s
  case load =>
    rintro fuel pre t key s - hs hloc ⟨dirty, n', s', hdel, hstep, hsame, hn'⟩
    have hload := Step.load ho hs hloc s
    refine ⟨dirty, _, s', delete_hash (resolveAndTrack_spec ho hr hloc hs s) hdel,
      hload.trans (hstep.orKeep hload.rep hsame), hsame, ?_⟩
    split
    · exact hn'
    · exact isHash_expand _ _
  case nil =>
    intro fuel pre key s _
    exact ⟨false, .nil, s, rfl, .refl (.nil pre) s, fun _ => rfl, rfl⟩
  case value =>
    intro fuel pre w key s _
    exact ⟨true, .nil, s, rfl, ⟨.nil pre, .of_eq rfl, fun _ _ hu => hu.elim,
      fun _ hu => hu.elim, fun P hT hP => hT.congr (replant_self hP)⟩, by simp, rfl⟩
  case short =>
    intro fuel pre k c val flags key s hkey hk hc hflags hseal ih
    have hrep : Rep o pre (.short k val flags) (.short k c) := .short hc hflags hseal
    rcases hkey.reach.cases_short with ⟨rest, rfl⟩ | ⟨p, a, k', b, rest, rfl, rfl, hab⟩
    · rcases hkey.child_short with ⟨rfl, hv⟩ | ⟨hrest, hfull, hcr⟩
      · obtain ⟨v, rfl⟩ := hv.cases
        have htree : (short k (.value v) : Tree).delete (k ++ []) = .nil := by
          simp only [Tree.delete, divide_append]
        refine Yields.deletes ?_
        rw [htree, hc.value_eq, append_nil]
        exact ⟨_, _, delete_short_self, .uproot pre k v flags s, rfl⟩
      · obtain ⟨dirty, n', s', hdel, hstep, hsame, hn'⟩ := ih rfl hcr
        have htree : (short k c).delete (k ++ rest) = graft k (c.delete rest) := by
          obtain ⟨x, rest, rfl⟩ := exists_cons_of_ne_nil hrest
          simp only [Tree.delete, divide_append]
        cases dirty with
        | true =>
          have hcanon := (hcr.resolve_right fun h => hrest h.2)
          refine Yields.deletes ?_
          rw [htree]
          exact deletes_edge hk hrest (hcanon.1.delete hcanon.2).1.wf hdel hn' hstep
        | false =>
          have heq := hsame rfl
          obtain ⟨ds, rfl⟩ := hfull.cases
          have hexec := delete_short_append flags hrest hdel
          rw [heq] at hstep
          refine ⟨false, _, s', hexec, ?_, fun _ => by rw [htree, heq]; rfl, rfl⟩
          rw [htree, heq]
          exact .short hk (hstep.keep hc) hflags hseal
    · have htree : (short (p ++ a :: k') c).delete (p ++ b :: rest) = .short (p ++ a :: k') c := by
        simp only [Tree.delete, divide_split p k' rest hab]
      have hnot : ¬ p ++ a :: k' <+: p ++ b :: rest := by
        rw [prefix_append_right_inj, cons_prefix_cons]
        exact fun h => hab h.1
      refine ⟨false, _, s, delete_short_other hnot, ?_, fun _ => htree, rfl⟩
      rw [htree]
      exact .refl hrep s
  case full =>
    intro fuel pre cs ns flags i rest s hkey hc hflags hseal ih
    have hcanon := (hkey.resolve_right fun hs => hs.1).1
    obtain ⟨dirty, n', s', hdel, hstep, hsame, hn'⟩ := ih hkey.child_full
    have hexec := delete_full_cons flags hdel
    have hrep : Rep o pre (.full ns flags) (.full cs) := .full hc hflags hseal
    have hnew : Step o pre (.full ns flags) (.full cs) s (.full (setChild ns i n') newFlag)
        (.full (update cs i ((cs i).delete rest))) s' :=
      .full hrep hstep (flagOK_new _ _ _) (absurd rfl)
    have hnil := hstep.rep.isNil
    cases dirty with
    | true =>
      refine Yields.deletes ?_
      by_cases h0 : (cs i).delete rest = .nil
      · rw [if_pos (hnil.mpr h0)] at hexec
        rw [hexec, Tree.delete, if_pos h0]
        rw [h0] at hnew
        obtain ⟨n'', s'', hred, hstep', hn''⟩ := reduce_spec ho hr hnew.rep (hcanon.wf_update i) s'
        exact ⟨n'', s'', hred, hnew.trans hstep', hn''⟩
      · rw [if_neg (fun h => h0 (hnil.mp h))] at hexec
        rw [hexec, Tree.delete, if_neg h0]
        exact ⟨_, _, rfl, hnew, rfl⟩
    | false =>
      have heq : (full cs).delete (i :: rest) = .full cs := by
        obtain ⟨-, x, y, hxy, hx, hy⟩ := hcanon
        rw [Tree.delete, hsame rfl, update_eq_self]
        split
        · next h0 => rw [← h0, update_eq_self, collapse_eq_full hxy hx hy]
        · rfl
      rw [hsame rfl, update_eq_self] at hnew
      refine ⟨false, _, s', hexec, ?_, fun _ => heq, rfl⟩
      rw [heq]
      exact hnew.keep hrep

end GoQrl.Mpt
