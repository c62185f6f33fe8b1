import GoQrl.Trie.Range

/-!
# GoQrl.Trie.Iterator

The iterator of a trie (`trie/iterator.go`), from a start key on.

A stack of states stands for the nodes that are still to be visited, which are a rest of
the pre-order of the tree (`Todo`).  Seeking cuts off the nodes whose paths are below the
start key without loading what it skips, and the pre-order is sorted by path.  The paths
of leaves end in the terminator, which is above all digits: a key that is a proper prefix
of the start key is not skipped (`iterateFrom_prefixKey`).  If there is none, the iterator yields
the entries from the start key on (`iterateFrom_spec`).
-/

namespace GoQrl.Mpt

open Radix Radix.Tree Mpt.Tree
open List hiding nil get insert

/-! ## the pre-order of a tree -/

variable {e : Hex × Tree} {t : Tree} {fuel : Nat}

namespace Tree

/-- The nodes and values of a tree in pre-order. -/
def preorder : Hex → Tree → List (Hex × Tree)
  | _, nil => []
  | p, value v => [(p, value v)]
  | p, short k c => (p, short k c) :: preorder (p ++ k) c
  | p, full cs => (p, full cs) :: (List.finRange 17).flatMap fun i => preorder (p ++ [i]) (cs i)

/-- The part of the pre-order below a node, from a child on. -/
def below (p : Hex) : Tree → Nat → List (Hex × Tree)
  | short k c, next => if next = 0 then preorder (p ++ k) c else []
  | full cs, next => ((List.finRange 17).drop next).flatMap fun i => preorder (p ++ [i]) (cs i)
  | _, _ => []

variable {q : Hex}

theorem lt_append (p : Hex) {x : Hex} (hx : x ≠ []) : p < p ++ x := by
  obtain ⟨a, x, rfl⟩ := exists_cons_of_ne_nil hx
  simpa using (append_left_lt (nil_lt_cons a x) : p ++ [] < _)

theorem preorder_eq (h : t ≠ .nil) (p : Hex) : preorder p t = (p, t) :: below p t 0 := by
  cases t with
  | nil => exact absurd rfl h
  | _ => rfl

/-- What is visited below a path has a longer path, and values are found by their terminated paths.
-/
theorem mem_preorder (ht : t.WF term) {p : Hex} {u : Tree} (h : (p, u) ∈ preorder q t) :
    ∃ p', p = q ++ p' ∧
      ((∃ v, u = .value v ∧ Terminated term p' ∧ t.get p' = some v) ∨ isNode u ∧ term ∉ p') := by
  induction t generalizing q with
  | nil => cases h
  | value v => exact ht.elim
  | short k c ih =>
    rcases mem_cons.mp h with h | h
    · cases h
      exact ⟨[], by simp, .inr ⟨rfl, by simp⟩⟩
    · rcases ht with ⟨hk, hv⟩ | ⟨-, hk, hc⟩
      · obtain ⟨v, rfl⟩ := hv.cases
        cases mem_singleton.mp h
        have hget := Tree.get_short_append k (.value v : Tree) []
        rw [append_nil] at hget
        exact ⟨k, rfl, .inl ⟨v, rfl, hk, hget⟩⟩
      · obtain ⟨p', rfl, hp⟩ := ih hc h
        refine ⟨k ++ p', by simp, ?_⟩
        rcases hp with ⟨v, rfl, hterm, hget⟩ | ⟨hn, hterm⟩
        · exact .inl ⟨v, rfl,
            (terminated_append_iff hk).mpr hterm, by rw [Tree.get_short_append, hget]⟩
        · exact .inr ⟨hn, by simp [hk, hterm]⟩
  | full cs ih =>
    rcases mem_cons.mp h with h | h
    · cases h
      exact ⟨[], by simp, .inr ⟨rfl, by simp⟩⟩
    · obtain ⟨i, -, h⟩ := mem_flatMap.mp h
      by_cases hi : i = term
      · subst hi
        rcases ht.1.cases with h0 | ⟨v, hv⟩
        · rw [h0] at h
          cases h
        · rw [hv] at h
          cases mem_singleton.mp h
          exact ⟨[term], rfl, .inl ⟨v, rfl, terminated_singleton, by rw [Radix.Tree.get, hv]; rfl⟩⟩
      · obtain ⟨p', rfl, hp⟩ := ih i (ht.2 i hi) h
        refine ⟨i :: p', by simp, ?_⟩
        rcases hp with ⟨v, rfl, hterm, hget⟩ | ⟨hn, hterm⟩
        · exact .inl ⟨v, rfl, .inr ⟨hi, hterm⟩, hget⟩
        · exact .inr ⟨hn, by simp [Ne.symm hi, hterm]⟩

/-- Every entry is visited. -/
theorem mem_preorder_of_get (ht : t.WF term) {p : Hex} {v : Bytes} (hp : Terminated term p)
    (h : t.get p = some v) (q : Hex) : (q ++ p, .value v) ∈ preorder q t := by
  induction t generalizing p q with
  | nil => cases h
  | value v => exact ht.elim
  | short k c ih =>
    obtain ⟨p', rfl⟩ := prefix_of_get_short (by rw [h]; simp)
    rw [Tree.get_short_append] at h
    refine mem_cons_of_mem _ ?_
    rcases ht with ⟨hk, hv⟩ | ⟨-, hk, hc⟩
    · obtain ⟨w, rfl⟩ := hv.cases
      cases h
      rw [hk.append_eq_nil hp, append_nil]
      exact mem_singleton_self _
    · rw [← append_assoc]
      exact ih hc ((terminated_append_iff hk).mp hp) h _
  | full cs ih =>
    cases p with
    | nil => cases h
    | cons i p =>
      refine mem_cons_of_mem _ (mem_flatMap.mpr ⟨i, mem_finRange i, ?_⟩)
      rw [show q ++ i :: p = q ++ [i] ++ p by simp]
      by_cases hi : i = term
      · subst hi
        obtain rfl := hp.eq_nil_of_cons
        rcases ht.1.cases with h0 | ⟨w, hw⟩
        · simp [Radix.Tree.get, h0] at h
        · rw [Radix.Tree.get, hw] at h
          cases h
          rw [hw, append_nil]
          exact mem_singleton_self _
      · exact ih i (ht.2 i hi) (hp.tail hi) h _

theorem isPrefix_of_mem_preorder (h : e ∈ preorder q t) : q <+: e.1 := by
  induction t generalizing q with
  | nil => cases h
  | value v => cases mem_singleton.mp h; exact prefix_rfl
  | short k c ih =>
    rcases mem_cons.mp h with rfl | h
    · exact prefix_rfl
    · exact (prefix_append q k).trans (ih h)
  | full cs ih =>
    rcases mem_cons.mp h with rfl | h
    · exact prefix_rfl
    · obtain ⟨i, -, h⟩ := mem_flatMap.mp h
      exact (prefix_append q [i]).trans (ih i h)

theorem isPrefix_of_mem_below {m : Nat} (h : e ∈ below q t m) : q <+: e.1 := by
  cases t with
  | nil | value => cases h
  | short k c =>
    rw [below] at h
    split at h
    · exact (prefix_append q k).trans (isPrefix_of_mem_preorder h)
    · cases h
  | full cs =>
    obtain ⟨i, -, h⟩ := mem_flatMap.mp h
    exact (prefix_append q [i]).trans (isPrefix_of_mem_preorder h)

/-- **The pre-order is sorted** by path. -/
theorem pairwise_preorder (ht : t.Part term) (q : Hex) :
    (preorder q t).Pairwise fun a b => a.1 < b.1 := by
  induction t generalizing q with
  | nil => exact .nil
  | value v => exact pairwise_singleton _ _
  | short k c ih =>
    refine pairwise_cons.mpr ⟨fun e he => ?_, ih ht.child_short _⟩
    obtain ⟨x, hx⟩ := isPrefix_of_mem_preorder he
    rw [← hx, append_assoc]
    exact lt_append q (by simp [ht.wf_short.label_ne_nil])
  | full cs ih =>
    refine pairwise_cons.mpr ⟨fun e he => ?_,
      pairwise_flatMap.mpr ⟨fun i _ => ih i (ht.child_full i) _, ?_⟩⟩
    · obtain ⟨i, -, he⟩ := mem_flatMap.mp he
      obtain ⟨x, hx⟩ := isPrefix_of_mem_preorder he
      rw [← hx, append_assoc]
      exact lt_append q (by simp)
    · refine (pairwise_lt_finRange 17).imp fun {i j} hij a ha b hb => ?_
      obtain ⟨x, hx⟩ := isPrefix_of_mem_preorder ha
      obtain ⟨y, hy⟩ := isPrefix_of_mem_preorder hb
      exact Diverges.lt ⟨q, i, j, x, y, by simp [← hx], by simp [← hy], hij⟩

end Tree

/-! ## the iterator -/

section Iterate

variable [Keccak] {m : Nat}

/-- `nodeIteratorState`, with the path of its node.  The index is kept as the child to be
processed next, and the hash of the parent is left out. -/
structure IteratorState where
  hash : Hash
  node : Node
  next : Nat
  path : Hex

/-- `nodeIteratorState.resolve`: a hashed node is loaded, and its hash becomes the one of the state.
-/
def resolveState (r : TrieReader) (path : Hex) (hash : Hash) : Node → Except TrieError (Hash × Node)
  | .hash h =>
    match r.node path h with
    | .error e => .error e
    | .ok blob =>
      match decodeNode (some h) blob with
      | .ok n => .ok (h, n)
      | .error _ => .error .panicked
  | n => .ok (hash, n)

/-- `findChild`: the first child from an index on. -/
def findChild (children : Nibble → Node) (index : Nat) : Option Nibble :=
  ((List.finRange 17).drop index).find? fun i => !(children i).isNil

/-- `nextChild`: the next child of a node, its path, and the new index of the node. -/
def nextChild (parent : IteratorState) : Option (Node × Hex × Nat) :=
  match parent.node with
  | .full children _ =>
    match findChild children parent.next with
    | none => none
    | some i => some (children i, parent.path ++ [i], i)
  | .short key val _ => if parent.next = 0 then some (val, parent.path ++ key, 0) else none
  | _ => none

/-- The loop of `nextChildAt`: the last child below the key. -/
def advance (children : Nibble → Node) (path key : Hex) : Nat → Nibble → Nibble
  | 0, i => i
  | fuel + 1, i =>
    match findChild children (i + 1) with
    | none => i
    | some j => if path ++ [j] < key then advance children path key fuel j else i

/-- `nextChildAt`: the next child, but the last one below the key if there are some. -/
def nextChildAt (key : Hex) (parent : IteratorState) : Option (Node × Hex × Nat) :=
  match parent.node with
  | .full children _ =>
    match findChild children parent.next with
    | none => none
    | some i =>
      let i := if parent.path ++ [i] < key then advance children parent.path key 17 i else i
      some (children i, parent.path ++ [i], i)
  | _ => nextChild parent

/-- The loop of `peek` and `peekSeek`: the next state and the stack below it, if there is one.
States without another child are popped. -/
def peekLoop (r : TrieReader) (child : IteratorState → Option (Node × Hex × Nat)) :
    List IteratorState → Except TrieError (Option (IteratorState × List IteratorState))
  | [] => .ok none
  | parent :: stack =>
    match child parent with
    | none => peekLoop r child stack
    | some (n, path, index) =>
      match resolveState r path (n.cache.1.getD Hash.zero) n with
      | .error e => .error e
      | .ok (hash, n) => .ok (some (⟨hash, n, 0, path⟩, { parent with next := index } :: stack))

/-- `push`: the index of the parent moves on. -/
def pushState (state : IteratorState) (stack : List IteratorState) : List IteratorState :=
  state :: match stack with
    | [] => []
    | parent :: stack => { parent with next := parent.next + 1 } :: stack

/-- `init`: the state at the root. -/
def initState (tr : Trie) : Except TrieError (Option (IteratorState × List IteratorState)) :=
  match tr.hash with
  | (.error e, _) => .error e
  | (.ok root, tr) =>
    match resolveState tr.reader [] (if root = emptyRootHash then Hash.zero else root) tr.root with
    | .error e => .error e
    | .ok (hash, n) => .ok (some (⟨hash, n, 0, []⟩, []))

/-- `peek`: without descending, the current node is left. -/
def peek (tr : Trie) (descend : Bool) :
    List IteratorState → Except TrieError (Option (IteratorState × List IteratorState))
  | [] => initState tr
  | top :: stack => peekLoop tr.reader nextChild (if descend then top :: stack else stack)

/-- `peekSeek`: a node that does not lead to the key is left. -/
def peekSeek (tr : Trie) (key : Hex) :
    List IteratorState → Except TrieError (Option (IteratorState × List IteratorState))
  | [] => initState tr
  | top :: stack =>
    peekLoop tr.reader (nextChildAt key) (if top.path <+: key then top :: stack else stack)

/-- `seek`: the stack just before the first node that is not below the key. -/
def seek (tr : Trie) (key : Hex) :
    Nat → List IteratorState → Except TrieError (Option (List IteratorState))
  | 0, _ => .error .outOfFuel
  | fuel + 1, stack =>
    match peekSeek tr key stack with
    | .error e => .error e
    | .ok none => .ok none
    | .ok (some (state, stack)) =>
      if state.path < key then seek tr key fuel (pushState state stack) else .ok (some stack)

/-- `nodeIterator`; `ended` is the error at the end of the iteration. -/
structure NodeIterator where
  trie : Trie
  stack : List IteratorState
  ended : Bool

/-- `newNodeIterator`. -/
def Trie.nodeIterator (tr : Trie) (fuel : Nat) (start : Bytes) : Except TrieError NodeIterator :=
  if tr.committed then .error .committed
  else
    match tr.hash with
    | (.error e, _) => .error e
    | (.ok root, tr) =>
      if root = emptyRootHash then .ok ⟨tr, [], true⟩
      else
        match seek tr (keybytesToHex start).dropLast fuel [] with
        | .error e => .error e
        | .ok none => .ok ⟨tr, [], true⟩
        | .ok (some stack) => .ok ⟨tr, stack, false⟩

namespace NodeIterator

/-- `Path`. -/
def path (it : NodeIterator) : Hex :=
  match it.stack with
  | [] => []
  | top :: _ => top.path

/-- `LeafBlob`, at a leaf. -/
def leafBlob (it : NodeIterator) : Option Bytes :=
  match it.stack with
  | ⟨_, .value v, _, _⟩ :: _ => some v
  | _ => none

/-- `Next`; an error of the reader ends the run. -/
def next (it : NodeIterator) (descend : Bool) : Except TrieError (Bool × NodeIterator) :=
  if it.ended then .ok (false, it)
  else
    match peek it.trie descend it.stack with
    | .error e => .error e
    | .ok none => .ok (false, { it with stack := [], ended := true })
    | .ok (some (state, stack)) => .ok (true, { it with stack := pushState state stack })

/-- The entries that the calls of `Iterator.Next` yield until it returns false. -/
def entries : Nat → NodeIterator → Except TrieError (List (Bytes × Bytes))
  | 0, _ => .error .outOfFuel
  | fuel + 1, it =>
    match it.next true with
    | .error e => .error e
    | .ok (false, _) => .ok []
    | .ok (true, it) =>
      match entries fuel it with
      | .error e => .error e
      | .ok l =>
        if hasTerm it.path then
          match it.leafBlob with
          | some v => .ok ((hexToKeybytes it.path, v) :: l)
          | none => .error .panicked
        else .ok l

end NodeIterator

/-- `NewIterator(trie.NodeIterator(start))`, moved to its end. -/
def Trie.iterate (tr : Trie) (fuel : Nat) (start : Bytes) :
    Except TrieError (List (Bytes × Bytes)) :=
  match tr.nodeIterator fuel start with
  | .error e => .error e
  | .ok it => it.entries fuel

/-! ## the children of a branching node -/

omit [Keccak] in
theorem mem_drop_finRange {j : Nibble} : j ∈ (List.finRange 17).drop m ↔ m ≤ j.val := by
  rw [mem_drop_iff_getElem]
  constructor
  · rintro ⟨n, hn, h⟩
    rw [getElem_finRange] at h
    rw [← h]
    exact Nat.le_add_right m n
  · intro h
    refine ⟨j - m, by rw [length_finRange]; omega, Fin.ext ?_⟩
    rw [getElem_finRange]
    exact Nat.add_sub_cancel' h

omit [Keccak] in
theorem findChild_none {ns : Nibble → Node} (h : findChild ns m = none) {j : Nibble}
    (hj : m ≤ j.val) :
    (ns j).isNil = true := by
  simpa using find?_eq_none.mp h j (mem_drop_finRange.mpr hj)

omit [Keccak] in
theorem findChild_some {ns : Nibble → Node} {i : Nibble} (h : findChild ns m = some i) :
    m ≤ i.val ∧ (ns i).isNil = false ∧ ∀ j : Nibble, m ≤ j.val → j < i → (ns j).isNil = true := by
  obtain ⟨hi, a, b, hsplit, ha⟩ := find?_eq_some_iff_append.mp h
  have hsorted := (pairwise_lt_finRange 17).sublist (drop_sublist m _)
  refine ⟨mem_drop_finRange.mp (by rw [hsplit]; simp), by simpa using hi, fun j hj hji => ?_⟩
  have hmem := mem_drop_finRange.mpr hj
  rw [hsplit] at hmem hsorted
  rcases mem_append.mp hmem with hmem | hmem
  · simpa using ha j hmem
  · rcases mem_cons.mp hmem with rfl | hmem
    · exact absurd hji (lt_irrefl _)
    · exact absurd (rel_of_pairwise_cons (pairwise_append.mp hsorted).2.1 hmem) hji.not_gt

omit [Keccak] in
/-- The visits below a branching node, cut at a child. -/
theorem below_full (p : Hex) (cs : Nibble → Tree) {i : Nibble} (h : m ≤ i.val) :
    (∃ skipped, below p (.full cs) m = skipped ++ below p (.full cs) i ∧
      ∀ e ∈ skipped, ∃ j : Nibble, m ≤ j.val ∧ j < i ∧ e ∈ preorder (p ++ [j]) (cs j)) ∧
    below p (.full cs) i = preorder (p ++ [i]) (cs i) ++ below p (.full cs) (i + 1) := by
  have hcons : (finRange 17).drop i = i :: (finRange 17).drop (i + 1) := by
    rw [drop_eq_getElem_cons (by simp), getElem_finRange]
    rfl
  have hsplit := take_append_drop (i - m) ((finRange 17).drop m)
  rw [drop_drop, Nat.add_sub_cancel' h] at hsplit
  have hsorted := (pairwise_lt_finRange 17).sublist (drop_sublist m _)
  rw [← hsplit, hcons] at hsorted
  refine ⟨⟨_, by rw [below, ← hsplit, flatMap_append]; rfl, fun e he => ?_⟩,
    by rw [below, hcons, flatMap_cons]; rfl⟩
  obtain ⟨j, hj, he⟩ := mem_flatMap.mp he
  exact ⟨j, mem_drop_finRange.mp (mem_of_mem_take hj),
    (pairwise_append.mp hsorted).2.2 j hj i mem_cons_self, he⟩

/-! ## what a stack stands for -/

/-- The hash that is shown of a node: none if the node is embedded in its parent. -/
def visitHash (p : Hex) (t : Tree) : Hash :=
  if Standalone p t then digest t else Hash.zero

/-- A state stands for a loaded node of the tree. -/
structure Stands (o : Tree) (st : IteratorState) (t : Tree) : Prop where
  rep : Rep o st.path st.node t
  loaded : st.node.isHash = false
  shape : t.Canon term ∨ t.IsSlot
  ne_nil : t ≠ .nil
  sealed : Sealed st.path st.node t
  hash : st.hash = visitHash st.path t

/-- The nodes that are still to be visited from a stack. -/
inductive Todo (o : Tree) : List IteratorState → List (Hex × Tree) → Prop
  | nil : Todo o [] []
  | cons {st : IteratorState} {t : Tree} {stack : List IteratorState} {l : List (Hex × Tree)}
    (h : Stands o st t)
      (hrest : Todo o stack l) : Todo o (st :: stack) (below st.path t st.next ++ l)

variable {o : Tree} {r : TrieReader} {p : Hex} {n : Node}
    {child : IteratorState → Option (Node × Hex × Nat)}
  {P : Hex × Tree → Prop}

/-- In a hashed trie the cached hash is the one that is shown. -/
theorem cache_eq (h : Rep o p n t) (hs : Sealed p n t) (hn : n.isHash = false) :
    n.cache.1.getD Hash.zero = visitHash p t := by
  have hflags : ∀ {flags : NodeFlag}, FlagOK o p flags t → (Standalone p t → flags.hash ≠ none) →
      flags.hash.getD Hash.zero = visitHash p t := by
    intro flags hf hs
    unfold visitHash
    cases hh : flags.hash with
    | none => rw [if_neg fun hst => hs hst hh, Option.getD_none]
    | some k => rw [if_pos (hf.hash k hh).2, Option.getD_some, (hf.hash k hh).1]
  cases h with
  | hash => cases hn
  | nil | value => exact (if_neg fun hst => by cases hst.1).symm
  | short _ hf _ | full _ hf _ => exact hflags hf hs.1

/-- A node is loaded where it is not in memory, and its hash is shown. -/
theorem resolveState_rep (ho : Fit o) (hr : Serves r o) (h : Rep o p n t) (hs : Sealed p n t)
    (hshape : t.Canon term ∨ t.IsSlot) (h0 : t ≠ .nil) :
    ∃ n', resolveState r p (n.cache.1.getD Hash.zero) n = .ok (visitHash p t, n') ∧
      Stands o ⟨visitHash p t, n', 0, p⟩ t := by
  cases hn : n.isHash with
  | true =>
    cases h with
    | hash hp hst hloc =>
      have hnode : Rep o p (expand (some (digest t)) t) t :=
        rep_expand (.inl ho.wf) hloc fun k hk =>
        ⟨(Option.some.inj hk).symm, hst⟩
      refine ⟨expand (some (digest t)) t, ?_, hnode, isHash_expand _ _, hshape, h0, ?_, rfl⟩
      · rw [visitHash, if_pos hst]
        simp [resolveState, hr p t hloc hst, decodeNode_enc (ho.locate hloc hst.1) hst.1]
      · exact sealed_expand (Part.locate (.inl ho.wf) hloc) _
    | _ => cases hn
  | false =>
    refine ⟨n, ?_, h, hn, hshape, h0, hs, rfl⟩
    rw [← cache_eq h hs hn]
    cases n with
    | hash => cases hn
    | _ => rfl

/-- The child that a function takes is the first one to be visited, but for visits that may be
skipped. -/
def Takes (o : Tree) (P : Hex × Tree → Prop) (child : IteratorState → Option (Node × Hex × Nat)) :
    Prop :=
  ∀ st t, Stands o st t → (child st = none → below st.path t st.next = []) ∧
    ∀ n path index, child st = some (n, path, index) → ∃ skipped c, Rep o path n c ∧
      Sealed path n c ∧ c ≠ .nil ∧ (c.Canon term ∨ c.IsSlot) ∧ (∀ e ∈ skipped, P e) ∧
      below st.path t st.next = skipped ++ below st.path t index ∧
      below st.path t index = preorder path c ++ below st.path t (index + 1)

/-- At a branching node any child may be taken if the visits to those before it may be skipped. -/
theorem takes_full
    (hother : ∀ st, (∀ ns flags, st.node ≠ .full ns flags) → child st = nextChild st)
    (hnone : ∀ hash ns flags next p, child ⟨hash, .full ns flags, next, p⟩ = none →
      findChild ns next = none)
    (hsome : ∀ hash ns flags next p n path index,
      child ⟨hash, .full ns flags, next, p⟩ = some (n, path, index) →
      ∃ i : Nibble, n = ns i ∧ path = p ++ [i] ∧ index = i ∧ next ≤ i ∧ (ns i).isNil = false ∧
        ∀ j : Nibble, next ≤ j → j < i → (ns j).isNil = true ∨ ∀ x u, P (p ++ [j] ++ x, u)) :
    Takes o P child := by
  intro st t h
  obtain ⟨hash, n, next, p⟩ := st
  obtain ⟨hrep, hloaded, hshape, -, hseal, -⟩ := h
  cases hrep with
  | hash => cases hloaded
  | nil | value =>
    rw [hother _ fun _ _ => Node.noConfusion]
    exact ⟨fun _ => rfl, fun _ _ _ h => nomatch h⟩
  | short hc hf hs =>
    rw [hother _ fun _ _ => Node.noConfusion]
    simp only [nextChild, below]
    split
    next h0 =>
      refine ⟨(nomatch ·), fun _ _ _ h => ?_⟩
      cases h
      rcases hshape with (⟨-, hv⟩ | ⟨-, -, hfull, hcanon⟩) | hslot
      · obtain ⟨v, rfl⟩ := hv.cases
        exact ⟨[], _, hc, hseal.2, nofun, .inr trivial, by simp, by simp, by simp⟩
      · refine ⟨[], _, hc, hseal.2, ?_, .inl hcanon, by simp, by simp, by simp⟩
        rintro rfl
        exact hfull
      · exact hslot.elim
    · exact ⟨fun _ => rfl, fun _ _ _ h => nomatch h⟩
  | @full _ ns cs flags hc hf hs =>
    constructor
    · intro h
      refine flatMap_eq_nil_iff.mpr fun i hi => ?_
      rw [(hc i).isNil.mp (findChild_none (hnone _ _ _ _ _ h) (mem_drop_finRange.mp hi))]
      rfl
    · intro n path index h
      obtain ⟨i, rfl, rfl, rfl, hi, hnil, hskip⟩ := hsome _ _ _ _ _ _ _ _ h
      obtain ⟨⟨skipped, hbelow, hmem⟩, hcons⟩ := below_full p cs hi
      refine ⟨skipped, cs i, hc i, hseal.2 i, ?_, ?_, fun e he => ?_, hbelow, hcons⟩
      · rintro h0
        simp [(hc i).isNil.mpr h0] at hnil
      · have hat := (canon_full_iff.mp (hshape.resolve_right id)).1 i
        exact (em (i = term)).symm.imp hat.2 hat.1
      · obtain ⟨j, hj, hji, he⟩ := hmem e he
        rcases hskip j hj hji with hn | hP
        · rw [(hc j).isNil.mp hn] at he
          cases he
        · obtain ⟨x, hx⟩ := isPrefix_of_mem_preorder he
          have hPe := hP x e.2
          rwa [hx] at hPe

theorem takes_nextChild (o : Tree) : Takes o (fun _ => False) nextChild := by
  refine takes_full (fun _ _ => rfl) (fun hash ns flags next p h => ?_)
    fun hash ns flags next p n path index h => ?_
  · simp only [nextChild] at h
    split at h
    · assumption
    · cases h
  · simp only [nextChild] at h
    split at h
    · cases h
    next i hi =>
      cases h
      obtain ⟨h1, h2, h3⟩ := findChild_some hi
      exact ⟨i, rfl, rfl, rfl, h1, h2, fun j hj hji => .inl (h3 j hj hji)⟩

omit [Keccak] in
/-- The child that the loop ends with, and what it leaves out. -/
theorem advance_spec (ns : Nibble → Node) (p key : Hex) (fuel : Nat) {i : Nibble} (hi : m ≤ i)
    (hnil : (ns i).isNil = false) (hlt : p ++ [i] < key)
    (hskip : ∀ j : Nibble, m ≤ j → j < i → (ns j).isNil = true ∨ ∀ x, p ++ [j] ++ x < key) :
    m ≤ advance ns p key fuel i ∧ (ns (advance ns p key fuel i)).isNil = false ∧
      ∀ j : Nibble, m ≤ j → j < advance ns p key fuel i → (ns j).isNil = true ∨
        ∀ x, p ++ [j] ++ x < key := by
  induction fuel generalizing i with
  | zero => exact ⟨hi, hnil, hskip⟩
  | succ fuel ih =>
    rw [advance]
    split
    · exact ⟨hi, hnil, hskip⟩
    next k hk =>
      obtain ⟨hik, hknil, hbetween⟩ := findChild_some hk
      split
      next hklt =>
        refine ih (by omega) hknil hklt fun j hj hjk => ?_
        rcases lt_trichotomy j i with hji | rfl | hij
        · exact hskip j hj hji
        · exact .inr fun x => List.lt_trans (Diverges.lt ⟨p, j, k, x, [], by simp, rfl, hjk⟩) hklt
        · exact .inl (hbetween j hij hjk)
      · exact ⟨hi, hnil, hskip⟩

theorem takes_nextChildAt (o : Tree) (key : Hex) :
    Takes o (fun e => e.1 < key) (nextChildAt key) := by
  refine takes_full (fun st hst => ?_) (fun hash ns flags next p h => ?_)
    fun hash ns flags next p n path index h => ?_
  · rw [nextChildAt]
    split
    next hnode => exact absurd hnode (hst _ _)
    · rfl
  · simp only [nextChildAt] at h
    split at h
    · assumption
    · cases h
  · simp only [nextChildAt] at h
    split at h
    · cases h
    next i hi =>
      cases h
      obtain ⟨h1, h2, h3⟩ := findChild_some hi
      have hskip := fun j hj hji => Or.inl (b := ∀ x, p ++ [j] ++ x < key) (h3 j hj hji)
      split
      next hlt =>
        obtain ⟨h4, h5, h6⟩ := advance_spec ns p key 17 h1 h2 hlt hskip
        exact ⟨_, rfl, rfl, rfl, h4, h5, fun j hj hji => (h6 j hj hji).imp_right fun h x _ => h x⟩
      · exact ⟨i, rfl, rfl, rfl, h1, h2, fun j hj hji => .inl (h3 j hj hji)⟩

/-- The entry at a visit, if it is a value. -/
def entryAt : Hex × Tree → Option (Bytes × Bytes)
  | (p, .value v) => some (hexToKeybytes p, v)
  | _ => none

/-! ## the next state -/

/-- The visits ahead of a stack: all of them before the first state is pushed. -/
def Ahead (o t : Tree) : List IteratorState → List (Hex × Tree) → Prop
  | [], l => l = preorder [] t
  | stack, l => Todo o stack l

/-- The next state stands for the first visit that is left when some have been skipped. -/
def Peeks (o t : Tree) (P : Hex × Tree → Prop) (l : List (Hex × Tree))
    (res : Except TrieError (Option (IteratorState × List IteratorState))) : Prop :=
  ∃ skipped l', l = skipped ++ l' ∧ (∀ e ∈ skipped, P e) ∧ ((l' = [] ∧ res = .ok none) ∨
    ∃ u rest st stack parents, l' = preorder st.path u ++ rest ∧ res = .ok (some (st, stack)) ∧
      st.next = 0 ∧
      Stands o st u ∧ Ahead o t stack l' ∧ pushState st stack = st :: parents ∧ Todo o parents rest)

theorem peekLoop_spec
    {stack : List IteratorState} {l : List (Hex × Tree)} (ho : Fit o) (hr : Serves r o)
    (hchild : Takes o P child) (h : Todo o stack l) : Peeks o t P l (peekLoop r child stack) := by
  induction h with
  | nil => exact ⟨[], [], rfl, by simp, .inl ⟨rfl, rfl⟩⟩
  | @cons st u stack l h hrest ih =>
    rw [peekLoop]
    cases hc : child st with
    | none => rwa [(hchild st u h).1 hc]
    | some c =>
      obtain ⟨n, path, index⟩ := c
      obtain ⟨skipped, c, hrep, hseal, hnil, hshape, hskip, hbelow, hcons⟩ :=
        (hchild st u h).2 n path index hc
      obtain ⟨n', hres, hnew⟩ := resolveState_rep ho hr hrep hseal hshape hnil
      simp only [hres]
      have hst : ∀ i, Stands o { st with next := i } u := fun i => { h with }
      refine ⟨skipped, below st.path u index ++ l, by rw [hbelow, append_assoc], hskip,
        .inr ⟨c, below st.path u (index + 1) ++ l, _, _, _, ?_, rfl, rfl, hnew,
          .cons (hst index) hrest, rfl, .cons (hst (index + 1)) hrest⟩⟩
      rw [hcons, append_assoc]

theorem Stands.ahead {st : IteratorState} {u : Tree} {parents : List IteratorState}
    {rest : List (Hex × Tree)}
    (hst : Stands o st u) (h0 : st.next = 0) (htodo : Todo o parents rest) :
    Ahead o t (st :: parents) (below st.path u 0 ++ rest) := by
  rw [← h0]
  exact .cons hst htodo

variable {tr : Trie} {stack : List IteratorState} {l : List (Hex × Tree)} (h : Inv o tr t)
  (hne : rootHash t ≠ emptyRootHash)

include hne in
theorem ne_nil_of_rootHash : t ≠ .nil := by
  rintro rfl
  exact hne rfl

include h hne

theorem initState_eq :
    ∃ st, initState tr = .ok (some (st, [])) ∧ st.path = [] ∧ st.next = 0 ∧ Stands o st t := by
  obtain ⟨hhash, hinv, hseal⟩ := h.hash
  have h0 := ne_nil_of_rootHash hne
  have hroot : rootHash t = visitHash [] t := by
    rw [rootHash_of_ne h0, visitHash, if_pos ⟨isNode_of_wf h.valid.canon.wf h0, .inl rfl⟩]
  have hn : ∀ {n : Node}, Rep o [] n t → n.isHash = false := by
    intro n hrep
    cases hrep with
    | hash hp => exact absurd rfl hp
    | _ => rfl
  have hn := hn hinv.rep
  refine ⟨⟨rootHash t, tr.hash.2.root, 0, []⟩, ?_, rfl, rfl, hinv.rep, hn, .inl h.valid.canon, h0,
    hseal, hroot⟩
  rw [initState, show tr.hash = (.ok (rootHash t), tr.hash.2) from Prod.ext hhash rfl]
  simp only [if_neg hne]
  cases hr : tr.hash.2.root with
  | hash => rw [hr] at hn; cases hn
  | _ => rfl

theorem initState_spec (P : Hex × Tree → Prop) : Peeks o t P (preorder [] t) (initState tr) := by
  obtain ⟨st, hres, hp, h0, hst⟩ := initState_eq h hne
  exact ⟨[], _, rfl, by simp,
    .inr ⟨t, [], st, [], [], by rw [hp, append_nil], hres, h0, hst, rfl, rfl, .nil⟩⟩

variable (hl : Ahead o t stack l)
include hl

/-- `peek` takes the first visit. -/
theorem peek_spec : Peeks o t (fun _ => False) l (peek tr true stack) := by
  cases stack with
  | nil => exact hl ▸ initState_spec h hne _
  | cons st stack => exact peekLoop_spec h.origin.fit h.serves (takes_nextChild o) hl

/-- `peekSeek` takes the first visit but for some below the key. -/
theorem peekSeek_spec {key : Hex} (hlt : ∀ st ∈ stack.head?, st.path < key) :
    Peeks o t (fun e => e.1 < key) l (peekSeek tr key stack) := by
  cases stack with
  | nil => exact hl ▸ initState_spec h hne _
  | cons st stack =>
    rw [peekSeek]
    split
    · exact peekLoop_spec h.origin.fit h.serves (takes_nextChildAt o key) hl
    next hp =>
      cases hl with
      | @cons _ u _ l hst hrest =>
        obtain ⟨skipped, l', rfl, hskip, hl'⟩ :=
          peekLoop_spec h.origin.fit h.serves (takes_nextChildAt o key) hrest
        refine ⟨below st.path u st.next ++ skipped, l', by simp, fun e he => ?_, hl'⟩
        rcases mem_append.mp he with he | he
        · obtain ⟨x, hx⟩ := isPrefix_of_mem_below he
          rcases diverges_or hp fun h' => List.not_lt.mpr h'.le (hlt st rfl) with hd | hd
          · exact hx ▸ (hd.left x).lt
          · exact absurd (hlt st rfl) (List.lt_asymm hd.lt)
        · exact hskip e he

/-- **Seeking** stops just before the first visit that is not below the key. -/
theorem seek_spec {key : Hex} (hlt : ∀ st ∈ stack.head?, st.path < key) (hf : l.length < fuel) :
    ∃ skipped l', l = skipped ++ l' ∧ (∀ e ∈ skipped, e.1 < key) ∧
      ((l' = [] ∧ seek tr key fuel stack = .ok none) ∨
      ∃ e rest stack', l' = e :: rest ∧ ¬ e.1 < key ∧ seek tr key fuel stack = .ok (some stack') ∧
        Ahead o t stack' l') := by
  induction fuel generalizing stack l with
  | zero => omega
  | succ fuel ih =>
    obtain ⟨skipped, l', rfl, hskip, hcase⟩ := peekSeek_spec h hne hl hlt
    rw [seek]
    rcases hcase with ⟨rfl, hres⟩ | ⟨u, rest, st, stack', parents, rfl, hres, h0, hst, hahead,
      hpush, htodo⟩
    · rw [hres]
      exact ⟨skipped, [], rfl, hskip, .inl ⟨rfl, rfl⟩⟩
    · simp only [hres]
      rw [preorder_eq hst.ne_nil, cons_append] at hf hahead ⊢
      split
      next hp =>
        rw [hpush]
        rw [length_append, length_cons] at hf
        obtain ⟨skipped', l', hl', hskip', hcase'⟩ :=
          ih (hst.ahead h0 htodo) (fun s hs => by cases hs; exact hp) (by omega)
        refine ⟨skipped ++ (st.path, u) :: skipped', l', by simp [hl'], fun e he => ?_, hcase'⟩
        rcases mem_append.mp he with he | he
        · exact hskip e he
        · rcases mem_cons.mp he with rfl | he
          · exact hp
          · exact hskip' e he
      next hp => exact ⟨skipped, _, rfl, hskip, .inr ⟨_, _, stack', rfl, hp, rfl, hahead⟩⟩

/-- **Iterating** yields the values among the visits ahead. -/
theorem entries_spec (hterm : ∀ e ∈ l, hasTerm e.1 = true ↔ ∃ v, e.2 = .value v)
    (hf : l.length < fuel) :
    NodeIterator.entries fuel ⟨tr, stack, false⟩ = .ok (l.filterMap entryAt) := by
  induction fuel generalizing stack l with
  | zero => omega
  | succ fuel ih =>
    obtain ⟨skipped, l', rfl, hskip, hcase⟩ := peek_spec h hne hl
    obtain rfl : skipped = [] := eq_nil_iff_forall_not_mem.mpr hskip
    simp only [NodeIterator.entries, NodeIterator.next, Bool.false_eq_true, if_false]
    rcases hcase with ⟨rfl, hres⟩ | ⟨u, rest, st, stack', parents, rfl, hres, h0, hst, hahead,
      hpush, htodo⟩
    · rw [hres]
      rfl
    · rw [preorder_eq hst.ne_nil] at hterm hf ⊢
      have hrest := ih (hst.ahead h0 htodo) (fun e he => hterm e (mem_cons_of_mem _ he))
        (Nat.lt_of_succ_lt_succ hf)
      have hu := hterm (st.path, u) mem_cons_self
      simp only [hres, hpush, hrest, NodeIterator.path]
      obtain ⟨hash, m, next, p⟩ := st
      by_cases hp : hasTerm p = true
      · obtain ⟨v, rfl⟩ := hu.mp hp
        obtain ⟨hrep, hloaded, -⟩ := hst
        cases hrep with
        | hash => cases hloaded
        | value => simp [hp, entryAt, NodeIterator.leafBlob]
      · have hnone : entryAt (p, u) = none := by
          cases u with
          | value v => exact absurd (hu.mpr ⟨v, rfl⟩) hp
          | _ => rfl
        simp [hp, hnone]

end Iterate

/-! ## the order of keys -/

variable {o : Tree}

theorem hexToKeybytes_keybytesToHex (k : Bytes) : hexToKeybytes (keybytesToHex k) = k := by
  rw [hexToKeybytes, keybytesToHex, hasTerm_append_term, if_pos rfl, dropLast_concat]
  refine flatMap_nibbles_injective (flatMap_decodeNibbles (term_not_mem_flatMap k) ?_)
  have hlen := length_keybytesToHex k
  rw [keybytesToHex, length_append, length_singleton] at hlen
  omega

/-- A leaf is below the seek key if its key is below the start key and not a prefix of it: the path
of a leaf ends in the terminator, which is above every nibble that may follow in the seek key. -/
theorem leaf_lt_iff {k start : Bytes} :
    keybytesToHex k < (keybytesToHex start).dropLast ↔ k < start ∧ ¬ k <+: start := by
  rw [show (keybytesToHex start).dropLast = start.flatMap nibbles from dropLast_concat]
  constructor
  · intro h
    constructor
    · by_contra hlt
      rcases List.le_iff_lt_or_eq.mp (List.not_lt.mp hlt) with hsk | rfl
      · by_cases hp : start <+: k
        · obtain ⟨x, rfl⟩ := hp
          rw [keybytesToHex, flatMap_append, append_assoc] at h
          exact List.not_lt.mpr le_append_left h
        · have hd := (diverges_of_lt hsk hp).right [term]
          exact List.lt_asymm h (List.lt_trans (lt_append _ (by simp)) hd.lt)
      · exact List.not_lt.mpr le_append_left h
    · rintro ⟨x, rfl⟩
      rw [keybytesToHex, flatMap_append] at h
      refine List.lt_asymm h (List.append_left_lt ?_)
      have hx := term_not_mem_flatMap x
      cases hrest : x.flatMap nibbles with
      | nil => exact .nil
      | cons a rest =>
        rw [hrest] at hx
        exact .rel (Fin.lt_last_iff_ne_last.mpr fun ha => hx (ha ▸ mem_cons_self))
  · rintro ⟨hlt, hp⟩
    exact (diverges_of_lt hlt hp).lt

theorem lt_of_leaf_lt {a b : Bytes} (hlen : a.length = b.length)
    (h : keybytesToHex a < keybytesToHex b) : a < b := by
  by_contra hlt
  rcases List.le_iff_lt_or_eq.mp (List.not_lt.mp hlt) with hba | rfl
  · exact List.lt_asymm h ((diverges_hex hlen.symm).mpr hba).lt
  · exact List.lt_irrefl _ h

/-- The visits that are entries. -/
theorem entryAt_mem {key v : Bytes} (ht : Valid t) (he : e ∈ preorder [] t)
    (h : entryAt e = some (key, v)) :
    ∃ k : Slice, k.bytes = key ∧ e = (keybytesToHex key, .value v) ∧
      Content.ofTree t k = some v := by
  obtain ⟨p, u⟩ := e
  cases u with
  | value w =>
    cases h
    obtain ⟨p, rfl, hp⟩ := mem_preorder ht.canon.wf he
    rcases hp with ⟨w, hw, hterm, hget⟩ | ⟨hn, -⟩
    · cases hw
      obtain ⟨k, rfl⟩ := ht.keys p hterm (by simp [hget])
      rw [hexToKeybytes_keybytesToHex]
      exact ⟨k, rfl, rfl, hget⟩
    · cases hn
  | _ => cases h

/-! ## iterating -/

/-- Values are visited with the terminator, and only they are. -/
theorem hasTerm_iff (ht : t.WF term) (he : e ∈ preorder [] t) :
    hasTerm e.1 = true ↔ ∃ v, e.2 = .value v := by
  obtain ⟨p, u⟩ := e
  obtain ⟨p, rfl, ⟨v, rfl, hterm, -⟩ | ⟨hn, hterm⟩⟩ := mem_preorder ht he
  · exact ⟨fun _ => ⟨v, rfl⟩, fun _ => hasTerm_of_terminated hterm⟩
  · simp only [hasTerm_eq_false hterm]
    refine ⟨(nomatch ·), ?_⟩
    rintro ⟨v, rfl⟩
    cases hn

/-- The entries from a start key on, in pre-order. -/
theorem Inv.iterate [Keccak] {tr : Trie} (h : Inv o tr t)
    (hroot : rootHash t = emptyRootHash → t = .nil)
    (start : Bytes) (hf : (preorder [] t).length < fuel) :
    tr.iterate fuel start = .ok (((preorder [] t).filter fun e =>
      ¬ e.1 < (keybytesToHex start).dropLast).filterMap entryAt) := by
  obtain ⟨hhash, hinv, -⟩ := h.hash
  rw [Trie.iterate, Trie.nodeIterator, h.live]
  rw [show tr.hash = (.ok (rootHash t), tr.hash.2) from Prod.ext hhash rfl]
  obtain ⟨fuel, rfl⟩ : ∃ m, fuel = m + 1 := ⟨fuel - 1, by omega⟩
  by_cases hempty : rootHash t = emptyRootHash
  · obtain rfl := hroot hempty
    rfl
  · simp only [if_neg hempty]
    have ht := h.valid.canon
    have hahead : Ahead o t [] (preorder [] t) := rfl
    obtain ⟨skipped, l, hl, hskip, hcase⟩ :=
      seek_spec hinv hempty hahead (fun _ hst => nomatch hst) hf
    have hsorted := pairwise_preorder (.inl ht.wf) ([] : Hex)
    have hterm : ∀ e ∈ l, hasTerm e.1 = true ↔ ∃ v, e.2 = .value v := fun e he =>
      hasTerm_iff ht.wf (hl ▸ mem_append_right _ he)
    rw [hl] at hsorted hf ⊢
    rw [filter_append, filter_eq_nil_iff.mpr fun e he => by simpa using hskip e he, nil_append]
    rcases hcase with ⟨rfl, hres⟩ | ⟨e, rest, stack, rfl, he, hres, hahead⟩
    · rw [hres]
      rfl
    · have hall : ∀ a ∈ e :: rest, ¬ a.1 < (keybytesToHex start).dropLast := by
        intro a ha hlt
        rcases mem_cons.mp ha with rfl | ha
        · exact he hlt
        · exact he (List.lt_trans (rel_of_pairwise_cons (pairwise_append.mp hsorted).2.1 ha) hlt)
      rw [length_append] at hf
      rw [hres, filter_eq_self.mpr fun a ha => by simpa using hall a ha]
      exact entries_spec hinv hempty hahead hterm (by omega)

/-- What an iteration yields, as the visits that it does not skip. -/
theorem Inv.entries_spec [Keccak] {tr : Trie} {len : Nat} (h : Inv o tr t) (start : Bytes)
    (hlen : ∀ k : Slice, Content.ofTree t k ≠ none → k.bytes.length = len) :
    letI entries :=
  ((preorder [] t).filter fun e => ¬ e.1 < (keybytesToHex start).dropLast).filterMap entryAt
    entries.Pairwise (fun a b => a.1 < b.1) ∧
      ∀ key v, (key, v) ∈ entries ↔
        ∃ k : Slice, k.bytes = key ∧ Content.ofTree t k = some v ∧
          (¬ key < start ∨ key <+: start) := by
  refine ⟨?_, fun key v => ?_⟩
  · rw [pairwise_filterMap]
    refine ((pairwise_preorder (.inl h.valid.canon.wf) []).filter _).imp_of_mem ?_
    rintro a b ha hb hlt ⟨k₁, v₁⟩ h₁ ⟨k₂, v₂⟩ h₂
    obtain ⟨k₁, rfl, rfl, hget₁⟩ := entryAt_mem h.valid (mem_of_mem_filter ha) h₁
    obtain ⟨k₂, rfl, rfl, hget₂⟩ := entryAt_mem h.valid (mem_of_mem_filter hb) h₂
    exact lt_of_leaf_lt ((hlen k₁ (by simp [hget₁])).trans (hlen k₂ (by simp [hget₂])).symm) hlt
  · have hleaf (k : Bytes) : ¬ keybytesToHex k < (keybytesToHex start).dropLast ↔ ¬ k < start ∨
        k <+: start := by
      rw [leaf_lt_iff, not_and_or, not_not]
    rw [mem_filterMap]
    constructor
    · rintro ⟨e, he, hentry⟩
      obtain ⟨he, hle⟩ := mem_filter.mp he
      obtain ⟨k, rfl, rfl, hget⟩ := entryAt_mem h.valid he hentry
      exact ⟨k, rfl, hget, (hleaf _).mp (by simpa using hle)⟩
    · rintro ⟨k, rfl, hget, hlt⟩
      refine ⟨(keybytesToHex k.bytes, .value v), mem_filter.mpr ⟨?_, ?_⟩, ?_⟩
      · exact mem_preorder_of_get h.valid.canon.wf (terminated_keybytesToHex _) hget []
      · simpa using (hleaf _).mpr hlt
      · rw [entryAt, hexToKeybytes_keybytesToHex]

/-- **Iterating from a start key** over a trie with keys of one length ends, and yields in the order
of their keys the entries whose key is not below the start key or is a prefix of it.  So these are
the entries from the start key on just if no key is a proper prefix of the start key. -/
theorem iterateFrom_spec [Keccak] {db : Hash → Option Reader} {id : ID} {tr₀ tr : Trie}
    (ops : List Op)
    (start : Bytes) (len : Nat) (h : Opens db id o) (hnew : Trie.new id db = .ok tr₀)
    (hrun : tr₀.run ops = .ok tr)
    (hlen : ∀ k : Slice, (Content.ofTree o).applyAll ops k ≠ none → k.bytes.length = len)
    (hroot : tr.hash.1 = .ok emptyRootHash → ∀ k, (Content.ofTree o).applyAll ops k = none) :
    ∃ entries fuel₀, (∀ fuel, fuel₀ ≤ fuel → tr.iterate fuel start = .ok entries) ∧
      entries.Pairwise (fun a b => a.1 < b.1) ∧
      (∀ key v, (key, v) ∈ entries ↔ ∃ k : Slice, k.bytes = key ∧
        (Content.ofTree o).applyAll ops k = some v ∧ (¬ key < start ∨ key <+: start)) ∧
      ((∀ key v, (key, v) ∈ entries ↔
          ∃ k : Slice, k.bytes = key ∧ (Content.ofTree o).applyAll ops k = some v ∧ ¬ key < start) ↔
        ∀ k : Slice, (Content.ofTree o).applyAll ops k ≠ none →
          ¬ (k.bytes <+: start ∧ k.bytes ≠ start)) := by
  obtain ⟨_, hnew', hinv₀⟩ := new_spec h
  obtain rfl := Except.ok.inj (hnew.symm.trans hnew')
  obtain ⟨_, t, hrun', hinv, hcontent⟩ := run_spec hinv₀ ops
  obtain rfl := Except.ok.inj (hrun.symm.trans hrun')
  rw [← hcontent] at hlen hroot ⊢
  have hnil : rootHash t = emptyRootHash → t = .nil := fun hempty =>
    hinv.valid.ext valid_nil fun k => hroot (by rw [hinv.hash.1, hempty]) k
  obtain ⟨hsorted, hmem⟩ := hinv.entries_spec start hlen
  refine ⟨_, _, fun fuel hf => hinv.iterate hnil start hf, hsorted, hmem, fun hright k hk hpre =>
    ?_, fun hno key v => ?_⟩
  · -- a proper prefix is below the start key and among the entries all the same
    obtain ⟨v, hv⟩ := Option.ne_none_iff_exists'.mp hk
    obtain ⟨-, -, -, hlt⟩ := (hright k.bytes v).mp ((hmem k.bytes v).mpr ⟨k, rfl, hv, .inr hpre.1⟩)
    obtain ⟨x, hx⟩ := hpre.1
    rcases List.le_iff_lt_or_eq.mp (hx ▸ le_append_left : k.bytes ≤ start) with h | h
    exacts [hlt h, hpre.2 h]
  · rw [hmem]
    refine exists_congr fun k => and_congr_right ?_
    rintro rfl
    refine and_congr_right fun hv => ⟨?_, .inl⟩
    rintro (hlt | hpre)
    · exact hlt
    · have heq : k.bytes = start := by
        by_contra hne
        exact hno k (by simp [hv]) ⟨hpre, hne⟩
      rw [heq]
      exact List.lt_irrefl _

/-- Two entries are written to the trie with one, and all that are not below the start key are
found. -/
theorem iterateFrom_sample :
    letI := Keccak.sample
    ∃ tr₀ tr entries fuel₀, Trie.new ⟨digest sampleTree, Hash.zero, digest sampleTree⟩
        (fun _ => some fun _ _ _ => some (enc sampleTree)) = .ok tr₀ ∧
      tr₀.run [.update ⟨[0x62], by decide⟩ sampleValue, .hash,
        .update ⟨[0x71], by decide⟩ sampleValue] = .ok tr ∧
      (∀ fuel, fuel₀ ≤ fuel → tr.iterate fuel [0x62] = .ok entries) ∧
      ([0x61], [0x62]) ∉ entries ∧ ([0x62], [0x62]) ∈ entries ∧ ([0x71], [0x62]) ∈ entries := by
  let _ := Keccak.sample
  obtain ⟨tr₀, hnew, hinv⟩ := new_spec opens_sampleTree
  let ops : List Op :=
    [.update ⟨[0x62], by decide⟩ sampleValue, .hash, .update ⟨[0x71], by decide⟩ sampleValue]
  obtain ⟨tr, t, hrun, hinv', hcontent⟩ := run_spec hinv ops
  have hv : ValueOK sampleValue.bytes := ⟨by decide, by decide⟩
  have h₁ := valid_sampleTree.insert ⟨[0x62], by decide⟩ hv
  have h₂ := h₁.insert ⟨[0x71], by decide⟩ hv
  have hcontent₂ := ofTree_insert h₁ ⟨[0x71], by decide⟩ sampleValue.bytes
  rw [ofTree_insert valid_sampleTree] at hcontent₂
  obtain rfl := hinv'.valid.ext h₂ fun k => congrFun (hcontent.trans hcontent₂.symm) k
  have hne (h : tr.hash.1 = .ok emptyRootHash) : False := by
    have hroot := Except.ok.inj (hinv'.hash.1.symm.trans h)
    revert hroot
    decide +kernel
  have hkey (k : Slice) (hk : (Content.ofTree sampleTree).applyAll ops k ≠ none) :
      k.bytes.length = 1 := by
    by_contra hlen
    have hk₁ : k ≠ ⟨[0x62], by decide⟩ := by
      rintro rfl
      exact hlen rfl
    have hk₂ : k ≠ ⟨[0x71], by decide⟩ := by
      rintro rfl
      exact hlen rfl
    rw [show (Content.ofTree sampleTree).applyAll ops k = Content.ofTree sampleTree k from
      (Function.update_of_ne hk₂ ..).trans (Function.update_of_ne hk₁ ..)] at hk
    exact hlen (by rw [eq_sampleKey hk]; rfl)
  obtain ⟨entries, fuel₀, hiter, -, hmem, -⟩ :=
    iterateFrom_spec ops [0x62] 1 opens_sampleTree hnew hrun hkey
    fun h => (hne h).elim
  refine ⟨tr₀, tr, entries, fuel₀, hnew, hrun, hiter, ?_, ?_, ?_⟩
  · rw [hmem]
    rintro ⟨k, -, -, h⟩
    exact absurd h (by decide)
  · exact (hmem _ _).mpr ⟨⟨[0x62], by decide⟩, rfl, rfl, by decide⟩
  · exact (hmem _ _).mpr ⟨⟨[0x71], by decide⟩, rfl, rfl, by decide⟩

/-- **A key that is a proper prefix of the start key** is yielded although it is below the start
key. -/
theorem iterateFrom_prefixKey :
    letI := Keccak.sample
    (∀ k, Content.ofTree sampleTree k ≠ none → k.bytes.length = 1) ∧
    ([0x61] : Bytes) < [0x61, 0x00] ∧
    ∃ tr, Trie.new ⟨digest sampleTree, Hash.zero, digest sampleTree⟩
        (fun _ => some fun _ _ _ => some (enc sampleTree)) = .ok tr ∧
      ∀ fuel, 3 ≤ fuel → tr.iterate fuel [0x61, 0x00] = .ok [([0x61], [0x62])] := by
  let _ := Keccak.sample
  obtain ⟨tr, hnew, hinv⟩ := new_spec opens_sampleTree
  have hne : rootHash sampleTree ≠ emptyRootHash := by decide
  refine ⟨fun k hk => by rw [eq_sampleKey hk]; rfl, by decide, tr, hnew, fun fuel hf => ?_⟩
  rw [hinv.iterate (fun h => absurd h hne) [0x61, 0x00] hf]
  rfl

end GoQrl.Mpt
