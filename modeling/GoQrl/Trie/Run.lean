import GoQrl.Trie.Refine

/-!
# GoQrl.Trie.Run

Whole runs of a trie.  A trie is opened on the store of an original tree
(`Opens`), and every operation keeps the invariant `Inv` that ties the trie to
the tree it holds.  `run_spec` follows a run of any length: no operation fails,
and the content is the one that the abstract map `Content` has after the same
operations.
-/

namespace GoQrl.Mpt

open Radix Mpt.Tree Tracer Function

/-! ## trees that hold byte-string maps -/

/-- A compressed tree whose keys are the hex forms of byte strings. -/
structure Tree.Valid (t : Tree) : Prop where
  canon : t.Canon term
  bounded : Bounded (2 ^ 63) t
  keys : ∀ key, Terminated term key → t.get key ≠ none → ∃ k : Slice, keybytesToHex k.bytes = key

namespace Tree

variable {t : Tree}

theorem Valid.fit (h : Valid t) : Fit t := ⟨h.canon.wf, h.bounded⟩

theorem valid_nil : Valid .nil := ⟨trivial, trivial, fun _ _ h => absurd rfl h⟩

theorem length_keybytesToHex_le (k : Slice) : (keybytesToHex k.bytes).length ≤ 2 ^ 63 := by
  have := k.fits
  rw [length_keybytesToHex]
  omega

theorem Valid.insert (h : Valid t) (k : Slice) {v : Bytes} (hv : ValueOK v) :
    Valid (t.insert v (keybytesToHex k.bytes)) where
  canon := (h.canon.insert v (terminated_keybytesToHex _)).1
  bounded := h.bounded.insert hv (length_keybytesToHex_le k)
  keys key hkey hget := by
    rw [Tree.get_insert h.canon.wf v (terminated_keybytesToHex _) hkey] at hget
    split at hget
    · next heq => exact ⟨k, heq.symm⟩
    · exact h.keys key hkey hget

theorem Valid.delete (h : Valid t) (k : Slice) : Valid (t.delete (keybytesToHex k.bytes)) where
  canon := (h.canon.delete (terminated_keybytesToHex _)).1
  bounded := h.bounded.delete _
  keys key hkey hget := by
    rw [Tree.get_delete h.canon.wf (terminated_keybytesToHex _) hkey] at hget
    split at hget
    · exact absurd rfl hget
    · exact h.keys key hkey hget

/-- A valid tree is determined by its entries. -/
theorem Valid.ext {t u : Tree} (ht : Valid t) (hu : Valid u)
    (h : ∀ k : Slice, t.get (keybytesToHex k.bytes) = u.get (keybytesToHex k.bytes)) : t = u := by
  refine Radix.Tree.Canon.ext ht.canon hu.canon fun key hkey => ?_
  by_cases h1 : t.get key = none
  · by_cases h2 : u.get key = none
    · rw [h1, h2]
    · obtain ⟨k, rfl⟩ := hu.keys key hkey h2
      exact h k
  · obtain ⟨k, rfl⟩ := ht.keys key hkey h1
    exact h k

theorem isNode_of_wf (h : t.WF term) (h0 : t ≠ .nil) : isNode t := by
  cases t with
  | nil => exact absurd rfl h0
  | value v => exact h.elim
  | short | full => rfl

variable [Keccak]

/-- The root hash of a tree. -/
def rootHash : Tree → Hash
  | .nil => emptyRootHash
  | t => digest t

theorem rootHash_of_ne (h : t ≠ .nil) : rootHash t = digest t := by
  cases t with
  | nil => exact absurd rfl h
  | _ => rfl

end Tree

/-! ## operations and the map they act on -/

/-- A call of the trie. -/
inductive Op
  | update (key value : Slice)
  | delete (key : Slice)
  | get (key : Slice)
  | hash

/-- The content of a trie: a partial map on byte strings. -/
abbrev Content := Slice → Option Bytes

namespace Content

/-- The effect of a call on the content; writing an empty value deletes. -/
def apply (m : Content) : Op → Content
  | .update key value =>
    Function.update m key (if value.bytes = [] then none else some value.bytes)
  | .delete key => Function.update m key none
  | .get _ => m
  | .hash => m

/-- The effect of a sequence of calls. -/
def applyAll (m : Content) (ops : List Op) : Content := ops.foldl apply m

/-- The content of a tree. -/
def ofTree (t : Tree) : Content := fun k => t.get (keybytesToHex k.bytes)

end Content

section Runs

variable [Keccak]

/-- One call, with its result dropped; an error ends the run. -/
def Trie.step (t : Trie) : Op → Except TrieError Trie
  | .update key value => (t.update key.bytes value.bytes).1.map fun _ =>
    (t.update key.bytes value.bytes).2
  | .delete key => (t.delete key.bytes).1.map fun _ => (t.delete key.bytes).2
  | .get key => (t.get key.bytes).1.map fun _ => (t.get key.bytes).2
  | .hash => t.hash.1.map fun _ => t.hash.2

/-- A sequence of calls. -/
def Trie.run (t : Trie) : List Op → Except TrieError Trie
  | [] => .ok t
  | op :: ops =>
    match t.step op with
    | .error e => .error e
    | .ok t' => t'.run ops

/-! ## the invariant -/

/-- The trie, opened on the tree `o`, holds the tree `t`. -/
structure Inv (o : Tree) (tr : Trie) (t : Tree) : Prop where
  origin : Valid o
  serves : Serves tr.reader o
  valid : Valid t
  rep : Rep o [] tr.root t
  live : tr.committed = false
  reads : ∀ p b, tr.tracer.accessList p = some b → store o p = some b
  tracks : tr.tracer.Tracks (NodeAt o) (NodeAt t)
  covers : ∀ p, store o p ≠ none → tr.tracer.accessList p ≠ none ∨ tr.root.Unloaded [] p

/-- A step of the root is a step of the trie. -/
theorem Inv.step {o t t' : Tree} {tr tr' : Trie} (h : Inv o tr t)
    (hs : Step o [] tr.root t tr.tracer tr'.root t' tr'.tracer) (ht : Valid t')
    (hr : tr'.reader = tr.reader) (hc : tr'.committed = tr.committed) : Inv o tr' t' where
  origin := h.origin
  serves := hr ▸ h.serves
  valid := ht
  rep := hs.rep
  live := hc.trans h.live
  reads := hs.reads.stored h.reads
  tracks := by
    refine (hs.tracks (NodeAt t) h.tracks fun q => Iff.rfl).congr fun p => ?_
    have hiff : replant (NodeAt t) [] t' ([] ++ p) ↔ NodeAt t' p := replant_append t' p
    rwa [List.nil_append] at hiff
  covers p hp := by
    rcases h.covers p hp with h1 | h1
    · exact .inl (hs.reads.mono p h1)
    · exact (hs.covers p hp h1).symm

variable {o t : Tree} {tr : Trie}

theorem Inv.get (h : Inv o tr t) (key : Slice) :
    (tr.get key.bytes).1 = .ok (Content.ofTree t key) ∧ Inv o (tr.get key.bytes).2 t := by
  have hkey : Reach t (keybytesToHex key.bytes) :=
    .inl ⟨h.valid.canon.wf, terminated_keybytesToHex _⟩
  obtain ⟨n', did, s', hexec, hstep, -, hsame⟩ :=
    get_spec h.origin.fit h.serves hkey h.rep (le_refl _) tr.tracer
  have hroot : (if did then n' else tr.root) = n' := by
    cases did with
    | true => rfl
    | false => exact (hsame rfl).symm
  have hget : tr.get key.bytes =
      (.ok (Content.ofTree t key), { tr with root := n', tracer := s' }) := by
    simp only [Trie.get, h.live]
    have hexec' : GoQrl.Mpt.get tr.reader (budget (keybytesToHex key.bytes)) tr.root
        (keybytesToHex key.bytes) 0 tr.tracer = _ := hexec
    rw [hexec']
    simp only [hroot]
    rfl
  rw [hget]
  exact ⟨rfl, h.step hstep h.valid rfl rfl⟩

theorem Inv.insert (h : Inv o tr t) (key : Slice) {v : Bytes} (hv : ValueOK v) (m : Nat) :
    ∃ tr', ({ tr with unhashed := m } : Trie).modifyRoot (GoQrl.Mpt.insert tr.reader
        (budget (keybytesToHex key.bytes)) tr.root [] (keybytesToHex key.bytes) (.value v)) =
      (.ok (), tr') ∧ Inv o tr' (t.insert v (keybytesToHex key.bytes)) := by
  have hkey : Reach t (keybytesToHex key.bytes) :=
    .inl ⟨h.valid.canon.wf, terminated_keybytesToHex _⟩
  obtain ⟨dirty, n', s', hexec, hstep, -⟩ :=
    insert_spec h.origin.fit h.serves hkey h.rep (le_refl _) v tr.tracer
  refine ⟨{ tr with root := n', tracer := s', unhashed := m }, ?_,
    h.step hstep (h.valid.insert key hv) rfl rfl⟩
  simp only [Trie.modifyRoot]
  rw [show GoQrl.Mpt.insert tr.reader (budget (keybytesToHex key.bytes)) tr.root []
    (keybytesToHex key.bytes) (.value v) tr.tracer = _ from hexec]

theorem Inv.remove (h : Inv o tr t) (key : Slice) (m : Nat) :
    ∃ tr', ({ tr with unhashed := m } : Trie).modifyRoot (GoQrl.Mpt.delete tr.reader
        (budget (keybytesToHex key.bytes)) tr.root [] (keybytesToHex key.bytes)) =
      (.ok (), tr') ∧ Inv o tr' (t.delete (keybytesToHex key.bytes)) := by
  have hkey : CanonReach t (keybytesToHex key.bytes) :=
    .inl ⟨h.valid.canon, terminated_keybytesToHex _⟩
  obtain ⟨dirty, n', s', hexec, hstep, -⟩ :=
    delete_spec h.origin.fit h.serves hkey h.rep (le_refl _) tr.tracer
  refine ⟨{ tr with root := n', tracer := s', unhashed := m }, ?_,
    h.step hstep (h.valid.delete key) rfl rfl⟩
  simp only [Trie.modifyRoot]
  rw [show GoQrl.Mpt.delete tr.reader (budget (keybytesToHex key.bytes)) tr.root []
    (keybytesToHex key.bytes) tr.tracer = _ from hexec]

/-- Hashing returns the root hash of the represented tree and keeps everything
but the root, which represents the same tree with all hashes cached. -/
theorem hashTrie_spec (h : Rep o [] tr.root t) (ht : Fit t) :
    tr.hash.1 = .ok (rootHash t) ∧ Rep o [] tr.hash.2.root t ∧ Sealed [] tr.hash.2.root t ∧
      (∀ p, tr.hash.2.root.Unloaded [] p ↔ tr.root.Unloaded [] p) ∧
      tr.hash.2.tracer = tr.tracer ∧ tr.hash.2.reader = tr.reader ∧
      tr.hash.2.committed = tr.committed := by
  by_cases h0 : t = .nil
  · subst h0
    have hroot : tr.root = .nil := h.nil_iff.mpr rfl
    have hhash : tr.hash = (.ok emptyRootHash, tr) := by
      cases tr
      subst hroot
      rfl
    rw [hhash]
    exact ⟨rfl, h, by rw [hroot]; trivial, fun _ => Iff.rfl, rfl, rfl, rfl⟩
  · have hnil : tr.root.isNil = false := by
      cases hn : tr.root.isNil with
      | false => rfl
      | true => exact absurd (h.isNil.mp hn) h0
    have hspec : HashOK o [] tr.root t (GoQrl.Mpt.hash tr.root true) :=
      hash_spec h ht.sized (by simp)
    have hst : Standalone [] t := ⟨isNode_of_wf ht.wf h0, .inl rfl⟩
    have hhash : tr.hash = (.ok (digest t),
        { tr with root := (GoQrl.Mpt.hash tr.root true).2, unhashed := 0 }) := by
      simp only [Trie.hash, Trie.hashRoot, hnil]
      simp [hspec.ref.hash hst, Collapsed.asHash]
    rw [hhash, rootHash_of_ne h0]
    exact ⟨rfl, hspec.rep, hspec.sealed, hspec.unloaded, rfl, rfl, rfl⟩

/-- Hashing returns the root hash of the tree and keeps the trie. -/
theorem Inv.hash (h : Inv o tr t) :
    tr.hash.1 = .ok (rootHash t) ∧ Inv o tr.hash.2 t ∧ Sealed [] tr.hash.2.root t := by
  obtain ⟨hhash, hrep, hseal, hun, htracer, hreader, hcommitted⟩ := hashTrie_spec h.rep h.valid.fit
  refine ⟨hhash,
    ⟨h.origin, hreader ▸ h.serves, h.valid, hrep, hcommitted.trans h.live, ?_, ?_, ?_⟩, hseal⟩
  · rw [htracer]
    exact h.reads
  · rw [htracer]
    exact h.tracks
  · intro p hp
    rw [htracer, hun]
    exact h.covers p hp

/-! ## runs -/

omit [Keccak] in
theorem ofTree_insert (h : Valid t) (key : Slice) (v : Bytes) :
    Content.ofTree (t.insert v (keybytesToHex key.bytes)) = update (Content.ofTree t) key
      (some v) := by
  funext k
  unfold Content.ofTree
  rw [Tree.get_insert h.canon.wf v (terminated_keybytesToHex _) (terminated_keybytesToHex _)]
  by_cases hk : k = key
  · subst hk; simp
  · rw [if_neg fun heq => hk (Slice.ext (keybytesToHex_injective heq)), update_of_ne hk]

omit [Keccak] in
theorem ofTree_delete (h : Valid t) (key : Slice) :
    Content.ofTree (t.delete (keybytesToHex key.bytes)) =
      update (Content.ofTree t) key none := by
  funext k
  unfold Content.ofTree
  rw [Tree.get_delete h.canon.wf (terminated_keybytesToHex _) (terminated_keybytesToHex _)]
  by_cases hk : k = key
  · subst hk; simp
  · rw [if_neg fun heq => hk (Slice.ext (keybytesToHex_injective heq)), update_of_ne hk]

/-- **One call** of the trie is one operation on its content. -/
theorem step_spec (h : Inv o tr t) (op : Op) :
    ∃ tr' t', tr.step op = .ok tr' ∧ Inv o tr' t' ∧
      Content.ofTree t' = (Content.ofTree t).apply op := by
  have hne : ¬ tr.committed = true := by simp [h.live]
  cases op with
  | update key value =>
    by_cases hv : value.bytes = []
    · obtain ⟨tr', hexec, hinv⟩ := h.remove key (tr.unhashed + 1)
      refine ⟨tr', _, ?_, hinv, ?_⟩
      · simp only [Trie.step, Trie.update, if_neg hne, Trie.updateRoot, hv, List.length_nil, ne_eq,
          not_true_eq_false, if_false, hexec]
        rfl
      · simp [Content.apply, hv, ofTree_delete h.valid]
    · obtain ⟨tr', hexec, hinv⟩ := h.insert key ⟨hv, value.fits⟩ (tr.unhashed + 1)
      refine ⟨tr', _, ?_, hinv, ?_⟩
      · have hlen : value.bytes.length ≠ 0 := by simpa using hv
        simp only [Trie.step, Trie.update, if_neg hne, Trie.updateRoot, if_pos hlen, hexec]
        rfl
      · simp [Content.apply, hv, ofTree_insert h.valid]
  | delete key =>
    obtain ⟨tr', hexec, hinv⟩ := h.remove key (tr.unhashed + 1)
    refine ⟨tr', _, ?_, hinv, ?_⟩
    · simp only [Trie.step, Trie.delete, if_neg hne, hexec]
      rfl
    · simp [Content.apply, ofTree_delete h.valid]
  | get key =>
    obtain ⟨hexec, hinv⟩ := h.get key
    exact ⟨_, t, by simp only [Trie.step, hexec]; rfl, hinv, rfl⟩
  | hash =>
    obtain ⟨hexec, hinv, -⟩ := h.hash
    exact ⟨_, t, by simp only [Trie.step, hexec]; rfl, hinv, rfl⟩

/-- **A run** of calls never fails, and its content is the one of the abstract
map after the same calls. -/
theorem run_spec (h : Inv o tr t) (ops : List Op) :
    ∃ tr' t', tr.run ops = .ok tr' ∧ Inv o tr' t' ∧
      Content.ofTree t' = (Content.ofTree t).applyAll ops := by
  induction ops generalizing tr t with
  | nil => exact ⟨tr, t, rfl, h, rfl⟩
  | cons op ops ih =>
    obtain ⟨tr1, t1, hstep, hinv, hcontent⟩ := step_spec h op
    obtain ⟨tr2, t2, hrun, hinv2, hcontent2⟩ := ih hinv
    refine ⟨tr2, t2, ?_, hinv2, ?_⟩
    · simp [Trie.run, hstep, hrun]
    · rw [hcontent2, hcontent]; rfl

/-! ## opening a trie -/

/-- The identifier and the database give access to a stored tree: the root is
its root hash, and the reader serves all its nodes.  A root that is the zero
hash or the hash of the empty trie stands for the empty tree, and only for it. -/
structure Opens (db : Hash → Option Reader) (id : ID) (o : Tree) : Prop where
  valid : Valid o
  reader : ∃ r, newTrieReader id.stateRoot id.owner db = .ok r ∧ Serves r o
  root : id.root = rootHash o ∨ (o = .nil ∧ id.root = Hash.zero)
  nonempty : o ≠ .nil → id.root ≠ Hash.zero ∧ id.root ≠ emptyRootHash

variable {db : Hash → Option Reader} {id : ID}

theorem Opens.root_eq (h : Opens db id o) (h0 : o ≠ .nil) : id.root = digest o := by
  rcases h.root with h1 | ⟨h1, -⟩
  · rw [h1, rootHash_of_ne h0]
  · exact absurd h1 h0

/-- An empty tree is opened without reading anything. -/
theorem new_of_nil (h : Opens db id .nil) :
    ∃ r, Serves r .nil ∧ Trie.new id db = .ok ⟨.nil, id.owner, false, 0, r, new⟩ := by
  obtain ⟨r, hr, hserves⟩ := h.reader
  have hroot : ¬ (id.root ≠ Hash.zero ∧ id.root ≠ emptyRootHash) := by
    rintro ⟨h1, h2⟩
    rcases h.root with hr | ⟨-, hr⟩
    · exact h2 hr
    · exact h1 hr
  exact ⟨r, hserves, by simp [Trie.new, hr, if_neg hroot]⟩

/-- Another tree is opened by loading its root. -/
theorem new_of_ne (h : Opens db id o) (h0 : o ≠ .nil) :
    ∃ r, Serves r o ∧
      Trie.new id db = .ok ⟨expand (some (digest o)) o, id.owner, false, 0, r,
        new.onRead [] (enc o)⟩ := by
  obtain ⟨r, hr, hserves⟩ := h.reader
  have hst : Standalone [] o := ⟨isNode_of_wf h.valid.canon.wf h0, .inl rfl⟩
  have hexec := resolveAndTrack_spec h.valid.fit hserves (locate_nil o) hst new
  refine ⟨r, hserves, ?_⟩
  simp only [Trie.new, hr, if_pos (h.nonempty h0)]
  rw [h.root_eq h0, hexec]

/-- **Opening** a stored tree gives a trie that holds it. -/
theorem new_spec (h : Opens db id o) : ∃ tr, Trie.new id db = .ok tr ∧ Inv o tr o := by
  by_cases h0 : o = .nil
  · subst h0
    obtain ⟨r, hserves, hnew⟩ := new_of_nil h
    exact ⟨_, hnew, valid_nil, hserves, valid_nil, .nil [], rfl, fun p b hb => (nomatch hb),
      tracks_new _, fun p hp => absurd (store_nil p) hp⟩
  · obtain ⟨r, hserves, hnew⟩ := new_of_ne h h0
    have hst : Standalone [] o := ⟨isNode_of_wf h.valid.canon.wf h0, .inl rfl⟩
    have hload := Step.load h.valid.fit hst (locate_nil o) new
    refine ⟨_, hnew, h.valid, hserves, h.valid, hload.rep, rfl, ?_, ?_, ?_⟩
    · exact hload.reads.stored fun p b hb => by cases hb
    · exact (tracks_new _).onRead [] (enc o)
    · intro p hp
      exact (hload.covers p hp List.nil_prefix).symm

end Runs

end GoQrl.Mpt
