import GoQrl.Trie.Hasher
import GoQrl.Trie.Tracer

/-!
# GoQrl.Trie.Trie

The Merkle Patricia trie of `trie/trie.go`, with the reader of
`trie/trie_reader.go`: lookup, insertion and deletion on partly loaded node
structures, loading nodes from the reader on the way.

The mutable receiver becomes state: the recursive operations run in `TrieM`,
which threads the tracer, and return the new node.  They recurse through loaded
nodes, so they take a budget; the exported operations pass one that the length
of the key bounds.  A Go panic is the error `panicked`.
-/

namespace GoQrl.Mpt

open Rlp
open List hiding nil get insert

/-- The errors of trie operations. -/
inductive TrieError
  /-- `MissingNodeError` -/
  | missingNode (owner nodeHash : Hash) (path : Hex)
  /-- `ErrCommitted`: "trie is already committed" -/
  | committed
  /-- a Go panic -/
  | panicked
  /-- The evaluation budget of the model is used up; not an error of the source. -/
  | outOfFuel
  deriving DecidableEq

/-- `Reader`: the blob of a node by owner, path and hash. -/
abbrev Reader := Hash → Hex → Hash → Option Bytes

/-- `trieReader`; the reader may be absent. -/
structure TrieReader where
  owner : Hash
  reader : Option Reader

/-- `newEmptyReader`. -/
def newEmptyReader : TrieReader := ⟨Hash.zero, none⟩

/-- `trieReader.node`: a missing reader, a missing node and an empty blob are
all a `MissingNodeError`. -/
def TrieReader.node (r : TrieReader) (path : Hex) (hash : Hash) : Except TrieError Bytes :=
  match r.reader with
  | none => .error (.missingNode r.owner hash path)
  | some reader =>
    match reader r.owner path hash with
    | none => .error (.missingNode r.owner hash path)
    | some blob =>
      if blob.length = 0 then .error (.missingNode r.owner hash path) else .ok blob

/-- Computations on a trie: they may fail, and they record in the tracer either way. -/
abbrev TrieM := ExceptT TrieError (StateM Tracer)

/-- `t.tracer.onInsert`. -/
def onInsert (path : Hex) : TrieM Unit := modify fun s => s.onInsert path

/-- `t.tracer.onDelete`. -/
def onDelete (path : Hex) : TrieM Unit := modify fun s => s.onDelete path

/-- `Trie.newFlag`. -/
def newFlag : NodeFlag := ⟨none, true⟩

section Operations

variable (r : TrieReader)

/-- `Trie.resolveAndTrack`, with `mustDecodeNode`. -/
def resolveAndTrack (hash : Hash) (path : Hex) : TrieM Node := do
  let blob ← r.node path hash
  modify fun s => s.onRead path blob
  match decodeNode (some hash) blob with
  | .ok n => return n
  | .error _ => throw .panicked

/-- `Trie.resolve`. -/
def resolve (n : Node) (path : Hex) : TrieM Node :=
  match n with
  | .hash h => resolveAndTrack r h path
  | n => return n

/-- `Trie.get`: the value, the node with what was loaded, and whether anything was. -/
def get : Nat → Node → Hex → Nat → TrieM (Option Bytes × Node × Bool)
  | 0, _, _, _ => throw .outOfFuel
  | fuel + 1, origNode, key, pos =>
    match origNode with
    | .nil => return (none, .nil, false)
    | .value v => return (some v, .value v, false)
    | .short nkey val flags => do
      if key.length - pos < nkey.length ∨ nkey ≠ (key.drop pos).take nkey.length then
        return (none, .short nkey val flags, false)
      let (value, newnode, didResolve) ← get fuel val key (pos + nkey.length)
      if didResolve then return (value, .short nkey newnode flags, didResolve)
      return (value, .short nkey val flags, didResolve)
    | .full children flags =>
      match key[pos]? with
      | none => throw .panicked
      | some i => do
        let (value, newnode, didResolve) ← get fuel (children i) key (pos + 1)
        if didResolve then
          return (value, .full (Node.setChild children i newnode) flags, didResolve)
        return (value, .full children flags, didResolve)
    | .hash h => do
      let child ← resolveAndTrack r h (key.take pos)
      let (value, newnode, _) ← get fuel child key pos
      return (value, newnode, true)

/-- `Trie.insert`: whether the node changed, and the new node.  `pre` is the
path of `n` and `key` what is left of the key. -/
def insert : Nat → Node → Hex → Hex → Node → TrieM (Bool × Node)
  | 0, _, _, _, _ => throw .outOfFuel
  | fuel + 1, n, pre, key, value =>
    if key.length = 0 then
      match n, value with
      | .value v, .value w => return (v != w, value)
      | .value _, _ => throw .panicked
      | _, _ => return (true, value)
    else
      match n with
      | .short nkey val flags =>
        let matchlen := prefixLen key nkey
        if matchlen = nkey.length then do
          let (dirty, nn) ← insert fuel val (pre ++ key.take matchlen) (key.drop matchlen) value
          if dirty then return (true, .short nkey nn newFlag)
          return (false, .short nkey val flags)
        else
          match nkey[matchlen]?, key[matchlen]? with
          | some i, some j => do
            let (_, old) ← insert fuel .nil (pre ++ nkey.take (matchlen + 1))
              (nkey.drop (matchlen + 1)) val
            let (_, new) ← insert fuel .nil (pre ++ key.take (matchlen + 1))
              (key.drop (matchlen + 1)) value
            let children := Node.setChild (Node.setChild (fun _ => .nil) i old) j new
            if matchlen = 0 then return (true, .full children newFlag)
            onInsert (pre ++ key.take matchlen)
            return (true, .short (key.take matchlen) (.full children newFlag) newFlag)
          | _, _ => throw .panicked
      | .full children flags =>
        match key with
        | [] => throw .panicked
        | i :: rest => do
          let (dirty, nn) ← insert fuel (children i) (pre ++ [i]) rest value
          if dirty then return (true, .full (Node.setChild children i nn) newFlag)
          return (false, .full children flags)
      | .nil => do
        onInsert pre
        return (true, .short key value newFlag)
      | .hash h => do
        let rn ← resolveAndTrack r h pre
        let (dirty, nn) ← insert fuel rn pre key value
        if dirty then return (true, nn)
        return (false, rn)
      | .value _ => throw .panicked

/-- The loop of the reduction in `Trie.delete`: the index of the only child,
`-1` when there is none and `-2` when there are several. -/
def onlyChild (children : Nibble → Node) : Int → List Nibble → Int
  | pos, [] => pos
  | pos, i :: rest =>
    if (children i).isNil then onlyChild children pos rest
    else if pos = -1 then onlyChild children i.val rest
    else -2

/-- The reduction of a branching node after one of its children was removed. -/
def reduce (children : Nibble → Node) (pre : Hex) : TrieM (Bool × Node) :=
  let pos := onlyChild children (-1) (List.finRange 17)
  if h : 0 ≤ pos ∧ pos < 17 then
    let i : Nibble := ⟨pos.toNat, by omega⟩
    if i ≠ term then do
      match ← resolve r (children i) (pre ++ [i]) with
      | .short ckey val _ =>
        onDelete (pre ++ [i])
        return (true, .short (i :: ckey) val newFlag)
      | _ => return (true, .short [i] (children i) newFlag)
    else return (true, .short [i] (children i) newFlag)
  else return (true, .full children newFlag)

/-- `Trie.delete`. -/
def delete : Nat → Node → Hex → Hex → TrieM (Bool × Node)
  | 0, _, _, _ => throw .outOfFuel
  | fuel + 1, n, pre, key =>
    match n with
    | .short nkey val flags =>
      let matchlen := prefixLen key nkey
      if matchlen < nkey.length then return (false, .short nkey val flags)
      else if matchlen = key.length then do
        onDelete pre
        return (true, .nil)
      else do
        let (dirty, child) ← delete fuel val (pre ++ key.take nkey.length) (key.drop nkey.length)
        if dirty then
          match child with
          | .short ckey cval _ =>
            onDelete (pre ++ nkey)
            return (true, .short (nkey ++ ckey) cval newFlag)
          | child => return (true, .short nkey child newFlag)
        else return (false, .short nkey val flags)
    | .full children flags =>
      match key with
      | [] => throw .panicked
      | i :: rest => do
        let (dirty, nn) ← delete fuel (children i) (pre ++ [i]) rest
        if dirty then
          if nn.isNil then reduce r (Node.setChild children i nn) pre
          else return (true, .full (Node.setChild children i nn) newFlag)
        else return (false, .full children flags)
    | .value _ => return (true, .nil)
    | .nil => return (false, .nil)
    | .hash h => do
      let rn ← resolveAndTrack r h pre
      let (dirty, nn) ← delete fuel rn pre key
      if dirty then return (true, nn)
      return (false, rn)

end Operations

/-! ## executing single steps -/

theorem TrieM.bind_ok {α β : Type} {x : TrieM α} {f : α → TrieM β} {s s' : Tracer} {a : α}
    (h : x s = (.ok a, s')) : (x >>= f) s = f a s' := by
  show (StateT.bind x (ExceptT.bindCont f)) s = f a s'
  simp only [StateT.bind]
  rw [h]
  rfl

theorem prefixLen_self_append (k rest : Hex) : prefixLen (k ++ rest) k = k.length := by
  simpa using prefixLen_append k rest [] (by simp)

section Steps

variable {r : TrieReader} {fuel : Nat} {s s' s'' : Tracer} {pre key : Hex} {value : Node}

theorem insert_value (v w : Bytes) : insert r (fuel + 1) (.value v) pre [] (.value w) s =
    (.ok (v != w, .value w), s) := rfl

variable {dirty : Bool} {children : Nibble → Node} {i : Nibble} {rn : Node} {v : Option Bytes}
    {did : Bool}
  {flags : NodeFlag} {k rest : Hex} {nn val : Node} {h : Hash}

/-- A key that goes on below an edge is inserted into its child. -/
theorem insert_short_append (flags : NodeFlag) (hk : k ≠ [])
    (h : insert r fuel val (pre ++ k) rest value s = (.ok (dirty, nn), s')) :
    insert r (fuel + 1) (.short k val flags) pre (k ++ rest) value s =
      (.ok (dirty, if dirty then .short k nn newFlag else .short k val flags), s') := by
  have hne : ¬ (k ++ rest).length = 0 := by simp [hk]
  rw [insert, if_neg hne]
  simp only [prefixLen_self_append, if_true, take_left, drop_left]
  rw [TrieM.bind_ok h]
  cases dirty <;> rfl

/-- An edge is split into a branch where the key leaves it. -/
theorem insert_short_split {p : Hex} {a b : Nibble} (hab : a ≠ b) {old new : Node}
    (flags : NodeFlag)
    {d d' : Bool} (h1 : insert r fuel .nil (pre ++ (p ++ [a])) k val s = (.ok (d, old), s'))
    (h2 : insert r fuel .nil (pre ++ (p ++ [b])) rest value s' = (.ok (d', new), s'')) :
    insert r (fuel + 1) (.short (p ++ a :: k) val flags) pre (p ++ b :: rest) value s =
      if p = [] then
        (.ok (true, .full (Node.setChild (Node.setChild (fun _ => .nil) a old) b new) newFlag), s'')
      else (.ok (true, .short p (.full (Node.setChild (Node.setChild (fun _ => .nil) a old) b new)
        newFlag) newFlag), s''.onInsert (pre ++ p)) := by
  have hlen : prefixLen (p ++ b :: rest) (p ++ a :: k) = p.length :=
    prefixLen_append p (b :: rest) (a :: k) (by
      intro x y hx hy
      simp only [head?_cons, Option.some.injEq] at hx hy
      subst hx hy
      exact hab.symm)
  have hne : ¬ (p ++ b :: rest).length = 0 := by simp
  have hlt : ¬ p.length = (p ++ a :: k).length := by simp
  have htake : ∀ (c : Nibble) (l : Hex), (p ++ c :: l).take (p.length + 1) = p ++ [c] := by
    intro c l
    rw [append_cons, take_left' (by simp)]
  have hdrop : ∀ (c : Nibble) (l : Hex), (p ++ c :: l).drop (p.length + 1) = l := by
    intro c l
    rw [append_cons, drop_left' (by simp)]
  rw [insert, if_neg hne]
  simp only [hlen, if_neg hlt, getElem?_append_right,
    le_refl, Nat.sub_self, getElem?_cons_zero, htake, hdrop, take_left]
  rw [TrieM.bind_ok h1, TrieM.bind_ok h2]
  by_cases hp : p = []
  · subst hp; rfl
  · have hp' : ¬ p.length = 0 := by simpa using hp
    simp only [hp, hp', if_false]
    rfl

/-- At a branch the key goes into one child. -/
theorem insert_full_cons (flags : NodeFlag)
    (h : insert r fuel (children i) (pre ++ [i]) rest value s = (.ok (dirty, nn), s')) :
    insert r (fuel + 1) (.full children flags) pre (i :: rest) value s =
      (.ok (dirty, if dirty then .full (Node.setChild children i nn) newFlag
        else .full children flags), s') := by
  rw [insert, if_neg (by simp)]
  rw [TrieM.bind_ok h]
  cases dirty <;> rfl

/-- An unloaded node is loaded before the insertion. -/
theorem insert_hash (hkey : key ≠ []) (h1 : resolveAndTrack r h pre s = (.ok rn, s'))
    (h2 : insert r fuel rn pre key value s' = (.ok (dirty, nn), s'')) :
    insert r (fuel + 1) (.hash h) pre key value s =
      (.ok (dirty, if dirty then nn else rn), s'') := by
  rw [insert, if_neg (by simpa using hkey)]
  rw [TrieM.bind_ok h1, TrieM.bind_ok h2]
  cases dirty <;> rfl

/-- A lookup goes on below an edge whose label the key has. -/
theorem get_short_append (flags : NodeFlag) (hkey : key = pre ++ (k ++ rest))
    (h : get r fuel val key (pre ++ k).length s = (.ok (v, nn, did), s')) :
    get r (fuel + 1) (.short k val flags) key pre.length s =
      (.ok (v, .short k (if did then nn else val) flags, did), s') := by
  have hcond : ¬ (key.length - pre.length < k.length ∨
      k ≠ (key.drop pre.length).take k.length) := by
    subst hkey
    simp
  rw [length_append] at h
  rw [get]
  rw [if_neg hcond]
  rw [TrieM.bind_ok h]
  cases did <;> rfl

/-- A key without the label of an edge is not found, and nothing is loaded. -/
theorem get_short_other (hkey : key = pre ++ rest) (h : ¬ k <+: rest) :
    get r (fuel + 1) (.short k val flags) key pre.length s =
      (.ok (none, .short k val flags, false), s) := by
  have hcond : key.length - pre.length < k.length ∨ k ≠ (key.drop pre.length).take k.length := by
    subst hkey
    refine .inr fun hk => h ?_
    rw [drop_left] at hk
    rw [hk]
    exact take_prefix _ _
  rw [get]
  rw [if_pos hcond]
  rfl

/-- At a branch a lookup goes into one child. -/
theorem get_full_cons (flags : NodeFlag) (hkey : key = pre ++ i :: rest)
    (h : get r fuel (children i) key (pre ++ [i]).length s = (.ok (v, nn, did), s')) :
    get r (fuel + 1) (.full children flags) key pre.length s =
      (.ok (v, .full (if did then Node.setChild children i nn else children) flags, did), s') := by
  have hget : key[pre.length]? = some i := by
    subst hkey
    simp
  rw [length_append, length_singleton] at h
  rw [get]
  simp only [hget]
  rw [TrieM.bind_ok h]
  cases did <;> rfl

/-- An unloaded node is loaded before the lookup. -/
theorem get_hash (hkey : key = pre ++ rest) (h1 : resolveAndTrack r h pre s = (.ok rn, s'))
    (h2 : get r fuel rn key pre.length s' = (.ok (v, nn, did), s'')) :
    get r (fuel + 1) (.hash h) key pre.length s = (.ok (v, nn, true), s'') := by
  have htake : key.take pre.length = pre := by
    subst hkey
    simp
  rw [get]
  simp only [htake]
  rw [TrieM.bind_ok h1, TrieM.bind_ok h2]
  rfl

/-- An edge is deleted with its only value. -/
theorem delete_short_self :
    delete r (fuel + 1) (.short k val flags) pre k s = (.ok (true, .nil), s.onDelete pre) := by
  have hlen : prefixLen k k = k.length := by
    simpa using prefixLen_self_append k []
  rw [delete]
  simp only [hlen, lt_irrefl, if_false, if_true]
  rfl

/-- A key without the label of an edge is not deleted. -/
theorem delete_short_other (h : ¬ k <+: key) :
    delete r (fuel + 1) (.short k val flags) pre key s = (.ok (false, .short k val flags), s) := by
  rw [delete]
  simp only [if_pos (prefixLen_lt h)]
  rfl

/-- An edge is merged with the one that is left below it. -/
theorem delete_short_append {child : Node} (flags : NodeFlag) (hrest : rest ≠ [])
    (h : delete r fuel val (pre ++ k) rest s = (.ok (dirty, child), s')) :
    delete r (fuel + 1) (.short k val flags) pre (k ++ rest) s =
      if dirty then
        match child with
        | .short ckey cval _ =>
          (.ok (true, .short (k ++ ckey) cval newFlag), s'.onDelete (pre ++ k))
        | child => (.ok (true, .short k child newFlag), s')
      else (.ok (false, .short k val flags), s') := by
  have hne : ¬ k.length = (k ++ rest).length := by simpa using hrest
  rw [delete]
  simp only [prefixLen_self_append, lt_irrefl, if_false, if_neg hne, take_left, drop_left]
  rw [TrieM.bind_ok h]
  cases dirty with
  | false => rfl
  | true => cases child <;> rfl

/-- A branch that loses a child is reduced. -/
theorem delete_full_cons (flags : NodeFlag)
    (h : delete r fuel (children i) (pre ++ [i]) rest s = (.ok (dirty, nn), s')) :
    delete r (fuel + 1) (.full children flags) pre (i :: rest) s =
      if dirty then
        if nn.isNil then reduce r (Node.setChild children i nn) pre s'
        else (.ok (true, .full (Node.setChild children i nn) newFlag), s')
      else (.ok (false, .full children flags), s') := by
  rw [delete]
  simp only
  rw [TrieM.bind_ok h]
  cases dirty with
  | false => rfl
  | true => cases nn.isNil <;> rfl

/-- An unloaded node is loaded before the deletion. -/
theorem delete_hash (h1 : resolveAndTrack r h pre s = (.ok rn, s'))
    (h2 : delete r fuel rn pre key s' = (.ok (dirty, nn), s'')) :
    delete r (fuel + 1) (.hash h) pre key s = (.ok (dirty, if dirty then nn else rn), s'') := by
  rw [delete]
  rw [TrieM.bind_ok h1, TrieM.bind_ok h2]
  cases dirty <;> rfl

/-- What the loop over the children finds. -/
theorem onlyChild_spec (children : Nibble → Node) (pos : Int) (hpos : pos = -1 ∨ 0 ≤ pos)
    (l : List Nibble) :
    (onlyChild children pos l = pos ∧ ∀ i ∈ l, children i = .nil) ∨
    (pos = -1 ∧ ∃ i ∈ l, onlyChild children pos l = i.val ∧ children i ≠ .nil ∧
      (l.Nodup → ∀ j ∈ l, children j ≠ .nil → j = i)) ∨
    (onlyChild children pos l = -2 ∧ ∃ i ∈ l, children i ≠ .nil ∧
      (pos = -1 → l.Nodup → ∃ j ∈ l, j ≠ i ∧ children j ≠ .nil)) := by
  induction l generalizing pos with
  | nil => exact .inl ⟨rfl, by simp⟩
  | cons i l ih =>
    by_cases hi : children i = .nil
    · have hstep : onlyChild children pos (i :: l) = onlyChild children pos l := by
        rw [onlyChild, if_pos (Node.isNil_iff.mpr hi)]
      rw [hstep]
      rcases ih pos hpos with ⟨h1, h2⟩ | ⟨hp, j, hj, h1, h2, h3⟩ | ⟨h1, j, hj, h2, h3⟩
      · exact .inl ⟨h1, by simpa [hi] using h2⟩
      · refine .inr (.inl ⟨hp, j, mem_cons_of_mem _ hj, h1, h2, fun hnd x hx hxn => ?_⟩)
        rcases mem_cons.mp hx with rfl | hx
        · exact absurd hi hxn
        · exact h3 (nodup_cons.mp hnd).2 x hx hxn
      · refine .inr (.inr ⟨h1, j, mem_cons_of_mem _ hj, h2, fun hp hnd => ?_⟩)
        obtain ⟨x, hx, hne, hxn⟩ := h3 hp (nodup_cons.mp hnd).2
        exact ⟨x, mem_cons_of_mem _ hx, hne, hxn⟩
    · have hnil : ¬ (children i).isNil = true := fun h => hi (Node.isNil_iff.mp h)
      by_cases hp : pos = -1
      · have hstep : onlyChild children pos (i :: l) = onlyChild children i.val l := by
          rw [onlyChild, if_neg hnil, if_pos hp]
        rw [hstep]
        rcases ih i.val (.inr (by omega)) with ⟨h1, h2⟩ | ⟨hbad, -⟩ | ⟨h1, j, hj, h2, h3⟩
        · refine .inr (.inl ⟨hp, i, by simp, h1, hi, fun _ x hx hxn => ?_⟩)
          rcases mem_cons.mp hx with rfl | hx
          · rfl
          · exact absurd (h2 x hx) hxn
        · omega
        · refine .inr (.inr ⟨h1, i, by simp, hi, fun _ hnd => ?_⟩)
          refine ⟨j, mem_cons_of_mem _ hj, ?_, h2⟩
          rintro rfl
          exact (nodup_cons.mp hnd).1 hj
      · have hstep : onlyChild children pos (i :: l) = -2 := by
          rw [onlyChild, if_neg hnil, if_neg hp]
        exact .inr (.inr ⟨hstep, i, by simp, hi, fun h => absurd h hp⟩)

end Steps

/-! ## tries -/

/-- `Trie`. -/
structure Trie where
  root : Node
  owner : Hash
  committed : Bool
  unhashed : Nat
  reader : TrieReader
  tracer : Tracer

/-- `ID`: the state and the trie a trie belongs to. -/
structure ID where
  stateRoot : Hash
  owner : Hash
  root : Hash

/-- `types.EmptyRootHash`. -/
def emptyRootHash : Hash :=
  ⟨[0x56, 0xe8, 0x1f, 0x17, 0x1b, 0xcc, 0x55, 0xa6, 0xff, 0x83, 0x45, 0xe6, 0x92, 0xc0, 0xf8, 0x6e,
    0x5b, 0x48, 0xe0, 0x1b, 0x99, 0x6c, 0xad, 0xc0, 0x01, 0x62, 0x2f, 0xb5, 0xe3, 0x63, 0xb4, 0x21],
    rfl⟩

/-- The budget that suffices for a key of the given length: every digit takes
at most one step into a child and one to load it. -/
def budget (key : Hex) : Nat := 2 * key.length + 2

/-- `newTrieReader`; `db` is `Database.Reader`. -/
def newTrieReader (stateRoot owner : Hash) (db : Hash → Option Reader) :
    Except TrieError TrieReader :=
  if stateRoot = Hash.zero ∨ stateRoot = emptyRootHash then .ok ⟨owner, none⟩
  else
    match db stateRoot with
    | none => .error (.missingNode owner stateRoot [])
    | some reader => .ok ⟨owner, some reader⟩

namespace Trie

/-- `New`. -/
def new (id : ID) (db : Hash → Option Reader) : Except TrieError Trie :=
  match newTrieReader id.stateRoot id.owner db with
  | .error e => .error e
  | .ok reader =>
    if id.root ≠ Hash.zero ∧ id.root ≠ emptyRootHash then
      match resolveAndTrack reader id.root [] Tracer.new with
      | (.error e, _) => .error e
      | (.ok rootnode, tracer) => .ok ⟨rootnode, id.owner, false, 0, reader, tracer⟩
    else .ok ⟨.nil, id.owner, false, 0, reader, Tracer.new⟩

/-- `Trie.Get`. -/
def get (t : Trie) (key : Bytes) : Except TrieError (Option Bytes) × Trie :=
  if t.committed then (.error .committed, t)
  else
    let k := keybytesToHex key
    match GoQrl.Mpt.get t.reader (budget k) t.root k 0 t.tracer with
    | (.error e, tracer) => (.error e, { t with tracer := tracer })
    | (.ok (value, newroot, didResolve), tracer) =>
      (.ok value, { t with root := if didResolve then newroot else t.root, tracer := tracer })

/-- Runs an operation that returns a new root. -/
def modifyRoot (t : Trie) (op : TrieM (Bool × Node)) : Except TrieError Unit × Trie :=
  match op t.tracer with
  | (.error e, tracer) => (.error e, { t with tracer := tracer })
  | (.ok (_, n), tracer) => (.ok (), { t with root := n, tracer := tracer })

/-- `Trie.update`, the unexported half of `Trie.Update`. -/
def updateRoot (t : Trie) (key value : Bytes) : Except TrieError Unit × Trie :=
  let t := { t with unhashed := t.unhashed + 1 }
  let k := keybytesToHex key
  if value.length ≠ 0 then
    t.modifyRoot (insert t.reader (budget k) t.root [] k (.value value))
  else t.modifyRoot (GoQrl.Mpt.delete t.reader (budget k) t.root [] k)

/-- `Trie.Update`. -/
def update (t : Trie) (key value : Bytes) : Except TrieError Unit × Trie :=
  if t.committed then (.error .committed, t) else t.updateRoot key value

/-- `Trie.Delete`. -/
def delete (t : Trie) (key : Bytes) : Except TrieError Unit × Trie :=
  if t.committed then (.error .committed, t)
  else
    let k := keybytesToHex key
    { t with unhashed := t.unhashed + 1 }.modifyRoot
      (GoQrl.Mpt.delete t.reader (budget k) t.root [] k)

variable [Keccak]

/-- `Trie.hashRoot`. -/
def hashRoot (t : Trie) : Collapsed × Node :=
  if t.root.isNil then (.hash emptyRootHash, .nil) else GoQrl.Mpt.hash t.root true

/-- `Trie.Hash`; the assertion that the root is a hash panics otherwise. -/
def hash (t : Trie) : Except TrieError Hash × Trie :=
  let (hashed, cached) := t.hashRoot
  let t := { t with root := cached, unhashed := if t.root.isNil then t.unhashed else 0 }
  match hashed.asHash with
  | none => (.error .panicked, t)
  | some h => (.ok h, t)

end Trie

end GoQrl.Mpt
