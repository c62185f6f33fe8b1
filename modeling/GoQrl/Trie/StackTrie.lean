import GoQrl.Trie.Trie

/-!
# GoQrl.Trie.StackTrie

The append-only trie of `trie/stacktrie.go`.  It expects its keys in increasing
order, hashes every subtree as soon as no further key can reach it, and hands
the encoding of each hashed node to a write function.

A node here is a value: the pool that recycles node objects hands out objects
that are reset, and no object is shared, so it has no effect on the result.
The calls of the write function are collected in a list.
-/

namespace GoQrl.Mpt

/-! ## the stack trie -/

/-- A call of the `NodeWriteFunc`. -/
structure NodeWrite where
  owner : Hash
  path : Hex
  hash : Hash
  blob : Bytes
  deriving DecidableEq

/-- A node of the stack trie: `nil` is a missing child, the others are the node
types of the source. -/
inductive StackNode
  | nil
  | empty
  | branch (children : Nibble → StackNode)
  | ext (key : Hex) (child : StackNode)
  | leaf (key : Hex) (val : Bytes)
  | hashed (val : Bytes)

namespace StackNode

/-- `child == nil`. -/
def isNil : StackNode → Bool
  | nil => true
  | _ => false

/-- `nodeType == hashedNode`. -/
def isHashed : StackNode → Bool
  | hashed _ => true
  | _ => false

/-- `getDiffIndex`: the first index at which the chunk differs from the key;
the key must not end before. -/
def getDiffIndex : Hex → Hex → Except TrieError Nat
  | [], _ => .ok 0
  | _ :: _, [] => .error .panicked
  | a :: chunk, b :: key => if a ≠ b then .ok 0 else (getDiffIndex chunk key).map (· + 1)

/-- How a parent refers to a hashed child: `rawNode` for a small encoding, else
`hashNode`, which is encoded like any byte string. -/
def childRef (val : Bytes) : Collapsed := if val.length < 32 then .raw val else .value val

section Hashing

variable [Keccak] (owner : Hash)

/-- The end of `hashRec`: the new `val` of a node with the given encoding, and
the call of the write function for a large one. -/
def finish (path : Hex) (encodedNode : Bytes) : Bytes × List NodeWrite :=
  if encodedNode.length < 32 then (encodedNode, [])
  else
    let hash := Keccak.hash encodedNode
    (hash.bytes, [⟨owner, path, hash, encodedNode⟩])

/-- The loop of `hashRec` over the children; `hashRec` is the recursive call. -/
def hashKids (children : Nibble → StackNode)
    (hashRec : Nibble → Except TrieError (Bytes × List NodeWrite)) :
    List Nibble → (Nibble → Collapsed) → List NodeWrite →
      Except TrieError ((Nibble → Collapsed) × List NodeWrite)
  | [], nodes, writes => .ok (nodes, writes)
  | i :: rest, nodes, writes =>
    if (children i).isNil then
      hashKids children hashRec rest (Function.update nodes i (.value [])) writes
    else
      match hashRec i with
      | .error e => .error e
      | .ok (val, new) =>
        hashKids children hashRec rest (Function.update nodes i (childRef val)) (writes ++ new)

/-- `hashRec`: the `val` of the node once it is hashed, and the nodes written. -/
def hashRec : StackNode → Hex → Except TrieError (Bytes × List NodeWrite)
  | hashed val, _ => .ok (val, [])
  | empty, _ => .ok (emptyRootHash.bytes, [])
  | branch children, path =>
    match hashKids children (fun i => hashRec (children i) (path ++ [i]))
        ((List.finRange 16).map Fin.castSucc) (fun _ => .nil) [] with
    | .error e => .error e
    | .ok (nodes, writes) =>
      let (val, own) := finish owner path (Collapsed.full nodes).nodeToBytes
      .ok (val, writes ++ own)
  | ext key child, path =>
    match hashRec child (path ++ key) with
    | .error e => .error e
    | .ok (cval, writes) =>
      let n := Collapsed.short (hexToCompactInPlace (key.map Nibble.toByte)) (childRef cval)
      let (val, own) := finish owner path n.nodeToBytes
      .ok (val, writes ++ own)
  | leaf key val, path =>
    let n := Collapsed.short (hexToCompactInPlace ((key ++ [term]).map Nibble.toByte)) (.value val)
    .ok (finish owner path n.nodeToBytes)
  | nil, _ => .error .panicked

/-- `hash`: the hashed node. -/
def hash (st : StackNode) (path : Hex) : Except TrieError (StackNode × List NodeWrite) :=
  match hashRec owner st path with
  | .error e => .error e
  | .ok (val, writes) => .ok (hashed val, writes)

/-- The search of `insert` for the nearest elder sibling. -/
def elder (children : Nibble → StackNode) : Nat → Option Nibble
  | 0 => none
  | i + 1 =>
    if h : i < 17 then
      if (children ⟨i, h⟩).isNil then elder children i else some ⟨i, h⟩
    else elder children i

/-- Hash the nearest elder sibling, unless it is hashed already. -/
def hashElder (children : Nibble → StackNode) (idx : Nibble) (pre : Hex) :
    Except TrieError ((Nibble → StackNode) × List NodeWrite) :=
  match elder children idx.val with
  | none => .ok (children, [])
  | some i =>
    if (children i).isHashed then .ok (children, [])
    else
      match hash owner (children i) (pre ++ [i]) with
      | .error e => .error e
      | .ok (h, writes) => .ok (Function.update children i h, writes)

/-- The two children of a new branching node. -/
def fork (origIdx : Nibble) (n : StackNode) (newIdx : Nibble) (o : StackNode) : StackNode :=
  branch (Function.update (Function.update (fun _ => nil) origIdx n) newIdx o)

/-- `insert`. -/
def insert : StackNode → Hex → Bytes → Hex → Except TrieError (StackNode × List NodeWrite)
  | branch children, key, value, pre =>
    match key with
    | [] => .error .panicked
    | idx :: rest =>
      if idx = term then .error .panicked
      else
        match hashElder owner children idx pre with
        | .error e => .error e
        | .ok (children', writes) =>
          if (children idx).isNil then
            .ok (branch (Function.update children' idx (leaf rest value)), writes)
          else
            match insert (children idx) rest value (pre ++ [idx]) with
            | .error e => .error e
            | .ok (child, new) =>
              .ok (branch (Function.update children' idx child), writes ++ new)
  | ext skey child, key, value, pre =>
    match getDiffIndex skey key with
    | .error e => .error e
    | .ok diffidx =>
      if diffidx = skey.length then
        match insert child (key.drop diffidx) value (pre ++ key.take diffidx) with
        | .error e => .error e
        | .ok (child, writes) => .ok (ext skey child, writes)
      else
        -- the original part below the differing digit
        let orig :=
          if diffidx < skey.length - 1 then
            hash owner (ext (skey.drop (diffidx + 1)) child) (pre ++ skey.take (diffidx + 1))
          else hash owner child (pre ++ skey)
        match orig, skey[diffidx]?, key[diffidx]? with
        | .ok (n, writes), some origIdx, some newIdx =>
          if origIdx = term ∨ newIdx = term then .error .panicked
          else
            let p := fork origIdx n newIdx (leaf (key.drop (diffidx + 1)) value)
            .ok (if diffidx = 0 then p else ext (skey.take diffidx) p, writes)
        | .error e, _, _ => .error e
        | _, _, _ => .error .panicked
  | leaf skey val, key, value, pre =>
    match getDiffIndex skey key with
    | .error e => .error e
    | .ok diffidx =>
      -- "Trying to insert into existing key"
      if diffidx ≥ skey.length then .error .panicked
      else
        match hash owner (leaf (skey.drop (diffidx + 1)) val) (pre ++ skey.take (diffidx + 1)),
            skey[diffidx]?, key[diffidx]? with
        | .ok (n, writes), some origIdx, some newIdx =>
          if origIdx = term ∨ newIdx = term then .error .panicked
          else
            let p := fork origIdx n newIdx (leaf (key.drop (diffidx + 1)) value)
            .ok (if diffidx = 0 then p else ext (skey.take diffidx) p, writes)
        | .error e, _, _ => .error e
        | _, _, _ => .error .panicked
  | empty, key, value, _ => .ok (leaf key value, [])
  | hashed _, _, _, _ => .error .panicked
  | nil, _, _, _ => .error .panicked

end Hashing

end StackNode

/-- `StackTrie` with a write function; `writes` are the calls made so far. -/
structure StackTrie where
  owner : Hash
  root : StackNode
  writes : List NodeWrite

namespace StackTrie

/-- `NewStackTrieWithOwner`. -/
def new (owner : Hash) : StackTrie := ⟨owner, .empty, []⟩

variable [Keccak]

/-- `StackTrie.Update`; an empty value is a panic: "deletion not supported". -/
def update (st : StackTrie) (key value : Bytes) : Except TrieError StackTrie :=
  if value.length = 0 then .error .panicked
  else
    match st.root.insert st.owner (keybytesToHex key).dropLast value [] with
    | .error e => .error e
    | .ok (root, new) => .ok { st with root := root, writes := st.writes ++ new }

/-- `StackTrie.Update` over a list of pairs. -/
def updateAll (st : StackTrie) : List (Slice × Slice) → Except TrieError StackTrie
  | [] => .ok st
  | (key, value) :: rest =>
    match st.update key.bytes value.bytes with
    | .error e => .error e
    | .ok st => st.updateAll rest

/-- `StackTrie.Commit`: the root hash, with the calls of the write function. -/
def commit (st : StackTrie) : Except TrieError (Hash × StackTrie) :=
  match st.root.hashRec st.owner [] with
  | .error e => .error e
  | .ok (val, new) =>
    if h : val.length = 32 then
      .ok (⟨val, h⟩, { st with root := .hashed val, writes := st.writes ++ new })
    else
      -- the small root is hashed and written all the same
      let root := Keccak.hash val
      .ok (root, { st with root := .hashed val
                           writes := st.writes ++ new ++ [⟨st.owner, [], root, val⟩] })

end StackTrie

end GoQrl.Mpt
