import GoQrl.Trie.Trie

/-!
# GoQrl.Trie.Committer

Committing a trie: the node sets of `trie/trienode/node.go`, the committer of
`trie/committer.go` and `Trie.Commit`.
-/

namespace GoQrl.Mpt

/-! ## node sets -/

/-- `trienode.Node`: the zero hash marks a deleted node. -/
structure TrieNode where
  hash : Hash
  blob : Bytes
  deriving DecidableEq

/-- `trienode.NewDeleted`. -/
def TrieNode.deleted : TrieNode := ⟨Hash.zero, []⟩

/-- `Node.IsDeleted`. -/
def TrieNode.isDeleted (n : TrieNode) : Bool := n.hash = Hash.zero

/-- `trienode.NodeSet`: the changed nodes by path, the collected leaves with the
hashes of their parents, and the numbers of updates and deletions. -/
structure NodeSet where
  owner : Hash
  leaves : List (Bytes × Hash)
  nodes : Hex → Option TrieNode
  updates : Nat
  deletes : Nat

namespace NodeSet

/-- `NewNodeSet`. -/
def new (owner : Hash) : NodeSet := ⟨owner, [], fun _ => none, 0, 0⟩

/-- `NodeSet.AddNode`. -/
def addNode (set : NodeSet) (path : Hex) (n : TrieNode) : NodeSet :=
  { set with
    nodes := Function.update set.nodes path (some n)
    updates := if n.isDeleted then set.updates else set.updates + 1
    deletes := if n.isDeleted then set.deletes + 1 else set.deletes }

/-- `NodeSet.AddLeaf`. -/
def addLeaf (set : NodeSet) (parent : Hash) (blob : Bytes) : NodeSet :=
  { set with leaves := set.leaves ++ [(blob, parent)] }

@[simp] theorem addNode_nodes (set : NodeSet) (path : Hex) (n : TrieNode) :
    (set.addNode path n).nodes = Function.update set.nodes path (some n) := rfl

@[simp] theorem addLeaf_nodes (set : NodeSet) (parent : Hash) (blob : Bytes) :
    (set.addLeaf parent blob).nodes = set.nodes := rfl

/-- The loop that adds the deleted paths. -/
def addDeleted (set : NodeSet) (paths : List Hex) : NodeSet :=
  paths.foldl (fun set path => set.addNode path .deleted) set

theorem addDeleted_nodes (set : NodeSet) (paths : List Hex) (p : Hex) :
    (set.addDeleted paths).nodes p = if p ∈ paths then some .deleted else set.nodes p := by
  induction paths generalizing set with
  | nil => simp [addDeleted]
  | cons path paths ih =>
    have hstep : set.addDeleted (path :: paths) = (set.addNode path .deleted).addDeleted paths :=
      rfl
    rw [hstep, ih]
    by_cases hmem : p ∈ paths
    · simp [hmem]
    · by_cases hp : p = path
      · simp [hp]
      · simp [hmem, hp]

end NodeSet

/-! ## the committer -/

namespace Committer

variable (access : Hex → Option Bytes) (collectLeaf : Bool)

/-- `committer.store`: `hash` is the cached hash of the collapsed node `n`. -/
def store (path : Hex) (n : Collapsed) (hash : Option Hash) (set : NodeSet) : Collapsed × NodeSet :=
  match hash with
  | none =>
    -- an embedded node replaces whatever was stored under its path
    (n, if (access path).isSome then set.addNode path .deleted else set)
  | some h =>
    let set := set.addNode path ⟨h, n.nodeToBytes⟩
    match collectLeaf, n with
    | true, .short _ (.value v) => (.hash h, set.addLeaf h v)
    | _, _ => (.hash h, set)

/-- The loop of `committer.commitChildren`: `commit` is the recursive call on a child. -/
def commitChildren (children : Nibble → Node)
    (commit : Nibble → NodeSet → Except TrieError (Collapsed × NodeSet)) :
    List Nibble → (Nibble → Collapsed) → NodeSet → Except TrieError ((Nibble → Collapsed) × NodeSet)
  | [], kids, set => .ok (kids, set)
  | i :: rest, kids, set =>
    match children i with
    | .nil => commitChildren children commit rest kids set
    | .hash h => commitChildren children commit rest (Function.update kids i (.hash h)) set
    | _ =>
      match commit i set with
      | .error e => .error e
      | .ok (kid, set) => commitChildren children commit rest (Function.update kids i kid) set

/-- `committer.commit`. -/
def commit : Hex → Node → NodeSet → Except TrieError (Collapsed × NodeSet)
  | path, .short key val flags, set =>
    match flags.hash, flags.dirty with
    | some h, false => .ok (.hash h, set)
    | hash, _ =>
      match val with
      | .full children cflags =>
        match commit (path ++ key) (.full children cflags) set with
        | .error e => .error e
        | .ok (kid, set) =>
          .ok (store access collectLeaf path (.short (hexToCompact key) kid) hash set)
      | val => .ok (store access collectLeaf path (.short (hexToCompact key) val.asIs) hash set)
  | path, .full children flags, set =>
    match flags.hash, flags.dirty with
    | some h, false => .ok (.hash h, set)
    | hash, _ =>
      match commitChildren children (fun i set => commit (path ++ [i]) (children i) set)
          ((List.finRange 16).map Fin.castSucc) (fun _ => .nil) set with
      | .error e => .error e
      | .ok (kids, set) =>
        let kids := if (children term).isNil then kids
          else Function.update kids term (children term).asIs
        .ok (store access collectLeaf path (.full kids) hash set)
  | _, .hash h, set => .ok (.hash h, set)
  | _, .nil, _ => .error .panicked
  | _, .value _, _ => .error .panicked

end Committer

namespace Trie

variable [Keccak]

/-- `Trie.Commit`: the root hash and the changed nodes.  The trie is unusable
afterwards. -/
def commit (t : Trie) (collectLeaf : Bool) :
    Except TrieError (GoQrl.Hash × Option NodeSet) × Trie :=
  let finish := fun (t : Trie) => { t with committed := true, tracer := Tracer.new }
  let paths := t.tracer.deletedNodes
  if t.root.isNil then
    if paths.length = 0 then (.ok (emptyRootHash, none), finish t)
    else (.ok (emptyRootHash, some ((NodeSet.new t.owner).addDeleted paths)), finish t)
  else
    match t.hash with
    | (.error e, t) => (.error e, finish t)
    | (.ok rootHash, t) =>
      match t.root.cache with
      | (hashedNode, false) =>
        let root := match hashedNode with
          | some h => Node.hash h
          | none => .nil
        (.ok (rootHash, none), finish { t with root := root })
      | (_, true) =>
        let nodes := (NodeSet.new t.owner).addDeleted paths
        match Committer.commit t.tracer.accessList collectLeaf [] t.root nodes with
        | .error e => (.error e, finish t)
        | .ok (.hash h, nodes) => (.ok (rootHash, some nodes), finish { t with root := .hash h })
        | .ok (_, _) => (.error .panicked, finish t)

end Trie

end GoQrl.Mpt
