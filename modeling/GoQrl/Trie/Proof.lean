import GoQrl.Trie.StackTrie

/-!
# GoQrl.Trie.Proof

The Merkle proofs and range proofs of `trie/proof.go`.

The loops that follow hashes into a proof database take a budget, since nothing
in the source bounds them; the others recurse on the node.  The source edits
resolved nodes in place.  Every node it edits has one parent, so the functions
here return the edited node and the caller puts it into its place.
-/

namespace GoQrl.Mpt

open Rlp

/-! ## proof databases -/

/-- A `qrldb.KeyValueReader` that is asked for hashes. -/
abbrev ProofDb := Hash → Option Bytes

/-- The errors of proof verification. -/
inductive ProofError
  /-- "proof node %d (hash %064x) missing" -/
  | missingElement (i : Nat) (hash : Hash)
  /-- "bad proof node %d: %v" -/
  | badElement (i : Nat) (err : DecodeError)
  /-- "proof node (hash %064x) missing" -/
  | missing (hash : Hash)
  /-- "bad proof node %v" -/
  | bad (err : DecodeError)
  /-- "the node is not contained in trie" -/
  | notContained
  /-- "empty range" -/
  | emptyRange
  /-- "inconsistent proof data, keys: %d, values: %d" -/
  | inconsistentData (keys values : Nat)
  /-- "range is not monotonically increasing" -/
  | notIncreasing
  /-- "range contains deletion" -/
  | deletion
  /-- "invalid proof, want hash %x, got %x" -/
  | invalidProof (want got : Hash)
  /-- "more entries available" -/
  | moreEntries
  /-- "correct proof but invalid key" -/
  | invalidKey
  /-- "correct proof but invalid data" -/
  | invalidData
  /-- "invalid edge keys" -/
  | invalidEdges
  /-- "inconsistent edge keys" -/
  | inconsistentEdges
  /-- a Go panic -/
  | panicked
  /-- The evaluation budget of the model is used up; not an error of the source. -/
  | outOfFuel

namespace Proof

/-- `get`: the child of the node on the way to the key and what is left of the
key.  With `skipResolved` it goes on to the first node that is not loaded. -/
def get : Node → Hex → Bool → Except ProofError (Hex × Node)
  | .short nkey val _, key, skipResolved =>
    if key.length < nkey.length ∨ nkey ≠ key.take nkey.length then .ok ([], .nil)
    else if skipResolved then get val (key.drop nkey.length) skipResolved
    else .ok (key.drop nkey.length, val)
  | .full children _, key, skipResolved =>
    match key with
    | [] => .error .panicked
    | i :: rest =>
      if skipResolved then get (children i) rest skipResolved else .ok (rest, children i)
  | .hash h, key, _ => .ok (key, .hash h)
  | .nil, key, _ => .ok (key, .nil)
  | .value v, _, _ => .ok ([], .value v)

/-! ## single proofs -/

/-- The first loop of `Trie.Prove`: the loaded nodes on the way to the key. -/
def pathNodes (r : TrieReader) : Nat → Node → Hex → Hex → Except TrieError (List Node)
  | 0, _, _, _ => .error .outOfFuel
  | fuel + 1, tn, pre, key =>
    if key.length = 0 ∨ tn.isNil then .ok []
    else
      match tn with
      | .short nkey val flags =>
        if key.length < nkey.length ∨ nkey ≠ key.take nkey.length then
          .ok [.short nkey val flags]
        else (pathNodes r fuel val (pre ++ nkey) (key.drop nkey.length)).map
          (.short nkey val flags :: ·)
      | .full children flags =>
        match key with
        | [] => .error .panicked
        | i :: rest => (pathNodes r fuel (children i) (pre ++ [i]) rest).map
            (.full children flags :: ·)
      | .hash h =>
        match r.node pre h with
        | .error e => .error e
        | .ok blob =>
          match decodeNode (some h) blob with
          | .error _ => .error .panicked
          | .ok n => pathNodes r fuel n pre key
      | _ => .error .panicked

variable [Keccak]

/-- The second loop of `Trie.Prove`: the entries for the nodes, where `isRoot`
tells whether the first one is the root. -/
def elements : Bool → List Node → List (Hash × Bytes)
  | _, [] => []
  | isRoot, n :: rest =>
    let (n, hn) := proofHash n
    let enc := n.nodeToBytes
    match hn.asHash with
    | some hash => (hash, enc) :: elements false rest
    | none =>
      if isRoot then (Keccak.hash enc, enc) :: elements false rest else elements false rest

end Proof

/-- `Trie.Prove`: the entries that are put into the proof database. -/
def Trie.prove [Keccak] (t : Trie) (key : Bytes) : Except TrieError (List (Hash × Bytes)) :=
  if t.committed then .error .committed
  else
    let k := keybytesToHex key
    (Proof.pathNodes t.reader (budget k) t.root [] k).map (Proof.elements true)

namespace Proof

/-- The loop of `VerifyProof`. -/
def verifyLoop (proofDb : ProofDb) : Nat → Nat → Hash → Hex → Except ProofError (Option Bytes)
  | 0, _, _, _ => .error .outOfFuel
  | fuel + 1, i, wantHash, key =>
    match proofDb wantHash with
    | none => .error (.missingElement i wantHash)
    | some buf =>
      match decodeNode (some wantHash) buf with
      | .error err => .error (.badElement i err)
      | .ok n =>
        match get n key true with
        | .error e => .error e
        | .ok (keyrest, cld) =>
          match cld with
          | .nil => .ok none
          | .hash h => verifyLoop proofDb fuel (i + 1) h keyrest
          | .value v => .ok (some v)
          | _ => verifyLoop proofDb fuel (i + 1) wantHash key

/-- `VerifyProof`: the value for the key, or none if the trie does not contain it. -/
def verifyProof (fuel : Nat) (rootHash : Hash) (key : Bytes) (proofDb : ProofDb) :
    Except ProofError (Option Bytes) :=
  verifyLoop proofDb fuel 0 rootHash (keybytesToHex key)

/-! ## edge paths -/

/-- `resolveNode`: a node of the proof. -/
def resolveNode (proofDb : ProofDb) (hash : Hash) : Except ProofError Node :=
  match proofDb hash with
  | none => .error (.missing hash)
  | some buf =>
    match decodeNode (some hash) buf with
    | .error err => .error (.bad err)
    | .ok n => .ok n

/-- Links a parent with its child on the way to the key. -/
def link (parent : Node) (key : Hex) (child : Node) : Except ProofError Node :=
  match parent, key with
  | .short nkey _ flags, _ => .ok (.short nkey child flags)
  | .full children flags, i :: _ => .ok (.full (Node.setChild children i child) flags)
  | _, _ => .error .panicked

/-- The loop of `proofToPath`: the parent with the path below it loaded, and the
value at its end. -/
def pathLoop (proofDb : ProofDb) (allowNonExistent : Bool) :
    Nat → Node → Hex → Except ProofError (Node × Option Bytes)
  | 0, _, _ => .error .outOfFuel
  | fuel + 1, parent, key =>
    match get parent key false with
    | .error e => .error e
    | .ok (keyrest, child) =>
      let below := fun (child : Node) =>
        match pathLoop proofDb allowNonExistent fuel child keyrest with
        | .error e => .error e
        | .ok (child, val) => (link parent key child).map (·, val)
      match child with
      | .nil => if allowNonExistent then .ok (parent, none) else .error .notContained
      | .short .. => below child
      | .full .. => below child
      | .hash h =>
        match resolveNode proofDb h with
        | .error e => .error e
        | .ok child => below child
      | .value v =>
        -- past an empty value the source would link a child to a value node
        if v.length > 0 then (link parent key child).map (·, some v) else .error .panicked

/-- `proofToPath`. -/
def proofToPath (fuel : Nat) (rootHash : Hash) (root : Option Node) (key : Bytes)
    (proofDb : ProofDb) (allowNonExistent : Bool) : Except ProofError (Node × Option Bytes) :=
  match root with
  | some root => pathLoop proofDb allowNonExistent fuel root (keybytesToHex key)
  | none =>
    match resolveNode proofDb rootHash with
    | .error e => .error e
    | .ok root => pathLoop proofDb allowNonExistent fuel root (keybytesToHex key)

/-! ## removing a range -/

/-- `bytes.Compare`. -/
def compare {α : Type} [LT α] [DecidableLT α] [DecidableEq α] (a b : List α) : Int :=
  if a < b then -1 else if a = b then 0 else 1

/-- The children with those from `lo` to `hi` set to nil. -/
def clear (children : Nibble → Node) (lo hi : Nat) : Nibble → Node :=
  fun i => if lo ≤ i.val ∧ i.val < hi then .nil else children i

/-- Sets the child of the parent to nil: the type assertion on the parent fails
unless it is a branching node. -/
def dropChild (parentIsFull : Bool) : Except ProofError Node :=
  if parentIsFull then .ok .nil else .error .panicked

/-- `unset`: the child after the nodes to one side of the key are removed; `key`
is the part of the key from `pos` on. -/
def unset (removeLeft : Bool) : Bool → Node → Hex → Except ProofError Node
  | _, .full children _, key =>
    match key with
    | [] => .error .panicked
    | i :: rest =>
      let cleared := if removeLeft then clear children 0 i.val else clear children (i.val + 1) 16
      -- the child at `i` is not among the cleared ones
      (unset removeLeft true (children i) rest).map fun child =>
        .full (Node.setChild cleared i child) newFlag
  | parentIsFull, .short nkey val flags, key =>
    if key.length < nkey.length ∨ nkey ≠ key.take nkey.length then
      if removeLeft then
        if compare nkey key < 0 then dropChild parentIsFull else .ok (.short nkey val flags)
      else
        if compare nkey key > 0 then dropChild parentIsFull else .ok (.short nkey val flags)
    else
      match val with
      | .value _ => dropChild parentIsFull
      | val => (unset removeLeft false val (key.drop nkey.length)).map (.short nkey · newFlag)
  | _, .nil, _ => .ok .nil
  | _, .hash _, _ => .error .panicked
  | _, .value _, _ => .error .panicked

/-- `leftnode != rightnode` for two children that are not nil: nodes are
pointers, and comparing two hash or value nodes panics. -/
def differ (left right : Node) (sameIndex : Bool) : Except ProofError Bool :=
  match left, right with
  | .hash _, .hash _ => .error .panicked
  | .value _, .value _ => .error .panicked
  | _, _ => .ok !sameIndex

/-- The fork point is a branching node. -/
def forkFull (children : Nibble → Node) (l : Nibble) (left : Hex) (r : Nibble) (right : Hex) :
    Except ProofError (Bool × Node) :=
  let children := clear children (l.val + 1) r.val
  match unset false true (children l) left with
  | .error e => .error e
  | .ok child =>
    let children := Node.setChild children l child
    match unset true true (children r) right with
    | .error e => .error e
    | .ok child => .ok (false, .full (Node.setChild children r child) newFlag)

/-- Removes the fork point: the whole trie if it is the root. -/
def dropFork (parent : Option Bool) (n : Node) : Except ProofError (Bool × Node) :=
  match parent with
  | none => .ok (true, n)
  | some isFull => (dropChild isFull).map (false, ·)

/-- The fork point is an edge that one of the keys follows. -/
def trimFork (parent : Option Bool) (nkey : Hex) (val : Node) (removeLeft : Bool) (key : Hex) :
    Except ProofError (Bool × Node) :=
  match val with
  | .value v => dropFork parent (.short nkey (.value v) newFlag)
  | val => (unset removeLeft false val (key.drop nkey.length)).map
      fun val => (false, .short nkey val newFlag)

/-- The fork point is an edge; `forkLeft` and `forkRight` compare the two keys with its label. -/
def forkShort (parent : Option Bool) (nkey : Hex) (val : Node) (left right : Hex)
    (forkLeft forkRight : Int) : Except ProofError (Bool × Node) :=
  if forkLeft = -1 ∧ forkRight = -1 then .error .emptyRange
  else if forkLeft = 1 ∧ forkRight = 1 then .error .emptyRange
  else if forkLeft ≠ 0 ∧ forkRight ≠ 0 then dropFork parent (.short nkey val newFlag)
  else if forkRight ≠ 0 then trimFork parent nkey val false left
  else if forkLeft ≠ 0 then trimFork parent nkey val true right
  else .ok (false, .short nkey val newFlag)

/-- `unsetInternal` from the node on, with the parts of the keys that are left.
`parent` tells whether the parent, if there is one, is a branching node.  The
flag of the result says that the whole trie is removed. -/
def unsetFrom : Option Bool → Node → Hex → Hex → Except ProofError (Bool × Node)
  | parent, .short nkey val _, left, right =>
    let forkLeft := compare (left.take nkey.length) nkey
    let forkRight := compare (right.take nkey.length) nkey
    if forkLeft ≠ 0 ∨ forkRight ≠ 0 then
      forkShort parent nkey val left right forkLeft forkRight
    else
      (unsetFrom (some false) val (left.drop nkey.length) (right.drop nkey.length)).map
        fun (empty, val) => (empty, .short nkey val newFlag)
  | _, .full children _, left, right =>
    match left, right with
    | l :: left, r :: right =>
      if (children l).isNil ∨ (children r).isNil then forkFull children l left r right
      else
        match differ (children l) (children r) (l = r) with
        | .error e => .error e
        | .ok true => forkFull children l left r right
        | .ok false =>
          (unsetFrom (some true) (children l) left right).map
            fun (empty, child) => (empty, .full (Node.setChild children l child) newFlag)
    | _, _ => .error .panicked
  | _, .nil, _, _ => .error .panicked
  | _, .hash _, _, _ => .error .panicked
  | _, .value _, _, _ => .error .panicked

/-- `unsetInternal`. -/
def unsetInternal (n : Node) (left right : Bytes) : Except ProofError (Bool × Node) :=
  unsetFrom none n (keybytesToHex left) (keybytesToHex right)

/-- The loop of `hasRightElement`. -/
def hasRight : Node → Hex → Except ProofError Bool
  | .full children _, key =>
    match key with
    | [] => .error .panicked
    | i :: rest =>
      if (List.finRange 17).any fun j => i.val < j.val ∧ j.val < 16 ∧ (children j).isNil = false
      then .ok true
      else hasRight (children i) rest
  | .short nkey val _, key =>
    if key.length < nkey.length ∨ nkey ≠ key.take nkey.length then .ok (compare nkey key > 0)
    else hasRight val (key.drop nkey.length)
  | .value _, _ => .ok false
  | .nil, _ => .ok false
  | .hash _, _ => .error .panicked

/-- `hasRightElement`. -/
def hasRightElement (n : Node) (key : Bytes) : Except ProofError Bool :=
  hasRight n (keybytesToHex key)

end Proof

/-- `StackTrie.Hash`. -/
def StackTrie.hash [Keccak] (st : StackTrie) : Except TrieError Hash :=
  match st.root.hashRec st.owner [] with
  | .error e => .error e
  | .ok (val, _) => if h : val.length = 32 then .ok ⟨val, h⟩ else .ok (Keccak.hash val)

namespace Proof

/-! ## range proofs -/

/-- `Trie.Update` over the pairs, with its errors ignored; a panic is not ignored. -/
def refill (tr : Trie) : List (Slice × Slice) → Except ProofError Trie
  | [] => .ok tr
  | (key, value) :: rest =>
    match tr.update key.bytes value.bytes with
    | (.error .panicked, _) => .error .panicked
    | (.error .outOfFuel, _) => .error .outOfFuel
    | (_, tr) => refill tr rest

/-- A failure of a trie inside the verifier. -/
def raise {α : Type} : Except TrieError α → Except ProofError α
  | .ok a => .ok a
  | .error .outOfFuel => .error .outOfFuel
  | .error _ => .error .panicked

variable [Keccak]

/-- The case without a proof: the pairs are all of the trie. -/
def verifyAll (rootHash : Hash) (pairs : List (Slice × Slice)) : Except ProofError Bool :=
  match raise (((StackTrie.new Hash.zero).updateAll pairs).bind StackTrie.hash) with
  | .error e => .error e
  | .ok got => if got ≠ rootHash then .error (.invalidProof rootHash got) else .ok false

/-- The case without pairs. -/
def verifyNone (fuel : Nat) (rootHash : Hash) (firstKey : Bytes) (proof : ProofDb) :
    Except ProofError Bool :=
  match proofToPath fuel rootHash none firstKey proof true with
  | .error e => .error e
  | .ok (root, val) =>
    if val.isSome then .error .moreEntries
    else
      match hasRightElement root firstKey with
      | .error e => .error e
      | .ok true => .error .moreEntries
      | .ok false => .ok false

/-- The case of one pair with equal edge keys. -/
def verifyOne (fuel : Nat) (rootHash : Hash) (firstKey : Bytes) (key value : Bytes)
    (proof : ProofDb) : Except ProofError Bool :=
  match proofToPath fuel rootHash none firstKey proof false with
  | .error e => .error e
  | .ok (root, val) =>
    if firstKey ≠ key then .error .invalidKey
    else if val.getD [] ≠ value then .error .invalidData
    else hasRightElement root firstKey

/-- The general case: load both edge paths, remove what is between them, insert
the pairs and compare the root hashes. -/
def verifyRange (fuel : Nat) (rootHash : Hash) (firstKey lastKey : Bytes)
    (pairs : List (Slice × Slice)) (proof : ProofDb) : Except ProofError Bool :=
  if compare firstKey lastKey ≥ 0 then .error .invalidEdges
  else if firstKey.length ≠ lastKey.length then .error .inconsistentEdges
  else
    match proofToPath fuel rootHash none firstKey proof true with
    | .error e => .error e
    | .ok (root, _) =>
      match proofToPath fuel rootHash (some root) lastKey proof true with
      | .error e => .error e
      | .ok (root, _) =>
        match unsetInternal root firstKey lastKey with
        | .error e => .error e
        | .ok (empty, root) =>
          let tr : Trie :=
            ⟨if empty then .nil else root, Hash.zero, false, 0, newEmptyReader, Tracer.new⟩
          match refill tr pairs with
          | .error e => .error e
          | .ok tr =>
            match raise tr.hash.1 with
            | .error e => .error e
            | .ok got =>
              if got ≠ rootHash then .error (.invalidProof rootHash got)
              else
                match pairs.getLast? with
                | none => .error .panicked
                | some last => hasRightElement tr.hash.2.root last.1.bytes

/-- The cases of `VerifyRangeProof`. -/
def verifyPairs (fuel : Nat) (rootHash : Hash) (firstKey lastKey : Bytes)
    (pairs : List (Slice × Slice)) : Option ProofDb → Except ProofError Bool
  | none => verifyAll rootHash pairs
  | some proof =>
    match pairs with
    | [] => verifyNone fuel rootHash firstKey proof
    | [(key, value)] =>
      if firstKey = lastKey then verifyOne fuel rootHash firstKey key.bytes value.bytes proof
      else verifyRange fuel rootHash firstKey lastKey [(key, value)] proof
    | pairs => verifyRange fuel rootHash firstKey lastKey pairs proof

/-- `VerifyRangeProof`: whether there are more entries to the right of the range. -/
def verifyRangeProof (fuel : Nat) (rootHash : Hash) (firstKey lastKey : Bytes)
    (keys values : List Slice) (proof : Option ProofDb) : Except ProofError Bool :=
  if keys.length ≠ values.length then .error (.inconsistentData keys.length values.length)
  else if ¬ keys.IsChain (fun a b => compare a.bytes b.bytes < 0) then .error .notIncreasing
  else if ∃ value ∈ values, value.bytes.length = 0 then .error .deletion
  else verifyPairs fuel rootHash firstKey lastKey (keys.zip values) proof

end Proof

end GoQrl.Mpt
