import GoQrl.Trie.Node
import GoQrl.Trie.Tree

/-!
# GoQrl.Trie.Hasher

The hasher of `trie/hasher.go`, and the encoding of a trie without its hashes.

`hash` collapses a live node into its reference: the node itself when its
encoding has fewer than 32 bytes, else the hash of the encoding.  It also
returns the node with the computed hashes cached.  The parallel branch of
`hashFullNodeChildren` computes the same children and is not distinguished.

`Tree.enc` is the encoding that a plain radix tree has, and `Tree.ref` the
reference its parent holds; they are the functions that the hasher computes on
any node that represents the tree.
-/

namespace GoQrl.Mpt

open Rlp

variable [Keccak]

/-! ## the hasher -/

/-- A child that is copied into the collapsed node as it is. -/
def Node.asIs : Node → Collapsed
  | .nil => .nil
  | .full children _ => .full fun i => (children i).asIs
  | .short key val _ => .short (key.map Nibble.toByte) val.asIs
  | .hash h => .hash h
  | .value v => .value v

/-- The hash of a reference, if it is one: `hashed.(hashNode)`. -/
def Collapsed.asHash : Collapsed → Option Hash
  | .hash h => some h
  | _ => none

/-- `shortnodeToHash` and `fullnodeToHash`. -/
def toHash (n : Collapsed) (force : Bool) : Collapsed :=
  let enc := n.nodeToBytes
  if enc.length < 32 ∧ force = false then n else .hash (Keccak.hash enc)

/-- `hasher.hash`, with `hashShortNodeChildren` and `hashFullNodeChildren`: the
collapsed reference and the node with its hashes cached. -/
def hash : Node → Bool → Collapsed × Node
  | .short key val flags, force =>
    match flags.hash with
    | some h => (.hash h, .short key val flags)
    | none =>
      let hashed := toHash (.short (hexToCompact key) (hash val false).1) force
      (hashed, .short key (hash val false).2 { flags with hash := hashed.asHash })
  | .full children flags, force =>
    match flags.hash with
    | some h => (.hash h, .full children flags)
    | none =>
      let hashed := toHash (.full fun i =>
        if i = term then (children i).asIs
        else if (children i).isNil then .value [] else (hash (children i) false).1) force
      let cached := fun i =>
        if i = term ∨ (children i).isNil then children i else (hash (children i) false).2
      (hashed, .full cached { flags with hash := hashed.asHash })
  | .hash h, _ => (.hash h, .hash h)
  | .value v, _ => (.value v, .value v)
  | .nil, _ => (.nil, .nil)

/-- The collapsed form of a node, its children hashed: the first result of
`hashShortNodeChildren` and `hashFullNodeChildren`. -/
def hashChildren : Node → Collapsed
  | .short key val _ => .short (hexToCompact key) (hash val false).1
  | .full children _ => .full fun i =>
    if i = term then (children i).asIs
    else if (children i).isNil then .value [] else (hash (children i) false).1
  | .hash h => .hash h
  | .value v => .value v
  | .nil => .nil

/-- `hasher.proofHash`: the collapsed node, and its hash unless it is small. -/
def proofHash (n : Node) : Collapsed × Collapsed :=
  match n with
  | .short .. => (hashChildren n, toHash (hashChildren n) false)
  | .full .. => (hashChildren n, toHash (hashChildren n) false)
  | n => (hashChildren n, hashChildren n)

/-! ## encodings of plain trees -/

namespace Tree

open Radix.Tree

/-- The reference to a child with encoding `e`: the hash of a large node, else
the encoding itself. -/
def refOf (t : Tree) (e : Bytes) : Bytes :=
  if isNode t ∧ 32 ≤ e.length then encodeString (Keccak.hash e).bytes else e

/-- The encoding of a tree. -/
def enc : Tree → Bytes
  | nil => [0x80]
  | value v => encodeString v
  | short k c => encodeList (encodeString (hexToCompact k) ++ refOf c (enc c))
  | full cs => encodeList ((List.finRange 17).flatMap fun i => refOf (cs i) (enc (cs i)))

/-- The reference that a parent holds to the tree. -/
def ref (t : Tree) : Bytes := refOf t (enc t)

/-- The node hash of a tree. -/
def digest (t : Tree) : Hash := Keccak.hash (enc t)

/-! ## sizes -/

theorem refOf_of_not_node {t : Tree} (h : isNode t = false) (e : Bytes) : refOf t e = e := by
  simp [refOf, h]

/-- References below a branching node are at most one hash long. -/
theorem length_ref_le {t : Tree} (h : t.WF term) : (ref t).length ≤ 33 := by
  unfold ref refOf
  split
  · rw [length_encodeString_hash]
  · next hn =>
    cases t with
    | nil => simp [enc]
    | value v => exact h.elim
    | short | full =>
      simp only [isNode, true_and, not_le] at hn
      omega

theorem length_ref_value (v : Bytes) (h : v.length < 2 ^ 62) :
    (ref (value v : Tree)).length ≤ 2 ^ 62 + 9 := by
  have := length_encodeString_le v (by omega)
  rw [ref, refOf_of_not_node rfl, enc]
  omega

/-- The payload of an edge fits into a `uint64`. -/
theorem Fit.payload_short {k : Hex} {c : Tree} (h : Fit (short k c)) :
    (encodeString (hexToCompact k) ++ ref c).length < 2 ^ 64 := by
  have hk := h.bounded.1
  have hcompact := length_hexToCompact_le k
  have h1 := length_encodeString_le (hexToCompact k) (by omega)
  have h2 : (ref c).length ≤ 2 ^ 62 + 9 := by
    rcases h.wf with ⟨-, hc⟩ | ⟨-, -, hc⟩
    · obtain ⟨v, rfl⟩ := hc.cases
      exact length_ref_value v h.bounded.2.2
    · have := length_ref_le hc
      omega
  rw [List.length_append]
  omega

/-- The payload of a branching node fits into a `uint64`. -/
theorem Fit.payload_full {cs : Nibble → Tree} (h : Fit (full cs)) :
    ((List.finRange 17).flatMap fun i => ref (cs i)).length < 2 ^ 64 := by
  have h1 : (((List.finRange 16).map Fin.castSucc).flatMap fun i => ref (cs i)).length ≤
      ((List.finRange 16).map Fin.castSucc).length * 33 := by
    refine length_flatMap_le _ _ _ fun i hi => ?_
    obtain ⟨j, -, rfl⟩ := List.mem_map.mp hi
    exact length_ref_le (h.wf.2 _ (castSucc_ne_term j))
  have h2 : (ref (cs term)).length ≤ 2 ^ 62 + 9 := by
    rcases h.wf.1.cases with hc | ⟨v, hc⟩
    · rw [hc]
      exact le_trans (length_ref_le trivial) (by norm_num)
    · have hb := h.bounded.2 term
      rw [hc] at hb ⊢
      exact length_ref_value v hb.2
  rw [finRange_eq, List.flatMap_append, List.length_append]
  simp only [List.length_map, List.length_finRange, List.flatMap_cons, List.flatMap_nil,
    List.append_nil] at h1 ⊢
  omega

end Tree

end GoQrl.Mpt
