import GoQrl.PathDb.Readable
import GoQrl.Trie.Range

/-!
# GoQrl.PathDb.Tries

Tries over a path database.

A block opens the trie of its parent, runs calls, commits, and updates the database with the nodes
(`Blocks`); in between the database is read and committed, and its cache drops what it likes.  Every
state that is kept opens, with what its own line of blocks has written (`Blocks.trieAt_kept`).
-/

namespace GoQrl.PathDb

open Mpt Mpt.Tree Overlay Function Option Database

section Blocks

variable [Keccak]

/-- `Database.Reader`. -/
def Database.reader (db : Database) (root : Hash) : Option Reader :=
  (db.get root).map fun _ owner path hash => (db.readNode root owner path hash).1.toOption

/-- The account trie of a state. -/
def Database.trieAt (db : Database) (root : Hash) : Except TrieError Trie :=
  Trie.new ⟨root, Hash.zero, root⟩ db.reader

/-- Blocks over a database that holds the tree `o`, with the contents of the states.  All nodes are
among `blobs`. -/
inductive Blocks (blobs : Set Bytes) (db₀ : Database) (o : Mpt.Tree) :
    Database → (Hash → Option Content) → Prop
  | start : Blocks blobs db₀ o db₀ (update (fun _ => none) (rootHash o) (some (.ofTree o)))
  | block {db : Database} {m : Hash → Option Content} {parent root : Hash} {number : UInt64}
    {nodes : NodeMap}
      {c : Content} {calls : List Mpt.Op} {tr tr' : Trie} {collectLeaf : Bool}
      {set : Option NodeSet} :
      Blocks blobs db₀ o db m → db.get parent ≠ none → m (trieRootHash parent) = some c →
      db.trieAt parent = .ok tr → tr.run calls = .ok tr' →
        (tr'.commit collectLeaf).1 = .ok (root, set) →
      (∀ p, nodes.node Hash.zero p = entry set p) → nodes.OK blobs → m root = none →
      db.unforked (.update root parent number nodes) = true →
      Blocks blobs db₀ o (db.step (.update root parent number nodes))
        (update m root (some (c.applyAll calls)))
  | call {db : Database} {m : Hash → Option Content} {op : Op} :
      Blocks blobs db₀ o db m → op.newRoot? = none → Blocks blobs db₀ o (db.step op) m

/-- The state is the store of the tree with this root. -/
structure Holds (r : Hash) (s : Nodes) (t : Mpt.Tree) : Prop where
  valid : Valid t
  root : rootHash t = r
  store : ∀ p, s (Hash.zero, p) = store t p

variable {blobs : Set Bytes} {db db₀ : Database} {t o : Mpt.Tree} {m : Hash → Option Content}
    {r : Hash} {id : Nat}
  (hz : NoZeroHash) (he : EmptyRootUnforgeable) (hinj : Set.InjOn Keccak.hash blobs)

include he hinj in
/-- **A state in the layer tree** is a trie that opens. -/
theorem Tree.opens {st : States} {base : Nat} {d : DiskLayer} {s : Nodes}
    (h : Tree blobs db st maxDiffLayers base d) (hget : db.get r ≠ none)
    (hs : st (trieRootHash r) = some s)
    (ht : Holds (trieRootHash r) s t) : Opens db.reader ⟨r, Hash.zero, r⟩ t := by
  by_cases hempty : r = Hash.zero ∨ r = emptyRootHash
  · obtain rfl : t = .nil := by
      by_contra h0
      have hroot := ht.root
      rw [rootHash_of_ne h0, trieRootHash] at hroot
      exact enc_ne_empty ht.valid.fit (isNode_of_wf ht.valid.canon.wf h0) (he _ (by grind [digest]))
    refine ⟨ht.valid, ⟨_, if_pos hempty, fun p u hu hst => ?_⟩, hempty.symm.imp id fun h =>
      ⟨rfl, h⟩, absurd rfl⟩
    have := store_of_locate hu hst
    simp [store_nil] at this
  · obtain ⟨ptr, hptr⟩ := ne_none_iff_exists'.mp hget
    have hroot : rootHash t = r := ht.root.trans (if_neg (not_or.mp hempty).1)
    refine ⟨ht.valid, ⟨_, (if_neg hempty).trans (by simp [reader, hptr]; rfl), fun p u hu hst =>
      ?_⟩, .inl hroot.symm, fun _ => not_or.mp hempty⟩
    have hread : (db.readNode r Hash.zero p (digest u)).1 = .ok (enc u) := by
      have hlt := h.pointer_lt hptr
      rw [readNode, hptr]
      exact nodeAt_spec hinj h hptr (.inr (by omega)) (Nat.succ_pos _) hs
        ((ht.store p).trans (store_of_locate hu hst))
    have hne : enc u ≠ [] := by
      cases u with
      | nil | value => cases hst.1
      | short | full =>
        exact List.ne_nil_of_length_pos (Nat.zero_lt_of_lt (Rlp.length_lt_encodeList _))
    simp [TrieReader.node, hread, Except.toOption, hne]

variable (hstart : db₀.Fresh blobs (rootHash o) id) (ho : Valid o)
  (hdisk : ∀ p, db₀.content (Hash.zero, p) = store o p) (h : Blocks blobs db₀ o db m)
include hz he hinj hstart ho hdisk h

/-- The states behind the blocks. -/
theorem Blocks.states : ∃ st base d, Tree blobs db st maxDiffLayers base d ∧
    ∀ r, st r = none ∧ m r = none ∨ ∃ s t, st r = some s ∧ m r = some (.ofTree t) ∧
      Holds r s t := by
  induction h with
  | start =>
    refine ⟨_, _, _, hstart.tree, fun r => ?_⟩
    by_cases hr : r = rootHash o
    · subst hr
      exact .inr ⟨_, o, update_self .., update_self .., ho, rfl, hdisk⟩
    · exact .inl ⟨update_of_ne hr .., update_of_ne hr ..⟩
  | @call _ _ op _ hnew ih =>
    obtain ⟨st, base, d, htree, hst⟩ := ih
    obtain ⟨htrack, hok, hfork⟩ : op.track st = st ∧ op.OK blobs ∧ unforked _ op = true := by
      cases op with
      | update => cases hnew
      | _ => exact ⟨rfl, trivial, rfl⟩
    obtain ⟨base', d', hstep⟩ := step_tree htree hok (by simp [hnew]) hfork
    exact ⟨st, base', d', htrack ▸ hstep, hst⟩
  | @block _ _ parent _ number nodes _ _ _ _ _ _ _ hget hc hopen hrun hcommit hnodes hok
    hfresh hfork ih =>
    obtain ⟨st, base, d, htree, hst⟩ := ih
    obtain ⟨-, hnone⟩ | ⟨s, t, hs, hm, ht⟩ := hst (trieRootHash parent)
    · simp [hc] at hnone
    -- the trie of the parent is changed and committed
    obtain rfl := some.inj (hc.symm.trans hm)
    obtain ⟨_, hnew, hinv⟩ := new_spec (htree.opens he hinj hget hs ht)
    obtain rfl := Except.ok.inj (hopen.symm.trans hnew)
    obtain ⟨_, u, hrun', hinv', hcontent⟩ := run_spec hinv _
    obtain rfl := Except.ok.inj (hrun.symm.trans hrun')
    obtain ⟨_, _, hcommit', hset⟩ := hinv'.commit_diff hz _
    rw [hcommit'] at hcommit
    cases hcommit
    have hself : trieRootHash (rootHash u) = rootHash u := by
      refine if_neg ?_
      cases u <;> first | exact hz _ | exact (by decide : emptyRootHash ≠ Hash.zero)
    have hop : (Op.update (rootHash u) parent number nodes).OK blobs := hok
    obtain ⟨base', d', hstep⟩ := step_tree htree hop (by rintro _ ⟨⟩; grind) hfork
    refine ⟨_, base', d', hstep, fun r => ?_⟩
    simp only [Op.track, hs, hself]
    by_cases hr : r = rootHash u
    · subst hr
      refine .inr ⟨_, u, update_self .., (update_self ..).trans (by rw [hcontent]), hinv'.valid,
        rfl, fun p => ?_⟩
      rw [← hset, applySet, ← hnodes p, ← ht.store p]
      simp only [apply, NodeMap.change]
      cases nodes.node Hash.zero p <;> rfl
    · rw [update_of_ne hr, update_of_ne hr]
      exact hst r

/-- **Every state that is kept** is a trie with the content that its blocks have written, and the
next block can be built on it. -/
theorem Blocks.trieAt_kept (hr : db.get r ≠ none) :
    ∃ c tr, m (trieRootHash r) = some c ∧ db.trieAt r = .ok tr ∧
      (∀ key : Slice, (tr.get key.bytes).1 = .ok (c key)) ∧
      ∀ calls collectLeaf, ∃ tr' res, tr.run calls = .ok tr' ∧
        (tr'.commit collectLeaf).1 = .ok res := by
  obtain ⟨st, base, d, htree, hst⟩ := h.states hz he hinj hstart ho hdisk
  obtain ⟨p, hp⟩ := ne_none_iff_exists'.mp hr
  obtain ⟨s, hs⟩ := htree.state hp
  obtain ⟨hnone, -⟩ | ⟨_, t, hs, hc, ht⟩ := hst (trieRootHash r)
  · simp [hs] at hnone
  obtain ⟨tr, hnew, hinv⟩ := new_spec (htree.opens he hinj hr hs ht)
  refine ⟨_, tr, hc, hnew, fun key => (hinv.get key).1, fun calls collectLeaf => ?_⟩
  obtain ⟨tr', u, hrun, hinv', -⟩ := run_spec hinv calls
  obtain ⟨set, _, hcommit, -⟩ := hinv'.commit_diff hz collectLeaf
  exact ⟨tr', _, hrun, by rw [hcommit]⟩

end Blocks

/-- A database without nodes. -/
def emptyDatabase : Database :=
  { sampleDatabase with
    heap := [.disk ⟨emptyRootHash, 0, false⟩]
    layers := (∅ : State.GoMap Hash Nat).insert emptyRootHash 0
    disk := ⟨fun _ _ => none, 0, fun _ => none⟩ }

/-- The root is the only node that is stored. -/
def OneNode [Keccak] (t : Mpt.Tree) : Prop := ∀ p, store t p = if p = [] then some (enc t) else none

theorem oneNode_sampleTree [Keccak] : OneNode sampleTree := by
  intro p
  cases p with
  | nil => rfl
  | cons a p =>
    refine store_eq_none fun u hu hst => ?_
    obtain ⟨⟨⟩, -⟩ | ⟨_ | _, -, ⟨⟩⟩ := locate_short_eq_some hu
    cases hst.1

/-- The trie of two keys, with a branch into two leaves that are embedded. -/
def twinTree : Mpt.Tree :=
  .full (Radix.Tree.branch 6 (.short [1, term] (.value [0x62])) 7
    (.short [1, term] (.value [0x62])))

theorem valid_twinTree : Valid twinTree := valid_sampleTree.insert siblingKey ⟨by decide, by decide⟩

theorem ofTree_twinTree : Content.ofTree twinTree = (Content.ofTree .nil).applyAll
    [.update sampleKey sampleValue, .update siblingKey sampleValue] :=
  (ofTree_insert valid_sampleTree siblingKey sampleValue.bytes).trans
    (by rw [ofTree_sampleTree]; rfl)

theorem oneNode_twinTree : @OneNode Keccak.sample twinTree := by
  let _ := Keccak.sample
  have hleaf : ∀ {a : Nibble} {p : Hex} {u : Mpt.Tree},
      locate (.short [1, term] (.value [0x62])) p = some u → ¬ Standalone (a :: p) u := by
    intro a p u hu hst
    obtain ⟨-, rfl⟩ | ⟨_ | _, -, ⟨⟩⟩ := locate_short_eq_some hu
    · exact absurd (hst.2.resolve_left (List.cons_ne_nil _ _)) (by decide)
    · cases hst.1
  intro p
  cases p with
  | nil => rfl
  | cons a p =>
    refine store_eq_none fun u hu hst => ?_
    rw [twinTree, locate_full_cons, Radix.Tree.branch] at hu
    by_cases h7 : a = 7
    · rw [h7, update_self] at hu
      exact hleaf hu hst
    · by_cases h6 : a = 6
      · rw [update_of_ne h7, h6, update_self] at hu
        exact hleaf hu hst
      · rw [update_of_ne h7, update_of_ne h6] at hu
        obtain _ | _ := p <;> cases hu
        cases hst.1

/-- A block over the state without entries. -/
theorem Blocks.scratch [Keccak] {blobs : Set Bytes} {db : Database} {m : Hash → Option Content}
    {u : Mpt.Tree} (calls : List Mpt.Op) (hz : NoZeroHash) (he : EmptyRootUnforgeable)
    (hinj : Set.InjOn Keccak.hash blobs) (hstart : emptyDatabase.Fresh blobs (rootHash .nil) 0)
    (h : Blocks blobs emptyDatabase .nil db m) (hget : db.get emptyRootHash ≠ none)
    (hm : m emptyRootHash = some (.ofTree .nil)) (hu : Valid u)
    (hcalls : Content.ofTree u = (Content.ofTree .nil).applyAll calls) (hone : OneNode u)
    (hblob : enc u ∈ blobs) (hfresh : m (rootHash u) = none)
    (hfork : db.unforked (.update (rootHash u) emptyRootHash 0 (oneNode [] (enc u))) = true) :
    Blocks blobs emptyDatabase .nil
      (db.step (.update (rootHash u) emptyRootHash 0 (oneNode [] (enc u))))
      (update m (rootHash u) (some (.ofTree u))) := by
  obtain ⟨st, base, d, htree, hst⟩ := h.states hz he hinj hstart valid_nil fun p =>
    (store_nil p).symm
  obtain ⟨-, hnone⟩ | ⟨s, t, hs, hc, ht⟩ := hst emptyRootHash
  · simp [hm] at hnone
  obtain rfl : t = .nil := ht.valid.ext valid_nil (congrFun (some.inj (hc.symm.trans hm)))
  obtain ⟨tr, hopen, hinv⟩ := new_spec (htree.opens he hinj hget hs ht)
  obtain ⟨tr', u', hrun, hinv', hcontent⟩ := run_spec hinv calls
  obtain rfl : u' = u := hinv'.valid.ext hu (congrFun (hcontent.trans hcalls.symm))
  obtain ⟨set, tr'', hcommit, hset⟩ := hinv'.commit_scratch false
  have hnodes : ∀ p, (oneNode [] (enc u')).node Hash.zero p = entry set p := by
    intro p
    rw [hset, hone, oneNode, NodeMap.node_insert, if_pos rfl]
    cases p with
    | nil => exact AList.lookup_insert _
    | cons => exact AList.lookup_insert_ne (List.cons_ne_nil _ _)
  rw [hcalls]
  exact .block h hget hm hopen hrun (by rw [hcommit]) hnodes (ok_oneNode hblob) hfresh hfork

/-- Two blocks over the state without entries, one of which branches. -/
theorem trieAt_kept_sample :
    letI := Keccak.sample
    ∃ db m tr tr', Blocks {enc sampleTree, enc twinTree} emptyDatabase .nil db m ∧
      db.trieAt (digest sampleTree) = .ok tr ∧ db.trieAt (digest twinTree) = .ok tr' ∧
      (tr.get siblingKey.bytes).1 = .ok none ∧
      (tr'.get siblingKey.bytes).1 = .ok (some sampleValue.bytes) := by
  let _ := Keccak.sample
  have he : EmptyRootUnforgeable := fun b h => absurd h (sampleHash_ne b rfl (.inr rfl))
  have hinj : Set.InjOn Keccak.hash {enc sampleTree, enc twinTree} := by
    have hne : Keccak.hash (enc sampleTree) ≠ Keccak.hash (enc twinTree) := by decide
    rintro _ (rfl | rfl) _ (rfl | rfl) h
    exacts [rfl, absurd h hne, absurd h.symm hne, rfl]
  have hstart : emptyDatabase.Fresh {enc sampleTree, enc twinTree} (rootHash .nil) 0 :=
    ⟨⟨NodeMap.ok_empty, nofun, nofun⟩, rfl, rfl, rfl⟩
  have h₁ := Blocks.scratch [.update sampleKey sampleValue] noZeroHash_sample he hinj hstart
    .start (by decide +kernel)
      (update_self ..) valid_sampleTree ofTree_sampleTree oneNode_sampleTree
    (.inl rfl) (by decide +kernel) (by decide +kernel)
  have h₂ := h₁.scratch _ noZeroHash_sample he hinj hstart (by decide +kernel)
    ((update_of_ne (by decide) ..).trans (update_self ..)) valid_twinTree ofTree_twinTree
    oneNode_twinTree (.inr rfl) (by decide +kernel) (by decide +kernel)
  obtain ⟨c, tr, hc, hnew, hget, -⟩ := h₂.trieAt_kept noZeroHash_sample he hinj hstart valid_nil
    (fun p => (store_nil p).symm) (r := digest sampleTree) (by decide +kernel)
  obtain ⟨c', tr', hc', hnew', hget', -⟩ := h₂.trieAt_kept noZeroHash_sample he hinj hstart
    valid_nil (fun p => (store_nil p).symm) (r := digest twinTree) (by decide +kernel)
  rw [show trieRootHash (digest sampleTree) = rootHash sampleTree by decide,
    update_of_ne (by decide), update_self] at hc
  rw [show trieRootHash (digest twinTree) = rootHash twinTree by decide, update_self] at hc'
  cases hc
  cases hc'
  exact ⟨_, _, tr, tr', h₂, hnew, hnew', hget siblingKey, hget' siblingKey⟩

end GoQrl.PathDb
