import GoQrl.Trie.Binding
import GoQrl.Trie.Canonical
import GoQrl.Trie.Proof

/-!
# GoQrl.Trie.Prove

Merkle proofs of single keys.  `OnPath` are the nodes of a tree on the way to a
key.  `Trie.Prove` writes those of them that are stored, `VerifyProof` asks for
them one by one, and what it finds under their hashes can only be them.
-/

namespace GoQrl.Mpt

open Rlp Radix Mpt.Tree Option Proof
open List hiding nil get insert

/-! ## the way to a key -/

/-- The node `u` is at path `q` on the way to the key. -/
structure OnPath (t : Tree) (key q : Hex) (u : Tree) : Prop where
  pre : q <+: key
  loc : locate t q = some u
  node : isNode u

variable {t u : Tree} {q : Hex} {key p k : Hex} {cs : Nibble → Tree} {i : Nibble}

/-- The root is on the way to every key. -/
theorem OnPath.root (hn : isNode t) : OnPath t key [] t :=
  ⟨ nil_prefix, locate_nil t, hn⟩

/-- The nodes on the way below a node are on the way. -/
theorem OnPath.append {w : Tree} (ht : t.Part term) (hu : locate t p = some u)
    (h : OnPath u key q w) :
    OnPath t (p ++ key) (p ++ q) w :=
  ⟨(prefix_append_right_inj p).mpr h.pre, by rw [locate_append hu ht, h.loc], h.node⟩

/-- The nodes on the way at an edge: itself, and those below if the key goes on. -/
theorem OnPath.short {c : Tree} (h : OnPath (.short k c) key q u) :
    (q = [] ∧ u = .short k c) ∨ ∃ rest q', key = k ++ rest ∧ q = k ++ q' ∧ OnPath c rest q' u := by
  rcases locate_short_eq_some h.loc with ⟨hq, hu⟩ | ⟨q', hq, hu⟩
  · exact .inl ⟨hq, hu⟩
  · obtain ⟨rest, hrest⟩ := h.pre
    refine .inr ⟨q' ++ rest, q', by rw [← hrest, hq, append_assoc], hq,
      prefix_append _ _, hu, h.node⟩

/-- The nodes on the way at a branch. -/
theorem OnPath.full (h : OnPath (.full cs) (i :: key) q u) :
    (q = [] ∧ u = .full cs) ∨ ∃ q', q = i :: q' ∧ OnPath (cs i) key q' u := by
  cases q with
  | nil =>
    have := h.loc
    exact .inl ⟨rfl, (some.inj this).symm⟩
  | cons j q =>
    obtain ⟨rfl, hpre⟩ := cons_prefix_cons.mp h.pre
    exact .inr ⟨q, rfl, hpre, h.loc, h.node⟩

theorem not_onPath_slot (ht : t.IsSlot) : ¬ OnPath t key q u := by
  intro h
  have hat := h.loc
  rcases ht.cases with rfl | ⟨v, rfl⟩ <;>
  · cases q with
    | nil => cases hat; cases h.node
    | cons a q => cases hat

/-- The check of a label against a key, as the source writes it. -/
theorem mismatch_iff {nkey : Hex} :
    (key.length < nkey.length ∨ nkey ≠ key.take nkey.length) ↔ ¬ nkey <+: key := by
  rw [prefix_iff_eq_take]
  constructor
  · rintro (h | h) heq
    · have := congrArg List.length heq
      rw [length_take] at this
      omega
    · exact h heq
  · exact .inr

/-- The test of the source for a key that goes on below an edge. -/
theorem matches_append (k rest : Hex) :
    ¬ ((k ++ rest).length < k.length ∨ k ≠ (k ++ rest).take k.length) := by
  simp

section Proving

variable [Keccak] {o t : Tree} {r : TrieReader}

/-! ## writing a proof -/

/-- The nodes that `Trie.Prove` collects: one for every node on the way to the
key, the root first. -/
structure Collects (o : Tree) (p : Hex) (t : Tree) (key : Hex) (ns : List Node) : Prop where
  all : ∀ q u, OnPath t key q u → ∃ n ∈ ns, Rep o (p ++ q) n u ∧ Sized u ∧ n.isHash = false
  head : isNode t → ∃ n rest, ns = n :: rest ∧ Rep o p n t ∧ n.isHash = false

variable {ns : List Node} {n : Node} {isRoot : Bool} {db : ProofDb} {rest : Hex} {c u : Tree}
    {fuel : Nat}

theorem Collects.slot (ht : t.IsSlot) : Collects o p t key [] := by
  refine ⟨fun q u hu => absurd hu (not_onPath_slot ht), fun hn => ?_⟩
  rcases ht.cases with rfl | ⟨v, rfl⟩ <;> cases hn

/-- The node itself and the nodes below its child. -/
theorem Collects.short {n m : Node} (h : Collects o (p ++ k) c rest ns)
    (hrep : Rep o p m (.short k c)) (hs : Sized (.short k c)) (hm : m.isHash = false) (hn : n = m) :
    Collects o p (.short k c) (k ++ rest) (n :: ns) := by
  subst hn
  refine ⟨fun q u hu => ?_, fun _ => ⟨n, ns, rfl, hrep, hm⟩⟩
  rcases hu.short with ⟨rfl, rfl⟩ | ⟨rest', q', hrest, rfl, hu'⟩
  · exact ⟨n, mem_cons_self, by rwa [append_nil], hs, hm⟩
  · rw [append_cancel_left hrest] at h
    obtain ⟨m, hmem, hrest⟩ := h.all q' u hu'
    exact ⟨m, mem_cons_of_mem _ hmem, by rwa [← append_assoc]⟩

/-- The last node on the way, which the key leaves. -/
theorem Collects.last (hrep : Rep o p n (.short k c)) (hs : Sized (.short k c))
    (hn : n.isHash = false) (hk : ¬ k <+: key) : Collects o p (.short k c) key [n] := by
  refine ⟨fun q u hu => ?_, fun _ => ⟨n, [], rfl, hrep, hn⟩⟩
  rcases hu.short with ⟨rfl, rfl⟩ | ⟨rest, q', rfl, -⟩
  · exact ⟨n, mem_cons_self, by rwa [append_nil], hs, hn⟩
  · exact absurd (prefix_append k rest) hk

/-- A branch is collected before what is below it. -/
theorem Collects.full (h : Collects o (p ++ [i]) (cs i) rest ns) (hrep : Rep o p n (.full cs))
    (hs : Sized (.full cs)) (hn : n.isHash = false) :
    Collects o p (.full cs) (i :: rest) (n :: ns) := by
  refine ⟨fun q u hu => ?_, fun _ => ⟨n, ns, rfl, hrep, hn⟩⟩
  rcases hu.full with ⟨rfl, rfl⟩ | ⟨q', rfl, hu'⟩
  · exact ⟨n, mem_cons_self, by rwa [append_nil], hs, hn⟩
  · obtain ⟨m, hmem, hrest⟩ := h.all q' u hu'
    exact ⟨m, mem_cons_of_mem _ hmem, by rwa [append_cons]⟩

/-- What the first loop of `Trie.Prove` does. -/
def Walks (o : Tree) (r : TrieReader) (fuel : Nat) (p : Hex) (n : Node) (t : Tree) (key : Hex) :
    Prop :=
  ∃ ns, Proof.pathNodes r fuel n p key = .ok ns ∧ Collects o p t key ns

/-- **Collecting the nodes** on the way to a key. -/
theorem pathNodes_spec (ho : Fit o) (hr : Serves r o) (h : Rep o p n t) (hs : Sized t)
    (hkey : Reach t key) (hf : 2 * key.length + 2 ≤ fuel) : Walks o r fuel p n t key := by
  refine descend (R := fun t key => Reach t key ∧ Sized t)
    (M := fun fuel p n t key _ => Walks o r fuel p n t key) ho And.left
    ?load ?nil ?value ?short ?full ⟨hkey, hs⟩ h hf .new
  case load =>
    rintro fuel p t key - ⟨hkey, -⟩ hs hloc ⟨ns, hexec, hcol⟩
    have hcond : ¬ (key.length = 0 ∨ (Node.hash (digest t)).isNil) := by
      simp [hkey.ne_nil hs.1, Node.isNil]
    refine ⟨ns, ?_, hcol⟩
    simp only [pathNodes, if_neg hcond, hr p t hloc hs,
      decodeNode_enc (ho.locate hloc hs.1) hs.1, hexec]
  case nil =>
    intro fuel p key _ _
    exact ⟨[], by simp [pathNodes, Node.isNil], .slot trivial⟩
  case value =>
    rintro fuel p v key - ⟨hkey, -⟩
    obtain rfl : key = [] := (hkey.resolve_left fun h => h.1.elim).2
    exact ⟨[], by simp [pathNodes], .slot trivial⟩
  case short =>
    rintro fuel p k c val flags key - ⟨hkey, hs⟩ hk hc hflags hseal ih
    have hrep : Rep o p (.short k val flags) (.short k c) := .short hc hflags hseal
    have hcond : ¬ (key.length = 0 ∨ (Node.short k val flags).isNil) := by
      simp [hkey.short.2.ne_nil, Node.isNil]
    by_cases hpre : k <+: key
    · obtain ⟨rest, rfl⟩ := hpre
      obtain ⟨ns, hexec, hcol⟩ := ih rfl ⟨hkey.child_short, hs.child_short⟩
      refine ⟨_ :: ns, ?_, hcol.short hrep hs rfl rfl⟩
      rw [pathNodes, if_neg hcond]
      simp only [if_neg (matches_append _ _), drop_left, hexec]
      rfl
    · refine ⟨[_], ?_, .last hrep hs rfl hpre⟩
      simp only [pathNodes, if_neg hcond, if_pos (mismatch_iff.mpr hpre)]
  case full =>
    rintro fuel p cs ns flags i rest - ⟨hkey, hs⟩ hc hflags hseal ih
    obtain ⟨ms, hexec, hcol⟩ := ih ⟨hkey.child_full, hs.child_full i⟩
    refine ⟨_ :: ms, ?_, hcol.full (.full hc hflags hseal) hs rfl⟩
    have hcond : ¬ ((i :: rest).length = 0 ∨ (Node.full ns flags).isNil) := by
      simp [Node.isNil]
    simp only [pathNodes, if_neg hcond, hexec]
    rfl

/-- The entry for a node that the proof must contain. -/
theorem elements_head (ns : List Node) (h : Rep o p n u) (hs : Sized u) (hn : isNode u)
    (hl : n.isHash = false) (hlarge : isRoot = true ∨ 32 ≤ (enc u).length) :
    (digest u, enc u) ∈ elements isRoot (n :: ns) := by
  obtain ⟨hsmall, hbytes, hproof⟩ := hashChildren_spec h hs hn hl
  have hblob : (hashChildren n).nodeToBytes = enc u := by
    rw [Collapsed.nodeToBytes_eq hsmall, hbytes]
  have hnone : (hashChildren n).asHash = none := by
    cases n <;> first | rfl | cases hl
  rw [elements, hproof]
  simp only [toHash, hblob]
  by_cases hlen : (enc u).length < 32
  · have hroot : isRoot = true := hlarge.resolve_right (by omega)
    rw [if_pos ⟨hlen, trivial⟩, hnone, hroot]
    exact mem_cons_self
  · rw [if_neg fun h => hlen h.1]
    exact mem_cons_self

theorem elements_tail {x : Hash × Bytes}
    (h : x ∈ elements false ns) : x ∈ elements isRoot (n :: ns) := by
  rw [elements]
  simp only
  split
  · exact mem_cons_of_mem _ h
  · split
    · exact mem_cons_of_mem _ h
    · exact h

/-- Every collected node that is large enough is written. -/
theorem elements_mem (hmem : n ∈ ns) (h : Rep o p n u) (hs : Sized u) (hn : isNode u)
    (hl : n.isHash = false)
    (hlarge : 32 ≤ (enc u).length) : (digest u, enc u) ∈ elements isRoot ns := by
  induction ns generalizing isRoot with
  | nil => cases hmem
  | cons m ns ih =>
    rcases mem_cons.mp hmem with rfl | hmem
    · exact elements_head ns h hs hn hl (.inr hlarge)
    · exact elements_tail (ih hmem)

/-- The stored nodes on the way to a key. -/
def Needs (t : Tree) (key : Hex) (u : Tree) : Prop := ∃ q, OnPath t key q u ∧ Standalone q u

/-- **Proving** a key writes every stored node on the way to it. -/
theorem Inv.prove {tr : Trie} (h : Inv o tr t) (key : Slice) :
    ∃ entries, tr.prove key.bytes = .ok entries ∧
      ∀ u, Needs t (keybytesToHex key.bytes) u → (digest u, enc u) ∈ entries := by
  obtain ⟨ns, hexec, hcol⟩ : Walks o tr.reader (budget (keybytesToHex key.bytes)) [] tr.root t _ :=
    pathNodes_spec h.origin.fit h.serves h.rep h.valid.fit.sized
      (.inl ⟨h.valid.canon.wf, terminated_keybytesToHex key.bytes⟩) le_rfl
  refine ⟨elements true ns, ?_, ?_⟩
  · rw [Trie.prove, h.live]
    simp only [Bool.false_eq_true, if_false, hexec]
    rfl
  · rintro u ⟨q, hq, hst⟩
    by_cases hroot : q = []
    · subst hroot
      have hat := hq.loc
      rw [locate_nil] at hat
      obtain rfl := some.inj hat
      obtain ⟨n, rest, rfl, hrep, hl⟩ := hcol.head hq.node
      exact elements_head rest hrep h.valid.fit.sized hq.node hl (.inl rfl)
    · obtain ⟨n, hmem, hrep, hs, hl⟩ := hcol.all q u hq
      exact elements_mem hmem hrep hs hq.node hl (hst.2.resolve_left hroot)

/-! ## verifying a proof -/

/-- Every entry of the database is stored under its hash. -/
def ContentAddressed (db : ProofDb) : Prop := ∀ h b, db h = some b → Keccak.hash b = h

/-- What `get` finds when it skips loaded nodes: the end of the way, or a node
that has to be loaded. -/
inductive Found (t : Tree) (p key : Hex) : Hex → Node → Prop
  | nil (rest : Hex) (h : t.get key = none) : Found t p key rest .nil
  | value (rest : Hex) (v : Bytes) (h : t.get key = some v) : Found t p key rest (.value v)
  | hash (q rest : Hex) (u : Tree) (hkey : key = q ++ rest) (hu : locate t q = some u)
      (hs : Standalone (p ++ q) u) (hget : t.get key = u.get rest) (hreach : Reach u rest) :
      Found t p key rest (.hash (digest u))

theorem Found.short (hk : k ≠ []) (h : Found c (p ++ k) key rest n) :
    Found (.short k c) p (k ++ key) rest n := by
  cases h with
  | nil _ h => exact .nil _ (by rw [Tree.get_short_append, h])
  | value _ v h => exact .value _ v (by rw [Tree.get_short_append, h])
  | hash q _ u hkey hu hs hget hreach =>
    refine .hash (k ++ q) rest u ?_ ?_ ?_ ?_ hreach
    · rw [hkey, append_assoc]
    · rw [locate_short_append hk, hu]
    · rwa [← append_assoc]
    · rw [Tree.get_short_append, hget]

/-- What is found below a branch is found from the branch. -/
theorem Found.full (h : Found (cs i) (p ++ [i]) key rest n) :
    Found (.full cs) p (i :: key) rest n := by
  cases h with
  | nil _ h => exact .nil _ h
  | value _ v h => exact .value _ v h
  | hash q _ u hkey hu hs hget hreach =>
    refine .hash (i :: q) rest u ?_ hu ?_ hget hreach
    · rw [hkey, cons_append]
    · rwa [append_cons]

/-- The rest of the key gets no longer. -/
theorem Found.length_le {h : Hash} (hf : Found t p key rest (.hash h)) :
    rest.length ≤ key.length := by
  cases hf with
  | hash q _ u hkey =>
    rw [hkey, length_append]
    omega

/-- `get` over loaded nodes. -/
theorem get_skip_spec (h : Rep o p n t) (hkey : Reach t key) :
    ∃ rest cld, Proof.get n key true = .ok (rest, cld) ∧ Found t p key rest cld ∧
      (n.isHash = false → ∀ h, cld = .hash h → rest.length < key.length) := by
  induction h generalizing key with
  | nil => exact ⟨key, .nil, rfl, .nil _ rfl, by simp⟩
  | value p v => exact ⟨[], .value v, rfl, .value _ v rfl, by simp⟩
  | @hash p t hp hs ho =>
    exact ⟨key, .hash (digest t), rfl,
      .hash [] key t rfl (locate_nil t) (by simpa using hs) rfl hkey,
      by simp [Node.isHash]⟩
  | @short p k m c flags hc hf hs ih =>
    have hk := hkey.short.1.label_ne_nil
    by_cases hpre : k <+: key
    · obtain ⟨key, rfl⟩ := hpre
      obtain ⟨rest, cld, hexec, hfound, -⟩ := ih hkey.child_short
      refine ⟨rest, cld, ?_, hfound.short hk, ?_⟩
      · rwa [Proof.get, if_neg (matches_append _ _), drop_left]
      · rintro - h rfl
        have := hfound.length_le
        have := length_pos_iff.mpr hk
        rw [length_append]
        omega
    · refine ⟨[], .nil, ?_, .nil _ (Tree.get_short_eq_none hpre), by simp⟩
      rw [Proof.get, if_pos (mismatch_iff.mpr hpre)]
  | @full p ns cs flags hc hf hs ih =>
    obtain ⟨i, key, rfl⟩ := exists_cons_of_ne_nil hkey.full.2.ne_nil
    obtain ⟨rest, cld, hexec, hfound, -⟩ := ih i hkey.child_full
    refine ⟨rest, cld, hexec, hfound.full, ?_⟩
    rintro - h rfl
    have := hfound.length_le
    rw [length_cons]
    omega

/-- Under the hash of a stored node the database has nothing but that node. -/
def Agrees (db : ProofDb) (t : Tree) : Prop :=
  ∀ q u, locate t q = some u → Standalone q u → ∀ b, db (digest u) = some b → b = enc u

/-- Under the hash of a node a proof can only have the node. -/
theorem ContentAddressed.agrees (h : ContentAddressed db) (ht : Unforgeable t) : Agrees db t :=
  fun q _ hu hst b hb => ht q _ (store_of_locate hu hst) b (h _ b hb)

/-- **The loop of the verifier** returns the value of the tree, unless a stored
node on the way to the key is missing. -/
theorem verifyLoop_spec (ho : Fit o) (hdb : Agrees db o) {i : Nat} (hu : locate o p = some u)
    (hst : Standalone p u) (hkey : Reach u key) (hf : key.length + 1 ≤ fuel) :
    verifyLoop db fuel i (digest u) key = .ok (u.get key) ∨
      ∃ j w q, OnPath u key q w ∧ Standalone (p ++ q) w ∧ db (digest w) = none ∧
        verifyLoop db fuel i (digest u) key = .error (.missingElement j (digest w)) := by
  induction fuel generalizing i p key u with
  | zero => omega
  | succ fuel ih =>
    rw [verifyLoop]
    cases hb : db (digest u) with
    | none => exact .inr ⟨i, u, [], .root hst.1, by rwa [append_nil], hb, rfl⟩
    | some b =>
      have hrep : Rep o p (expand (some (digest u)) u) u := rep_expand ho.sized.part hu
        fun k hk => ⟨(some.inj hk).symm, hst⟩
      obtain ⟨rest, cld, hexec, hfound, hlt⟩ := get_skip_spec hrep hkey
      simp only [hdb p u hu hst b hb, decodeNode_enc (ho.locate hu hst.1) hst.1, hexec]
      cases hfound with
      | nil _ h | value _ v h => exact .inl (by rw [h])
      | hash q _ w hq hw hstw hget hreach =>
        have hlt := hlt (isHash_expand _ u) _ rfl
        have hloc : locate o (p ++ q) = some w := by rw [locate_append hu ho.sized.part, hw]
        rcases ih hloc hstw hreach (by omega) with hok | ⟨j, x, q', hx, hstx, hnone, herr⟩
        · exact .inl (by rw [hget]; exact hok)
        · refine .inr ⟨j, x, q ++ q', ?_, by rwa [← append_assoc], hnone, herr⟩
          rw [hq]
          exact hx.append (Part.locate ho.sized.part hu) hw

omit [Keccak] in
/-- More iterations do not change a result. -/
theorem verifyLoop_mono {i : Nat} {h : Hash} (k : Nat)
    (hne : verifyLoop db fuel i h key ≠ .error .outOfFuel) :
    verifyLoop db (fuel + k) i h key = verifyLoop db fuel i h key := by
  induction fuel generalizing i h key with
  | zero => exact absurd rfl hne
  | succ fuel ih =>
    rw [Nat.add_right_comm, verifyLoop, verifyLoop]
    rw [verifyLoop] at hne
    split
    · rfl
    next b hb =>
    simp only [hb] at hne
    split
    · rfl
    next n hdec =>
    simp only [hdec] at hne
    split
    · rfl
    next rest cld hget =>
    simp only [hget] at hne
    cases cld with
    | nil | value => rfl
    | hash | short | full => exact ih hne

/-- **Merkle proofs.**  Open a trie, run any calls, and let the result be not
empty.  Against its root hash the verifier of a key terminates for every
content-addressed database, within one iteration per digit of the key.  If it
returns no error, it returns the value of the key, and it returns no error if the
database contains what the trie's own `Prove` wrote. -/
theorem verifyProof_correct {db : Hash → Option Reader} {id : ID} (h : Opens db id o)
    (ops : List Op) (key : Slice) :
    ∃ tr tr' u, Trie.new id db = .ok tr ∧ tr.run ops = .ok tr' ∧ Valid u ∧
      Content.ofTree u = (Content.ofTree o).applyAll ops ∧
      (u ≠ .nil → Unforgeable u → ∃ root entries, tr'.hash.1 = .ok root ∧
        tr'.prove key.bytes = .ok entries ∧ ∀ proofDb, ContentAddressed proofDb → ∃ res,
          (∀ fuel, (keybytesToHex key.bytes).length + 1 ≤ fuel →
            Proof.verifyProof fuel root key.bytes proofDb = res) ∧
          res ≠ .error .outOfFuel ∧ (∀ v, res = .ok v → v = Content.ofTree u key) ∧
          ((∀ x ∈ entries, proofDb x.1 = some x.2) → res = .ok (Content.ofTree u key))) := by
  obtain ⟨tr, hnew, hinv⟩ := new_spec h
  obtain ⟨tr', u, hrun, hinv', hcontent⟩ := run_spec hinv ops
  refine ⟨tr, tr', u, hnew, hrun, hinv'.valid, hcontent, fun h0 hforge => ?_⟩
  obtain ⟨entries, hprove, hentries⟩ := hinv'.prove key
  refine ⟨digest u, entries, by rw [← rootHash_of_ne h0]; exact hinv'.hash.1, hprove,
    fun proofDb hdb => ?_⟩
  have hst : Standalone [] u := ⟨isNode_of_wf hinv'.valid.canon.wf h0, .inl rfl⟩
  have hkey : Reach u (keybytesToHex key.bytes) :=
    .inl ⟨hinv'.valid.canon.wf, terminated_keybytesToHex key.bytes⟩
  have hspec := verifyLoop_spec (i := 0) hinv'.valid.fit (hdb.agrees hforge)
      (locate_nil u) hst hkey le_rfl
  have hres : Proof.verifyProof ((keybytesToHex key.bytes).length + 1)
      (digest u) key.bytes proofDb ≠
      .error .outOfFuel := by
    rcases hspec with hok | ⟨j, w, q, -, -, -, herr⟩
    · rw [Proof.verifyProof, hok]
      simp
    · rw [Proof.verifyProof, herr]
      simp
  refine ⟨_, fun fuel hf => ?_, hres, fun v hv => ?_, fun hall => ?_⟩
  · obtain ⟨k, rfl⟩ := Nat.exists_eq_add_of_le hf
    exact verifyLoop_mono k hres
  · rcases hspec with hok | ⟨j, w, q, -, -, -, herr⟩
    · rw [Proof.verifyProof, hok] at hv
      exact (Except.ok.inj hv).symm
    · rw [Proof.verifyProof, herr] at hv
      cases hv
  · rcases hspec with hok | ⟨j, w, q, hw, hstw, hnone, -⟩
    · exact hok
    · have := hall _ (hentries w ⟨q, hw, hstw⟩)
      simp [hnone] at this

end Proving

/-! ## a trie of two entries -/

/-- A leaf that is too large to be embedded. -/
def edgeLeaf (v : UInt8) : Tree := .short [0, term] (.value (List.replicate 33 v))

/-- The trie of two entries, with keys `0x10` and `0x20`. -/
def edgeTree : Tree := .full (Tree.branch 1 (edgeLeaf 1) 2 (edgeLeaf 2))

def edgeHash (v : UInt8) : Hash := ⟨List.replicate 32 v, rfl⟩

def edgeLeafEnc (v : UInt8) : Bytes := [0xe3, 0x30, 0xa1] ++ List.replicate 33 v

def edgeRootEnc : Bytes :=
  [0xf8, 0x51, 0x80, 0xa0] ++ List.replicate 32 1 ++ [0xa0] ++ List.replicate 32 2 ++
    List.replicate 14 0x80

/-- The encodings that the digest keeps apart. -/
def edgeTable : List Bytes := [edgeLeafEnc 1, edgeLeafEnc 2, edgeRootEnc, [0x80]]

/-- A digest for the nodes of the trie. -/
def edgeDigest (b : Bytes) : Hash :=
  if b = edgeLeafEnc 1 then edgeHash 1
  else if b = edgeLeafEnc 2 then edgeHash 2
  else if b = edgeRootEnc then edgeHash 3
  else if b = [0x80] then emptyRootHash
  else Hash.zero

@[reducible] def Keccak.edge : Keccak := ⟨edgeDigest⟩

/-- No other string has the digest of one in the table. -/
theorem edgeDigest_inj {b e : Bytes} (he : e ∈ edgeTable) (h : edgeDigest b = edgeDigest e) :
    b = e := by
  have hin : ∀ b ∈ edgeTable, ∀ e ∈ edgeTable, edgeDigest b = edgeDigest e → b = e := by
    decide +kernel
  have hout : ∀ e ∈ edgeTable, edgeDigest e ≠ Hash.zero := by decide +kernel
  by_cases hb : b ∈ edgeTable
  · exact hin b hb e he h
  · have hzero : edgeDigest b = Hash.zero := by
      simp only [edgeTable, mem_cons, not_mem_nil, or_false, not_or] at hb
      simp [edgeDigest, hb]
    exact absurd (h.symm.trans hzero) (hout e he)

/-- A subtree of the trie is the root, a leaf, a value or nothing. -/
theorem locate_edgeTree {p : Hex} {u : Tree} (h : locate edgeTree p = some u) (hn : isNode u) :
    u = edgeTree ∨ u = edgeLeaf 1 ∨ u = edgeLeaf 2 := by
  have hleaf : ∀ {v : UInt8} {q : Hex}, locate (edgeLeaf v) q = some u → u = edgeLeaf v := by
    intro v q hq
    rcases locate_short_eq_some hq with ⟨-, hu⟩ | ⟨r, -, hr⟩
    · exact hu
    · cases r with
      | nil =>
        cases hr
        cases hn
      | cons a r => cases hr
  cases p with
  | nil => exact .inl (some.inj h).symm
  | cons a p =>
    rw [edgeTree, locate_full_cons, Tree.branch] at h
    by_cases h2 : a = 2
    · rw [h2] at h
      exact .inr (.inr (hleaf h))
    · rw [Function.update_of_ne h2] at h
      by_cases h1 : a = 1
      · rw [h1] at h
        exact .inr (.inl (hleaf h))
      · rw [Function.update_of_ne h1] at h
        cases p with
        | nil =>
          cases h
          cases hn
        | cons b p => cases h

theorem enc_edgeLeaf [Keccak] (v : UInt8) : enc (edgeLeaf v) = edgeLeafEnc v := rfl

theorem enc_edgeTree : @enc Keccak.edge edgeTree = edgeRootEnc := by decide +kernel

/-- The digest keeps the nodes of the trie apart from all other strings. -/
theorem unforgeable_edgeTree : @Unforgeable Keccak.edge edgeTree := by
  let _ := Keccak.edge
  intro p e hp b hb
  obtain ⟨u, hu, hst, rfl⟩ := store_eq_some.mp hp
  refine edgeDigest_inj ?_ hb
  rcases locate_edgeTree hu hst.1 with rfl | rfl | rfl
  · rw [enc_edgeTree]
    simp [edgeTable]
  · rw [enc_edgeLeaf]
    simp [edgeTable]
  · rw [enc_edgeLeaf]
    simp [edgeTable]

def edgeKey (k : UInt8) : Slice := ⟨[k], by simp⟩

def edgeValue (v : UInt8) : Slice := ⟨List.replicate 33 v, by simp⟩

theorem valid_edgeLeaf : Valid ((Radix.Tree.nil : Tree).insert (edgeValue 1).bytes
    (keybytesToHex (edgeKey 0x10).bytes)) :=
  valid_nil.insert (edgeKey 0x10) ⟨cons_ne_nil _ _, (edgeValue 1).fits⟩

theorem valid_edgeTree : Valid edgeTree :=
  valid_edgeLeaf.insert (edgeKey 0x20) ⟨cons_ne_nil _ _, (edgeValue 2).fits⟩

/-- The calls that write the two entries. -/
def edgeOps : List Op :=
  [.update (edgeKey 0x10) (edgeValue 1), .update (edgeKey 0x20) (edgeValue 2)]

/-- The trie has what the calls write. -/
theorem ofTree_edgeTree : Content.ofTree edgeTree = (Content.ofTree .nil).applyAll edgeOps := by
  refine (ofTree_insert valid_edgeLeaf (edgeKey 0x20) (edgeValue 2).bytes).trans ?_
  rw [ofTree_insert valid_nil]
  rfl

/-- The proof of an entry of a trie of two entries is accepted. -/
theorem verifyProof_correct_sample :
    letI := Keccak.edge
    ∃ tr tr' root entries,
      Trie.new ⟨Hash.zero, Hash.zero, emptyRootHash⟩ (fun _ => none) = .ok tr ∧
      tr.run edgeOps = .ok tr' ∧ tr'.hash.1 = .ok root ∧
      tr'.prove (edgeKey 0x20).bytes = .ok entries ∧
      ∀ proofDb, ContentAddressed proofDb → (∀ x ∈ entries, proofDb x.1 = some x.2) →
        Proof.verifyProof 4 root (edgeKey 0x20).bytes proofDb = .ok (some (edgeValue 2).bytes) := by
  let _ := Keccak.edge
  obtain ⟨tr, tr', u, hnew, hrun, hvalid, hcontent, hproof⟩ :=
    verifyProof_correct opens_empty edgeOps (edgeKey 0x20)
  obtain rfl : u = edgeTree := hvalid.ext valid_edgeTree fun k =>
    congrFun (hcontent.trans ofTree_edgeTree.symm) k
  obtain ⟨root, entries, hroot, hprove, hverify⟩ := hproof (by simp [edgeTree]) unforgeable_edgeTree
  refine ⟨tr, tr', root, entries, hnew, hrun, hroot, hprove, fun proofDb hdb hall => ?_⟩
  obtain ⟨res, hfuel, -, -, hok⟩ := hverify proofDb hdb
  rw [hfuel 4 (by decide), hok hall]
  rfl

end GoQrl.Mpt
