import GoQrl.Trie.StackRefine

/-!
# GoQrl.Trie.StackInsert

Insertion into a stack trie.  A key that comes after all keys of a tree and
extends none of them (`Above`) runs along the right edge of the stack trie,
which is never hashed (`Open`).  So the insertion succeeds, refines the insertion
into the tree, and writes exactly the nodes to the left of the new key.
-/

namespace GoQrl.Mpt

open Rlp Radix Mpt.Tree Function StackNode
open List hiding nil get insert

/-! ## keys in increasing order -/

/-- After a common part, `K` goes on with the larger digit. -/
def Diverges (key K : Hex) : Prop :=
  ∃ p a b r r', key = p ++ a :: r ∧ K = p ++ b :: r' ∧ a < b

variable {key : Hex} {i : Nibble} {K k pre : Hex} {a b : Nibble} {t c : Tree} {cs : Nibble → Tree}
  {n : StackNode} {w : List NodeWrite} {ch : Nibble → StackNode}

theorem not_diverges_nil : ¬ Diverges [] K := by
  rintro ⟨p, a, b, r, r', h, -⟩
  simp at h

theorem Diverges.ne_nil (h : Diverges key K) : K ≠ [] := by
  obtain ⟨p, a, b, r, r', -, rfl, -⟩ := h
  simp

/-- Two keys diverge at the first symbol or behind it. -/
theorem diverges_cons : Diverges (a :: key) (b :: K) ↔ a < b ∨ (a = b ∧ Diverges key K) := by
  constructor
  · rintro ⟨p, x, y, r, r', h1, h2, hxy⟩
    cases p with
    | nil =>
      rw [nil_append, List.cons.injEq] at h1 h2
      rw [h1.1, h2.1]
      exact .inl hxy
    | cons c p =>
      rw [cons_append, List.cons.injEq] at h1 h2
      exact .inr ⟨h1.1.trans h2.1.symm, p, x, y, r, r', h1.2, h2.2, hxy⟩
  · rintro (h | ⟨rfl, p, x, y, r, r', rfl, rfl, hxy⟩)
    · exact ⟨[], a, b, key, K, rfl, rfl, h⟩
    · exact ⟨a :: p, x, y, r, r', rfl, rfl, hxy⟩

/-- A common start does not matter. -/
theorem diverges_append : Diverges (k ++ key) (k ++ K) ↔ Diverges key K := by
  induction k with
  | nil => rfl
  | cons a k ih => simp [diverges_cons, ih]

/-- Against a label, a larger key either follows it or leaves it upwards. -/
theorem Diverges.label {r : Hex} (h : Diverges (k ++ r) K) :
    (∃ K', K = k ++ K' ∧ Diverges r K') ∨
      ∃ p a k' b K', k = p ++ a :: k' ∧ K = p ++ b :: K' ∧ a < b := by
  induction k generalizing K with
  | nil => exact .inl ⟨K, rfl, h⟩
  | cons x k ih =>
    obtain ⟨y, K, rfl⟩ := exists_cons_of_ne_nil h.ne_nil
    rcases diverges_cons.mp h with hlt | ⟨rfl, hd⟩
    · exact .inr ⟨[], x, k, y, K, rfl, rfl, hlt⟩
    · rcases ih hd with ⟨K', rfl, h'⟩ | ⟨p, a, k', b, K', rfl, rfl, hab⟩
      · exact .inl ⟨K', rfl, h'⟩
      · exact .inr ⟨x :: p, a, k', b, K', rfl, rfl, hab⟩

/-- `K` comes after every key of the tree. -/
def Above (t : Tree) (K : Hex) : Prop :=
  ∀ key, Terminated term key → t.get key ≠ none → Diverges key K

theorem Above.ne_nil (ht : t.Canon term) (h0 : t ≠ .nil) (h : Above t K) : K ≠ [] := by
  obtain ⟨key, hkey, hget⟩ := ht.exists_get h0
  exact (h key hkey hget).ne_nil

/-- A key above a branch is above the child that it goes into. -/
theorem Above.child_full (hi : i ≠ term) (h : Above (.full cs) (i :: K)) : Above (cs i) K := by
  intro key hkey hget
  rcases diverges_cons.mp (h (i :: key) (.inr ⟨hi, hkey⟩) hget) with hlt | ⟨-, hd⟩
  · exact absurd hlt (lt_irrefl i)
  · exact hd

/-- A branching node has no child to the right of a larger key. -/
theorem Above.right_nil (ht : (Tree.full cs).Canon term) {j : Nibble}
    (h : Above (.full cs) (i :: K)) (hij : i < j) : cs j = .nil := by
  by_contra hne
  obtain ⟨key, hkey, hget⟩ := ht.exists_get_child hne
  rcases diverges_cons.mp (h (j :: key) hkey hget) with hlt | ⟨rfl, -⟩
  · exact absurd hlt (lt_asymm hij)
  · exact absurd hij (lt_irrefl _)

/-- So it is at an edge. -/
theorem Above.child_short (hk : term ∉ k) (h : Above (.short k c) (k ++ K)) : Above c K := by
  intro key hkey hget
  refine diverges_append.mp (h (k ++ key) ((terminated_append_iff hk).mpr hkey) ?_)
  rwa [Tree.get_short_append]

/-- Above an edge, a key follows its label or leaves it upwards. -/
theorem Above.label (ht : (Tree.short k c).Canon term) (h : Above (.short k c) K) :
    (∃ K', K = k ++ K' ∧ K' ≠ []) ∨ ∃ p a k' b K', k = p ++ a :: k' ∧ K = p ++ b :: K' ∧ a < b := by
  obtain ⟨key, hkey, hget⟩ := ht.exists_get (by simp)
  obtain ⟨r, rfl⟩ := Tree.prefix_of_get_short hget
  rcases (h _ hkey hget).label with ⟨K', rfl, hd⟩ | hsplit
  · exact .inl ⟨K', rfl, hd.ne_nil⟩
  · exact .inr hsplit

/-! ## single steps of the insertion -/

namespace StackNode

/-- A key that goes on below the node differs nowhere. -/
theorem getDiffIndex_append (k key : Hex) : getDiffIndex k (k ++ key) = .ok k.length := by
  induction k with
  | nil => cases key <;> rfl
  | cons a k ih => simp [getDiffIndex, ih, Except.map]

/-- The index of the first difference. -/
theorem getDiffIndex_split (p : Hex) (hab : a ≠ b) (k key : Hex) :
    getDiffIndex (p ++ a :: k) (p ++ b :: key) = .ok p.length := by
  induction p with
  | nil => simp [getDiffIndex, hab]
  | cons c p ih => simp [getDiffIndex, ih, Except.map]

/-- The elder sibling is a child to the left. -/
theorem elder_spec {children : Nibble → StackNode} {n : Nat} {i : Nibble}
    (h : elder children n = some i) : i.val < n ∧ (children i).isNil = false := by
  induction n with
  | zero => cases h
  | succ n ih =>
    rw [elder] at h
    split at h
    · split at h
      · exact (ih h).imp_left Nat.lt_succ_of_lt
      · next hn =>
        obtain rfl := Option.some.inj h
        exact ⟨Nat.lt_succ_self n, by simpa using hn⟩
    · exact (ih h).imp_left Nat.lt_succ_of_lt

/-- A node below a label that may be empty. -/
def under (k : Hex) (n : StackNode) : StackNode := if k.length = 0 then n else ext k n

theorem take_past (p : Hex) (a : Nibble) (k : Hex) :
    (p ++ a :: k).take (p.length + 1) = p ++ [a] := by
  rw [append_cons]
  exact take_left' (by simp)

variable [Keccak] {owner : Hash} {p : Hex} {v : Bytes} {h : StackNode}

/-- A key that goes on below an extension is inserted into its child. -/
theorem insert_ext_append (hrec : insert owner n K v (pre ++ k) = .ok (h, w)) :
    insert owner (ext k n) (k ++ K) v pre = .ok (ext k h, w) := by
  rw [insert, getDiffIndex_append]
  simp [hrec]

/-- An extension is split where the key leaves it, and its end is hashed. -/
theorem insert_ext_split (hab : a ≠ b) (ha : a ≠ term) (hb : b ≠ term)
    (hhash : hash owner (under k n) (pre ++ p ++ [a]) = .ok (h, w)) :
    insert owner (ext (p ++ a :: k) n) (p ++ b :: K) v pre =
      .ok (under p (fork a h b (leaf K v)), w) := by
  have horig : (if p.length < (p ++ a :: k).length - 1 then
      hash owner (ext ((p ++ a :: k).drop (p.length + 1)) n)
        (pre ++ (p ++ a :: k).take (p.length + 1))
      else hash owner n (pre ++ (p ++ a :: k))) = .ok (h, w) := by
    cases k with
    | nil => simpa [under] using hhash
    | cons c k => simpa [under, take_past] using hhash
  rw [insert, getDiffIndex_split p hab]
  simp only [horig]
  simp [ha, hb, under]

/-- So is a leaf. -/
theorem insert_leaf_split {val : Bytes} (hab : a ≠ b) (ha : a ≠ term) (hb : b ≠ term)
    (hhash : hash owner (leaf k val) (pre ++ p ++ [a]) = .ok (h, w)) :
    insert owner (leaf (p ++ a :: k) val) (p ++ b :: K) v pre =
      .ok (under p (fork a h b (leaf K v)), w) := by
  rw [insert, getDiffIndex_split p hab]
  have horig : hash owner (leaf ((p ++ a :: k).drop (p.length + 1)) val)
      (pre ++ (p ++ a :: k).take (p.length + 1)) = .ok (h, w) := by
    simpa [take_past] using hhash
  simp only [horig]
  simp [ha, hb, under]

/-- Hashing a node writes what it has not written before. -/
theorem hash_wrote (hrep : StackRep n t) (hs : Sized t) (hnil : n.isNil = false) (pre : Hex) :
    ∃ w, hash owner n pre = .ok (hashed (hashedVal t), w) ∧
      Wrote owner pre n t (hashed (hashedVal t)) t w := by
  obtain ⟨w, hexec, hw⟩ : Hashes owner pre n t _ := hashRec_spec hrep hs hnil
  exact ⟨w, by rw [hash, hexec], hw⟩

end StackNode

/-! ## the right edge -/

/-- The right edge of the node is not hashed. -/
def Open : StackNode → Prop
  | .leaf _ _ => True
  | .ext _ n => Open n
  | .branch ch => ∀ i, (ch i).isNil = false → (∀ j, i < j → (ch j).isNil = true) → Open (ch i)
  | _ => False

theorem Open.under (h : Open n) : Open (n.under k) := by
  unfold StackNode.under
  split
  · exact h
  · exact h

/-- Where the last child is put, the right edge goes on in it. -/
theorem open_update (h : Open n) (hn : n.isNil = false)
    (hr : ∀ j, i < j → (ch j).isNil = true) : Open (.branch (update ch i n)) := by
  intro j hj hlast
  rcases lt_trichotomy j i with hlt | rfl | hgt
  · have := hlast i hlt
    simp [update_self, hn] at this
  · rwa [update_self]
  · simp [update_of_ne hgt.ne', hr j hgt] at hj

section Insertion

variable [Keccak] {owner : Hash} {p : Hex} {st : StackNode} {v : Bytes}

/-- The writes are the same for nodes that have the same ones ahead. -/
theorem Wrote.congr {q : Hex} {st' s s' : StackNode} {t' u u' : Tree}
    (h : Wrote owner p st t st' t' w) (h1 : ∀ x, Emitted owner q s u x ↔ Emitted owner p st t x)
    (h2 : ∀ x, Emitted owner q s' u' x ↔ Emitted owner p st' t' x) : Wrote owner q s u s' u' w :=
  ⟨fun x => by rw [h1, h2, h.all], fun x hx y hy => h.fresh x hx y ((h1 y).mp hy), h.nodup⟩

/-- Putting an edge on top of a node writes nothing. -/
theorem emitted_under (x : NodeWrite) :
    Emitted owner p (n.under k) (Tree.chain k t) x ↔ Emitted owner (p ++ k) n t x := by
  cases k with
  | nil =>
    rw [append_nil]
    rfl
  | cons a k => rfl

omit [Keccak] in
theorem chain_concat (k : Hex) (v : Bytes) :
    Tree.chain (k ++ [term]) (.value v) = (.short (k ++ [term]) (.value v) : Tree) := by
  cases k <;> rfl

/-- Replacing a child of a branching node. -/
theorem stackRep_update (hc : ∀ i, StackRep (ch i) (cs i)) (h : StackRep n t) (i j : Nibble) :
    StackRep (update ch i n j) (update cs i t j) := by
  by_cases hji : j = i
  · subst hji
    rwa [update_self, update_self]
  · rw [update_of_ne hji, update_of_ne hji]
    exact hc j

/-- A node below an edge stands for the tree below the edge. -/
theorem StackRep.under (h : StackRep n t) (hn : Tree.isNode t) :
    StackRep (n.under k) (Tree.chain k t) := by
  cases k with
  | nil => exact h
  | cons a k => exact .ext h hn

/-- Hashing the elder sibling changes neither the tree nor the children from `idx` on. -/
theorem hashElder_spec (owner : Hash) (idx : Nibble) (pre : Hex)
    (hc : ∀ i, StackRep (ch i) (cs i)) (hs : ∀ i, i < idx → Sized (cs i)) :
    ∃ ch' w, hashElder owner ch idx pre = .ok (ch', w) ∧
      (∀ i, StackRep (ch' i) (cs i)) ∧ (∀ i, idx ≤ i → ch' i = ch i) ∧
      Wrote owner pre (.branch ch) (.full cs) (.branch ch') (.full cs) w := by
  have hsame : ∃ ch' w, Except.ok (ε := TrieError) (ch, ([] : List NodeWrite)) = .ok (ch', w) ∧
      (∀ i, StackRep (ch' i) (cs i)) ∧ (∀ i, idx ≤ i → ch' i = ch i) ∧
      Wrote owner pre (.branch ch) (.full cs) (.branch ch') (.full cs) w :=
    ⟨ch, [], rfl, hc, fun _ _ => rfl, .none fun _ => Iff.rfl⟩
  unfold hashElder
  cases hel : elder ch idx.val with
  | none => exact hsame
  | some i =>
    obtain ⟨hlt, hnil⟩ := elder_spec hel
    simp only
    split
    · exact hsame
    · obtain ⟨w, hexec, hw⟩ := hash_wrote (hc i) (hs i hlt) hnil (pre ++ [i])
      refine ⟨update ch i (.hashed (hashedVal (cs i))), w, by rw [hexec], fun j => ?_,
        fun j hj => ?_, ?_⟩
      · simpa using stackRep_update hc (.hashed ((hc i).isNode hnil)) i j
      · exact update_of_ne (by rintro rfl; exact absurd hlt (not_lt.mpr hj)) _ _
      · have := hw.branch
        rwa [update_eq_self] at this

/-- What inserting does. -/
def StackInserts (owner : Hash) (pre : Hex) (st : StackNode) (t t' : Tree)
    (res : Except TrieError (StackNode × List NodeWrite)) : Prop :=
  ∃ st' w, res = .ok (st', w) ∧ StackRep st' t' ∧ Open st' ∧ st'.isNil = false ∧
    Wrote owner pre st t st' t' w

/-- A new branching node, with the old part `o` hashed and the new leaf to its right. -/
theorem StackInserts.split {o : StackNode} {res : Except TrieError (StackNode × List NodeWrite)}
    (hab : a < b) (hb : b ≠ term) (hn : isNode (Tree.chain k c))
    (hsame : ∀ x, Emitted owner pre st (.short (p ++ a :: k) c) x ↔
      Emitted owner (pre ++ p ++ [a]) o (Tree.chain k c) x)
    (hw : Wrote owner (pre ++ p ++ [a]) o (Tree.chain k c)
      (.hashed (hashedVal (Tree.chain k c))) (Tree.chain k c) w)
    (hres : res = .ok
      (StackNode.under p (.fork a (.hashed (hashedVal (Tree.chain k c))) b (.leaf K v)), w)) :
    StackInserts owner pre st (.short (p ++ a :: k) c)
      ((Tree.short (p ++ a :: k) c).insert v (p ++ b :: (K ++ [term]))) res := by
  have hne : a ≠ b := hab.ne
  have hat : a ≠ term := fun h => absurd hab (not_lt.mpr (h ▸ Fin.le_last b))
  rw [Tree.insert, divide_split p _ _ hne]
  have hrep : ∀ i, StackRep (update (update (fun _ => nil) a
      (hashed (hashedVal (Tree.chain k c)))) b (leaf K v) i)
      (Tree.branch a (Tree.chain k c) b (Tree.chain (K ++ [term]) (.value v)) i) :=
    stackRep_update (stackRep_update (fun _ => .nil) (.hashed hn) a)
      (chain_concat K v ▸ .leaf K v) b
  refine ⟨_, w, hres, .under (.branch hrep ?_) rfl, .under (open_update trivial rfl ?_), ?_, ?_⟩
  · rw [update_of_ne hb.symm, update_of_ne hat.symm]
  · intro j hj
    rw [update_of_ne (hab.trans hj).ne']
    rfl
  · unfold under
    split <;> rfl
  · refine hw.congr hsame fun x => ?_
    rw [emitted_under]
    constructor
    · rintro ⟨i, hi⟩
      by_cases hib : i = b
      · subst hib
        rw [update_self] at hi
        exact hi.elim
      · by_cases hia : i = a
        · subst hia
          rwa [update_of_ne hib, update_self, Tree.branch_left hne] at hi
        · rw [update_of_ne hib, update_of_ne hia] at hi
          exact hi.elim
    · intro hx
      refine ⟨a, ?_⟩
      rwa [update_of_ne hne, update_self, Tree.branch_left hne]

omit [Keccak] in
/-- The old part of a split edge is a part of the new tree. -/
theorem sized_cut (hab : a ≠ b) (hs : Sized ((Tree.short (p ++ a :: k) c).insert v (p ++ b :: K))) :
    Sized (Tree.chain k c) := by
  rw [Tree.insert, divide_split p _ _ hab] at hs
  have hfull : Sized (.full (Tree.branch a (Tree.chain k c) b (Tree.chain K (.value v)))) := by
    cases p with
    | nil => exact hs
    | cons x p => exact hs.child_short
  have := hfull.child_full a
  rwa [Tree.branch_left hab] at this

/-- **Inserting a key above all others** into a stack trie node. -/
theorem stackInsert_spec (hrep : StackRep st t) (hopen : Open st) (hcan : t.Canon term)
    (hK : term ∉ K) (habove : Above t K) (hs : Sized (t.insert v (K ++ [term]))) :
    StackInserts owner pre st t (t.insert v (K ++ [term])) (StackNode.insert owner st K v pre) := by
  induction hrep generalizing K pre with
  | nil | hashed => exact hopen.elim
  | leaf k val =>
    rcases habove.label hcan with ⟨K', rfl, -⟩ | ⟨p, a, k', b, K', hk, rfl, hab⟩
    · exact absurd (by simp) hK
    · have hb : b ≠ term := fun h => hK (by simp [h])
      have ha : a ≠ term := fun h => absurd hab (not_lt.mpr (h ▸ Fin.le_last b))
      obtain ⟨k', rfl, rfl⟩ : ∃ r, k' = r ++ [term] ∧ k = p ++ a :: r := by
        rcases eq_nil_or_concat k' with rfl | ⟨r, x, rfl⟩
        · have := append_inj_right' hk rfl
          exact absurd (by simpa using this.symm) ha
        · rw [concat_eq_append, ← cons_append, ← append_assoc] at hk
          obtain ⟨h1, h2⟩ := append_inj' hk rfl
          exact ⟨r, by rw [concat_eq_append, h2], h1⟩
      have hchain := chain_concat k' val
      rw [append_assoc, append_assoc] at hs ⊢
      have hrep : StackRep (.leaf k' val) (Tree.chain (k' ++ [term]) (.value val)) :=
        hchain ▸ .leaf k' val
      obtain ⟨w, hexec, hw⟩ := hash_wrote hrep (sized_cut hab.ne hs) rfl (pre ++ p ++ [a])
      refine .split hab hb (hchain ▸ rfl) (fun x => ?_) hw (insert_leaf_split hab.ne ha hb hexec)
      rfl
  | @ext k n c hc hn ih =>
    rcases hcan with ⟨-, hval⟩ | ⟨hk0, hk, hf, hcc⟩
    · obtain ⟨v, rfl⟩ := hval.cases
      cases hn
    rcases habove.label (.inr ⟨hk0, hk, hf, hcc⟩) with ⟨K', rfl, -⟩ | ⟨p, a, k', b, K',
      rfl, rfl, hab⟩
    · have hins : (Tree.short k c).insert v (k ++ K' ++ [term]) =
          .short k (c.insert v (K' ++ [term])) := by
        rw [append_assoc, Tree.insert, divide_append]
      rw [hins] at hs ⊢
      have hkid : StackInserts owner (pre ++ k) n c _ _ := ih hopen hcc
        (fun h => hK (mem_append_right _ h)) (habove.child_short hk) hs.child_short
      obtain ⟨st', w, hexec, hrep', hopen', hnil', hw⟩ := hkid
      exact ⟨.ext k st', w, insert_ext_append hexec, .ext hrep' (hrep'.isNode hnil'), hopen',
        rfl, hw.ext⟩
    · have hb : b ≠ term := fun h => hK (by simp [h])
      have ha : a ≠ term := fun h => hk (by simp [h])
      rw [append_assoc] at hs ⊢
      have hrep : StackRep (n.under k') (Tree.chain k' c) := hc.under hn
      have hnil : (n.under k').isNil = false := by
        cases k' with
        | nil => exact Bool.eq_false_iff.mpr fun hnil => by cases hc.isNil.mp hnil ▸ hn
        | cons x k' => rfl
      obtain ⟨w, hexec, hw⟩ := hash_wrote hrep (sized_cut hab.ne hs) hnil (pre ++ p ++ [a])
      refine .split hab hb (hrep.isNode hnil) (fun x => ?_) hw (insert_ext_split hab.ne ha hb hexec)
      rw [emitted_under]
      simp [Emitted]
  | @branch ch cs hc hterm ih =>
    obtain ⟨idx, K, rfl⟩ := exists_cons_of_ne_nil (habove.ne_nil hcan (by simp))
    have hidx : idx ≠ term := fun h => hK (by simp [h])
    have hr : ∀ j, idx < j → (ch j).isNil = true :=
      fun j hj => (hc j).isNil.mpr (habove.right_nil hcan hj)
    have hleft : ∀ i, i < idx → Sized (cs i) := by
      intro i hi
      have := hs.child_full i
      rwa [update_of_ne hi.ne] at this
    obtain ⟨ch', w, hexec, hrep', hsame, hw⟩ := hashElder_spec owner idx pre hc hleft
    have hidx' : ch' idx = ch idx := hsame idx le_rfl
    -- the child at `idx` is a new leaf or the result of the recursive call
    have hkid : ∃ st' w', StackNode.insert owner (.branch ch) (idx :: K) v pre =
          .ok (.branch (update ch' idx st'), w ++ w') ∧
        StackRep st' ((cs idx).insert v (K ++ [term])) ∧ Open st' ∧ st'.isNil = false ∧
        Wrote owner (pre ++ [idx]) (ch' idx) (cs idx) st' ((cs idx).insert v (K ++ [term])) w' := by
      rw [hidx', StackNode.insert, if_neg hidx, hexec]
      cases hnil : (ch idx).isNil with
      | true =>
        have hcs := (hc idx).isNil.mp hnil
        have hch : ch idx = .nil := by
          cases hch : ch idx with
          | nil => rfl
          | _ => rw [hch] at hnil; cases hnil
        have hleaf : (cs idx).insert v (K ++ [term]) = .short (K ++ [term]) (.value v) :=
          hcs ▸ chain_concat K v
        refine ⟨.leaf K v, [], by simp, hleaf ▸ .leaf K v, trivial, rfl, ?_⟩
        rw [hch, hcs]
        exact .none fun _ => Iff.rfl
      | false =>
        have hsized := hs.child_full idx
        rw [update_self] at hsized
        have hrec : StackInserts owner (pre ++ [idx]) (ch idx) (cs idx) _ _ :=
          ih idx (hopen idx hnil hr) (hcan.1.2 idx hidx) (fun h => hK (mem_cons_of_mem _ h))
            (habove.child_full hidx) hsized
        obtain ⟨st', w', hexec', hrest⟩ := hrec
        exact ⟨st', w', by simp [hexec'], hrest⟩
    obtain ⟨st', w', hexec', hrep'', hopen', hnil', hw'⟩ := hkid
    refine ⟨_, w ++ w', hexec', .branch (stackRep_update hrep' hrep'' idx) ?_,
      open_update hopen' hnil' fun j hj => ?_, rfl, hw.trans hw'.branch⟩
    · rw [update_of_ne hidx.symm, hsame term (Fin.le_last idx), hterm]
    · rw [hsame j hj.le]
      exact hr j hj

end Insertion

end GoQrl.Mpt
