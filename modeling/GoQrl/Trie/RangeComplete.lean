import GoQrl.Trie.Range

/-!
# GoQrl.Trie.RangeComplete

Honest range proofs are accepted: with the nodes that `Prove` writes for the edge
keys, the verifier takes the entries of the range, and says whether there are more.
The only trie for which this fails is the empty one, which has no nodes to prove
anything with.
-/

namespace GoQrl.Mpt

open Radix Mpt.Tree List Option Content Proof

section Complete

variable [Keccak] {t o : Tree} {n fuel : Nat} {firstKey lastKey : Slice}
    {pairs : List (Slice × Slice)}
  {db : ProofDb}

/-- The database has every stored node on the way to the key. -/
def Has (db : ProofDb) (t : Tree) (key : Bytes) : Prop :=
  ∀ u, Needs t (keybytesToHex key) u → db (digest u) = some (enc u)

theorem Has.agreesOn {key : Bytes} (h : Has db t key) : AgreesOn db [] t (keybytesToHex key) := by
  intro q u hu hst b hb
  rw [h u ⟨q, hu, hst⟩] at hb
  exact (some.inj hb).symm

theorem Has.not_lacks {key : Bytes} (h : Has db t key) : ¬ Lacks db t key := by
  rintro ⟨q, u, hu, hst, hnone⟩
  simp [h u ⟨q, hu, hst⟩] at hnone

/-- What follows the last of the keys, or the first key if there are none. -/
def MoreAfter (t : Tree) (firstKey : Slice) (keys : List Slice) : Prop :=
  ∃ k : Slice, Content.ofTree t k ≠ none ∧ (keys.getLastD firstKey).bytes < k.bytes

/-- The verifier accepts, and its result says whether there are more entries. -/
def Accepts (t : Tree) (firstKey : Slice) (keys : List Slice) (res : Except ProofError Bool) :
    Prop :=
  ∃ more, res = .ok more ∧ (more = true ↔ MoreAfter t firstKey keys)

omit [Keccak] in
theorem Lists.listed {covers : Slice → Prop} (h : Lists t covers pairs) (ht : Valid t)
    (hinc : pairs.Pairwise fun x y => x.1.bytes < y.1.bytes) : Listed pairs where
  increasing := hinc
  values x hx := (ht.bounded.get ((h x.1 x.2).mp hx).1).1

section Cases

variable (ht : Valid t) (h0 : t ≠ .nil) (hlen : KeyLength n t) (hf : firstKey.bytes.length = n)
  (hfuel : 2 * n + 2 ≤ fuel) (hfirst : Has db t firstKey.bytes)

include ht h0 hlen hf hfuel hfirst

/-- The path to the first key opens. -/
theorem Has.proofToPath (allow : Bool) (hget : ofTree t firstKey = none → allow = true) :
    ∃ root more, proofToPath fuel (rootHash t) none firstKey.bytes db allow =
      .ok (root, ofTree t firstKey) ∧ hasRightElement root firstKey.bytes = .ok more ∧
      (more = true ↔ ∃ k : Slice, ofTree t k ≠ none ∧ firstKey.bytes < k.bytes) := by
  rcases proofToPath_right ht h0 hlen hf hfirst.agreesOn hfuel allow with
    ⟨hlacks, -⟩ | ⟨hnone, hallow, -⟩ | hok
  · exact absurd hlacks hfirst.not_lacks
  · simp [hget hnone] at hallow
  · exact hok

/-- The empty list, when there are no entries from the first key on. -/
theorem verifyNone_complete
    (hnone : ∀ key : Slice, ofTree t key ≠ none → ¬ firstKey.bytes ≤ key.bytes) :
    verifyNone fuel (rootHash t) firstKey.bytes db = .ok false := by
  have hget : ofTree t firstKey = none := by
    by_contra hne
    exact hnone firstKey hne (List.le_refl _)
  obtain ⟨root, more, hpath, hright, hmore⟩ :=
    Has.proofToPath ht h0 hlen hf hfuel hfirst true fun _ => rfl
  have hfalse : more = false := by
    rw [Bool.eq_false_iff, ne_eq, hmore]
    rintro ⟨k, hk, hlt⟩
    exact hnone k hk (List.le_of_lt hlt)
  rw [verifyNone, hpath, hget]
  simp [hright, hfalse]

/-- One entry, which is both edges. -/
theorem verifyOne_complete {value : Slice} (hget : ofTree t firstKey = some value.bytes) :
    Accepts t firstKey [firstKey]
      (verifyOne fuel (rootHash t) firstKey.bytes firstKey.bytes value.bytes db) := by
  obtain ⟨root, more, hpath, hright, hmore⟩ :=
    Has.proofToPath ht h0 hlen hf hfuel hfirst false fun h => by rw [h] at hget; cases hget
  refine ⟨more, ?_, hmore⟩
  rw [verifyOne, hpath, hget]
  simpa using hright

/-- A list between two edges. -/
theorem verifyRange_complete (hl : lastKey.bytes.length = n) (hlt : firstKey.bytes < lastKey.bytes)
    (hlast : Has db t lastKey.bytes) (hne : pairs ≠ [])
    (hinc : pairs.Pairwise fun x y => x.1.bytes < y.1.bytes)
    (hlists : Lists t (fun key => firstKey.bytes ≤ key.bytes ∧ key.bytes ≤ lastKey.bytes) pairs) :
    Accepts t firstKey (pairs.map Prod.fst)
      (verifyRange fuel (rootHash t) firstKey.bytes lastKey.bytes pairs db) := by
  have hp := hlists.listed ht hinc
  have hmem : ∀ x ∈ pairs, ofTree t x.1 = some x.2.bytes ∧ firstKey.bytes ≤ x.1.bytes ∧
      x.1.bytes ≤ lastKey.bytes :=
    fun x hx => (hlists x.1 x.2).mp hx
  have hkeys : ∀ x ∈ pairs, x.1.bytes.length = n :=
    fun x hx => hlen x.1 (by rw [(hmem x hx).1]; simp)
  have hx := getLast_mem hne
  rcases verifyRange_spec ht h0 hlen hf hl hlt hfirst.agreesOn hlast.agreesOn hfuel hp hkeys hne
    fun x hx => (hmem x hx).2 with ⟨hlacks, -⟩ | ⟨-, hnone⟩ | ⟨s, hcut, -, -, hok⟩
  · rcases hlacks with hlacks | hlacks
    · exact absurd hlacks hfirst.not_lacks
    · exact absurd hlacks hlast.not_lacks
  · -- the last pair is in the range
    have hget := (hmem _ hx).1
    exact absurd ((inRange_hex hf hl (hkeys _ hx)).mpr (hmem _ hx).2)
      (hnone _ (by rw [ofTree] at hget; rw [hget]; simp))
  · obtain ⟨more, hres, hmore⟩ := hok (hcut.restore ht hlen hf hl hp hlists)
    refine ⟨more, hres, hmore.trans ?_⟩
    have hgl : (pairs.map Prod.fst).getLastD firstKey = (pairs.getLast hne).1 := by
      rw [getLastD_eq_getLast?, getLast?_map, getLast?_eq_some_getLast hne]
      rfl
    rw [MoreAfter, hgl]

/-- **All cases** of the verifier with a proof. -/
theorem verifyPairs_complete (hinc : pairs.Pairwise fun x y => x.1.bytes < y.1.bytes)
    (hlists : Lists t (Covers firstKey.bytes lastKey.bytes (pairs.map Prod.fst) (some db)) pairs)
    (hedge : pairs ≠ [] → lastKey.bytes.length = n ∧ firstKey.bytes ≤ lastKey.bytes ∧
      Has db t lastKey.bytes) :
    Accepts t firstKey (pairs.map Prod.fst)
      (verifyPairs fuel (rootHash t) firstKey.bytes lastKey.bytes pairs (some db)) := by
  have hwithin : pairs ≠ [] →
      Lists t (fun key => firstKey.bytes ≤ key.bytes ∧ key.bytes ≤ lastKey.bytes) pairs := by
    intro hne key value
    rw [hlists key value]
    simp [Covers, hne]
  have hrange : pairs ≠ [] → firstKey.bytes ≠ lastKey.bytes →
      Accepts t firstKey (pairs.map Prod.fst)
      (verifyRange fuel (rootHash t) firstKey.bytes lastKey.bytes pairs db) := by
    intro hne hneq
    obtain ⟨hl, hle, hlast⟩ := hedge hne
    exact verifyRange_complete ht h0 hlen hf hfuel hfirst hl
      ((List.le_iff_lt_or_eq.mp hle).resolve_right hneq) hlast hne hinc (hwithin hne)
  -- with equal edges every key is the first one
  have hequal : firstKey.bytes = lastKey.bytes → ∀ x ∈ pairs, x.1 = firstKey := by
    intro heq x hx
    obtain ⟨-, hle, hle'⟩ := (hwithin (ne_nil_of_mem hx) x.1 x.2).mp hx
    rw [← heq] at hle'
    exact Slice.ext (List.le_antisymm hle' hle)
  obtain _ | ⟨⟨key, value⟩, _ | ⟨y, rest⟩⟩ := pairs
  · have hnone : ∀ key : Slice, ofTree t key ≠ none → ¬ firstKey.bytes ≤ key.bytes := by
      intro key hget hle
      obtain ⟨v, hv⟩ := ne_none_iff_exists'.mp hget
      have := (hlists key ⟨v, (ht.bounded.get hv).2⟩).mpr ⟨hv, hle, fun h => absurd rfl h⟩
      cases this
    refine ⟨false, verifyNone_complete ht h0 hlen hf hfuel hfirst hnone, iff_of_false (by simp) ?_⟩
    rintro ⟨k, hget, hlt⟩
    exact hnone k hget (List.le_of_lt hlt)
  · rw [verifyPairs]
    split
    · next heq =>
      obtain rfl : key = firstKey := hequal heq _ mem_cons_self
      exact verifyOne_complete ht h0 hlen hf hfuel hfirst ((hlists _ _).mp mem_cons_self).1
    · next hneq => exact hrange (by simp) hneq
  · refine hrange (by simp) fun heq => ?_
    have hlt := (pairwise_cons.mp hinc).1 y mem_cons_self
    rw [hequal heq (key, value) mem_cons_self,
      hequal heq y (mem_cons_of_mem _ mem_cons_self)] at hlt
    exact List.lt_irrefl _ hlt

end Cases

/-- **Range proof completeness.**  Open a trie, run any calls, and let the result be not
empty and have keys of one length.  Take the entries between two edge keys, one entry that
is both edges, or no pairs if there are no entries from the first key on.  With a proof
that contains what the trie's own `Prove` wrote for the edges, the verifier accepts them,
and its result says whether there are entries after the last key. -/
theorem verifyRangeProof_complete {readers : Hash → Option Reader} {id : ID}
    (h : Opens readers id o) (ops : List Op) (firstKey lastKey : Slice) :
    ∃ tr tr' u, Trie.new id readers = .ok tr ∧ tr.run ops = .ok tr' ∧ Valid u ∧
      Content.ofTree u = (Content.ofTree o).applyAll ops ∧
      (u ≠ .nil → KeyLength firstKey.bytes.length u → ∃ root first last,
        tr'.hash.1 = .ok root ∧ tr'.prove firstKey.bytes = .ok first ∧
        tr'.prove lastKey.bytes = .ok last ∧
        ∀ proof : ProofDb, (∀ x ∈ first, proof x.1 = some x.2) →
          (∀ x ∈ last, proof x.1 = some x.2) → ∀ keys values,
          RangeEntries u (Covers firstKey.bytes lastKey.bytes keys (some proof)) keys values →
          (keys ≠ [] → lastKey.bytes.length = firstKey.bytes.length ∧
            firstKey.bytes ≤ lastKey.bytes) → ∀ fuel, 2 * firstKey.bytes.length + 2 ≤ fuel →
          Accepts u firstKey keys
            (Proof.verifyRangeProof fuel root firstKey.bytes lastKey.bytes keys values
              (some proof))) := by
  obtain ⟨tr, hnew, hinv⟩ := new_spec h
  obtain ⟨tr', u, hrun, hinv', hcontent⟩ := run_spec hinv ops
  refine ⟨tr, tr', u, hnew, hrun, hinv'.valid, hcontent, fun h0 hlen => ?_⟩
  obtain ⟨first, hprove₁, hfirst⟩ := hinv'.prove firstKey
  obtain ⟨last, hprove₂, hlast⟩ := hinv'.prove lastKey
  refine ⟨rootHash u, first, last, hinv'.hash.1, hprove₁, hprove₂, ?_⟩
  intro proof hdb₁ hdb₂ keys values hentries hedge fuel hfuel
  obtain ⟨pairs, rfl, rfl⟩ : ∃ pairs, keys = pairs.map Prod.fst ∧ values = pairs.map Prod.snd :=
    ⟨keys.zip values, (map_fst_zip hentries.length.le).symm,
      (map_snd_zip hentries.length.ge).symm⟩
  have hlists := hentries.entries
  rw [← zip_of_prod rfl rfl] at hlists
  have hinc := pairwise_map.mp hentries.increasing
  rw [verifyRangeProof_of_listed (hlists.listed hinv'.valid hinc)]
  refine verifyPairs_complete hinv'.valid h0 hlen rfl hfuel
    (fun u hu => hdb₁ _ (hfirst u hu)) hinc hlists
    fun hne => ?_
  obtain ⟨hl, hle⟩ := hedge (by simpa using hne)
  exact ⟨hl, hle, fun u hu => hdb₂ _ (hlast u hu)⟩

end Complete

/-! ## worked examples -/

/-- The second of two entries is the range from `0x18` to `0x2f`. -/
theorem rangeEntries_edgeTree (proof : ProofDb) :
    RangeEntries edgeTree
      (Covers (edgeKey 0x18).bytes (edgeKey 0x2f).bytes [edgeKey 0x20] (some proof))
      [edgeKey 0x20] [edgeValue 2] where
  length := rfl
  increasing := by simp
  entries key value := by
    have hget : ofTree edgeTree (edgeKey 0x20) = some (edgeValue 2).bytes := by decide
    simp only [zip_cons_cons, zip_nil_left, mem_singleton, Prod.mk.injEq]
    constructor
    · rintro ⟨rfl, rfl⟩
      exact ⟨hget, by decide, fun _ => by decide⟩
    · rintro ⟨hv, hle, -⟩
      rcases eq_edgeKey (by rw [hv]; simp) with rfl | rfl
      · exact absurd hle (by decide)
      · exact ⟨rfl, Slice.ext (some.inj (hv.symm.trans hget))⟩

/-- The range with the second of two entries is accepted. -/
theorem verifyRangeProof_complete_sample :
    letI := Keccak.edge
    ∃ tr tr' root first last,
      Trie.new ⟨Hash.zero, Hash.zero, emptyRootHash⟩ (fun _ => none) = .ok tr ∧
      tr.run edgeOps = .ok tr' ∧ tr'.hash.1 = .ok root ∧
      tr'.prove [0x18] = .ok first ∧ tr'.prove [0x2f] = .ok last ∧
      ∀ proof : ProofDb, (∀ x ∈ first, proof x.1 = some x.2) → (∀ x ∈ last, proof x.1 = some x.2) →
        Proof.verifyRangeProof 4 root [0x18] [0x2f] [edgeKey 0x20] [edgeValue 2] (some proof) =
          .ok false := by
  let _ := Keccak.edge
  obtain ⟨tr, tr', u, hnew, hrun, hvalid, hcontent, hproof⟩ :=
    verifyRangeProof_complete opens_empty edgeOps (edgeKey 0x18) (edgeKey 0x2f)
  obtain rfl : u = edgeTree := hvalid.ext valid_edgeTree fun k =>
    congrFun (hcontent.trans ofTree_edgeTree.symm) k
  obtain ⟨root, first, last, hroot, hfirst, hlast, hverify⟩ :=
    hproof (by simp [edgeTree]) keyLength_edgeTree
  refine ⟨tr, tr', root, first, last, hnew, hrun, hroot, hfirst, hlast, fun proof h₁ h₂ => ?_⟩
  obtain ⟨more, hres, hmore⟩ := hverify proof h₁ h₂ [edgeKey 0x20] [edgeValue 2]
    (rangeEntries_edgeTree proof) (fun _ => ⟨rfl, by decide⟩) 4 (by decide)
  have hfalse : more = false := by
    rw [Bool.eq_false_iff, ne_eq, hmore]
    rintro ⟨k, hget, hlt⟩
    rcases eq_edgeKey hget with rfl | rfl <;> exact absurd hlt (by decide)
  rwa [← hfalse]

/-- **The empty trie** has no entry from any key on, and its `Prove` writes nothing; the
verifier misses the root node and rejects the empty list. -/
theorem verifyRangeProof_rejects_empty :
    letI := Keccak.sample
    ∃ tr, Trie.new ⟨Hash.zero, Hash.zero, emptyRootHash⟩ (fun _ => none) = .ok tr ∧
      tr.hash.1 = .ok (rootHash .nil) ∧ tr.prove [0x60] = .ok [] ∧ tr.prove [0x62] = .ok [] ∧
      RangeEntries .nil (Covers [0x60] [0x62] [] (some fun _ => none)) [] [] ∧
      Proof.verifyRangeProof 4 (rootHash .nil) [0x60] [0x62] [] [] (some fun _ => none) =
        .error (.missing emptyRootHash) := by
  refine ⟨_, rfl, rfl, rfl, rfl, ⟨rfl, .nil, fun key value => ?_⟩, rfl⟩
  refine iff_of_false (by simp) fun h => ?_
  cases h.1

end GoQrl.Mpt
