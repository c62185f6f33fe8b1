import GoQrl.Chain.Database

/-!
# GoQrl.Chain.GetHash

`GetHashFn` of `core/qrvm.go`: the hashes of the ancestors of a header, by number.

The function keeps the hashes it has met (`Kept`), whatever was asked before.  So each answer is the
hash of the ancestor (`queries_spec`).
-/

namespace GoQrl.Chain

open List

variable (getHeader : Hash → Nat → Option Header)

/-- The loop over the ancestors that are not in the cache. -/
def walkAncestors (n : Nat) : Nat → Hash → Nat → List Hash → Option (Hash × List Hash)
  | 0, _, _, _ => none
  | fuel + 1, lastKnownHash, lastKnownNumber, cache =>
    match getHeader lastKnownHash lastKnownNumber with
    | none => some (Hash.zero, cache)
    | some header =>
      if n = pred64 header.number then some (header.parentHash, cache ++ [header.parentHash])
      else walkAncestors n fuel header.parentHash (pred64 header.number)
        (cache ++ [header.parentHash])

/-- The function that `GetHashFn` returns, with its cache. -/
def getHash (ref : Header) (cache : List Hash) (n : Nat) : Option (Hash × List Hash) :=
  if ref.number ≤ n then some (Hash.zero, cache)
  else
    let cache := if cache.length = 0 then [ref.parentHash] else cache
    match cache[ref.number - n - 1]? with
    | some hash => some (hash, cache)
    | none => walkAncestors getHeader n ref.number (cache.getLast?.getD Hash.zero)
      (ref.number - cache.length) cache

/-- Queries one after the other. -/
def queries (ref : Header) : List Nat → List Hash → Option (List Hash)
  | [], _ => some []
  | n :: ns, cache =>
    match getHash getHeader ref cache n with
    | none => none
    | some (hash, cache) => (queries ref ns cache).map (hash :: ·)

/-- The header and its ancestors, by number; the ancestors are stored. -/
structure Ancestors (ref : Header) (c : Nat → Header) : Prop where
  top : c ref.number = ref
  number : ∀ k ≤ ref.number, (c k).number = k
  parent : ∀ k < ref.number, (c (k + 1)).parentHash = (c k).hash
  stored : ∀ k < ref.number, getHeader (c k).hash k = some (c k)
  bound : ref.number < 2 ^ 64

/-- The cache has the hashes below a height, from the parent on. -/
def Kept (c : Nat → Header) (height : Nat) (cache : List Hash) : Prop :=
  cache.length ≤ height ∧ ∀ i < cache.length, cache[i]? = some (c (height - i - 1)).hash

variable {getHeader} {ref : Header} {c : Nat → Header} {n : Nat} {cache : List Hash}

theorem Kept.snoc {height : Nat} (h : Kept c height cache) (hlt : cache.length < height)
    {hash : Hash}
    (hhash : hash = (c (height - cache.length - 1)).hash) : Kept c height (cache ++ [hash]) := by
  refine ⟨by simpa, fun i hi => ?_⟩
  rw [length_append, length_singleton] at hi
  by_cases heq : i = cache.length
  · rw [heq, hhash, getElem?_concat_length]
  · rw [getElem?_append_left (by omega), h.2 i (by omega)]

/-- **The loop** finds the ancestor, and keeps the hashes on the way. -/
theorem walkAncestors_spec (h : Ancestors getHeader ref c) (hkept : Kept c ref.number cache)
    (hpos : 0 < cache.length) {m : Nat} (hm : m = ref.number - cache.length) (hn : n < m)
    {fuel : Nat} (hfuel : m ≤ fuel) :
    ∃ cache', walkAncestors getHeader n fuel (c m).hash m cache = some ((c n).hash, cache') ∧
      Kept c ref.number cache' := by
  induction fuel generalizing m cache with
  | zero => omega
  | succ fuel ih =>
    obtain ⟨m, rfl⟩ : ∃ k, m = k + 1 := ⟨m - 1, by omega⟩
    have hbound := h.bound
    have hkept' := hkept.snoc (by omega) (show (c m).hash = _ by rw [← hm, Nat.add_sub_cancel])
    rw [walkAncestors, h.stored _ (by omega)]
    simp only [h.number _ (show m + 1 ≤ ref.number by omega),
      pred64_succ (show m + 1 < 2 ^ 64 by omega),
      h.parent m (by omega)]
    split
    next heq => exact ⟨_, by rw [heq], hkept'⟩
    next hne => exact ih hkept' (by simp) (by simp; omega) (by omega) (by omega)

/-- **A query**, after any others. -/
theorem getHash_spec (h : Ancestors getHeader ref c) (hkept : Kept c ref.number cache) (n : Nat) :
    ∃ cache', getHash getHeader ref cache n =
      some (if n < ref.number then (c n).hash else Hash.zero, cache') ∧
      Kept c ref.number cache' := by
  unfold getHash
  by_cases hle : ref.number ≤ n
  · exact ⟨cache, by rw [if_pos hle, if_neg (by omega)], hkept⟩
  · obtain ⟨k, hk, hkept, hpos⟩ : ∃ k, (if cache.length = 0 then [ref.parentHash] else cache) = k ∧
        Kept c ref.number k ∧ 0 < k.length := by
      split
      next hnil =>
        obtain rfl := length_eq_zero_iff.mp hnil
        refine ⟨_, rfl, hkept.snoc (by simp; omega) ?_, by simp⟩
        have hparent := h.parent (ref.number - 1) (by omega)
        rwa [Nat.sub_add_cancel (by omega), h.top] at hparent
      · exact ⟨_, rfl, hkept, by omega⟩
    simp only [if_neg hle, if_pos (Nat.lt_of_not_le hle), hk]
    by_cases hidx : ref.number - n - 1 < k.length
    · rw [hkept.2 _ hidx, show ref.number - (ref.number - n - 1) - 1 = n by omega]
      exact ⟨k, rfl, hkept⟩
    · have hlen := hkept.1
      rw [getElem?_eq_none (by omega), getLast?_eq_getElem?, hkept.2 _ (by omega), Option.getD_some,
        show ref.number - (k.length - 1) - 1 = ref.number - k.length by omega]
      exact walkAncestors_spec h hkept hpos rfl (by omega) (by omega)

/-- **Block hashes.**  Whatever was asked before, the answer for a number below that of the header
is the hash of its ancestor with this number, and the zero hash for others. -/
theorem queries_spec {getHeader : Hash → Nat → Option Header} {ref : Header} {c : Nat → Header}
    (h : Ancestors getHeader ref c) (ns : List Nat) :
    queries getHeader ref ns [] =
      some (ns.map fun n => if n < ref.number then (c n).hash else Hash.zero) := by
  have hstart : Kept c ref.number [] := ⟨Nat.zero_le _, by simp⟩
  generalize ([] : List Hash) = cache at hstart
  induction ns generalizing cache with
  | nil => rfl
  | cons n ns ih =>
    obtain ⟨cache', hget, hkept⟩ := getHash_spec h hstart n
    simp [queries, hget, ih cache' hkept]

/-- The headers of a chain, with hashes that tell the first of them apart. -/
def sampleHeader (number : Nat) : Header :=
  ⟨.ofHead (.ofNat (number + 1)), .ofHead (.ofNat number), number, Hash.zero⟩

theorem queries_sample :
    queries (fun _ n => some (sampleHeader n)) (sampleHeader 2) [0, 2, 1, 0] [] =
    some [.ofHead 1, Hash.zero, .ofHead 2, .ofHead 1] :=
  queries_spec (c := sampleHeader) ⟨rfl, fun _ _ => rfl, fun _ _ => rfl, fun _ _ => rfl, by decide⟩
    [0, 2, 1, 0]

end GoQrl.Chain
