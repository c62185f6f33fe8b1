import GoQrl.Bytes
import GoQrl.Lib.Radix

/-!
# GoQrl.Trie.Encoding

The three key encodings of `trie/encoding.go`: KEYBYTES, HEX (one digit per
nibble, with the terminator `16` behind the key of a value) and COMPACT (the
hex-prefix form stored on disk).

A hex digit is a `Fin 17`, so indexing the children of a full node by a digit
is total.  The conversions that the trie relies on are
`compactToHex_hexToCompact` and `keybytesToHex_injective`; a converted key is
`Terminated` in the sense of `GoQrl.Lib.Radix`.
-/

namespace GoQrl.Mpt

open Radix List

/-- A hex digit: a nibble or the terminator. -/
abbrev Nibble := Fin 17

/-- A key or path in HEX encoding. -/
abbrev Hex := List Nibble

instance : LawfulBEq Hex := inferInstance

instance neZeroDigits : NeZero 17 := ⟨by decide⟩

/-- The terminator digit. -/
abbrev term : Nibble := 16

/-- The digit as the byte that the source stores. -/
def Nibble.toByte (n : Nibble) : UInt8 := byte n.val

/-- The two digits of a byte. -/
def nibbles (b : UInt8) : Hex :=
  [⟨b.toNat / 16, by have := b.toNat_lt; omega⟩, ⟨b.toNat % 16, by omega⟩]

/-- `keybytesToHex`. -/
def keybytesToHex (str : Bytes) : Hex := str.flatMap nibbles ++ [term]

/-- `hasTerm`: whether a hex key has the terminator flag. -/
def hasTerm (s : Hex) : Bool := s.getLast? = some term

/-- `decodeNibbles`: pack pairs of digits into bytes. -/
def decodeNibbles : Hex → Bytes
  | m :: n :: rest => (m.toByte <<< 4 ||| n.toByte) :: decodeNibbles rest
  | _ => []

/-- The compact form of a key whose terminator has been turned into a flag. -/
def compactDigits (terminator : UInt8) (hex : Hex) : Bytes :=
  if hex.length % 2 = 1 then
    match hex with
    | [] => []
    | n :: rest => (terminator <<< 5 ||| (1 : UInt8) <<< 4 ||| n.toByte) :: decodeNibbles rest
  else (terminator <<< 5) :: decodeNibbles hex

/-- `hexToCompact`. -/
def hexToCompact (hex : Hex) : Bytes :=
  if hasTerm hex then compactDigits 1 hex.dropLast else compactDigits 0 hex

/-- The loop of `hexToCompactInPlace`, with a bound on its rounds. -/
def packLoop (hexLen : Nat) : Nat → Nat → Nat → Bytes → Bytes
  | 0, _, _, hex => hex
  | fuel + 1, bi, ni, hex =>
    if ni < hexLen then
      packLoop hexLen fuel (bi + 1) (ni + 2)
        (hex.set bi (hex.getD ni 0 <<< 4 ||| hex.getD (ni + 1) 0))
    else hex

/-- `hexToCompactInPlace`, on the bytes of the key. -/
def hexToCompactInPlace (hex : Bytes) : Bytes :=
  let terminated := hex.getLast? = some 16
  let hexLen := if terminated then hex.length - 1 else hex.length
  let firstByte : UInt8 := if terminated then (1 : UInt8) <<< 5 else 0
  let odd := hexLen % 2 = 1
  let firstByte := if odd then firstByte ||| (1 : UInt8) <<< 4 ||| hex.getD 0 0 else firstByte
  let packed := packLoop hexLen hexLen 1 (if odd then 1 else 0) hex
  (packed.set 0 firstByte).take (hexLen / 2 + 1)

/-- `compactToHex`. -/
def compactToHex (compact : Bytes) : Hex :=
  match keybytesToHex compact with
  | [] => []
  | n :: base =>
    if compact = [] then []
    else
      -- delete terminator flag
      let base := if n < 2 then (n :: base).dropLast else n :: base
      -- apply odd flag
      base.drop (2 - n.val % 2)

/-- `hexToKeybytes`, on keys of even length. -/
def hexToKeybytes (hex : Hex) : Bytes :=
  decodeNibbles (if hasTerm hex then hex.dropLast else hex)

/-- `prefixLen`: the length of the common prefix. -/
def prefixLen : Hex → Hex → Nat
  | a :: as, b :: bs => if a = b then prefixLen as bs + 1 else 0
  | _, _ => 0

/-! ## KEYBYTES and HEX -/

variable {n : Nibble} {k : Hex}

theorem nibbles_ne_term {b : UInt8} (h : n ∈ nibbles b) : n ≠ term := by
  have hb := b.toNat_lt
  rintro rfl
  simp only [nibbles, mem_cons, not_mem_nil, or_false, Fin.ext_iff] at h
  have hterm : term.val = 16 := rfl
  omega

theorem term_not_mem_flatMap (str : Bytes) : term ∉ str.flatMap nibbles := by
  intro h
  obtain ⟨b, -, hb⟩ := mem_flatMap.mp h
  exact nibbles_ne_term hb rfl

/-- A converted key ends in the terminator, which occurs nowhere else. -/
theorem terminated_keybytesToHex (str : Bytes) : Terminated term (keybytesToHex str) :=
  (terminated_append_iff (term_not_mem_flatMap str)).mpr terminated_singleton

theorem nibbles_injective {a b : UInt8} (h : nibbles a = nibbles b) : a = b := by
  simp only [nibbles, List.cons.injEq, Fin.mk.injEq, and_true] at h
  apply UInt8.toNat_inj.mp
  omega

theorem flatMap_nibbles_injective {a b : Bytes} (h : a.flatMap nibbles = b.flatMap nibbles) :
    a = b := by
  induction a generalizing b with
  | nil =>
    cases b with
    | nil => rfl
    | cons y b => simp [nibbles] at h
  | cons x a ih =>
    cases b with
    | nil => simp [nibbles] at h
    | cons y b =>
      have hlen : (nibbles x).length = (nibbles y).length := rfl
      obtain ⟨h1, h2⟩ := append_inj h hlen
      rw [nibbles_injective h1, ih h2]

/-- Distinct keys have distinct hex forms. -/
theorem keybytesToHex_injective {a b : Bytes} (h : keybytesToHex a = keybytesToHex b) : a = b :=
  flatMap_nibbles_injective (append_cancel_right h)

@[simp] theorem length_keybytesToHex (str : Bytes) :
    (keybytesToHex str).length = 2 * str.length + 1 := by
  have : (str.flatMap nibbles).length = 2 * str.length := by
    induction str with
    | nil => rfl
    | cons b str ih =>
      simp [nibbles]; omega
  simp [keybytesToHex, this]

/-! ## HEX and COMPACT -/

/-- A segment of a hex key: digits below the terminator, possibly followed by
the terminator. -/
def IsHexKey (k : Hex) : Prop := term ∉ k ∨ Terminated term k

/-- Packing two proper digits and unpacking the byte. -/
theorem nibbles_pack {m n : Nibble} (hm : m ≠ term) (hn : n ≠ term) :
    nibbles (m.toByte <<< 4 ||| n.toByte) = [m, n] := by
  revert m n
  decide

theorem flatMap_decodeNibbles (hk : term ∉ k) (heven : k.length % 2 = 0) :
    (decodeNibbles k).flatMap nibbles = k := by
  induction k using decodeNibbles.induct with
  | case1 m n rest ih =>
    simp only [mem_cons, not_or] at hk
    simp only [length_cons] at heven
    rw [decodeNibbles, flatMap_cons, ih hk.2.2 (by omega),
      nibbles_pack (Ne.symm hk.1) (Ne.symm hk.2.1)]
    rfl
  | case2 k hne =>
    match k with
    | [] => rfl
    | [m] => simp at heven
    | m :: n :: rest => exact absurd rfl (hne m n rest)

theorem length_decodeNibbles (k : Hex) : (decodeNibbles k).length = k.length / 2 := by
  induction k using decodeNibbles.induct with
  | case1 m n rest ih => simp only [decodeNibbles, length_cons, ih]; omega
  | case2 k hne =>
    match k with
    | [] => rfl
    | [m] => simp [decodeNibbles]
    | m :: n :: rest => exact absurd rfl (hne m n rest)

theorem hasTerm_eq_false (hk : term ∉ k) : hasTerm k = false := by
  simp only [hasTerm, decide_eq_false_iff_not]
  intro h
  exact hk (mem_of_getLast? h)

theorem Terminated.exists_eq (h : Terminated term k) : ∃ p, term ∉ p ∧ k = p ++ [term] := by
  induction k with
  | nil => exact h.elim
  | cons a k ih =>
    rcases h with ⟨rfl, rfl⟩ | ⟨ha, hk⟩
    · exact ⟨[], by simp, rfl⟩
    · obtain ⟨p, hp, rfl⟩ := ih hk
      exact ⟨a :: p, by simp [hp, Ne.symm ha], rfl⟩

@[simp] theorem hasTerm_append_term (p : Hex) : hasTerm (p ++ [term]) = true := by
  simp [hasTerm]

theorem hasTerm_of_terminated (h : Terminated term k) : hasTerm k = true := by
  obtain ⟨p, -, rfl⟩ := Terminated.exists_eq h
  exact hasTerm_append_term p

/-- The flag byte of an even key. -/
theorem nibbles_flag_even (t : Bool) :
    nibbles ((if t then 1 else 0 : UInt8) <<< 5) = [if t then 2 else 0, 0] := by
  cases t <;> decide

/-- The flag byte of an odd key carries the first digit. -/
theorem nibbles_flag_odd (t : Bool) (hn : n ≠ term) :
    nibbles ((if t then 1 else 0 : UInt8) <<< 5 ||| (1 : UInt8) <<< 4 ||| n.toByte) =
      [if t then 3 else 1, n] := by
  cases t <;> (revert n; decide)

/-- Expanding a flag byte with digit `n` and the packed digits behind it. -/
theorem compactToHex_of_nibbles {b : UInt8} {bs : Bytes} {t o : Bool}
    (hb : nibbles b = [if t then (if o then 3 else 2) else (if o then 1 else 0), n]) :
    compactToHex (b :: bs) =
      (if o then [n] else []) ++ bs.flatMap nibbles ++ (if t then [term] else []) := by
  have hk : keybytesToHex (b :: bs) = (if t then (if o then 3 else 2) else (if o then 1 else 0)) ::
        (n :: bs.flatMap nibbles ++ [term]) := by
    simp [keybytesToHex, hb]
  have hdrop : ∀ x : Nibble, (x :: (n :: bs.flatMap nibbles ++ [term])).dropLast =
      x :: n :: bs.flatMap nibbles := fun x => by
    rw [← cons_append, dropLast_concat]
  rw [compactToHex, hk]
  simp only [reduceCtorEq, if_false, hdrop]
  cases t <;> cases o <;> first | rfl | exact (append_nil _).symm

theorem compactToHex_compactDigits {p : Hex} (hp : term ∉ p) (t : Bool) :
    compactToHex (compactDigits (if t then 1 else 0) p) = p ++ (if t then [term] else []) := by
  unfold compactDigits
  split
  · next hodd =>
    cases p with
    | nil => simp at hodd
    | cons n rest =>
      simp only [mem_cons, not_or] at hp
      simp only [length_cons] at hodd
      rw [compactToHex_of_nibbles (t := t) (o := true)
        (by rw [nibbles_flag_odd t (Ne.symm hp.1)]; cases t <;> rfl),
        flatMap_decodeNibbles hp.2 (by omega)]
      rfl
  · next heven =>
    rw [compactToHex_of_nibbles (t := t) (o := false)
      (by rw [nibbles_flag_even t]; cases t <;> rfl), flatMap_decodeNibbles hp (by omega)]
    rfl

/-- **The compact form determines the segment.** -/
theorem compactToHex_hexToCompact (hk : IsHexKey k) : compactToHex (hexToCompact k) = k := by
  rcases hk with hk | hk
  · simpa [hexToCompact, hasTerm_eq_false hk] using compactToHex_compactDigits hk false
  · obtain ⟨p, hp, rfl⟩ := Terminated.exists_eq hk
    simpa [hexToCompact] using compactToHex_compactDigits hp true

/-- A compact key has half a byte per digit and one flag byte. -/
theorem length_compactDigits_le (t : UInt8) (p : Hex) :
    (compactDigits t p).length ≤ p.length / 2 + 1 := by
  unfold compactDigits
  split
  · cases p with
    | nil => simp
    | cons n rest =>
      simp only [length_cons, length_decodeNibbles]
      omega
  · rw [length_cons, length_decodeNibbles]

theorem length_hexToCompact_le (k : Hex) : (hexToCompact k).length ≤ k.length / 2 + 1 := by
  unfold hexToCompact
  split
  · refine le_trans (length_compactDigits_le 1 _) ?_
    rw [length_dropLast]
    omega
  · exact length_compactDigits_le 0 k

/-! ## common prefixes -/

theorem prefixLen_append (p r r' : Hex) (h : ∀ a b, r.head? = some a → r'.head? = some b → a ≠ b) :
    prefixLen (p ++ r) (p ++ r') = p.length := by
  induction p with
  | nil =>
    cases r with
    | nil => rfl
    | cons a r =>
      cases r' with
      | nil => rfl
      | cons b r' => simp [prefixLen, h a b rfl rfl]
  | cons c p ih => simp [prefixLen, ih]

theorem prefixLen_lt {k key : Hex} (h : ¬ k <+: key) : prefixLen key k < k.length := by
  induction k generalizing key with
  | nil => exact absurd nil_prefix h
  | cons a k ih =>
    cases key with
    | nil => simp [prefixLen]
    | cons b key =>
      by_cases hab : b = a
      · subst hab
        have := ih fun hk => h ((prefix_cons_inj b).mpr hk)
        simp only [prefixLen, if_true, length_cons]
        omega
      · simp [prefixLen, hab]

/-! ## compacting in place -/

theorem getD_append_length {l r : Bytes} {n : Nat} (h : l.length = n) (x : UInt8) :
    (l ++ x :: r).getD n 0 = x := by
  subst h
  simp

/-- The loop packs the pairs of digits that are left behind the bytes `pre`
that it has written. -/
theorem packLoop_eq (m : Hex) (hm : m.length % 2 = 0) (pre gap post : Bytes) (fuel : Nat)
    (hfuel : m.length ≤ fuel) :
    ∃ gap', packLoop (pre.length + gap.length + m.length) fuel pre.length (pre.length + gap.length)
      (pre ++ gap ++ m.map Nibble.toByte ++ post) = pre ++ decodeNibbles m ++ gap' ++ post := by
  induction fuel generalizing m pre gap with
  | zero =>
    obtain rfl := length_eq_zero_iff.mp (Nat.le_zero.mp hfuel)
    exact ⟨gap, by simp [packLoop, decodeNibbles]⟩
  | succ fuel ih =>
    match m with
    | [] => exact ⟨gap, by simp [packLoop, decodeNibbles]⟩
    | [x] => simp at hm
    | x :: y :: m =>
      simp only [length_cons] at hm hfuel
      have hx : (pre ++ gap ++ (x :: y :: m).map Nibble.toByte ++ post).getD
          (pre.length + gap.length) 0 = x.toByte := by
        simp
      have hy : (pre ++ gap ++ (x :: y :: m).map Nibble.toByte ++ post).getD
          (pre.length + gap.length + 1) 0 = y.toByte := by
        have := getD_append_length (l := pre ++ gap ++ [x.toByte])
            (r := m.map Nibble.toByte ++ post)
          (n := pre.length + gap.length + 1) (by simp; omega) y.toByte
        simpa using this
      have hstep : ∃ gap1 : Bytes, gap1.length = gap.length + 1 ∧
          (pre ++ gap ++ (x :: y :: m).map Nibble.toByte ++ post).set pre.length
            (x.toByte <<< 4 ||| y.toByte) =
          (pre ++ [x.toByte <<< 4 ||| y.toByte]) ++ gap1 ++ m.map Nibble.toByte ++ post := by
        cases gap with
        | nil =>
          exact ⟨[y.toByte], rfl, by simp⟩
        | cons g gap =>
          exact ⟨gap ++ [x.toByte, y.toByte], by simp, by simp⟩
      obtain ⟨gap1, hlen, hset⟩ := hstep
      obtain ⟨gap', hgap⟩ := ih m (by omega) (pre ++ [x.toByte <<< 4 ||| y.toByte]) gap1 (by omega)
      rw [packLoop, if_pos (by simp), hx, hy, hset]
      rw [length_append, length_singleton, hlen] at hgap
      have h1 : pre.length + gap.length + (x :: y :: m).length =
          pre.length + 1 + (gap.length + 1) + m.length := by simp; omega
      have h2 : pre.length + gap.length + 2 = pre.length + 1 + (gap.length + 1) := by omega
      rw [h1, h2, hgap]
      simp [decodeNibbles]

/-- The in-place version on digits without a terminator, followed by `post`:
the terminator or nothing. -/
theorem inPlace_digits (p : Hex) (post : Bytes) (t : UInt8)
    (hne : p.map Nibble.toByte ++ post ≠ []) :
    ((packLoop p.length p.length 1 (if p.length % 2 = 1 then 1 else 0)
        (p.map Nibble.toByte ++ post)).set 0
      (if p.length % 2 = 1 then t <<< 5 ||| (1 : UInt8) <<< 4 |||
        (p.map Nibble.toByte ++ post).getD 0 0
        else t <<< 5)).take (p.length / 2 + 1) = compactDigits t p := by
  by_cases hodd : p.length % 2 = 1
  · simp only [compactDigits, if_pos hodd]
    cases p with
    | nil => simp at hodd
    | cons n rest =>
      rw [length_cons] at hodd
      obtain ⟨gap', hgap⟩ :=
        packLoop_eq rest (by omega) [n.toByte] [] post (rest.length + 1) (by omega)
      have htake : rest.length / 2 = (decodeNibbles rest).length := (length_decodeNibbles rest).symm
      have hhalf : (rest.length + 1) / 2 = rest.length / 2 := by omega
      have hgap' : packLoop (rest.length + 1) (rest.length + 1) 1 1
          (n.toByte :: (rest.map Nibble.toByte ++ post)) =
            n.toByte :: (decodeNibbles rest ++ (gap' ++ post)) := by
        have h1 : [n.toByte].length + ([] : Bytes).length + rest.length = rest.length + 1 := by
          simp; omega
        rw [h1] at hgap
        simpa using hgap
      rw [length_cons, map_cons, cons_append, hgap', set_cons_zero, hhalf, htake,
        take_succ_cons, take_left]
      simp
  · simp only [compactDigits, if_neg hodd]
    match p, hodd with
    | [], _ =>
      cases post with
      | nil => simp at hne
      | cons c post => simp [packLoop, decodeNibbles]
    | [x], hodd => simp at hodd
    | x :: y :: m, hodd =>
      simp only [length_cons] at hodd
      obtain ⟨gap', hgap⟩ :=
        packLoop_eq m (by omega) [x.toByte, x.toByte <<< 4 ||| y.toByte] [] post
        (m.length + 1) (by omega)
      have h1 : [x.toByte, x.toByte <<< 4 ||| y.toByte].length + ([] : Bytes).length + m.length =
          m.length + 1 + 1 := by simp; omega
      rw [h1] at hgap
      have hfirst : packLoop (m.length + 1 + 1) (m.length + 1 + 1) 1 0
          (x.toByte :: y.toByte :: (m.map Nibble.toByte ++ post)) =
            x.toByte :: (x.toByte <<< 4 ||| y.toByte) :: (decodeNibbles m ++ (gap' ++ post)) := by
        rw [packLoop]
        simpa using hgap
      have hhalf : (m.length + 1 + 1) / 2 = (decodeNibbles m).length + 1 := by
        rw [length_decodeNibbles]; omega
      simp [hfirst, hhalf, decodeNibbles]

/-- **Compacting in place** gives the compact key. -/
theorem hexToCompactInPlace_eq (hk : IsHexKey k) (hne : k ≠ []) :
    hexToCompactInPlace (k.map Nibble.toByte) = hexToCompact k := by
  rcases hk with hk | hk
  · have hlast : ¬ (k.map Nibble.toByte).getLast? = some 16 := by
      intro h
      rw [getLast?_map] at h
      obtain ⟨n, hn, h16⟩ := Option.map_eq_some_iff.mp h
      have hmem := mem_of_getLast? hn
      have hval : n.val = 16 := by
        have := congrArg UInt8.toNat h16
        change n.val % 256 = 16 at this
        omega
      exact hk ((Fin.ext hval : n = term) ▸ hmem)
    have hdig := inPlace_digits k [] 0 (by simpa using hne)
    rw [append_nil] at hdig
    simp only [hexToCompactInPlace, if_neg hlast, length_map]
    have hcompact : hexToCompact k = compactDigits 0 k := by
      rw [hexToCompact, hasTerm_eq_false hk]
      rfl
    rw [hcompact, ← hdig]
    rfl
  · obtain ⟨p, hp, rfl⟩ := Terminated.exists_eq hk
    have hterm : Nibble.toByte term = 16 := rfl
    have hbytes : (p ++ [term]).map Nibble.toByte = p.map Nibble.toByte ++ [16] := by
      rw [map_append, map_singleton, hterm]
    have hlast : (p.map Nibble.toByte ++ [16]).getLast? = some 16 := by simp
    have hlen : (p.map Nibble.toByte ++ [16]).length - 1 = p.length := by simp
    have hdig := inPlace_digits p [16] 1 (by simp)
    rw [hbytes]
    simp only [hexToCompactInPlace, if_pos hlast, hlen]
    rw [hdig, hexToCompact, hasTerm_of_terminated hk, if_pos rfl, dropLast_concat]

/-- Pairs of keys and values, with the keys in hex form. -/
def hexPairs (pairs : List (Slice × Slice)) : List (Hex × Bytes) :=
  pairs.map fun x => (keybytesToHex x.1.bytes, x.2.bytes)

theorem terminated_hexPairs (pairs : List (Slice × Slice)) :
    ∀ x ∈ hexPairs pairs, Terminated term x.1 :=
  forall_mem_map.mpr fun x _ => terminated_keybytesToHex x.1.bytes

end GoQrl.Mpt
