import GoQrl.Trie.Prove

/-!
# GoQrl.Trie.ProofPath

Edge paths of range proofs.  `proofToPath` loads the nodes on the way to a key
from the proof.  If the proof has them, the result represents the same tree and
has no hash node on that way (`Loaded`).
-/

namespace GoQrl.Mpt

open Rlp Radix Mpt.Tree Proof Node
open List hiding nil get insert

/-! ## loaded ways -/

/-- There is no hash node on the way to the key. -/
def Node.Loaded : Node → Hex → Prop
  | .hash _, _ => False
  | .short k c _, key => ∀ rest, key = k ++ rest → c.Loaded rest
  | .full cs _, key => ∀ i rest, key = i :: rest → (cs i).Loaded rest
  | _, _ => True

variable {flags : NodeFlag} {k rest key : Hex} {i : Nibble} {n : Node}

theorem Node.loaded_short {c : Node} : (short k c flags).Loaded (k ++ rest) ↔ c.Loaded rest :=
  ⟨fun h => h rest rfl, fun h _ he => append_cancel_left he ▸ h⟩

theorem Node.loaded_full {cs : Nibble → Node} :
    (full cs flags).Loaded (i :: rest) ↔ (cs i).Loaded rest := by
  refine ⟨fun h => h i rest rfl, fun h j rest' he => ?_⟩
  obtain ⟨rfl, rfl⟩ := List.cons.inj he
  exact h

theorem Node.isHash_of_loaded (h : n.Loaded key) : n.isHash = false := by
  cases n with
  | hash h' => exact h.elim
  | _ => rfl

/-- Loaded means that the key is not below a hash node. -/
theorem Node.loaded_iff {p : Hex} : n.Loaded key ↔ ¬ n.Unloaded p (p ++ key) := by
  induction n generalizing p key with
  | nil | value => exact iff_of_true trivial id
  | hash h => exact iff_of_false id fun hn => hn (prefix_append p key)
  | short k c flags ih =>
    by_cases hk : k <+: key
    · obtain ⟨rest, rfl⟩ := hk
      rw [loaded_short, ih, append_assoc]
      rfl
    · refine iff_of_true (fun rest he => absurd ⟨rest, he.symm⟩ hk) fun hu => hk ?_
      have := Node.Unloaded.isPrefix (n := c) hu
      rwa [prefix_append_right_inj] at this
  | full cs flags ih =>
    cases key with
    | nil =>
      refine iff_of_true (fun _ _ he => by cases he) ?_
      rintro ⟨i, hi⟩
      have := hi.isPrefix.length_le
      simp at this
    | cons i rest =>
      rw [loaded_full, ih i]
      refine not_congr ⟨fun h => ⟨i, by rwa [append_cons p i rest]⟩, ?_⟩
      rintro ⟨j, hj⟩
      have hpre := hj.isPrefix
      rw [prefix_append_right_inj, cons_prefix_cons] at hpre
      obtain rfl := hpre.1
      rwa [← append_cons]

section Paths

variable [Keccak] {o t : Tree} {db : ProofDb} {allow : Bool} {p : Hex}

/-- The node `n'` is the node `n` with the way to the key loaded. -/
structure Loads (o : Tree) (p : Hex) (n : Node) (t : Tree) (key : Hex) (n' : Node) : Prop where
  rep : Rep o p n' t
  loaded : n'.Loaded key
  unloaded : ∀ x, n'.Unloaded p x → n.Unloaded p x
  sealed : Sealed p n t → Sealed p n' t

theorem Loads.refl (h : Rep o p n t) (hl : n.Loaded key) : Loads o p n t key n :=
  ⟨h, hl, fun _ h => h, id⟩

variable {c : Tree} {fuel : Nat}

theorem Loads.short {val val' : Node} (h : Loads o (p ++ k) val c rest val')
    (hf : FlagOK o p flags (.short k c)) (hs : flags.hash ≠ none → Sealed (p ++ k) val c) :
    Loads o p (.short k val flags) (.short k c) (k ++ rest) (.short k val' flags) where
  rep := .short h.rep hf fun hh => h.sealed (hs hh)
  loaded := loaded_short.mpr h.loaded
  unloaded := h.unloaded
  sealed hsl := ⟨hsl.1, h.sealed hsl.2⟩

theorem Loads.full {ns : Nibble → Node} {n' : Node} {cs : Nibble → Tree}
    (h : Loads o (p ++ [i]) (ns i) (cs i) rest n') (hc : ∀ j, Rep o (p ++ [j]) (ns j) (cs j))
    (hf : FlagOK o p flags (.full cs)) (hs : flags.hash ≠ none → ∀ j,
      Sealed (p ++ [j]) (ns j) (cs j)) :
    Loads o p (.full ns flags) (.full cs) (i :: rest) (.full (setChild ns i n') flags) := by
  refine ⟨.full ?_ hf fun hh => sealed_setChild h.sealed (hs hh), ?_, ?_,
    fun hsl => ⟨hsl.1, sealed_setChild h.sealed hsl.2⟩⟩
  · exact (Function.forall_update_iff ns (p := fun j n => Rep o (p ++ [j]) n (cs j))).mpr
      ⟨h.rep, fun j _ => hc j⟩
  · rw [loaded_full]
    simpa [setChild] using h.loaded
  · exact fun x hx => (unloaded_setChild hx).elim (fun hu => ⟨i, h.unloaded x hu⟩) id

/-- The results of loading the way to a key: a node on it is missing, the key
is, or the value and the loaded node, which is put into its place by `wrap`. -/
def PathTo (db : ProofDb) (allow : Bool) (o : Tree) (p : Hex) (n : Node) (t : Tree) (key : Hex)
    (wrap : Node → Node) (res : Except ProofError (Node × Option Bytes)) : Prop :=
  (∃ q u, OnPath t key q u ∧ Standalone (p ++ q) u ∧ db (digest u) = none ∧
    res = .error (.missing (digest u))) ∨
  (t.get key = none ∧ allow = false ∧ res = .error .notContained) ∨
  ((t.get key = none → allow = true) ∧ ∃ n', res = .ok (wrap n', t.get key) ∧ Loads o p n t key n')

/-- For the stored nodes on the way to the key, the database has nothing else. -/
def AgreesOn (db : ProofDb) (p : Hex) (t : Tree) (key : Hex) : Prop :=
  ∀ q u, OnPath t key q u → Standalone (p ++ q) u → ∀ b, db (digest u) = some b → b = enc u

theorem Agrees.on (h : Agrees db t) (key : Hex) : AgreesOn db [] t key :=
  fun q u hu hst => h q u hu.loc hst

theorem AgreesOn.child_short (h : AgreesOn db p (.short k c) (k ++ rest))
    (hs : Sized (.short k c)) :
    AgreesOn db (p ++ k) c rest := by
  intro q u hu hst
  rw [append_assoc] at hst
  have hk := hs.part.wf_short.label_ne_nil
  exact h (k ++ q) u (hu.append hs.part (locate_child_short hs.part hk (locate_nil _))) hst

theorem AgreesOn.child_full {cs : Nibble → Tree} (h : AgreesOn db p (.full cs) (i :: rest)) :
    AgreesOn db (p ++ [i]) (cs i) rest := by
  intro q u hu hst
  rw [← append_cons] at hst
  exact h (i :: q) u ⟨cons_prefix_cons.mpr ⟨rfl, hu.pre⟩, hu.loc, hu.node⟩ hst

/-- A node of the proof. -/
theorem resolveNode_spec (ho : Fit o) (hloc : locate o p = some t) (hst : Standalone p t)
    (hdb : ∀ b, db (digest t) = some b → b = enc t) :
    (db (digest t) = none ∧ resolveNode db (digest t) = .error (.missing (digest t))) ∨
      resolveNode db (digest t) = .ok (expand (some (digest t)) t) := by
  unfold resolveNode
  cases hb : db (digest t) with
  | none => exact .inl ⟨rfl, rfl⟩
  | some b =>
    simp only [hdb b hb, decodeNode_enc (ho.locate hloc hst.1) hst.1]
    exact .inr trivial

/-- The loop from a parent, through a child that is there or was just resolved. -/
theorem pathLoop_below {parent child m : Node} {wrap : Node → Node}
    (hlink : ∀ m, link parent key m = .ok (wrap m))
    (h : PathTo db allow o p m c rest id (pathLoop db allow fuel m rest))
    (hun : ∀ x, m.Unloaded p x → child.Unloaded p x) (hseal : Sealed p child c → Sealed p m c) :
    PathTo db allow o p child c rest wrap (match pathLoop db allow fuel m rest with
        | .error e => .error e
        | .ok (child, val) => (link parent key child).map (·, val)) := by
  rcases h with ⟨q, u, hu, hst, hnone, hexec⟩ | ⟨h1, h2, hexec⟩ | ⟨h1, n', hexec, hload⟩
  · exact .inl ⟨q, u, hu, hst, hnone, by rw [hexec]⟩
  · exact .inr (.inl ⟨h1, h2, by rw [hexec]⟩)
  · refine .inr (.inr ⟨h1, n', ?_, hload.rep, hload.loaded, fun x hx => hun x (hload.unloaded x hx),
      fun hs => hload.sealed (hseal hs)⟩)
    rw [hexec]
    simp only [hlink, id]
    rfl

/-- The loop from a parent whose child is loaded first. -/
theorem pathLoop_child (ho : Fit o) {parent child : Node} {wrap : Node → Node}
    (hdb : AgreesOn db p c rest) (hget : Proof.get parent key false = .ok (rest, child))
    (hlink : ∀ m, link parent key m = .ok (wrap m)) (hself : wrap child = parent)
    (hrep : Rep o p child c)
    (hc : Sized c) (hkey : Reach c rest) (ih : ∀ m, Rep o p m c → m.isHash = false → isNode c →
      PathTo db allow o p m c rest id (pathLoop db allow fuel m rest)) :
    PathTo db allow o p child c rest wrap (pathLoop db allow (fuel + 1) parent key) := by
  rw [pathLoop, hget]
  cases hrep with
  | nil =>
    cases allow with
    | true => exact .inr (.inr ⟨fun _ => rfl, .nil, by simp [hself], .refl (.nil p) trivial⟩)
    | false => exact .inr (.inl ⟨rfl, rfl, rfl⟩)
  | value _ v =>
    have hv : v.length > 0 := length_pos_iff.mpr hc.bounded.1
    refine .inr (.inr ⟨fun h => (by cases h), .value v, ?_, .refl (.value p v) trivial⟩)
    simp only [if_pos hv, hlink]
    rfl
  | hash hp hst hloc =>
    rcases resolveNode_spec ho hloc hst
      (hdb [] c (.root hst.1) (by rwa [append_nil])) with ⟨hnone, hexec⟩ | hexec
    · exact .inl ⟨[], c, .root hst.1, by rwa [append_nil], hnone, by simp [hexec]⟩
    · simp only [hexec]
      exact pathLoop_below hlink
        (ih _ (rep_expand ho.sized.part hloc fun k hk => ⟨(Option.some.inj hk).symm, hst⟩)
        (isHash_expand _ c) hst.1) (fun x hx => hx.isPrefix)
        fun _ => sealed_expand (Part.locate ho.sized.part hloc) _
  | short hk hf hs => exact pathLoop_below hlink (ih _ (.short hk hf hs) rfl rfl) (fun _ h => h) id
  | full hk hf hs => exact pathLoop_below hlink (ih _ (.full hk hf hs) rfl rfl) (fun _ h => h) id

/-- **Loading the way to a key** from a loaded node. -/
theorem pathLoop_spec (ho : Fit o) (t : Tree) :
    ∀ {fuel : Nat} {p key : Hex} {n : Node}, Rep o p n t → n.isHash = false → isNode t → Sized t →
      Reach t key → AgreesOn db p t key → key.length + 1 ≤ fuel →
      PathTo db allow o p n t key id (pathLoop db allow fuel n key) := by
  induction t with
  | nil | value => exact fun _ _ hn => nomatch hn
  | short k c ih =>
    intro fuel p key n hrep hl _ hs hkey hdb hf
    obtain ⟨fuel, rfl⟩ : ∃ f, fuel = f + 1 := ⟨fuel - 1, by omega⟩
    have hk := hkey.short.1.label_ne_nil
    have hpos := length_pos_iff.mpr hk
    have hrep' := hrep
    cases hrep with
    | hash => cases hl
    | @short _ _ val _ flags hc hflags hseal =>
      by_cases hpre : k <+: key
      · obtain ⟨rest, rfl⟩ := hpre
        rw [length_append] at hf
        have hget : Proof.get (.short k val flags) (k ++ rest) false = .ok (rest, val) := by
          rw [Proof.get, if_neg (matches_append _ _), drop_left]
          rfl
        have hres : PathTo db allow o (p ++ k) val c rest (fun m => .short k m flags)
            (pathLoop db allow (fuel + 1) (.short k val flags) (k ++ rest)) :=
          pathLoop_child ho (hdb.child_short hs) hget
            (fun _ => rfl) rfl hc hs.child_short hkey.child_short
            fun m hm hml hn => ih hm hml hn hs.child_short hkey.child_short
              (hdb.child_short hs) (by omega)
        rcases hres with ⟨q, u, hu, hst, hnone, hexec⟩ | ⟨h1, h2, hexec⟩ | ⟨h1, n', hexec, hload⟩
        · refine .inl ⟨k ++ q, u, ?_, by rwa [← append_assoc], hnone, hexec⟩
          exact hu.append hs.part (locate_child_short hs.part hk (locate_nil _))
        · exact .inr (.inl ⟨by rwa [Tree.get_short_append], h2, hexec⟩)
        · exact .inr (.inr ⟨by rwa [Tree.get_short_append], _,
            by rwa [Tree.get_short_append], hload.short hflags hseal⟩)
      · have hnone : (Tree.short k c).get key = none := Tree.get_short_eq_none hpre
        have hload : (short k val flags).Loaded key := fun rest he => absurd ⟨rest, he.symm⟩ hpre
        rw [pathLoop, Proof.get, if_pos (mismatch_iff.mpr hpre)]
        cases allow with
        | true => exact .inr (.inr ⟨fun _ => rfl, _, by rw [hnone]; rfl, .refl hrep' hload⟩)
        | false => exact .inr (.inl ⟨hnone, rfl, rfl⟩)
  | full cs ih =>
    intro fuel p key n hrep hl _ hs hkey hdb hf
    obtain ⟨fuel, rfl⟩ : ∃ f, fuel = f + 1 := ⟨fuel - 1, by omega⟩
    obtain ⟨i, rest, rfl⟩ := exists_cons_of_ne_nil hkey.full.2.ne_nil
    rw [length_cons] at hf
    cases hrep with
    | hash => cases hl
    | @full _ ns _ flags hc hflags hseal =>
      have hres : PathTo db allow o (p ++ [i]) (ns i) (cs i) rest
          (fun m => .full (setChild ns i m) flags)
          (pathLoop db allow (fuel + 1) (.full ns flags) (i :: rest)) :=
        pathLoop_child ho hdb.child_full rfl (fun _ => rfl) (by simp [setChild]) (hc i)
          (hs.child_full i)
          hkey.child_full fun m hm hml hn =>
            ih i hm hml hn (hs.child_full i) hkey.child_full hdb.child_full (by omega)
      rcases hres with ⟨q, u, hu, hst, hnone, hexec⟩ | ⟨h1, h2, hexec⟩ | ⟨h1, n', hexec, hload⟩
      · refine .inl ⟨i :: q, u, ?_, by rwa [append_cons], hnone, hexec⟩
        exact hu.append hs.part (by rw [locate_full_cons, locate_nil])
      · exact .inr (.inl ⟨h1, h2, hexec⟩)
      · exact .inr (.inr ⟨h1, _, hexec, hload.full hc hflags hseal⟩)

/-- **`proofToPath`** for the root of the tree. -/
theorem proofToPath_none (ht : Fit t) (hn : isNode t) (key : Bytes)
    (hdb : AgreesOn db [] t (keybytesToHex key)) (hf : (keybytesToHex key).length + 1 ≤ fuel) :
    PathTo db allow t [] (expand (some (digest t)) t) t (keybytesToHex key) id
      (proofToPath fuel (digest t) none key db allow) := by
  have hst : Standalone [] t := ⟨hn, .inl rfl⟩
  rw [proofToPath]
  rcases resolveNode_spec ht (locate_nil t) hst (hdb [] t (.root hn) hst) with
    ⟨hnone, hexec⟩ | hexec
  · exact .inl ⟨[], t, .root hn, hst, hnone, by rw [hexec]⟩
  · rw [hexec]
    exact pathLoop_spec ht t (rep_expand ht.sized.part (locate_nil t) fun k hk =>
      ⟨(Option.some.inj hk).symm, hst⟩) (isHash_expand _ t) hn ht.sized
      (.inl ⟨ht.wf, terminated_keybytesToHex key⟩) hdb hf

end Paths

end GoQrl.Mpt
