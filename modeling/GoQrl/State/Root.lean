import GoQrl.State.Local

/-!
# GoQrl.State.Root

`Finalise` and `IntermediateRoot` on the world.

Both go through the changed accounts in an order that is not specified; the steps at one
address are `Local.finalise`, `Local.updateRoot` and `Local.write`.  The world after
`Finalise` (`finalise_spec`) and after `IntermediateRoot` (`intermediateRoot_spec`) depends on
the world before only, and the root is the one of the tries with the contents of the world.
-/

namespace GoQrl.State

open Rlp Mpt Mpt.Tree GoQrl.Types AList GoMap Local
open Function (update update_eq_self update_idem update_of_ne update_self)
open List hiding nil get insert

variable [Keccak]

/-! ## Finalise -/

/-- `Finalise` at one address. -/
def Local.finalise (deleteEmptyObjects : Bool) (l : Local) : Local :=
  match l.account with
  | none => l
  | some v =>
    if deleteEmptyObjects && v.empty then
      { l with
        account := some { v with deleted := true }
        destruct := if l.destruct.isSome then l.destruct else some v.origin
        pending := some ()
        dirty := some ()
        accountDiff := none
        storageDiff := none
        accountOrigin := none
        storageOrigin := none }
    else
      { l with
        account := some { v with committed := v.value }
        pending := some ()
        dirty := some () }

/-- `Finalise`: the changed accounts, and an empty journal. -/
noncomputable def World.finalise (w : World) (deleteEmptyObjects : Bool) : World :=
  { w.mapOn (fun a => w.dirties a ≠ none) (Local.finalise deleteEmptyObjects) with
    dirties := fun _ => none
    refund := 0 }

variable {w : World} {addr : Address} {base : Base} {obj : StateObject} {s : StateDB}
    {seen : Log → Log}
  {v : View} {cur : Hash → Hash} {d : Option (Hash → Option Bytes)} {t : Tree} {tr : Trie}

/-- An address stays touched if its part does not lose its marks. -/
theorem World.Touched.setPart {a b : Address} {l : Local} (h : w.Touched b)
    (hpending : w.pending a ≠ none → l.pending ≠ none) (hdirty : w.dirty a ≠ none →
      l.dirty ≠ none) :
    (w.setPart a l).Touched b := by
  by_cases hb : b = a
  · subst hb
    obtain hd | hp | hd := h
    · exact .inl hd
    · exact .inr (.inl (by simpa [World.setPart] using hpending hp))
    · exact .inr (.inr (by simpa [World.setPart] using hdirty hd))
  · simpa [World.Touched, World.setPart, update_of_ne hb] using h

namespace StateDB

/-! ## loops over addresses -/

/-- What a step of a loop over addresses does: it changes the part of the world at its address
by `f` and keeps the marks, and panics where `ok` fails. -/
structure StepsAt (base : Base) (seen : Log → Log) (f : Local → Local) (ok : Local → Prop)
    (step : StateDB → Address → Option StateDB) : Prop where
  marks : ∀ l, (l.pending ≠ none → (f l).pending ≠ none) ∧ (l.dirty ≠ none → (f l).dirty ≠ none)
  good : ∀ {s w addr}, Rel base seen s w → w.Touched addr → ok (w.part addr) →
    ∃ s', step s addr = some s' ∧ Rel base seen s' (w.setPart addr (f (w.part addr))) ∧ Quiet s s'
  bad : ∀ {s w addr}, Rel base seen s w → w.Touched addr → ¬ ok (w.part addr) → step s addr = none

section

variable {f : Local → Local} {ok : Local → Prop} {step : StateDB → Address → Option StateDB}
    {l : List Address}

/-- **A loop over addresses**, by induction over those that are left; `P` are those that were
gone through.  It panics if one of its steps does. -/
theorem StepsAt.loop (hstep : StepsAt base seen f ok step) (hkeys : AddressesApart) (hl : l.Nodup)
    {P : Address → Prop} (hP : ∀ a ∈ l, ¬ P a) (h : Rel base seen s (w.mapOn P f))
    (ht : ∀ a ∈ l, (w.mapOn P f).Touched a) :
    ((∀ a ∈ l, ok (w.part a)) → ∃ s', l.foldlM step s = some s' ∧
      Rel base seen s' (w.mapOn (fun a => P a ∨ a ∈ l) f) ∧ Quiet s s') ∧
      ((∃ a ∈ l, ¬ ok (w.part a)) → l.foldlM step s = none) := by
  induction l generalizing s P with
  | nil =>
    refine ⟨fun _ => ⟨s, rfl, ?_, .refl s⟩, fun ⟨a, ha, _⟩ => by cases ha⟩
    simpa using h
  | cons a l ih =>
    obtain ⟨hnotin, hnodup⟩ := nodup_cons.mp hl
    have hPa := hP a mem_cons_self
    have hta := ht a mem_cons_self
    have hpart := World.mapOn_part hkeys hPa (f := f) (w := w)
    by_cases hok : ok (w.part a)
    · obtain ⟨s', hexec, hrel, hquiet⟩ := hstep.good h hta (by rwa [hpart])
      obtain ⟨hpending, hdirty⟩ := hstep.marks ((w.mapOn P f).part a)
      have ht' : ∀ b ∈ l,
          ((w.mapOn P f).setPart a (f ((w.mapOn P f).part a))).Touched b := fun b hb =>
        (ht b (mem_cons_of_mem a hb)).setPart hpending hdirty
      rw [World.setPart_mapOn hkeys hPa] at hrel ht'
      have hP' : ∀ b ∈ l, ¬ (P b ∨ b = a) := by
        rintro b hb (hPb | rfl)
        · exact hP b (mem_cons_of_mem a hb) hPb
        · exact hnotin hb
      have hset : (fun b => (P b ∨ b = a) ∨ b ∈ l) = fun b => P b ∨ b ∈ a :: l := by
        funext b
        rw [mem_cons, or_assoc]
      obtain ⟨hrest, hpanic⟩ := ih hnodup hP' hrel ht'
      rw [hset] at hrest
      simp only [foldlM_cons, hexec, Option.bind_eq_bind, Option.bind_some]
      refine ⟨fun hall => ?_, fun ⟨b, hb, hnb⟩ => ?_⟩
      · obtain ⟨s'', hexec', hrel', hquiet'⟩ := hrest fun b hb => hall b (mem_cons_of_mem a hb)
        exact ⟨s'', hexec', hrel', hquiet.trans hquiet'⟩
      · obtain rfl | hmem := mem_cons.mp hb
        · exact absurd hok hnb
        · exact hpanic ⟨b, hmem, hnb⟩
    · refine ⟨fun hall => absurd (hall a mem_cons_self) hok, fun _ => ?_⟩
      rw [foldlM_cons, hstep.bad h hta (by rwa [hpart])]
      rfl

/-- A loop over all addresses in `Q`. -/
theorem StepsAt.all (hstep : StepsAt base seen f ok step) (hkeys : AddressesApart)
    (h : Rel base seen s w)
    (hl : l.Nodup) {Q : Address → Prop} (hmem : ∀ a, a ∈ l ↔ Q a) (ht : ∀ a, Q a → w.Touched a) :
    ((∀ a, Q a → ok (w.part a)) → ∃ s', l.foldlM step s = some s' ∧ Rel base seen s' (w.mapOn Q f) ∧
      Quiet s s') ∧ ((¬ ∀ a, Q a → ok (w.part a)) → l.foldlM step s = none) := by
  have hstart : Rel base seen s (w.mapOn (fun _ => False) f) := by rwa [World.mapOn_none]
  obtain ⟨hgood, hbad⟩ := hstep.loop hkeys hl (fun _ _ => id) hstart fun a ha => by
    rw [World.mapOn_none]
    exact ht a ((hmem a).mp ha)
  have hset : (fun a => False ∨ a ∈ l) = Q := by
    funext a
    rw [false_or, hmem]
  rw [hset] at hgood
  refine ⟨fun hall => hgood fun a ha => hall a ((hmem a).mp ha), fun hnot => hbad ?_⟩
  push Not at hnot
  obtain ⟨a, ha, hna⟩ := hnot
  exact ⟨a, (hmem a).mpr ha, hna⟩

end

omit [Keccak] in
/-- The keys of a map, in the order of a loop over it. -/
theorem mem_range_keys [MapOrder] {V : Type} (site : Bytes) (m : GoMap Address V) (a : Address) :
    a ∈ (range site m).map Prod.fst ↔ m.lookup a ≠ none := by
  rw [Option.ne_none_iff_exists', mem_map]
  constructor
  · rintro ⟨⟨b, n⟩, hn, rfl⟩
    exact ⟨n, GoMap.mem_range.mp hn⟩
  · rintro ⟨n, hn⟩
    exact ⟨(a, n), GoMap.mem_range.mpr hn, rfl⟩

/-! ## Finalise of an address -/

/-- An address with an object becomes pending. -/
theorem Rel.markPending (h : Rel base seen s w) (hlive : s.stateObjects.lookup addr ≠ none) :
    Rel base seen { s with
        stateObjectsPending := s.stateObjectsPending.insert addr ()
        stateObjectsDirty := s.stateObjectsDirty.insert addr () }
      { w with
        pending := update w.pending addr (some ())
        dirty := update w.dirty addr (some ()) } := by
  refine { h with
    onBase := { h.onBase with }
    accounts := fun a => (h.accounts a).transfer rfl rfl
    pending := lookup_insert_update h.pending addr ()
    dirty := lookup_insert_update h.dirty addr ()
    live := fun a ha => ?_ }
  by_cases hne : a = addr
  · rwa [hne]
  · refine h.live a ?_
    simpa [World.Touched, update_of_ne hne] using ha

section

variable [MapOrder]

omit [Keccak] in
/-- The slots of the transaction move to the pending ones. -/
theorem lookup_finalise (obj : StateObject) (k : Hash) :
    obj.finalise.pendingStorage.lookup k = (obj.dirtyStorage.lookup k).or
      (obj.pendingStorage.lookup k) := by
  obtain ⟨hin, hout⟩ := foldl_keyed (f := fun m e => m.insert e.1 e.2)
    (fun m : GoMap Hash Hash => m.lookup k) k (fun v _ => some v)
    (fun m _ => lookup_insert m) (fun _ _ _ hne => lookup_insert_ne (Ne.symm hne))
      (nodup_range (0 :: obj.address.bytes) obj.dirtyStorage) obj.pendingStorage
  cases hdirty : obj.dirtyStorage.lookup k with
  | some v => exact hin v (GoMap.mem_range.mpr hdirty)
  | none =>
    refine hout fun v hv => ?_
    simp [GoMap.mem_range, hdirty] at hv

omit [Keccak] in
theorem committed_finalise (obj : StateObject) (cur : Hash → Hash) :
    obj.finalise.committed cur = obj.value cur := by
  funext k
  simp only [StateObject.committed, StateObject.value, lookup_finalise]
  cases obj.dirtyStorage.lookup k <;> rfl

omit [Keccak] in
theorem value_finalise (obj : StateObject) (cur : Hash → Hash) :
    obj.finalise.value cur = obj.value cur := by
  rw [← committed_finalise obj cur]
  rfl

/-- An object whose slots are finalised. -/
theorem Sees.finalise (h : Sees base s addr obj v) :
    Sees base s addr obj.finalise { v with committed := v.value } := by
  refine ⟨{ h.on with read := fun k hk => ?_ }, ?_, h.address, h.codeHash, h.reads⟩
  · refine h.on.read k ?_
    rw [lookup_finalise] at hk
    obtain hk | hk := hk
    · exact absurd rfl hk
    · cases hdirty : obj.dirtyStorage.lookup k with
      | some x => exact .inl (by simp)
      | none =>
        rw [hdirty] at hk
        exact .inr hk
  · rw [StateObject.view, committed_finalise, value_finalise]
    exact congrArg (fun u : View => { u with committed := u.value }) h.view

omit [MapOrder] in
/-- The flag of new objects is not seen. -/
theorem Sees.setCreated (h : Sees base s addr obj v) (created : Bool) :
    Sees base s addr { obj with created := created } v :=
  ⟨{ h.on with }, h.view, h.address, h.codeHash, h.reads⟩

omit [MapOrder] in
/-- An object that is deleted. -/
theorem Sees.markDeleted (h : Rel base seen s w) (hsees : Sees base s addr obj v) :
    Sees base (s.clear obj) addr { obj with deleted := true, created := false }
      { v with deleted := true } := by
  have hmark := marked_clear h hsees.address
  exact ⟨⟨hsees.on.holds, hsees.on.root, hsees.on.cached, nofun, fun k hk => .inr hmark, nofun,
    fun _ => hmark⟩, congrArg (fun u : View => { u with deleted := true }) hsees.view,
      hsees.address, hsees.codeHash, fun k hk => .inr hmark⟩

/-- **One address** of the loop of `Finalise`. -/
theorem finaliseAddress_rel (h : Rel base seen s w) (ht : w.Touched addr)
    (deleteEmptyObjects : Bool) :
    Rel base seen (s.finaliseAddress deleteEmptyObjects addr)
      (w.setPart addr ((w.part addr).finalise deleteEmptyObjects)) ∧
      Quiet s (s.finaliseAddress deleteEmptyObjects addr) := by
  obtain ⟨obj, hobj⟩ := Option.ne_none_iff_exists'.mp (h.live addr ht)
  obtain ⟨v, hv, hsees⟩ := h.present (peek_of_live hobj)
  have hempty : v.empty = obj.empty := by rw [View.empty, StateObject.empty, hsees.data]
  have haddr := hsees.address
  unfold finaliseAddress
  simp only [hobj]
  have hpart : (w.part addr).account = some v := hv
  simp only [Local.finalise, hpart, hempty]
  split
  · have hrel := h.clear hsees (Sees.markDeleted h hsees)
    have hput : ((s.clear obj).setStateObject
        { obj with deleted := true, created := false }).stateObjects.lookup addr ≠ none := by
      rw [← haddr]
      simp [setStateObject]
    have hdestruct : update w.destruct addr
        (if (w.destruct addr).isSome then w.destruct addr else some v.origin) =
        if (w.destruct addr).isSome then w.destruct
        else update w.destruct addr (some obj.origin) := by
      rw [hsees.origin]
      split
      · exact update_eq_self _ _
      · rfl
    refine ⟨?_, ⟨rfl, rfl⟩, rfl⟩
    rw [show (w.part addr).destruct = w.destruct addr from rfl]
    simp only [World.setPart, World.part, hdestruct, update_eq_self]
    exact hrel.markPending hput
  next hdel =>
    have hset := h.setObject (hsees.finalise.setCreated false)
    have hput : (s.setStateObject { obj.finalise with created := false }).stateObjects.lookup
        addr ≠ none := by
      rw [← haddr]
      simp [setStateObject, StateObject.finalise]
    refine ⟨?_, ⟨rfl, rfl⟩, rfl⟩
    simpa [World.setPart, World.part, World.setAccount] using hset.markPending hput

/-- **`Finalise`** leads to the finalised world, with an empty journal and without revisions. -/
theorem finalise_spec (hkeys : AddressesApart) {below : List JournalEntry} {ws : List World}
    (h : Journalled base seen below s w ws) (deleteEmptyObjects : Bool) :
    Journalled base seen [] (s.finalise deleteEmptyObjects) (w.finalise deleteEmptyObjects) [] ∧
      (s.finalise deleteEmptyObjects).journal.entries = [] ∧
      (s.finalise deleteEmptyObjects).validRevisions = [] ∧
      (s.finalise deleteEmptyObjects).nextRevisionId = s.nextRevisionId := by
  have hstep : StepsAt base seen (Local.finalise deleteEmptyObjects) (fun _ => True)
      fun s a => pure (s.finaliseAddress deleteEmptyObjects a) :=
    ⟨fun l => by
        unfold Local.finalise
        split
        · exact ⟨id, id⟩
        · split <;> exact ⟨fun _ => Option.some_ne_none (), fun _ => Option.some_ne_none ()⟩,
      fun h ht _ => ⟨_, rfl, finaliseAddress_rel h ht deleteEmptyObjects⟩,
        fun _ _ hne => absurd trivial hne⟩
  obtain ⟨s0, hloop, hrel, hquiet⟩ := (hstep.all hkeys h.rel (nodup_range [0] s.journal.dirties)
    (fun a => by rw [mem_range_keys, h.rel.dirties]) fun _ ha => .inl ha).1 fun _ _ => trivial
  rw [foldlM_pure] at hloop
  obtain rfl := Option.some.inj hloop
  unfold StateDB.finalise
  generalize ((range [0] s.journal.dirties).map Prod.fst).foldl
    (finaliseAddress deleteEmptyObjects) s = s1 at hrel hquiet ⊢
  -- without entries nothing was counted
  have hidle : s.journal.entries = [] → w.refund = 0 ∧ ∀ a, w.dirties a = none := by
    intro hnil
    obtain ⟨es, hes, hchain⟩ := h.chain
    rw [hnil] at hes
    obtain ⟨rfl, rfl⟩ := append_eq_nil_iff.mp hes.symm
    obtain rfl : ws = [] := length_eq_zero_iff.mp (by simpa using hchain.length)
    exact h.bottom rfl w rfl
  have hclear : ∀ (j : Journal) (refund : UInt64), refund = 0 → (∀ a, j.dirties.lookup a = none) →
      Rel base seen { s1 with journal := j, refund := refund, validRevisions := [] }
        (w.finalise deleteEmptyObjects) := fun j refund hrefund hdirties =>
    { hrel with
      onBase := { hrel.onBase with }
      accounts := fun a => (hrel.accounts a).transfer rfl rfl
      refund := hrefund
      dirties := hdirties
      counts := nofun
      live := fun a ha => hrel.live a (.inr (ha.resolve_left fun hne => hne rfl)) }
  unfold clearJournalAndRefund
  split
  · have hrel' := hclear .new 0 rfl fun a => lookup_empty a
    exact ⟨⟨hrel', ⟨[], rfl, .base _⟩, by simp [World.finalise]⟩, rfl, rfl, hquiet.next⟩
  next hentries =>
    have hnil : s1.journal.entries = [] := length_eq_zero_iff.mp (by omega)
    obtain ⟨hrefund, hdirties⟩ := hidle (by rw [← hquiet.journal]; exact hnil)
    have hrel' := hclear s1.journal s1.refund (hrel.refund.trans hrefund) fun a =>
      (hrel.dirties a).trans (hdirties a)
    exact ⟨⟨hrel', ⟨[], hnil, .base _⟩, by simp [World.finalise]⟩, hnil, rfl, hquiet.next⟩

end

end StateDB

/-! ## storage roots -/

open Classical in
/-- The root of the storage trie with these slots. -/
noncomputable def slotsRoot (cur : Hash → Hash) : Hash :=
  if h : ∃ root, StateDB.SlotsRoot cur root then h.choose else Hash.zero

theorem StateDB.SlotsRoot.eq {root : Hash} (h : SlotsRoot cur root) : slotsRoot cur = root := by
  have hex : ∃ root, SlotsRoot cur root := ⟨root, h⟩
  rw [slotsRoot, dif_pos hex]
  exact hex.choose_spec.unique h

/-- The entry of a map that may be missing. -/
def entry (d : Option (Hash → Option Bytes)) (h : Hash) : Option Bytes := d.bind fun m => m h

open Classical in
/-- The slots that are noted after the slots in `P` changed to `value`. -/
noncomputable def noteDiffs (P : Hash → Prop) (value : Hash → Hash)
    (d : Option (Hash → Option Bytes)) :
    Option (Hash → Option Bytes) :=
  if ∃ k, P k then some
    (onHashes Hash.bytes P (fun k => some (StateDB.slotBytes (value k))) (entry d)) else d

open Classical in
/-- The original slots that are noted after the slots in `P` changed from `cur`; the ones that
are noted already stay. -/
noncomputable def noteOrigins (P : Hash → Prop) (cur : Hash → Hash)
    (d : Option (Hash → Option Bytes)) :
    Option (Hash → Option Bytes) :=
  if ∃ k, P k then
    some (onHashes Hash.bytes P
      (fun k => (entry d (Keccak.hash k.bytes)).or (some (StateDB.slotBytes (cur k)))) (entry d))
  else d

/-- The account after its slots are written. -/
noncomputable def View.updateRoot (v : View) : View :=
  { v with
    data := { v.data with root := slotsRoot v.value }
    cur := v.value
    committed := v.value }

/-- The update of the storage root at one address. -/
noncomputable def Local.updateRoot (l : Local) : Local :=
  match l.account with
  | none => l
  | some v =>
    if v.deleted then l
    else
      { l with
        account := some v.updateRoot
        storageDiff := noteDiffs (fun k => v.value k ≠ v.cur k) v.value l.storageDiff
        storageOrigin := noteOrigins (fun k => v.value k ≠ v.cur k) v.cur l.storageOrigin }

section

variable {P : Hash → Prop} {value : Hash → Hash} {k : Hash}

open Classical in
theorem entry_note (g : Hash → Option Bytes) (h : Hash) :
    entry (if ∃ k, P k then some (onHashes Hash.bytes P g (entry d)) else d) h =
      onHashes Hash.bytes P g (entry d) h := by
  split
  · rfl
  · next hP => exact (onHashes_other _ _ fun k hk => absurd ⟨k, hk⟩ hP).symm

open Classical in
theorem note_insert (g : Hash → Option Bytes) (hkeys : KeysApart Hash.bytes) :
    some (update (entry (if ∃ k, P k then some (onHashes Hash.bytes P g (entry d)) else d))
      (Keccak.hash k.bytes) (g k)) =
      if ∃ k', P k' ∨
        k' = k then some (onHashes Hash.bytes (fun k' => P k' ∨ k' = k) g (entry d)) else d := by
  have hex : ∃ k', P k' ∨ k' = k := ⟨k, .inr rfl⟩
  rw [if_pos hex, funext (entry_note g)]
  exact congrArg some (onHashes_insert g (entry d) hkeys)

/-- One more original slot. -/
theorem noteOrigins_insert (hkeys : KeysApart Hash.bytes) (hk : ¬ P k) :
    some (if (entry (noteOrigins P cur d) (Keccak.hash k.bytes)).isSome then entry
      (noteOrigins P cur d)
      else update (entry (noteOrigins P cur d)) (Keccak.hash k.bytes)
        (some (StateDB.slotBytes (cur k)))) = noteOrigins (fun k' => P k' ∨ k' = k) cur d := by
  have hold : entry (noteOrigins P cur d) (Keccak.hash k.bytes) = entry d (Keccak.hash k.bytes) :=
    (entry_note _ _).trans (onHashes_other _ _ fun k' hk' heq => hk (hkeys _ _ heq ▸ hk'))
  refine Eq.trans ?_ (note_insert _ hkeys)
  show _ = some (update (entry (noteOrigins P cur d)) _ ((entry d (Keccak.hash k.bytes)).or _))
  generalize entry (noteOrigins P cur d) = g at hold ⊢
  rw [← hold]
  cases hg : g (Keccak.hash k.bytes) with
  | none => rfl
  | some b =>
    simp only [Option.isSome_some, if_true, Option.some_or]
    rw [← hg, update_eq_self]

end

namespace StateDB

variable {o : Tree}

theorem hash_of_inv (h : Inv o tr t) : ∃ tr', tr.hash = (.ok (rootHash t), tr') ∧ Inv o tr' t := by
  obtain ⟨hhash, hinv, -⟩ := h.hash
  exact ⟨tr.hash.2, Prod.ext hhash rfl, hinv⟩

/-- The trie after a slot is written. -/
theorem writeSlot_spec (hkeys : KeysApart Hash.bytes) (hinv : Inv o tr t) (hslots : Slots t cur)
    (key value : Hash) :
    ∃ tr' t', writeSlot tr key value = (.ok (), tr') ∧ Inv o tr' t' ∧
      Slots t' (update cur key value) := by
  unfold writeSlot
  by_cases hz : value = Hash.zero
  · rw [hz]
    exact deleteStorage_spec hinv hslots hkeys key
  · rw [if_neg hz]
    exact updateStorage_spec hinv hslots hkeys key hz

/-- What the loop over the slots of an object changes of the state: the notes about its
address. -/
structure Noted (s s' : StateDB) (addr : Address) (d o : Option (Hash → Option Bytes)) : Prop where
  frame : ∃ m m', s' = { s with storages := m, storagesOrigin := m' }
  diffs : ∀ h, GoMap.lookups s'.storages h =
    Function.update (GoMap.lookups s.storages) (Keccak.hash addr.bytes) d h
  origins : ∀ a,
    GoMap.lookups s'.storagesOrigin a = Function.update (GoMap.lookups s.storagesOrigin) addr o a

omit [Keccak] in
/-- A map that is made when it is missing. -/
theorem lookup_getD {K : Type} [DecidableEq K] (m : GoMap K (GoMap Hash Bytes)) (k : K) :
    (fun x => ((m.lookup k).getD ∅).lookup x) = entry (lookups m k) := by
  funext x
  cases h : m.lookup k with
  | none | some => simp [lookups, entry, h]

/-- One slot is noted. -/
theorem noted_trackSlot (s : StateDB) (obj : StateObject) (key prev value : Hash) :
    Noted s (s.trackSlot obj key prev value) obj.address
      (some (update (entry (lookups s.storages obj.addrHash)) (Keccak.hash key.bytes)
        (some (slotBytes value))))
      (some (if (entry (lookups s.storagesOrigin obj.address) (Keccak.hash key.bytes)).isSome
        then entry (lookups s.storagesOrigin obj.address)
        else update (entry (lookups s.storagesOrigin obj.address)) (Keccak.hash key.bytes)
          (some (slotBytes prev)))) where
  frame := ⟨_, _, rfl⟩
  diffs h := by
    rw [← lookup_getD s.storages obj.addrHash]
    refine (lookups_insert_update (fun _ => rfl) obj.addrHash _ h).trans ?_
    congr 2
    exact funext fun x => lookup_insert_update (fun _ => rfl) _ _ x
  origins a := by
    rw [← lookup_getD s.storagesOrigin obj.address]
    refine (lookups_insert_update (fun _ => rfl) obj.address _ a).trans ?_
    congr 2
    by_cases hold :
      (((s.storagesOrigin.lookup obj.address).getD ∅).lookup (Keccak.hash key.bytes)).isSome = true
    · rw [if_pos hold, if_pos hold]
    · rw [if_neg hold, if_neg hold]
      exact funext fun x => lookup_insert_update (fun _ => rfl) _ _ x

theorem Noted.refl (s : StateDB) (addr : Address) :
    Noted s s addr (lookups s.storages (Keccak.hash addr.bytes))
      (lookups s.storagesOrigin addr) where
  frame := ⟨_, _, rfl⟩
  diffs h := by rw [update_eq_self]
  origins a := by rw [update_eq_self]

theorem Noted.trans {s1 s2 s3 : StateDB} {d1 o1 d2 o2 : Option (Hash → Option Bytes)}
    (h : Noted s1 s2 addr d1 o1) (h' : Noted s2 s3 addr d2 o2) : Noted s1 s3 addr d2 o2 where
  frame := by
    obtain ⟨m, m', rfl⟩ := h.frame
    obtain ⟨n, n', rfl⟩ := h'.frame
    exact ⟨n, n', rfl⟩
  diffs x := by rw [h'.diffs, funext h.diffs, update_idem]
  origins a := by rw [h'.origins, funext h.origins, update_idem]

/-- **The loop over the pending slots**, by induction over the slots that are left; `P` are the
slots that were changed before.  Slots that have their value already are skipped. -/
theorem updateSlots_spec (hkeys : KeysApart Hash.bytes) {value : Hash → Hash}
    {slots : List (Hash × Hash)} (hnodup : (slots.map Prod.fst).Nodup) {P : Hash → Prop}
    (heach : ∀ e ∈ slots, e.2 = value e.1 ∧ ¬ P e.1 ∧
      (obj.originStorage.lookup e.1).getD Hash.zero = cur e.1)
    (hinv : Inv o tr t) (hslots : Slots t (onKeys P value cur)) {d' : Option (Hash → Option Bytes)}
    (hd : lookups s.storages obj.addrHash = noteDiffs P value d)
    (hd' : lookups s.storagesOrigin obj.address = noteOrigins P cur d') {Q : Hash → Prop}
    (hQ : ∀ k, Q k ↔ P k ∨ (k ∈ slots.map Prod.fst ∧ value k ≠ cur k)) :
    ∃ s' origin tr' t',
      updateSlots slots s obj tr = (none, s', { obj with originStorage := origin }, tr') ∧
      Inv o tr' t' ∧ Slots t' (onKeys Q value cur) ∧
      Noted s s' obj.address (noteDiffs Q value d) (noteOrigins Q cur d') ∧
      (∀ k, Q k → ¬ P k → origin.lookup k = some (value k)) ∧
      ∀ k, ¬ Q k ∨ P k → origin.lookup k = obj.originStorage.lookup k := by
  induction slots generalizing s obj tr t P with
  | nil =>
    have hPQ : Q = P := funext fun k => by simpa using hQ k
    subst hPQ
    refine ⟨s, obj.originStorage, tr, t, rfl, hinv, hslots, ?_, fun k hk hnk => absurd hk hnk,
      fun _ _ => rfl⟩
    rw [← hd, ← hd']
    exact .refl s obj.address
  | cons e slots ih =>
    obtain ⟨k, v⟩ := e
    obtain ⟨hnotin, hrest⟩ := nodup_cons.mp hnodup
    obtain ⟨hv, hPk, hk⟩ := heach (k, v) mem_cons_self
    have heach' := fun e he => heach e (mem_cons_of_mem _ he)
    dsimp only at hv hPk hk
    subst hv
    by_cases hsame : value k = cur k
    · obtain ⟨s', origin, tr', t', hexec, hspec⟩ :=
        ih hrest heach' hinv hslots hd hd' fun k' => by
            rw [hQ k', map_cons, mem_cons]
            grind
      refine ⟨s', origin, tr', t', ?_, hspec⟩
      simp [updateSlots, hk, if_pos hsame, hexec]
    · obtain ⟨tr1, t1, hwrite, hinv1, hslots1⟩ := writeSlot_spec hkeys hinv hslots k (value k)
      rw [onKeys_insert value cur] at hslots1
      have hnoted := noted_trackSlot s
        { obj with originStorage := obj.originStorage.insert k (value k) } k (cur k) (value k)
      generalize hs1 :
        s.trackSlot { obj with originStorage := obj.originStorage.insert k (value k) } k (cur k)
        (value k) = s1 at hnoted
      have hdiffs : lookups s1.storages obj.addrHash =
          noteDiffs (fun k' => P k' ∨ k' = k) value d := by
        refine (hnoted.diffs obj.addrHash).trans ((update_self _ _ _).trans ?_)
        show some (update (entry (lookups s.storages obj.addrHash)) _ _) = _
        rw [hd]
        exact note_insert _ hkeys
      have horigins : lookups s1.storagesOrigin obj.address =
          noteOrigins (fun k' => P k' ∨ k' = k) cur d' := by
        refine (hnoted.origins obj.address).trans ((update_self _ _ _).trans ?_)
        rw [hd', noteOrigins_insert hkeys hPk]
      obtain ⟨s', origin, tr', t', hexec, hinv', hslots', hnoted', hin, hout⟩ :=
        @ih { obj with originStorage := obj.originStorage.insert k (value k) } s1 t1 tr1 hrest
          (fun k' => P k' ∨ k' = k) (fun e he => by
            obtain ⟨hv, hPe, hprev⟩ := heach' e he
            have hne : e.1 ≠ k := fun heq => hnotin (mem_map.mpr ⟨e, he, heq⟩)
            rw [lookup_insert_ne hne]
            exact ⟨hv, not_or.mpr ⟨hPe, hne⟩, hprev⟩) hinv1 hslots1 hdiffs horigins fun k' => by
            rw [hQ k', map_cons, mem_cons]
            grind
      refine ⟨s', origin, tr', t', ?_, hinv', hslots', ?_, fun k' hk' hnk' => ?_, fun k' hk' => ?_⟩
      · simp [updateSlots, hk, if_neg hsame, hwrite, hs1, hexec]
      · exact hnoted.trans hnoted'
      · by_cases heq : k' = k
        · subst heq
          rw [hout k' (.inr (.inr rfl))]
          exact lookup_insert _
        · exact hin k' hk' (not_or.mpr ⟨hnk', heq⟩)
      · have heq : k' ≠ k := by
          rintro rfl
          obtain hnq | hp := hk'
          · exact hnq ((hQ k').mpr (.inr ⟨by simp, hsame⟩))
          · exact hPk hp
        rw [hout k' (hk'.imp_right .inl)]
        exact lookup_insert_ne heq

section

variable [MapOrder]

/-- An object whose slots are written. -/
theorem Sees.updateRoot (h : Sees base s addr obj v) (hlive : obj.deleted = false)
    {origin : Storage} {o : Tree} (hinv : Inv o tr t) (hslots : Slots t v.value)
    (hin : ∀ k, v.value k ≠ v.cur k → origin.lookup k = some (v.value k))
    (hout : ∀ k, v.value k = v.cur k → origin.lookup k = obj.originStorage.lookup k) :
    Sees base s addr { obj.finalise with
        originStorage := origin
        trie := some tr
        pendingStorage := ∅
        data := { obj.data with root := rootHash t } }
      v.updateRoot := by
  have hroot : SlotsRoot v.value (rootHash t) := ⟨t, hinv.valid, hslots, rfl⟩
  have hkept : ∀ k, obj.originStorage.lookup k ≠ none → origin.lookup k ≠ none := by
    intro k hk
    by_cases hsame : v.value k = v.cur k
    · rwa [hout k hsame]
    · simp [hin k hsame]
  refine ⟨⟨⟨o, t, hinv, hslots⟩, hroot, fun k x hx => ?_, fun _ k hk => ?_, fun k hk => ?_,
    h.on.origin,
    h.on.marked⟩, ?_, h.address, h.codeHash, fun k hk => (h.reads k hk).imp_left (hkept k)⟩
  · by_cases hsame : v.value k = v.cur k
    · rw [hout k hsame] at hx
      exact (h.on.cached k x hx).trans hsame.symm
    · rw [hin k hsame, Option.some.injEq] at hx
      exact hx.symm
  · by_cases hsame : v.value k = v.cur k
    · rw [hout k hsame] at hk
      exact hsame.trans (h.on.unread hlive k hk)
    · rw [hin k hsame] at hk
      contradiction
  · simp [StateObject.finalise] at hk
  · have hdata := h.data
    have hcode := h.code
    simp only [View.updateRoot, StateObject.view, hroot.eq, hdata, h.origin, h.deleted, hcode,
      StateObject.finalise]
    rfl

/-- **`updateRoot`** writes the slots of the object into its storage trie, and notes them. -/
theorem updateRoot_spec (hkeys : KeysApart Hash.bytes) (hroot : s.originalRoot = base.root)
    (h : Sees base s addr obj v) (hlive : obj.deleted = false) :
    ∃ s' obj', s.updateRoot obj = some (s'.setStateObject obj') ∧ Noted s s' addr
        (noteDiffs (fun k => v.value k ≠ v.cur k) v.value
          (lookups s.storages (Keccak.hash addr.bytes)))
        (noteOrigins (fun k => v.value k ≠ v.cur k) v.cur (lookups s.storagesOrigin addr)) ∧
      Sees base s addr obj' v.updateRoot := by
  have hfinal := h.finalise
  have hpending : ∀ k,
      v.value k = (obj.finalise.pendingStorage.lookup k).getD (v.cur k) := fun k => by
    rw [h.value, ← committed_finalise]
    rfl
  unfold StateDB.updateRoot updateTrie
  by_cases hnone : obj.finalise.pendingStorage.keys.length = 0
  · -- nothing changed; the trie is hashed if it was loaded
    have hempty : obj.finalise.pendingStorage = ∅ :=
      AList.ext (map_eq_nil_iff.mp (length_eq_zero_iff.mp hnone))
    have hcur : v.value = v.cur := funext fun k => by
      rw [hpending k, hempty, lookup_empty, Option.getD_none]
    have hnoted := Noted.refl s addr
    have hnot : ¬ ∃ k, v.value k ≠ v.cur k := by simp [hcur]
    simp only [if_pos hnone]
    rw [noteDiffs, noteOrigins, if_neg hnot, if_neg hnot]
    have hholds := h.on.holds
    unfold HoldsSlots at hholds
    cases htrie : obj.trie with
    | none =>
      have hfinalTrie : obj.finalise.trie = none := htrie
      refine ⟨s, obj.finalise, by simp [hfinalTrie], hnoted, ?_⟩
      have hroot' : slotsRoot v.value = v.data.root := by
        rw [hcur, show v.data.root = obj.data.root from congrArg (·.data.root) h.view]
        exact h.on.root.eq
      have hview : v.updateRoot = { v with committed := v.value } := by
        rw [View.updateRoot, hroot', hcur]
      rwa [hview]
    | some tr =>
      rw [htrie] at hholds
      obtain ⟨o, t, hinv, hslots⟩ := hholds
      obtain ⟨tr', hhash, hinv'⟩ := hash_of_inv hinv
      have hfinalTrie : obj.finalise.trie = some tr := htrie
      have hin : ∀ k, v.value k ≠ v.cur k → obj.originStorage.lookup k = some (v.value k) :=
        fun k hk => absurd (congrFun hcur k) hk
      have hsees := h.updateRoot hlive hinv' (hcur ▸ hslots) hin fun k _ => rfl
      refine ⟨s, _, by simp only [hfinalTrie, hhash]; rfl, hnoted, ?_⟩
      rwa [← hempty] at hsees
  · simp only [if_neg hnone]
    obtain ⟨o, t, tr, hget, hinv, hslots⟩ := getTrie_spec hroot hfinal.on.holds
    have heach : ∀ e ∈ range (1 :: obj.finalise.address.bytes) obj.finalise.pendingStorage,
        e.2 = v.value e.1 ∧ ¬ False ∧
          (obj.finalise.originStorage.lookup e.1).getD Hash.zero = v.cur e.1 := by
      intro e he
      refine ⟨by rw [hpending e.1, GoMap.mem_range.mp he]; rfl, id, ?_⟩
      have hread := hfinal.on.read e.1 (.inr (by rw [GoMap.mem_range.mp he]; simp))
      cases horigin : obj.finalise.originStorage.lookup e.1 with
      | some x => exact hfinal.on.cached e.1 x horigin
      | none =>
        obtain hne | hd := hread
        · exact absurd horigin hne
        · have hzero := hfinal.on.unread hlive e.1 horigin
          rw [hd] at hzero
          exact hzero.symm
    obtain ⟨s', origin, tr', t', hexec, hinv', hslots', hnoted, hin, hout⟩ :=
      @updateSlots_spec _ obj.finalise s v.cur
        (lookups s.storages (Keccak.hash addr.bytes)) t tr o hkeys
        v.value _ (nodup_range _ _) (fun _ => False) heach
        hinv (by rwa [show onKeys (fun _ => False) v.value v.cur = v.cur from funext fun k =>
          onKeys_other _ _ id])
        (lookups s.storagesOrigin addr)
        (by
          rw [noteDiffs, if_neg (by simp), ← h.address]
          rfl)
        (by
          rw [noteOrigins, if_neg (by simp), ← h.address]
          rfl)
        (fun k => v.value k ≠ v.cur k) (fun k => by
          rw [false_or]
          refine ⟨fun hne => ⟨?_, hne⟩, And.right⟩
          cases hlookup : obj.finalise.pendingStorage.lookup k with
          | none =>
            rw [hpending k, hlookup] at hne
            exact absurd rfl hne
          | some x => exact mem_map.mpr ⟨(k, x), GoMap.mem_range.mpr hlookup, rfl⟩)
    obtain ⟨tr'', hhash, hinv''⟩ := hash_of_inv hinv'
    have hall : onKeys (fun k => v.value k ≠ v.cur k) v.value v.cur = v.value := by
      funext k
      by_cases hne : v.value k ≠ v.cur k
      · exact onKeys_self _ _ hne
      · exact (onKeys_other (P := fun k => v.value k ≠ v.cur k) _ _ hne).trans (not_not.mp hne).symm
    rw [hall] at hslots'
    have haddr : obj.finalise.address = addr := h.address
    rw [haddr] at hnoted
    refine ⟨s', _, by simp only [hget, hexec, hhash]; rfl, hnoted, ?_⟩
    exact h.updateRoot hlive hinv'' hslots' (fun k hk => hin k hk id) fun k hk =>
      hout k (.inl (not_not.mpr hk))

omit [MapOrder] in
/-- The notes about an address are part of the world. -/
theorem Rel.noted (h : Rel base seen s w) {s' : StateDB} {o : Option (Hash → Option Bytes)}
    (hnoted : Noted s s' addr d o) :
    Rel base seen s' { w with
        storageDiffs := update w.storageDiffs (Keccak.hash addr.bytes) d
        storageOrigins := update w.storageOrigins addr o } := by
  have hdiffs := hnoted.diffs
  have horigins := hnoted.origins
  rw [funext h.storageDiffs] at hdiffs
  rw [funext h.storageOrigins] at horigins
  obtain ⟨m, m', rfl⟩ := hnoted.frame
  exact { h with
    onBase := { h.onBase with }
    accounts := fun a => (h.accounts a).transfer rfl rfl
    storageDiffs := hdiffs
    storageOrigins := horigins }

/-- **One address** of the loop over the storage tries. -/
theorem updateStorageRoot_rel (hkeys : KeysApart Hash.bytes) (h : Rel base seen s w)
    (hobj : s.stateObjects.lookup addr = some obj) :
    ∃ s', s.updateStorageRoot obj = some s' ∧
      Rel base seen s' (w.setPart addr (w.part addr).updateRoot) ∧ Quiet s s' := by
  obtain ⟨v, hv, hsees⟩ := h.present (peek_of_live hobj)
  have hpart : (w.part addr).account = some v := hv
  unfold updateStorageRoot Local.updateRoot
  simp only [hpart, hsees.deleted]
  cases hd : obj.deleted with
  | true =>
    simp only [if_true]
    refine ⟨s, rfl, ?_, .refl s⟩
    rwa [World.setPart_part]
  | false =>
    obtain ⟨s', obj', hexec, hnoted, hsees'⟩ := updateRoot_spec hkeys h.onBase.root hsees hd
    rw [h.storageDiffs, h.storageOrigins] at hnoted
    obtain ⟨m, m', hs'⟩ := hnoted.frame
    refine ⟨_, hexec, ?_, by rw [hs']; exact ⟨⟨rfl, rfl⟩, rfl⟩⟩
    have hrel := (h.noted hnoted).setObject (hsees'.transfer (by rw [hs']) (by rw [hs']))
    simpa [World.setPart, World.part, World.setAccount] using hrel

end

end StateDB

/-! ## the account trie -/

/-- The write of an account into the account trie. -/
def Local.write (l : Local) : Local :=
  match l.account with
  | none => l
  | some v =>
    if v.deleted then { l with written := none }
    else
      { l with
        written := some v.data
        accountDiff := some v.data.slimEnc
        accountOrigin := l.accountOrigin.or (some (v.origin.elim [] StateAccount.slimEnc)) }

/-- An account that is written has an encoding. -/
def Local.Writable (l : Local) :
    Prop := ∀ v, l.account = some v → v.deleted = false → v.data.Encodable

namespace StateDB

/-- The account of a live address is written into the account trie, or deleted from it. -/
theorem Rel.setWritten (h : Rel base seen s w) {acc : Option StateAccount}
    (hlive : s.stateObjects.lookup addr ≠ none) (hinv : Inv base.accountTree tr t)
    (hacc : Accounts t (update w.written addr acc)) (henc : ∀ x, acc = some x → x.Encodable) :
    Rel base seen { s with trie := tr } { w with written := update w.written addr acc } := by
  have honBase : OnBase base { s with trie := tr } (update w.written addr acc) := by
    refine { h.onBase with
      trie := ⟨t, hinv, hacc⟩, encodable := fun a x hx => ?_, fresh := fun a ha => ?_ }
    · by_cases hne : a = addr
      · rw [hne, update_self] at hx
        exact henc x hx
      · rw [update_of_ne hne] at hx
        exact h.onBase.encodable a x hx
    · have hne : a ≠ addr := fun heq => hlive (heq ▸ ha)
      rw [update_of_ne hne]
      exact h.onBase.fresh a ha
  exact { h with
    onBase := honBase
    accounts := fun a => (h.accounts a).transfer rfl rfl }

/-- The notes about an account are part of the world. -/
theorem Rel.noteAccount (h : Rel base seen s w) (k : Hash) (blob : Bytes) {m : GoMap Address Bytes}
    {o : Address → Option Bytes} (hm : ∀ a, m.lookup a = o a) :
    Rel base seen { s with accounts := s.accounts.insert k blob, accountsOrigin := m }
      { w with accountDiffs := update w.accountDiffs k (some blob), accountOrigins := o } :=
  { h with
    onBase := { h.onBase with }
    accounts := fun a => (h.accounts a).transfer rfl rfl
    accountDiffs := lookup_insert_update h.accountDiffs _ _
    accountOrigins := hm }

/-- `updateStateObject` of an account that has an encoding. -/
theorem updateStateObject_spec (hkeys : AddressesApart) (h : Rel base seen s w)
    (hobj : s.stateObjects.lookup addr = some obj) (hsees : Sees base s addr obj v)
    (hlive : obj.deleted = false) (henc : obj.data.Encodable) :
    ∃ s', s.updateStateObject obj = some s' ∧ Quiet s s' ∧ Rel base seen s' { w with
        written := update w.written addr (some obj.data)
        accountDiffs := update w.accountDiffs (Keccak.hash addr.bytes) (some obj.data.slimEnc)
        accountOrigins := update w.accountOrigins addr
          ((w.accountOrigins addr).or (some (obj.origin.elim [] StateAccount.slimEnc))) } := by
  obtain rfl := hsees.address
  obtain ⟨t, hinv, haccs⟩ := h.onBase.trie
  obtain ⟨tr', t', hupd, hinv', haccs'⟩ := updateAccount_spec hinv haccs hkeys obj.address henc
  have hrel := h.setWritten (by simp [hobj]) hinv' haccs' fun x hx => by
    rw [← Option.some.inj hx]; exact henc
  have hfits : ¬ 2 ^ 62 ≤ obj.data.enc.length := not_le.mpr henc.fits
  unfold updateStateObject
  rw [if_neg hfits]
  simp only [hupd, slimAccountRLP_eq henc, StateObject.addrHash]
  -- the origin is noted from the first change on
  split
  next hold =>
    refine ⟨_, rfl, ⟨⟨rfl, rfl⟩, rfl⟩, hrel.noteAccount _ _ fun a => ?_⟩
    rw [h.accountOrigins] at hold
    obtain ⟨b, hb⟩ := Option.isSome_iff_exists.mp hold
    rw [hb, Option.some_or, ← hb, update_eq_self]
    exact h.accountOrigins a
  next hold =>
    have hnone : w.accountOrigins obj.address = none := by
      rw [← h.accountOrigins]
      exact Option.not_isSome_iff_eq_none.mp hold
    cases horigin : obj.origin with
    | none =>
      refine ⟨_, rfl, ⟨⟨rfl, rfl⟩, rfl⟩, hrel.noteAccount _ _ fun a => ?_⟩
      rw [hnone]
      exact lookup_insert_update h.accountOrigins obj.address [] a
    | some acc =>
      have hacc : acc.Encodable := by
        rw [hsees.on.origin hlive] at horigin
        split at horigin
        · contradiction
        · exact h.onBase.backs.encodable _ acc horigin
      simp only [slimAccountRLP_eq hacc]
      refine ⟨_, rfl, ⟨⟨rfl, rfl⟩, rfl⟩, hrel.noteAccount _ _ fun a => ?_⟩
      rw [hnone]
      exact lookup_insert_update h.accountOrigins obj.address acc.slimEnc a

/-- An account without an encoding panics. -/
theorem updateStateObject_panics (henc : ¬ obj.data.Encodable) :
    s.updateStateObject obj = none := by
  unfold updateStateObject
  by_cases hfits : 2 ^ 62 ≤ obj.data.enc.length
  · rw [if_pos hfits]
  · have hneg : obj.data.balance < 0 := by
      by_contra hnn
      exact henc ⟨by omega, by omega⟩
    simp [slimAccountRLP_negative hneg]

/-- **One address** of the loop over the account trie. -/
theorem writeObject_rel (hkeys : AddressesApart) (h : Rel base seen s w)
    (hobj : s.stateObjects.lookup addr = some obj) :
    ((w.part addr).Writable → ∃ s', s.writeObject obj = some s' ∧
      Rel base seen s' (w.setPart addr (w.part addr).write) ∧ Quiet s s') ∧
      (¬ (w.part addr).Writable → s.writeObject obj = none) := by
  obtain ⟨v, hv, hsees⟩ := h.present (peek_of_live hobj)
  have hpart : (w.part addr).account = some v := hv
  have hself : update w.accounts addr (some v) = w.accounts := by rw [← hv, update_eq_self]
  unfold writeObject Local.Writable write
  simp only [hpart, Option.some.injEq, forall_eq', hsees.deleted, hsees.data, hsees.origin]
  cases hd : obj.deleted with
  | true =>
    refine ⟨fun _ => ?_, fun hne => absurd (fun hfalse => by cases hfalse) hne⟩
    obtain ⟨t, hinv, haccs⟩ := h.onBase.trie
    obtain ⟨tr', t', hdelete, hinv', haccs'⟩ := deleteAccount_spec hinv haccs hkeys addr
    have hrel := h.setWritten (by simp [hobj]) hinv' haccs' nofun
    refine ⟨{ s with trie := tr' }, ?_, ?_, ⟨⟨rfl, rfl⟩, rfl⟩⟩
    · simp [deleteStateObject, hsees.address, hdelete]
    · simpa [World.setPart, World.part, hself] using hrel
  | false =>
    simp only [Bool.false_eq_true, if_false, forall_const]
    refine ⟨fun henc => ?_, fun henc => updateStateObject_panics henc⟩
    obtain ⟨s', hexec, hquiet, hrel⟩ := updateStateObject_spec hkeys h hobj hsees hd henc
    refine ⟨s', hexec, ?_, hquiet⟩
    simpa [World.setPart, World.part, hself] using hrel

end StateDB

/-! ## IntermediateRoot -/

open Classical in
/-- The root of the account trie with these accounts. -/
noncomputable def accountsRoot (m : Address → Option StateAccount) : Hash :=
  if h : ∃ t, Valid t ∧ Accounts t m then rootHash h.choose else Hash.zero

theorem accountsRoot_eq {m : Address → Option StateAccount} (hvalid : Valid t) (h : Accounts t m) :
    accountsRoot m = rootHash t := by
  have hex : ∃ t, Valid t ∧ Accounts t m := ⟨t, hvalid, h⟩
  rw [accountsRoot, dif_pos hex, Keyed.ext hex.choose_spec.1 hvalid hex.choose_spec.2 h]

namespace World

/-- The world after the storage tries of the pending accounts are updated. -/
noncomputable def updateRoots (w : World) :
    World := w.mapOn (fun a => w.pending a ≠ none) Local.updateRoot

/-- All pending accounts have an encoding. -/
def Writable (w : World) : Prop := ∀ a, w.pending a ≠ none → (w.part a).Writable

/-- The world after the pending accounts are written. -/
noncomputable def writeAccounts (w : World) : World :=
  { w.mapOn (fun a => w.pending a ≠ none) Local.write with pending := fun _ => none }

/-- The world in which `IntermediateRoot` writes the accounts. -/
noncomputable def rooted (w : World) (deleteEmptyObjects : Bool) : World :=
  (w.finalise deleteEmptyObjects).updateRoots

open Classical in
/-- `IntermediateRoot`, unless an account has no encoding. -/
noncomputable def intermediateRoot (w : World) (deleteEmptyObjects : Bool) :
    Option (Hash × World) :=
  let w := w.rooted deleteEmptyObjects
  if w.Writable then some (accountsRoot w.writeAccounts.written, w.writeAccounts) else none

end World

theorem Local.updateRoot_marks (l : Local) :
    l.updateRoot.pending = l.pending ∧ l.updateRoot.dirty = l.dirty := by
  unfold updateRoot
  split
  · exact ⟨rfl, rfl⟩
  · split <;> exact ⟨rfl, rfl⟩

theorem Local.write_marks (l : Local) : l.write.pending = l.pending ∧ l.write.dirty = l.dirty := by
  unfold write
  split
  · exact ⟨rfl, rfl⟩
  · split <;> exact ⟨rfl, rfl⟩

namespace StateDB

omit [Keccak] in
/-- The loop over pending objects as a loop over their addresses. -/
theorem forPending_eq (step : StateDB → StateObject → Option StateDB) (l : List Address) :
    forPending step l s = l.foldlM (fun s a => (s.stateObjects.lookup a).bind (step s)) s := by
  induction l generalizing s with
  | nil => rfl
  | cons a l ih =>
    rw [forPending, foldlM_cons]
    cases hobj : s.stateObjects.lookup a with
    | none => rfl
    | some obj =>
      simp only [Option.bind_some, Option.bind_eq_bind]
      cases hstep : step s obj with
      | none => rfl
      | some s' => exact ih

/-- A step at a live object. -/
theorem stepsAt_object {f : Local → Local} {ok : Local → Prop}
    {step : StateDB → StateObject → Option StateDB}
    (hmarks : ∀ l, (f l).pending = l.pending ∧ (f l).dirty = l.dirty)
    (hstep : ∀ {s : StateDB} {w : World} {addr : Address} {obj : StateObject}, Rel base seen s w →
      s.stateObjects.lookup addr = some obj →
      (ok (w.part addr) → ∃ s', step s obj = some s' ∧
        Rel base seen s' (w.setPart addr (f (w.part addr))) ∧ Quiet s s') ∧
      (¬ ok (w.part addr) → step s obj = none)) :
    StepsAt base seen f ok fun s a => (s.stateObjects.lookup a).bind (step s) where
  marks l := by rw [(hmarks l).1, (hmarks l).2]; exact ⟨id, id⟩
  good h ht hok := by
    obtain ⟨obj, hobj⟩ := Option.ne_none_iff_exists'.mp (h.live _ ht)
    rw [hobj]
    exact (hstep h hobj).1 hok
  bad h ht hok := by
    obtain ⟨obj, hobj⟩ := Option.ne_none_iff_exists'.mp (h.live _ ht)
    rw [hobj]
    exact (hstep h hobj).2 hok

variable [MapOrder]

/-- **`IntermediateRoot`** returns the root of the account trie with the contents of the world,
and panics only if an account has no encoding. -/
theorem intermediateRoot_spec (haddrs : AddressesApart) (hslots : KeysApart Hash.bytes)
    {below : List JournalEntry} {ws : List World} (h : Journalled base seen below s w ws)
    (deleteEmptyObjects : Bool) :
    (∃ root s' w', s.intermediateRoot deleteEmptyObjects = some (root, s') ∧
      w.intermediateRoot deleteEmptyObjects = some (root, w') ∧ Journalled base seen [] s' w' [] ∧
      s'.validRevisions = [] ∧ s'.nextRevisionId = s.nextRevisionId) ∨
      (s.intermediateRoot deleteEmptyObjects = none ∧
        w.intermediateRoot deleteEmptyObjects = none) := by
  obtain ⟨hfinal, hentries, hrevs, hnext⟩ := finalise_spec haddrs h deleteEmptyObjects
  unfold StateDB.intermediateRoot World.intermediateRoot World.rooted
  simp only [forPending_eq]
  generalize s.finalise deleteEmptyObjects = s1 at hfinal hentries hrevs hnext ⊢
  generalize w.finalise deleteEmptyObjects = w1 at hfinal ⊢
  -- the storage tries
  have hroots : StepsAt base seen Local.updateRoot (fun _ => True) fun s a =>
      (s.stateObjects.lookup a).bind s.updateStorageRoot :=
        stepsAt_object updateRoot_marks fun h hobj =>
    ⟨fun _ => updateStorageRoot_rel hslots h hobj, fun hne => absurd trivial hne⟩
  obtain ⟨s2, hexec2, hrel2, hquiet2⟩ := (hroots.all haddrs hfinal.rel
    (nodup_range [1] s1.stateObjectsPending) (fun a => by rw [mem_range_keys, hfinal.rel.pending])
    fun _ hp => .inr (.inl hp)).1 fun _ _ => trivial
  have hsame : w1.updateRoots.pending = w1.pending := by
    funext a
    simp only [World.updateRoots, World.mapOn]
    by_cases hp : w1.pending a ≠ none
    · rw [onKeys_self (P := fun a => w1.pending a ≠ none) _ _ hp, (updateRoot_marks _).1]
      rfl
    · rw [onKeys_other (P := fun a => w1.pending a ≠ none) _ _ hp]
  -- the account trie
  have hwrites : StepsAt base seen write Local.Writable fun s a =>
      (s.stateObjects.lookup a).bind s.writeObject := stepsAt_object write_marks fun h hobj =>
    writeObject_rel haddrs h hobj
  obtain ⟨hgood, hbad⟩ := hwrites.all haddrs hrel2 (nodup_range [2] s1.stateObjectsPending)
    (Q := fun a => w1.updateRoots.pending a ≠ none)
    (fun a => by rw [mem_range_keys, hfinal.rel.pending, hsame]) fun _ hp => .inr (.inl hp)
  by_cases hw : w1.updateRoots.Writable
  · obtain ⟨s3, hexec3, hrel3, hquiet3⟩ := hgood hw
    obtain ⟨t, hinv, haccs⟩ := hrel3.onBase.trie
    obtain ⟨tr', hhash, hinv'⟩ := hash_of_inv hinv
    have hroot : accountsRoot w1.updateRoots.writeAccounts.written = rootHash t :=
      accountsRoot_eq hinv.valid haccs
    have hquiet := hquiet2.trans hquiet3
    have hrel4 : Rel base seen
        { s3 with trie := tr', stateObjectsPending := ∅ } w1.updateRoots.writeAccounts := by
      have honBase : OnBase base { s3 with trie := tr', stateObjectsPending := ∅ }
          w1.updateRoots.writeAccounts.written :=
        { hrel3.onBase with trie := ⟨t, hinv', haccs⟩ }
      exact { hrel3 with
        onBase := honBase
        accounts := fun a => (hrel3.accounts a).transfer rfl rfl
        pending := fun a => lookup_empty a
        live := fun a ha =>
          hrel3.live a (ha.imp_right fun hp => .inr (hp.resolve_left fun hne => hne rfl)) }
    refine .inl ⟨rootHash t, _, _, by simp [hexec2, hexec3, hhash], ?_,
      ⟨hrel4, ⟨[], ?_, .base _⟩, ?_⟩, ?_, ?_⟩
    · simp [if_pos hw, hroot]
    · rw [hquiet.journal, hentries]
      rfl
    · rintro - w0 hw0
      obtain rfl := Option.some.inj hw0
      exact hfinal.bottom rfl w1 rfl
    · exact hquiet.valid.trans hrevs
    · exact hquiet.next.trans hnext
  · refine .inr ⟨?_, if_neg hw⟩
    simp [hexec2, hbad hw]

end StateDB

end GoQrl.State
