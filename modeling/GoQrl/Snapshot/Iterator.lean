import GoQrl.Lib.Search
import GoQrl.Snapshot.Tree

/-!
# GoQrl.Snapshot.Iterator

The iterators over accounts and slots, `core/state/snapshot/iterator.go` and `iterator_fast.go`.

The layers are not modified while they are iterated over, so the iterator of a layer is given by the
keys that are left, with what `Account` or `Slot` answers for each: nothing for a deleted entry.
`fastIterator` keeps one iterator per layer, ordered by their current keys, and moves the one that
it advanced to its new place.  `Release` and the lists that a layer caches are left out.
-/

namespace GoQrl.Snapshot

open State (GoMap)

/-! ## the iterators of the layers -/

/-- A key with the blob that `Account` or `Slot` returns, which is `nil` for a deleted entry. -/
abbrev Item := Hash × Option Bytes

/-- What is iterated over: the accounts, or the slots of one. -/
inductive Kind
  | accounts
  | storage (account : Hash)

/-- The key of an entry. -/
def Kind.key : Kind → Hash → Key
  | .accounts, h => .account h
  | .storage a, h => .slot a h

/-- An iterator over one layer: where it is, and what is left. -/
structure LayerIterator where
  cur : Item
  keys : List Item
  stale : Bool

/-- `Next`; a stale diff layer ends the iteration. -/
def LayerIterator.next (it : LayerIterator) : Option LayerIterator :=
  match it.keys with
  | [] => none
  | x :: keys => if it.stale then none else some { it with cur := x, keys := keys }

/-- `slices.SortFunc` with `Hash.Cmp`. -/
def sortHashes (l : List Hash) : List Hash := l.mergeSort fun a b => decide (a ≤ b)

namespace DiffData

/-- `AccountList`: with the accounts that are destructed and not made again. -/
def accountList (d : DiffData) : List Hash :=
  sortHashes (d.accountData.keys ++ d.destructSet.keys.filter fun h =>
    (d.accountData.lookup h).isNone)

/-- The map of the slots of an account. -/
def slotsOf (slots : List (GoMap Hash Bytes)) (d : DiffData) (account : Hash) : GoMap Hash Bytes :=
  ((d.storageData.lookup account).bind fun ref => slots[ref]?).getD ∅

/-- `StorageList`, without the flag. -/
def storageList (slots : List (GoMap Hash Bytes)) (d : DiffData) (account : Hash) : List Hash :=
  sortHashes (d.slotsOf slots account).keys

/-- The keys from `seek` on: a binary search in the sorted list. -/
def seekIn (seek : Hash) (hashes : List Hash) : List Hash :=
  hashes.drop (Search.search (fun i (_ : Unit) => (hashes[i]?.all fun h => decide (seek ≤ h), ()))
    hashes.length 0
    hashes.length ()).1

/-- `diffAccountIterator.Account`. -/
def account (d : DiffData) (h : Hash) : Option Bytes := d.accountData.lookup h

/-- `diffStorageIterator.Slot`; the blob of a deleted slot is `nil`, which is empty. -/
def slot (slots : List (GoMap Hash Bytes)) (d : DiffData) (a h : Hash) : Option Bytes :=
  match (d.slotsOf slots a).lookup h with
  | some [] => none
  | blob => blob

/-- `diffLayer.AccountIterator` and `diffLayer.StorageIterator`. -/
def iterator (slots : List (GoMap Hash Bytes)) (stale : Bool) (d : DiffData) (kind : Kind)
    (seek : Hash) : LayerIterator :=
  match kind with
  | .accounts =>
    ⟨(Hash.zero, none), (seekIn seek d.accountList).map fun h => (h, d.account h), stale⟩
  | .storage a => ⟨(Hash.zero, none), (seekIn seek (d.storageList slots a)).map fun h =>
    (h, d.slot slots a h), stale⟩

end DiffData

/-! ## the iterators of the disk layer -/

/-- `rawdb.SnapshotAccountPrefix` or `rawdb.SnapshotStoragePrefix` with the account. -/
def Kind.dbPrefix : Kind → Bytes
  | .accounts => [97]
  | .storage a => 111 :: a.bytes

/-- The key of an entry in the database. -/
def Key.dbKey : Key → Bytes
  | .account h => 97 :: h.bytes
  | .slot a s => 111 :: (a.bytes ++ s.bytes)

/-- `common.TrimRightZeroes`. -/
def trimRightZeroes (b : Bytes) : Bytes := (b.reverse.dropWhile fun x => x == 0).reverse

/-- `NewIterator` of the database: the entries with the prefix, from `start` on, in the order of the
keys. -/
def newIterator (db : GoMap Bytes Bytes) (pre start : Bytes) : List (Bytes × Bytes) :=
  ((db.entries.map fun e => (e.1, e.2)).filter fun e =>
    pre.isPrefixOf e.1 && decide (pre ++ start ≤ e.1)).mergeSort
    fun a b => decide (a.1 ≤ b.1)

/-- `diskLayer.AccountIterator` and `diskLayer.StorageIterator`; keys of another length are skipped.
-/
def diskIterator (db : GoMap Bytes Bytes) (kind : Kind) (seek : Hash) : LayerIterator :=
  let entries := newIterator db kind.dbPrefix (trimRightZeroes seek.bytes)
  ⟨(Hash.zero, none), (entries.filter fun e => e.1.length = kind.dbPrefix.length + 32).map fun e =>
    (Hash.ofBytes e.1, some e.2), false⟩

/-! ## the fast iterator -/

/-- `weightedIterator`. -/
structure WeightedIterator where
  it : LayerIterator
  priority : Nat

/-- `Hash` of the iterator. -/
def WeightedIterator.hash (w : WeightedIterator) : Hash := w.it.cur.1

/-- `Next` of the iterator. -/
def WeightedIterator.next (w : WeightedIterator) : Option WeightedIterator :=
  w.it.next.map fun it => { w with it := it }

/-- `Cmp`: by hash, and then by priority. -/
def WeightedIterator.le (a b : WeightedIterator) : Bool :=
  decide (a.hash < b.hash) || (decide (a.hash = b.hash) && decide (a.priority ≤ b.priority))

/-- What the iteration fails with. -/
inductive IterError
  /-- "unknown snapshot" -/
  | unknown (root : Hash)
  /-- a Go panic -/
  | panicked
  /-- The evaluation budget of the model is used up; not an error of the source. -/
  | outOfFuel
  deriving DecidableEq

/-- `fastIterator`, with the current account or slot. -/
structure FastIterator where
  iterators : List WeightedIterator
  initiated : Bool
  cur : Option Bytes

namespace FastIterator

/-- How often the iterators can be advanced or dropped. -/
def size (iterators : List WeightedIterator) :
    Nat := (iterators.map fun w => w.it.keys.length + 1).sum

/-- The loops of `init`: the iterator at `i` is advanced until it is at a key of its own, and the
one with the lower priority gives way. -/
def initLoop : Nat → List WeightedIterator → Nat → GoMap Hash Nat →
    Except IterError (List WeightedIterator)
  | 0, _, _, _ => .error .outOfFuel
  | fuel + 1, iterators, i, positioned =>
    match iterators[i]? with
    | none => .ok iterators
    | some it =>
      match it.next with
      | none =>
        -- the last iterator takes the place of one that is exhausted
        match iterators.getLast? with
        | none => .error .panicked
        | some last => initLoop fuel (iterators.set i last).dropLast i positioned
      | some it =>
        let iterators := iterators.set i it
        match positioned.lookup it.hash with
        | none => initLoop fuel iterators (i + 1) (positioned.insert it.hash i)
        | some other =>
          match iterators[other]? with
          | none => .error .panicked
          | some old =>
            if old.priority < it.priority then initLoop fuel iterators i positioned
            else initLoop fuel ((iterators.set other it).set i old) i positioned

/-- `init`. -/
def init (iterators : List WeightedIterator) : Except IterError FastIterator :=
  match initLoop (size iterators + 1) iterators 0 ∅ with
  | .error e => .error e
  | .ok iterators => .ok ⟨iterators.mergeSort WeightedIterator.le, false, none⟩

/-- The predicate of the binary search in `next`, which notes a clash. -/
def placeAt (iterators : List WeightedIterator) (idx : Nat) (cur : WeightedIterator) (n : Nat)
    (clash : Option Nat) :
    Bool × Option Nat :=
  if n < idx then (false, clash)
  else if n = iterators.length - 1 then (true, clash)
  else
    match iterators[n + 1]? with
    | none => (true, clash)
    | some nxt =>
      if cur.hash < nxt.hash then (true, clash)
      else if nxt.hash < cur.hash then (false, clash)
      else (decide (cur.priority < nxt.priority), some (n + 1))

/-- `move`. -/
def move (iterators : List WeightedIterator) (index newpos : Nat) (elem : WeightedIterator) :
    List WeightedIterator :=
  iterators.take index ++ (iterators.take (newpos + 1)).drop (index + 1) ++
    elem :: iterators.drop (newpos + 1)

/-- The iterator at `idx` is moved to its place in the list, with the position of a clash. -/
def place (iterators : List WeightedIterator) (idx : Nat) (cur : WeightedIterator) :
    List WeightedIterator × Option Nat :=
  let (index, clash) :=
    Search.search (placeAt iterators idx cur) iterators.length 0 iterators.length none
  (move iterators idx index cur, clash)

/-- `next`: the iterator at `idx` is advanced and moved to its place, and one at the same key gives
way. -/
def next : Nat → List WeightedIterator → Nat → Except IterError (Bool × List WeightedIterator)
  | 0, _, _ => .error .outOfFuel
  | fuel + 1, iterators, idx =>
    match iterators[idx]? with
    | none => .error .panicked
    | some it =>
      match it.next with
      | none =>
        let iterators := iterators.eraseIdx idx
        .ok (decide (0 < iterators.length), iterators)
      | some cur =>
        let iterators := iterators.set idx cur
        match iterators[idx + 1]? with
        | none => .ok (true, iterators)
        | some nxt =>
          if cur.hash < nxt.hash then .ok (true, iterators)
          else if cur.hash = nxt.hash ∧ cur.priority < nxt.priority then
            (next fuel iterators (idx + 1)).map fun r => (true, r.2)
          else
            match place iterators idx cur with
            | (iterators, none) => .ok (true, iterators)
            | (iterators, some clash) => (next fuel iterators clash).map fun r => (true, r.2)

/-- The loop of `Next`: entries without a value are skipped. -/
def nextLoop : Nat → List WeightedIterator → Except IterError (Bool × FastIterator)
  | 0, _ => .error .outOfFuel
  | fuel + 1, iterators =>
    match next (size iterators + 1) iterators 0 with
    | .error e => .error e
    | .ok (false, iterators) => .ok (false, ⟨iterators, true, none⟩)
    | .ok (true, iterators) =>
      match iterators.head? with
      | none => .error .panicked
      | some w =>
        match w.it.cur.2 with
        | some blob => .ok (true, ⟨iterators, true, some blob⟩)
        | none => nextLoop fuel iterators

/-- `Next`. -/
def Next (fi : FastIterator) : Except IterError (Bool × FastIterator) :=
  match fi.iterators with
  | [] => .ok (false, fi)
  | w :: _ =>
    match fi.initiated, w.it.cur.2 with
    | false, some blob => .ok (true, { fi with initiated := true, cur := some blob })
    | _, _ => nextLoop (size fi.iterators + 1) fi.iterators

/-- `for it.Next() { ... it.Hash(), it.Account() ... }`: all that is yielded. -/
def collect : Nat → FastIterator → Except IterError (List (Hash × Bytes))
  | 0, _ => .error .outOfFuel
  | fuel + 1, fi =>
    match fi.Next with
    | .error e => .error e
    | .ok (false, _) => .ok []
    | .ok (true, fi) =>
      match fi.iterators.head?, fi.cur with
      | some w, some blob => (collect fuel fi).map fun rest => (w.hash, blob) :: rest
      | _, _ => .error .panicked

end FastIterator

namespace Tree

variable {F : Type}

/-- The iterators of the layers from the one at `ptr` down; if the account is destructed in a layer,
those below have no slots of it. -/
def layerIterators (t : Tree F) (db : GoMap Bytes Bytes) (kind : Kind) (seek : Hash) :
    Nat → Nat → Nat → Except IterError (List WeightedIterator)
  | 0, _, _ => .error .outOfFuel
  | fuel + 1, ptr, depth =>
    match t.heap[ptr]? with
    | none => .error .panicked
    | some (.disk _) => .ok [⟨diskIterator db kind seek, depth⟩]
    | some (.diff dl) =>
      match t.data[dl.data]? with
      | none => .error .panicked
      | some d =>
        let it : WeightedIterator := ⟨d.iterator t.slots dl.stale kind seek, depth⟩
        match kind with
        | .storage a =>
          if d.destructs a then .ok [it]
          else (layerIterators t db (.storage a) seek fuel dl.parent (depth + 1)).map fun l =>
            it :: l
        | .accounts =>
          (layerIterators t db .accounts seek fuel dl.parent (depth + 1)).map fun l => it :: l

/-- `newFastIterator`; there are fewer layers below one than there are objects. -/
def newFastIterator (t : Tree F) (db : GoMap Bytes Bytes) (root : Hash) (kind : Kind)
    (seek : Hash) :
    Except IterError FastIterator :=
  match t.layers.lookup root with
  | none => .error (.unknown root)
  | some ptr =>
    match t.layerIterators db kind seek (t.heap.length + 1) ptr 0 with
    | .error e => .error e
    | .ok iterators => FastIterator.init iterators

/-- What an iteration over a snapshot yields. -/
def iterate (t : Tree F) (db : GoMap Bytes Bytes) (root : Hash) (kind : Kind) (seek : Hash) :
    Except IterError (List (Hash × Bytes)) :=
  match t.newFastIterator db root kind seek with
  | .error e => .error e
  | .ok fi => fi.collect (FastIterator.size fi.iterators + 2)

end Tree

end GoQrl.Snapshot
