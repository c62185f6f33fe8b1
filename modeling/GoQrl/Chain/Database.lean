import GoQrl.Bytes
import GoQrl.Lib.Batch

/-!
# GoQrl.Chain.Database

The database of a block chain, `core/rawdb/accessors_chain.go`.

A key-value store has headers, bodies and receipts by number and hash, the number of a hash, the
table of the canonical hashes and the head markers.  The freezer has the blocks that were moved out
of it, by number.  Of a header only what the chain functions read is kept, with its hash; of a body
the hashes of the transactions.  The caches of blocks and headers are left out.
-/

namespace GoQrl.Chain

/-- `types.Header`, with its hash. -/
structure Header where
  hash : Hash
  parentHash : Hash
  number : Nat
  root : Hash
deriving DecidableEq

/-- `types.Block`: a header and the hashes of the transactions. -/
structure Block where
  header : Header
  txs : List Hash
deriving DecidableEq

namespace Block

def hash (b : Block) : Hash := b.header.hash

def parentHash (b : Block) : Hash := b.header.parentHash

def number (b : Block) : Nat := b.header.number

def root (b : Block) : Hash := b.header.root

end Block

/-- The keys of the store. -/
inductive Key
  | header (number : Nat) (hash : Hash)
  | body (number : Nat) (hash : Hash)
  | receipts (number : Nat) (hash : Hash)
  | headerNumber (hash : Hash)
  | canonicalHash (number : Nat)
  | headHeaderHash
  | headBlockHash
  | headFastBlockHash
deriving DecidableEq

/-- What is stored under a key. -/
abbrev Value : Key → Type
  | .header _ _ => Header
  | .body _ _ => List Hash
  | .receipts _ _ => Bytes
  | .headerNumber _ => Nat
  | .canonicalHash _ => Hash
  | .headHeaderHash => Hash
  | .headBlockHash => Hash
  | .headFastBlockHash => Hash

/-- A batch of writes. -/
abbrev Writes := List (Batch.Write Value)

/-- The key-value store and the freezer. -/
structure Db where
  kv : AList Value
  ancients : List Block

/-- `number - 1` for a `uint64`. -/
def pred64 (n : Nat) : Nat := (n + (2 ^ 64 - 1)) % 2 ^ 64

namespace Db

/-- `batch.Write`. -/
def write (db : Db) (batch : Writes) : Db := { db with kv := Batch.write db.kv batch }

/-- `ReadCanonicalHash`; the zero hash if there is none. -/
def readCanonicalHash (db : Db) (number : Nat) : Hash :=
  match db.ancients[number]? with
  | some b => b.hash
  | none => (db.kv.lookup (Key.canonicalHash number)).getD Hash.zero

/-- `ReadHeader`: the freezer only has the canonical header. -/
def readHeader (db : Db) (hash : Hash) (number : Nat) : Option Header :=
  match db.ancients[number]? with
  | some b => if b.hash = hash then some b.header else db.kv.lookup (Key.header number hash)
  | none => db.kv.lookup (Key.header number hash)

/-- `ReadBody`. -/
def readBody (db : Db) (hash : Hash) (number : Nat) : Option (List Hash) :=
  match db.ancients[number]? with
  | some b => if b.hash = hash then some b.txs else db.kv.lookup (Key.body number hash)
  | none => db.kv.lookup (Key.body number hash)

/-- `ReadBlock`, and `GetBlock` without its cache. -/
def getBlock (db : Db) (hash : Hash) (number : Nat) : Option Block :=
  match db.readHeader hash number with
  | none => none
  | some header =>
    match db.readBody hash number with
    | none => none
    | some txs => some ⟨header, txs⟩

end Db

theorem pred64_succ {n : Nat} (h : n + 1 < 2 ^ 64) : pred64 (n + 1) = n := by
  rw [pred64]
  omega

namespace Db

variable {db : Db} {batch : Writes}

@[simp] theorem ancients_write (db : Db) (batch : Writes) :
    (db.write batch).ancients = db.ancients := rfl

/-- The table behind the freezer is in the store. -/
theorem readCanonicalHash_of_le {n : Nat} (h : db.ancients.length ≤ n) :
    db.readCanonicalHash n = (db.kv.lookup (Key.canonicalHash n)).getD Hash.zero := by
  rw [readCanonicalHash, List.getElem?_eq_none h]

end Db

end GoQrl.Chain
