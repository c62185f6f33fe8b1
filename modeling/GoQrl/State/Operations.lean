import GoQrl.State.Journal

/-!
# GoQrl.State.Operations

The calls of a `StateDB` and what they do to the world.

`Setter` are the changes of a running transaction and `Getter` the reads; `StateDB.set` and
`StateDB.get` are the calls themselves, `World.set` and `World.get` their meaning.  A world has
no journal: a snapshot of it is the world itself.
-/

namespace GoQrl.State

open Rlp Mpt Mpt.Tree GoQrl.Types

/-! ## calls -/

/-- The changes of a transaction. -/
inductive Setter
  | addBalance (addr : Address) (amount : Int)
  | subBalance (addr : Address) (amount : Int)
  | setBalance (addr : Address) (amount : Int)
  | setNonce (addr : Address) (nonce : UInt64)
  | setCode (addr : Address) (code : Option Bytes)
  | setState (addr : Address) (key value : Hash)
  | createAccount (addr : Address)
  | addLog (log : Log)
  | addRefund (gas : UInt64)
  | subRefund (gas : UInt64)
  | addPreimage (hash : Hash) (preimage : Bytes)
  | addAddressToAccessList (addr : Address)
  | addSlotToAccessList (addr : Address) (slot : Hash)

/-- The reads. -/
inductive Getter
  | exist (addr : Address)
  | empty (addr : Address)
  | getBalance (addr : Address)
  | getNonce (addr : Address)
  | getStorageRoot (addr : Address)
  | getCode (addr : Address)
  | getCodeSize (addr : Address)
  | getCodeHash (addr : Address)
  | getState (addr : Address) (key : Hash)
  | getCommittedState (addr : Address) (key : Hash)
  | getRefund
  | getLogs (hash : Hash) (blockNumber : UInt64) (blockHash : Hash)
  | logs
  | preimages
  | addressInAccessList (addr : Address)
  | slotInAccessList (addr : Address) (slot : Hash)
  | txIndex

/-- What a call returns.  The order in which `Logs` goes through the transactions is left open. -/
inductive Answer
  | unit
  | bool (b : Bool)
  | bools (b c : Bool)
  | int (n : Int)
  | nat (n : Nat)
  | hash (h : Hash)
  | code (code : Option Bytes)
  | logs (logs : List Log)
  | allLogs (logs : Hash → List Log)
  | preimages (preimages : Hash → Option Bytes)
  | revision (id : Nat)

/-- What is seen of an answer: of the stored logs what `seen` leaves. -/
def Answer.see (seen : Log → Log) : Answer → Answer
  | .allLogs all => .allLogs fun h => (all h).map seen
  | a => a

/-- A log with the block it is in. -/
def Log.stamp (blockNumber : UInt64) (blockHash : Hash) (l : Log) : Log :=
  { l with blockNumber := blockNumber, blockHash := blockHash }

/-- The block of a log is written when its receipt is made; this is the log without it. -/
def Log.unstamped (l : Log) : Log := l.stamp 0 Hash.zero

variable [Keccak]

namespace StateDB

/-- A change of the state; `SubRefund` may panic. -/
def set (s : StateDB) : Setter → Option StateDB
  | .addBalance addr amount => some (s.addBalance addr amount)
  | .subBalance addr amount => some (s.subBalance addr amount)
  | .setBalance addr amount => some (s.setBalance addr amount)
  | .setNonce addr nonce => some (s.setNonce addr nonce)
  | .setCode addr code => some (s.setCode addr code)
  | .setState addr key value => some (s.setState addr key value)
  | .createAccount addr => some (s.createAccount addr)
  | .addLog log => some (s.addLog log)
  | .addRefund gas => some (s.addRefund gas)
  | .subRefund gas => s.subRefund gas
  | .addPreimage h preimage => some (s.addPreimage h preimage)
  | .addAddressToAccessList addr => some (s.addAddressToAccessList addr)
  | .addSlotToAccessList addr slot => s.addSlotToAccessList addr slot

/-- A read of the state. -/
def get (s : StateDB) : Getter → Option (Answer × StateDB)
  | .exist addr => some ((s.exist addr).map .bool id)
  | .empty addr => some ((s.isEmpty addr).map .bool id)
  | .getBalance addr => some ((s.getBalance addr).map .int id)
  | .getNonce addr => some ((s.getNonce addr).map (.nat ·.toNat) id)
  | .getStorageRoot addr => some ((s.getStorageRoot addr).map .hash id)
  | .getCode addr => some ((s.getCode addr).map .code id)
  | .getCodeSize addr => some ((s.getCodeSize addr).map .nat id)
  | .getCodeHash addr => some ((s.getCodeHash addr).map .hash id)
  | .getState addr key => some ((s.getState addr key).map .hash id)
  | .getCommittedState addr key => some ((s.getCommittedState addr key).map .hash id)
  | .getRefund => some (.nat s.refund.toNat, s)
  | .getLogs h blockNumber blockHash => some ((s.getLogs h blockNumber blockHash).map .logs id)
  | .logs => some (.allLogs s.logs, s)
  | .preimages => some (.preimages s.preimages, s)
  | .addressInAccessList addr => some (.bool (s.addressInAccessList addr), s)
  | .slotInAccessList addr slot => (s.slotInAccessList addr slot).map fun (a, b) => (.bools a b, s)
  | .txIndex => some (.nat s.txIndex, s)

end StateDB

/-! ## their meaning -/

/-- The account that is created, with the balance that is carried over. -/
def createdView (balance : Int) :
    View := StateDB.freshView { newEmptyStateAccount with balance := balance }

namespace World

/-- A changed account. -/
def put (w : World) (addr : Address) (v : View) : World := (w.setAccount addr v).addDirty addr

/-- A new account, in the place of the old one if there is one. -/
def create (w : World) (addr : Address) (balance : Int) : World :=
  match w.accounts addr with
  | none => w.put addr (createdView balance)
  | some v => (StateDB.reset w addr v.origin (createdView balance)).addDirty addr

/-- The account that is written to. -/
def getOrNew (w : World) (addr : Address) : View × World :=
  match w.live addr with
  | some v => (v, w)
  | none => (createdView 0, w.create addr 0)

/-- A change of the account that is written to. -/
def write (w : World) (addr : Address) (f : View → World → World) : World :=
  f (w.getOrNew addr).1 (w.getOrNew addr).2

/-- The meaning of a change. -/
def set (seen : Log → Log) (w : World) : Setter → Option World
  | .addBalance addr amount => some <| w.write addr fun v w =>
    if amount = 0 then if v.empty then w.addDirty addr else w
    else w.put addr { v with data := { v.data with balance := v.data.balance + amount } }
  | .subBalance addr amount => some <| w.write addr fun v w =>
    if amount = 0 then w
    else w.put addr { v with data := { v.data with balance := v.data.balance - amount } }
  | .setBalance addr amount => some <| w.write addr fun v w =>
    w.put addr { v with data := { v.data with balance := amount } }
  | .setNonce addr nonce => some <| w.write addr fun v w =>
    w.put addr { v with data := { v.data with nonce := nonce } }
  | .setCode addr code => some <| w.write addr fun v w =>
    w.put addr { v with
      code := code
      data := { v.data with codeHash := (Keccak.hash (code.getD [])).bytes } }
  | .setState addr key value => some <| w.write addr fun v w =>
    if v.value key = value then w
    else w.put addr { v with
      value := Function.update v.value key value
      reads := fun k => v.reads k ∨ k = key }
  | .createAccount addr => some (w.create addr ((w.live addr).elim 0 (·.data.balance)))
  | .addLog log =>
    let log := { log with txHash := w.thash, txIndex := w.txIndex, index := w.logSize }
    some { w with
      logs := Function.update w.logs w.thash (w.logs w.thash ++ [seen log])
      logSize := w.logSize + 1 }
  | .addRefund gas => some { w with refund := w.refund + gas }
  | .subRefund gas => if gas > w.refund then none else some { w with refund := w.refund - gas }
  | .addPreimage h preimage =>
    match w.preimages h with
    | some _ => some w
    | none => some { w with preimages := Function.update w.preimages h (some preimage) }
  | .addAddressToAccessList addr => some { w with accessList := (w.accessList.addAddress addr).2 }
  | .addSlotToAccessList addr slot =>
    (w.accessList.addSlot addr slot).map fun r => { w with accessList := r.2 }

/-- The meaning of a read. -/
def get (w : World) : Getter → Option Answer
  | .exist addr => some (.bool (w.live addr).isSome)
  | .empty addr => some (.bool ((w.live addr).elim true View.empty))
  | .getBalance addr => some (.int ((w.live addr).elim 0 (·.data.balance)))
  | .getNonce addr => some (.nat ((w.live addr).elim 0 (·.data.nonce)).toNat)
  | .getStorageRoot addr => some (.hash ((w.live addr).elim Hash.zero (·.data.root)))
  | .getCode addr => some (.code ((w.live addr).elim none (·.code)))
  | .getCodeSize addr => some (.nat ((w.live addr).elim 0 fun v => (v.code.getD []).length))
  | .getCodeHash addr => some (.hash ((w.live addr).elim Hash.zero (Hash.ofBytes ·.data.codeHash)))
  | .getState addr key => some (.hash ((w.live addr).elim Hash.zero (·.value key)))
  | .getCommittedState addr key => some (.hash ((w.live addr).elim Hash.zero (·.committed key)))
  | .getRefund => some (.nat w.refund.toNat)
  | .getLogs h blockNumber blockHash =>
    some (.logs ((w.logs h).map (Log.stamp blockNumber blockHash)))
  | .logs => some (.allLogs w.logs)
  | .preimages => some (.preimages w.preimages)
  | .addressInAccessList addr => some (.bool (w.accessList.containsAddress addr))
  | .slotInAccessList addr slot => (w.accessList.contains addr slot).map fun r => .bools r.1 r.2
  | .txIndex => some (.nat w.txIndex)

end World

/-! ## reads -/

namespace StateDB

variable {base : Base} {seen : Log → Log} {s : StateDB} {w : World}

/-- The block of a log is the most that is not seen of it. -/
def SeesLogs (seen : Log → Log) : Prop := ∀ l n b, (seen l).stamp n b = l.stamp n b

/-- A read may be made without a trace, unless it writes a block that is seen. -/
def ReadsOnly (seen : Log → Log) : Getter → Prop
  | .getLogs .. => ∀ l n b, seen (Log.stamp n b l) = seen l
  | _ => True

/-- The answer to a read that keeps the world. -/
theorem answer_of_read {α : Type} {call : α × StateDB} {x : α} (f : α → Answer)
    (hf : ∀ x, (f x).see seen = f x) (h : Answers base seen s w call x) :
    ∃ a s', some (call.map f id) = some (a, s') ∧ some (f x) = some (a.see seen) ∧
      Rel base seen s' w ∧ Quiet s s' := by
  obtain ⟨s', rfl, hrel, hquiet⟩ := h
  exact ⟨f x, s', rfl, by rw [hf], hrel, hquiet⟩

/-- **Reads** return what the world says and keep it. -/
theorem get_spec (h : Rel base seen s w) (hseen : SeesLogs seen) {q : Getter}
    (hq : ReadsOnly seen q) :
    ∃ a s', s.get q = some (a, s') ∧ w.get q = some (a.see seen) ∧ Rel base seen s' w ∧
      Quiet s s' := by
  cases q with
  | exist addr => exact answer_of_read .bool (fun _ => rfl) (exist_spec h addr)
  | empty addr => exact answer_of_read .bool (fun _ => rfl) (isEmpty_spec h addr)
  | getBalance addr => exact answer_of_read .int (fun _ => rfl) (getBalance_spec h addr)
  | getNonce addr => exact answer_of_read (.nat ·.toNat) (fun _ => rfl) (getNonce_spec h addr)
  | getStorageRoot addr => exact answer_of_read .hash (fun _ => rfl) (getStorageRoot_spec h addr)
  | getCode addr => exact answer_of_read .code (fun _ => rfl) (getCode_spec h addr)
  | getCodeSize addr => exact answer_of_read .nat (fun _ => rfl) (getCodeSize_spec h addr)
  | getCodeHash addr => exact answer_of_read .hash (fun _ => rfl) (getCodeHash_spec h addr)
  | getState addr key => exact answer_of_read .hash (fun _ => rfl) (getState_spec h addr key)
  | getCommittedState addr key =>
    exact answer_of_read .hash (fun _ => rfl) (getCommittedState_spec h addr key)
  | getRefund => exact ⟨.nat s.refund.toNat, s, rfl, by rw [h.refund]; rfl, h, .refl s⟩
  | getLogs txhash n b =>
    obtain ⟨-, hrel, hquiet⟩ := getLogs_spec h (fun l n b => hq l n b) txhash n b
    have hstamp : (w.logs txhash).map (Log.stamp n b) = (s.logs txhash).map (Log.stamp n b) := by
      rw [← h.logs, List.map_map]
      exact List.map_congr_left fun l _ => hseen l n b
    exact ⟨.logs ((s.logs txhash).map (Log.stamp n b)), _, rfl, by rw [World.get, hstamp]; rfl,
      hrel, hquiet⟩
  | logs =>
    refine ⟨.allLogs s.logs, s, rfl, ?_, h, .refl s⟩
    simp [World.get, Answer.see, h.logs]
  | preimages => exact ⟨.preimages s.preimages, s, rfl, by rw [h.preimages]; rfl, h, .refl s⟩
  | addressInAccessList addr =>
    exact ⟨.bool (s.addressInAccessList addr), s,
      rfl, by rw [addressInAccessList, h.accessList]; rfl, h, .refl s⟩
  | slotInAccessList addr slot =>
    obtain ⟨r, hr⟩ := Option.isSome_iff_exists.mp (h.indices.contains addr slot)
    exact ⟨.bools r.1 r.2, s, by rw [get, slotInAccessList, h.accessList, hr]; rfl,
      by rw [World.get, hr]; rfl, h, .refl s⟩
  | txIndex => exact ⟨.nat s.txIndex, s, rfl, by rw [h.txIndex]; rfl, h, .refl s⟩

end StateDB

end GoQrl.State
