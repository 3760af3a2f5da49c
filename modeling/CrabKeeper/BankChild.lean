import CrabKeeper.Foundation.DoubleEntry
import CrabKeeper.Foundation.Network
import CrabKeeper.BankAccount
import CrabKeeper.ChannelFraming
import CrabKeeper.Clocks

/-!
# The child loop of a branch

The loops of the physical and of the Lamport tests are one program up to their
clock, the pending mark and what the thread returns. A message carries a number
that no program reads: a child copies it from the order it handles, and notes
each debit and credit it executes together with the time its history recorded.
-/

set_option autoImplicit false

namespace CrabKeeper.BankChild
open Foundation.Machine Foundation.DoubleEntry Foundation.Network
open CrabKeeper.MessageCodec CrabKeeper.ChannelFraming CrabKeeper.BankTypes
open CrabKeeper.BankAccount CrabKeeper.Clocks

structure Envelope where
  order : ℕ
  msg : Message
  deriving DecidableEq, Repr

structure Posting where
  order : ℕ
  side : Side
  amount : Balance
  time : Timestamp
  deriving DecidableEq, Repr

def Posting.entry (p : Posting) : Entry ℤ := ⟨p.order, p.side, p.amount.toInt⟩

def asTransfer (o : TransferOrder) : Transfer AccountId ℤ :=
  ⟨o.src, o.dst, o.amount.toInt⟩

/-- What distinguishes the loops: the clock steps before a send and after a
receive, the timestamp of an order, the pending mark, the thread's result. -/
structure Variant (κ ρ : Type) where
  fresh : κ
  depart : κ → Checked κ
  arrive : κ → Checked κ
  stamp : κ → Checked (Timestamp × κ)
  marksPending : Bool
  success : BranchAccount → ρ
  failure : IoError → ρ

variable {κ ρ : Type}

def physicalChild (success : BranchAccount → ρ) (failure : IoError → ρ) :
    Variant PhysicalClock ρ where
  fresh := .new
  depart := .ok
  arrive := .ok
  stamp := PhysicalClock.now
  marksPending := false
  success := success
  failure := failure

def lamportChild (success : BranchAccount → ρ) (failure : IoError → ρ) :
    Variant LamportClock ρ where
  fresh := .new
  depart := fun c => do return (← c.increment).2
  arrive := fun c => do return (← c.increment).2
  stamp := fun c => .ok (c.get, c)
  marksPending := true
  success := success
  failure := failure

def IoError.display : IoError → String
  | .unexpectedEof => "failed to fill whole buffer"
  | .brokenPipe => "Broken pipe (os error 32)"
  | .other msg => msg

/-- `simulate_banking_child` of the unit tests. -/
def simulateBankingChild : Variant PhysicalClock (Except IoError Unit) :=
  physicalChild (fun _ => .ok ()) .error

/-- `simulate_banking_child_with_lamport` of the unit tests. -/
def simulateBankingChildWithLamport : Variant LamportClock (Except IoError Unit) :=
  lamportChild (fun _ => .ok ()) .error

/-- `simulate_banking_child` of the banking integration tests. -/
def simulateBankingChildThread : Variant PhysicalClock (Except String BalanceHistory) :=
  physicalChild (fun a => .ok a.history) (fun e => .error (IoError.display e))

/-- `simulate_banking_child_lamport` of the Lamport integration tests. -/
def simulateBankingChildLamport : Variant LamportClock (Except String BalanceHistory) :=
  lamportChild (fun a => .ok a.history) (fun e => .error (IoError.display e))

/-- `history.states.last_mut().unwrap().pending_in = amount`. -/
def markPending (a : BranchAccount) (amount : Balance) : Checked BranchAccount :=
  match a.history.states.getLast? with
  | some last => .ok { a with history := { a.history with
      states := a.history.states.dropLast ++ [{ last with pendingIn := amount }] } }
  | none => .error .unwrap

def debitAndMark (marks : Bool) (a : BranchAccount) (amount : Balance) (now : Timestamp) :
    Checked (Except AccountError Unit × BranchAccount) := do
  let (r, a) ← a.debit amount now
  match r with
  | .error e => return (.error e, a)
  | .ok () =>
    if marks then
      let a ← markPending a amount
      return (.ok (), a)
    else
      return (.ok (), a)

/-- Where a child stands. Between two phases it does one communication or one
operation on its account. -/
inductive Phase (ρ : Type) where
  | launch
  | started
  | receive
  | debit (k : ℕ) (payload : List UInt8) (order : TransferOrder) (now : Timestamp)
  | forward (k : ℕ) (payload : List UInt8) (order : TransferOrder) (now : Timestamp)
  | credit (k : ℕ) (order : TransferOrder) (now : Timestamp)
  | acknowledge (k : ℕ)
  | done
  | report
  | exited (result : Checked ρ)

structure ChildState (κ ρ : Type) where
  phase : Phase ρ
  account : BranchAccount
  clock : κ
  ledger : List Posting

def ChildState.exit (s : ChildState κ ρ) (result : Checked ρ) : ChildState κ ρ :=
  { s with phase := .exited result }

def ChildState.goto (s : ChildState κ ρ) (phase : Phase ρ) : ChildState κ ρ :=
  { s with phase := phase }

def ChildState.tick (s : ChildState κ ρ) (step : κ → Checked κ) (phase : Phase ρ) :
    ChildState κ ρ :=
  match step s.clock with
  | .error p => s.exit (.error p)
  | .ok c => { s with clock := c, phase := phase }

def timeOf (a : BranchAccount) : Timestamp :=
  match lastOf a with
  | some s => s.time
  | none => 0

def ChildState.post (s : ChildState κ ρ) (k : ℕ) (side : Side) (amount : Balance)
    (a : BranchAccount) : ChildState κ ρ :=
  { s with account := a, ledger := s.ledger ++ [⟨k, side, amount, timeOf a⟩] }

variable (V : Variant κ ρ)

/-- The test `order.dst == child_id` that follows the source branch. -/
def destination (id : AccountId) (k : ℕ) (order : TransferOrder) (now : Timestamp) : Phase ρ :=
  if order.dst = id then .credit k order now else .receive

def onTransfer (id : AccountId) (s : ChildState κ ρ) (k : ℕ) (payload : List UInt8) :
    ChildState κ ρ :=
  match TransferOrder.fromBytes payload with
  | .error p => s.exit (.error p)
  | .ok (.error e) => s.exit (.ok (V.failure (.other e)))
  | .ok (.ok order) =>
    match V.stamp s.clock with
    | .error p => s.exit (.error p)
    | .ok (now, c) => { s with
        clock := c
        phase := if order.src = id then .debit k payload order now
          else destination id k order now }

def onMessage (id : AccountId) (s : ChildState κ ρ) (e : Envelope) : ChildState κ ρ :=
  match V.arrive s.clock with
  | .error p => s.exit (.error p)
  | .ok c =>
    let s := { s with clock := c }
    match e.msg with
    | .transfer payload => onTransfer V id s e.order payload
    | .stop => s.tick V.depart .done
    | _ => s

def onDebit (s : ChildState κ ρ) (k : ℕ) (payload : List UInt8) (order : TransferOrder)
    (now : Timestamp) : ChildState κ ρ :=
  match debitAndMark V.marksPending s.account order.amount now with
  | .error p => s.exit (.error p)
  | .ok (.error e, _) => s.exit (.ok (V.failure (.other e.display)))
  | .ok (.ok _, a) => (s.post k .debit order.amount a).tick V.depart (.forward k payload order now)

def onCredit (s : ChildState κ ρ) (k : ℕ) (order : TransferOrder) (now : Timestamp) :
    ChildState κ ρ :=
  match s.account.credit order.amount now with
  | .error p => s.exit (.error p)
  | .ok (.error e, _) => s.exit (.ok (V.failure (.other e.display)))
  | .ok (.ok _, a) => (s.post k .credit order.amount a).tick V.depart (.acknowledge k)

def sending (s : ChildState κ ρ) (e : Envelope) (next : ChildState κ ρ) :
    ChildAction Envelope IoError (ChildState κ ρ) :=
  .send e fun
    | .error err => s.exit (.ok (V.failure err))
    | .ok _ => next

def bankingChild (id : AccountId) (s : ChildState κ ρ) :
    ChildAction Envelope IoError (ChildState κ ρ) :=
  match s.phase with
  | .launch => .tau (s.tick V.depart .started)
  | .started => sending V s ⟨0, .started⟩ (s.goto .receive)
  | .receive => .recv fun
    | .error err => s.exit (.ok (V.failure err))
    | .ok e => onMessage V id s e
  | .debit k payload order now => .tau (onDebit V s k payload order now)
  | .forward k payload order now =>
    sending V s ⟨k, .transfer payload⟩ (s.goto (destination id k order now))
  | .credit k order now => .tau (onCredit V s k order now)
  | .acknowledge k => sending V s ⟨k, .ack⟩ (s.goto .receive)
  | .done => sending V s ⟨0, .done⟩ (s.goto .report)
  | .report =>
    sending V s ⟨0, .balanceHistory s.account.history.toBytes⟩
      (s.exit (.ok (V.success s.account)))
  | .exited _ => .halt

def childId {n : ℕ} (i : Fin n) : AccountId := UInt8.ofNat (i.val+1)

def ChildState.start (id : AccountId) (initialBalance : Balance) : ChildState κ ρ :=
  ⟨.launch, .new id initialBalance, V.fresh, []⟩

def streamAt (n idx : ℕ) : Option (Fin n) := if h : idx < n then some ⟨idx, h⟩ else none

theorem childId_toNat {n : ℕ} (hn : n ≤ 255) (i : Fin n) : (childId i).toNat = i.val+1 := by
  rw [childId, UInt8.toNat_ofNat', Nat.mod_eq_of_lt]
  have := i.isLt
  omega

theorem childId_injective {n : ℕ} (hn : n ≤ 255) : Function.Injective (childId (n := n)) := by
  intro i j h
  have := congrArg UInt8.toNat h
  rw [childId_toNat hn, childId_toNat hn] at this
  ext
  omega

theorem childId_of_index {n : ℕ} {id idx : UInt8} {i : Fin n} (h : subU8 id 1 = .ok idx)
    (hi : i.val = idx.toNat) : childId i = id := by
  have hsub := subU8_eq_ok.mp h
  have := UInt8.toNat_lt id
  rw [UInt8.toNat_one] at hsub
  rw [← UInt8.toNat_inj, childId, UInt8.toNat_ofNat', Nat.mod_eq_of_lt] <;> omega

theorem streamAt_eq_some {n idx : ℕ} {i : Fin n} : streamAt n idx = some i ↔ i.val = idx := by
  unfold streamAt
  constructor
  · intro h
    split_ifs at h
    obtain rfl := Option.some.inj h
    rfl
  · rintro rfl
    rw [dif_pos i.isLt]

theorem streamAt_eq_none {n idx : ℕ} : streamAt n idx = none ↔ n ≤ idx := by
  unfold streamAt
  split_ifs with h
  · exact iff_of_false (by simp) (by omega)
  · exact iff_of_true rfl (by omega)

end CrabKeeper.BankChild
