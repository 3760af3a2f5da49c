import CrabKeeper.ChildForecast

/-!
# The parent's `transfer`

A call writes the order to its source and takes the next message from its
destination: an ACK is success, anything else is an error. It does not relay
what the source forwards. The caller makes its calls in turn and carries on
after an error.
-/

set_option autoImplicit false

namespace CrabKeeper.TransferCall
open Foundation.Machine Foundation.DoubleEntry Foundation.Transition Foundation.Network
open CrabKeeper.MessageCodec CrabKeeper.ChannelFraming CrabKeeper.BankTypes
open CrabKeeper.BankAccount CrabKeeper.BankChild CrabKeeper.ChildAccounts CrabKeeper.ChildForecast

inductive BankingError where
  | accountNotFound (account : AccountId)
  | insufficientFunds (account : AccountId) (balance required : Balance)
  | protocolError (msg : String)
  | networkError (msg : String)
  | serializationError (msg : String)
  deriving DecidableEq, Repr

/-- A caller in front of call `k`, waiting in it, and back from it. -/
inductive Caller where
  | call (k : ℕ)
  | await (k : ℕ) (order : TransferOrder)
  | returned (k : ℕ) (result : Except BankingError Unit)
  | finished
  | panicked
  deriving DecidableEq

variable {κ ρ : Type} {n : ℕ}

abbrev CallAction (n : ℕ) := ParentAction (Fin n) Envelope IoError Caller

/-- The first half of `transfer`: the order goes to the source. -/
def transfer (k : ℕ) (order : TransferOrder) : CallAction n :=
  match subU8 order.src 1 with
  | .error _ => .tau .panicked
  | .ok srcIdx =>
    match streamAt n srcIdx.toNat with
    | none => .tau .panicked
    | some i => .send i ⟨k, .transfer order.toBytes⟩ fun
      | .error e => .returned k (.error (.networkError (IoError.display e)))
      | .ok _ => .await k order

def onAnswer (k : ℕ) (msg : Message) : Caller :=
  match msg with
  | .ack => .returned k (.ok ())
  | other => .returned k (.error (.protocolError ("expected ACK, got " ++ other.display)))

/-- The second half: the next message of the destination's stream. -/
def awaitAnswer (k : ℕ) (order : TransferOrder) : CallAction n :=
  match subU8 order.dst 1 with
  | .error _ => .tau .panicked
  | .ok dstIdx =>
    match streamAt n dstIdx.toNat with
    | none => .tau .panicked
    | some j => .recv j fun
      | .error e => .returned k (.error (.networkError (IoError.display e)))
      | .ok e => onAnswer k e.msg

def callingParent (calls : List TransferOrder) (p : Caller) : CallAction n :=
  match p with
  | .call k =>
    match calls[k]? with
    | none => .tau .finished
    | some order => transfer k order
  | .await k order => awaitAnswer k order
  | .returned k _ => .tau (.call (k+1))
  | .finished | .panicked => .halt

def transferProtocol (n : ℕ) (V : Variant κ ρ) (calls : List TransferOrder) :
    Protocol (Fin n) Envelope IoError (ChildState κ ρ) Caller where
  child i s := bankingChild V (childId i) s
  parent := callingParent calls
  eof := .unexpectedEof
  broken := .brokenPipe

abbrev CallNet (κ ρ : Type) (n : ℕ) := Net (Fin n) Envelope (ChildState κ ρ) Caller

structure Idle (c : ChildCell κ ρ) : Prop where
  spawned : c.spawned = true
  phase : c.state.phase = .launch ∨ c.state.phase = .receive
  wellFormed : WellFormed c.state.account
  ledger : c.state.ledger = []
  down : c.down = []
  up : c.up = []

def CallStart (s : CallNet κ ρ n) : Prop := s.parent = .call 0 ∧ ∀ i, Idle (s.cell i)

def transferSystem (V : Variant κ ρ) (calls : List TransferOrder) : System (CallNet κ ρ n) :=
  (transferProtocol n V calls).system CallStart

def executions (s : CallNet κ ρ n) (i : Fin n) (k : ℕ) (side : Side) : ℕ :=
  (s.cell i).state.ledger.countP fun p => p.order = k && p.side = side

def ExecutedOnce (s : CallNet κ ρ n) (i : Fin n) (k : ℕ) (side : Side) : Prop :=
  executions s i k side = 1

theorem index_of_childId {i : Fin n} (hn : n ≤ 255) {id : AccountId} (h : childId i = id) :
    ∃ idx, subU8 id 1 = .ok idx ∧ streamAt n idx.toNat = some i := by
  have hid := childId_toNat hn i
  rw [h] at hid
  have hlt := UInt8.toNat_lt id
  have hval : (UInt8.ofNat i.val).toNat = i.val := by
    rw [UInt8.toNat_ofNat', Nat.mod_eq_of_lt]
    omega
  refine ⟨UInt8.ofNat i.val, subU8_eq_ok.mpr ?_, streamAt_eq_some.mpr hval.symm⟩
  rw [hval, UInt8.toNat_one, hid]

theorem transfer_of_childId (hn : n ≤ 255) {k : ℕ} {o : TransferOrder} {i : Fin n}
    (h : childId i = o.src) :
    transfer k o = .send i ⟨k, .transfer o.toBytes⟩ fun
      | .error e => .returned k (.error (.networkError (IoError.display e)))
      | .ok _ => .await k o := by
  obtain ⟨idx, hsub, hat⟩ := index_of_childId hn h
  unfold transfer
  simp only [hsub, hat]

theorem awaitAnswer_of_childId (hn : n ≤ 255) {k : ℕ} {o : TransferOrder} {j : Fin n}
    (h : childId j = o.dst) :
    awaitAnswer k o = .recv j fun
      | .error e => .returned k (.error (.networkError (IoError.display e)))
      | .ok e => onAnswer k e.msg := by
  obtain ⟨idx, hsub, hat⟩ := index_of_childId hn h
  unfold awaitAnswer
  simp only [hsub, hat]

def waitingNet (V : Variant κ ρ) (b : Fin n → Balance) : CallNet κ ρ n where
  parent := .call 0
  cell i := ⟨true, (ChildState.start V (childId i) (b i)).goto .receive, [], []⟩
  backlog := []

theorem waitingNet_start (V : Variant κ ρ) (b : Fin n → Balance) : CallStart (waitingNet V b) :=
  ⟨rfl, fun i => ⟨rfl, Or.inr rfl, new_wellFormed (childId i) (b i), rfl, rfl, rfl⟩⟩

end CrabKeeper.TransferCall
