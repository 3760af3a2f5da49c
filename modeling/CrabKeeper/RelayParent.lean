import CrabKeeper.ChildForecast

/-!
# The relaying parent of the integration tests

The parent waits for STARTED from every child, relays each order from its source
to its destination, sends STOP to every child and collects DONE and the reports.
An `expect`, an assertion or an index that fails makes it panic where it stands.
-/

set_option autoImplicit false

namespace CrabKeeper.RelayParent
open Foundation.Machine Foundation.DoubleEntry Foundation.Transition Foundation.Network
open CrabKeeper.MessageCodec CrabKeeper.ChannelFraming CrabKeeper.BankTypes
open CrabKeeper.BankAccount CrabKeeper.BankChild CrabKeeper.ChildAccounts CrabKeeper.ChildForecast

inductive RelayPc where
  | started (j : ℕ)
  | order (k : ℕ)
  | forwarded (k : ℕ) (srcIdx dstIdx : UInt8)
  | relay (k : ℕ) (dstIdx : UInt8) (relayed : Envelope)
  | ack (k : ℕ) (dstIdx : UInt8)
  | stop (j : ℕ)
  | done (j : ℕ)
  | history (j : ℕ)
  | decode (j : ℕ) (report : Message)
  | finished
  deriving DecidableEq, Repr

structure Relay where
  pc : RelayPc
  panicked : Bool
  histories : List BalanceHistory
  deriving DecidableEq, Repr

def Relay.goto (p : Relay) (pc : RelayPc) : Relay := { p with pc := pc }

def Relay.panic (p : Relay) : Relay := { p with panicked := true }

variable {κ ρ : Type} {n : ℕ}

abbrev RelayAction (n : ℕ) := ParentAction (Fin n) Envelope IoError Relay

def sendTo (p : Relay) (i : Option (Fin n)) (none : Relay) (e : Envelope) (next : Relay) :
    RelayAction n :=
  match i with
  | .none => .tau none
  | some i => .send i e fun
    | .ok _ => next
    | .error _ => p.panic

def recvFrom (p : Relay) (i : Option (Fin n)) (none : Relay) (next : Envelope → Relay) :
    RelayAction n :=
  match i with
  | .none => .tau none
  | some i => .recv i fun
    | .ok e => next e
    | .error _ => p.panic

def expectStartedAll (p : Relay) (j : ℕ) : RelayAction n :=
  recvFrom p (streamAt n j) (p.goto (.order 0)) fun e =>
    if e.msg = .started then p.goto (.started (j+1)) else p.panic

/-- `do_transfer` up to its first send. -/
def doTransfer (p : Relay) (k : ℕ) (o : TransferOrder) : RelayAction n :=
  match subU8 o.src 1 with
  | .error _ => .tau p.panic
  | .ok srcIdx =>
    match subU8 o.dst 1 with
    | .error _ => .tau p.panic
    | .ok dstIdx =>
      sendTo p (streamAt n srcIdx.toNat) p.panic ⟨k, .transfer o.toBytes⟩
        (p.goto (.forwarded k srcIdx dstIdx))

def isTransfer (m : Message) : Bool :=
  match m with
  | .transfer _ => true
  | _ => false

/-- The rest of `do_transfer`: the forward, the second send, the ACK. -/
def awaitForward (p : Relay) (k : ℕ) (srcIdx dstIdx : UInt8) : RelayAction n :=
  recvFrom p (streamAt n srcIdx.toNat) p.panic fun e =>
    if isTransfer e.msg then p.goto (.relay k dstIdx e) else p.panic

def relayOn (p : Relay) (k : ℕ) (dstIdx : UInt8) (relayed : Envelope) : RelayAction n :=
  sendTo p (streamAt n dstIdx.toNat) p.panic relayed (p.goto (.ack k dstIdx))

def awaitAck (p : Relay) (k : ℕ) (dstIdx : UInt8) : RelayAction n :=
  recvFrom p (streamAt n dstIdx.toNat) p.panic fun e =>
    if e.msg = .ack then p.goto (.order (k+1)) else p.panic

def sendStopAll (p : Relay) (j : ℕ) : RelayAction n :=
  sendTo p (streamAt n j) (p.goto (.done 0)) ⟨0, .stop⟩ (p.goto (.stop (j+1)))

/-- `collect_done_and_histories`: DONE, then the report, for each stream. -/
def awaitDone (p : Relay) (j : ℕ) : RelayAction n :=
  recvFrom p (streamAt n j) (p.goto .finished) fun e =>
    if e.msg = .done then p.goto (.history j) else p.panic

def awaitReport (p : Relay) (j : ℕ) : RelayAction n :=
  recvFrom p (streamAt n j) p.panic fun e => p.goto (.decode j e.msg)

def onReport (p : Relay) (j : ℕ) (report : Message) : Relay :=
  match report with
  | .balanceHistory bytes =>
    match BalanceHistory.fromBytes bytes with
    | .ok (.ok h) => { p with pc := .done (j+1), histories := p.histories ++ [h] }
    | _ => p.panic
  | _ => p.panic

def relayParent (orders : List TransferOrder) (p : Relay) : RelayAction n :=
  if p.panicked then .halt else
  match p.pc with
  | .started j => expectStartedAll p j
  | .order k =>
    match orders[k]? with
    | none => .tau (p.goto (.stop 0))
    | some o => doTransfer p k o
  | .forwarded k srcIdx dstIdx => awaitForward p k srcIdx dstIdx
  | .relay k dstIdx relayed => relayOn p k dstIdx relayed
  | .ack k dstIdx => awaitAck p k dstIdx
  | .stop j => sendStopAll p j
  | .done j => awaitDone p j
  | .history j => awaitReport p j
  | .decode j report => .tau (onReport p j report)
  | .finished => .halt

def relayProtocol (n : ℕ) (V : Variant κ ρ) (orders : List TransferOrder) :
    Protocol (Fin n) Envelope IoError (ChildState κ ρ) Relay where
  child i s := bankingChild V (childId i) s
  parent := relayParent orders
  eof := .unexpectedEof
  broken := .brokenPipe

abbrev BankNet (κ ρ : Type) (n : ℕ) := Net (Fin n) Envelope (ChildState κ ρ) Relay

def relayStart (V : Variant κ ρ) (b : Fin n → Balance) : BankNet κ ρ n where
  parent := ⟨.started 0, false, []⟩
  cell i := ⟨true, .start V (childId i) (b i), [], []⟩
  backlog := []

def relaySystem (V : Variant κ ρ) (b : Fin n → Balance) (orders : List TransferOrder) :
    System (BankNet κ ρ n) :=
  (relayProtocol n V orders).system (· = relayStart V b)

theorem relayParent_none {orders : List TransferOrder} {k : ℕ} {hs : List BalanceHistory}
    (hk : orders[k]? = none) : relayParent (n := n) orders ⟨.order k, false, hs⟩ =
      .tau (Relay.goto ⟨.order k, false, hs⟩ (.stop 0)) := by
  simp [relayParent, hk]

theorem relayParent_some {orders : List TransferOrder} {k : ℕ} {hs : List BalanceHistory}
    {o : TransferOrder} (hk : orders[k]? = some o) :
    relayParent (n := n) orders ⟨.order k, false, hs⟩ = doTransfer ⟨.order k, false, hs⟩ k o := by
  simp [relayParent, hk]

theorem relay_play {B : Type} {V : Variant κ ρ} {b : Fin n → Balance} {orders : List TransferOrder}
    (moves : List (Move (Fin n))) (f : BankNet κ ρ n → B) {v : B}
    (h : (play (relayProtocol n V orders).fire moves (relayStart V b)).map f = some v) :
    ∃ s l, Run (relaySystem V b orders) (s::l) ∧ f s = v :=
  play_reaches (· = relayStart V b) moves rfl f h

def oneOrder : List TransferOrder := [⟨1, 2, 30⟩]

def twoBalances : Fin 2 → Balance := ![100, 50]

def completeRun : List (Move (Fin 2)) :=
  [.child 0, .child 0, .child 1, .child 1, .parent, .parent, .parent, .parent,
    .child 0, .child 0, .child 0, .parent, .parent, .child 1, .child 1, .child 1, .parent,
    .parent, .parent, .parent, .parent, .child 0, .child 0, .child 0, .child 1, .child 1,
    .child 1, .parent, .parent, .parent, .parent, .parent, .parent, .parent]

end CrabKeeper.RelayParent
