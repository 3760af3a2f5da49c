import CrabKeeper.Foundation.Schedule
import CrabKeeper.CollectedReports

/-!
# The relay without concurrency

One process could do the work of all: it handles a message at the moment the
parent sends it, by running the child's own loop until that waits again. This
serial relay is what every complete run of the distributed one amounts to.
-/

set_option autoImplicit false

namespace CrabKeeper.SerialRelay
open Foundation.Machine Foundation.Transition Foundation.Network Foundation.Confluence
open Foundation.Determinacy Foundation.Schedule
open CrabKeeper.MessageCodec CrabKeeper.ChannelFraming CrabKeeper.BankTypes
open CrabKeeper.BankAccount CrabKeeper.BankChild CrabKeeper.ChildAccounts CrabKeeper.ChildForecast
open CrabKeeper.RelayParent

variable {κ ρ : Type} {n : ℕ} (V : Variant κ ρ)

/-- One action of the child, unless it waits for a message or has stopped. -/
def advance (id : AccountId) (x : ChildState κ ρ) : ChildState κ ρ :=
  match bankingChild V id x with
  | .tau y => y
  | .send _ next => next (.ok ())
  | _ => x

def sent (id : AccountId) (x : ChildState κ ρ) : List Envelope :=
  match bankingChild V id x with
  | .send e _ => [e]
  | _ => []

def sentIn (id : AccountId) : ℕ → ChildState κ ρ → List Envelope
  | 0, _ => []
  | m+1, x => sent V id x ++ sentIn id m (advance V id x)

/-- No message keeps a child busy for more than four actions. -/
def serve (id : AccountId) (x : ChildState κ ρ) (e : Envelope) : ChildState κ ρ :=
  (advance V id)^[4] (onMessage V id x e)

def replies (id : AccountId) (x : ChildState κ ρ) (e : Envelope) : List Envelope :=
  sentIn V id 4 (onMessage V id x e)

def begun (id : AccountId) (b : Balance) : ChildState κ ρ := (advance V id)^[2] (.start V id b)

def hangUp (x : ChildState κ ρ) : ChildState κ ρ :=
  if hasExited x.phase then x else x.exit (.ok (V.failure .unexpectedEof))

def serveAt (xs : Fin n → ChildState κ ρ) (i : Fin n) (e : Envelope) : Fin n → ChildState κ ρ :=
  Function.update xs i (serve V (childId i) (xs i) e)

def panickedAt (pc : RelayPc) : Relay := ⟨pc, true, []⟩

/-- `do_transfer`: where the parent panics, if it does, and the branches. -/
def serialOrder (k : ℕ) (o : TransferOrder) (xs : Fin n → ChildState κ ρ) :
    Option RelayPc × (Fin n → ChildState κ ρ) :=
  match subU8 o.src 1, subU8 o.dst 1 with
  | .ok srcIdx, .ok dstIdx =>
    match streamAt n srcIdx.toNat with
    | none => (some (.order k), xs)
    | some i =>
      let e : Envelope := ⟨k, .transfer o.toBytes⟩
      let ys := serveAt V xs i e
      if hasExited (ys i).phase then (some (.forwarded k srcIdx dstIdx), ys) else
      match streamAt n dstIdx.toNat with
      | none => (some (.relay k dstIdx e), ys)
      | some j =>
        let zs := serveAt V ys j e
        if hasExited (zs j).phase then (some (.ack k dstIdx), zs) else (none, zs)
  | _, _ => (some (.order k), xs)

def serialOrders : ℕ → List TransferOrder → (Fin n → ChildState κ ρ) →
    Relay × (Fin n → ChildState κ ρ)
  | _, [], xs => (⟨.stop 0, false, []⟩, xs)
  | k, o::os, xs =>
    match serialOrder V k o xs with
    | (some pc, ys) => (panickedAt pc, ys)
    | (none, ys) => serialOrders (k+1) os ys

def serialBranches (b : Fin n → Balance) (orders : List TransferOrder) :
    Relay × (Fin n → ChildState κ ρ) :=
  serialOrders V 0 orders fun i => begun V (childId i) (b i)

def serialRun (b : Fin n → Balance) (orders : List TransferOrder) :
    Relay × (Fin n → ChildState κ ρ) :=
  let (p, xs) := serialBranches V b orders
  if p.panicked then (p, fun i => hangUp V (xs i))
  else (⟨.finished, false, List.ofFn fun i => (xs i).account.history⟩,
    fun i => serve V (childId i) (xs i) ⟨0, .stop⟩)

/-- A branch that answers STOP with a report the parent can decode. -/
structure Reports (id : AccountId) (x : ChildState κ ρ) : Prop where
  answers : (serve V id x ⟨0, .stop⟩).phase = .exited (.ok (V.success x.account))
  decodable : x.account.history.states.length ≤ 255

/-- All branches start, and all report if it comes to that. -/
structure Reporting (b : Fin n → Balance) (orders : List TransferOrder) : Prop where
  starts : ∃ c, V.depart V.fresh = .ok c
  reports : (serialBranches V b orders).1.panicked = false →
    ∀ i, Reports V (childId i) ((serialBranches V b orders).2 i)

def quietNet (p : Relay) (xs : Fin n → ChildState κ ρ) : BankNet κ ρ n :=
  ⟨p, fun i => ⟨true, xs i, [], []⟩, []⟩

variable {V} {id : AccountId} {x : ChildState κ ρ} {orders : List TransferOrder}

theorem relay_unconnected (V : Variant κ ρ) (orders : List TransferOrder) :
    Unconnected (relayProtocol n V orders) := by
  intro i x
  change (bankingChild V (childId i) x).connects = false
  unfold bankingChild
  split <;> rfl

theorem advance_fixed (V : Variant κ ρ) (id : AccountId) {x : ChildState κ ρ}
    (h : x.phase = .receive ∨ hasExited x.phase = true) :
    advance V id x = x ∧ sent V id x = [] := by
  unfold advance sent bankingChild
  rcases h with h | h
  · rw [h]
    exact ⟨rfl, rfl⟩
  · cases hph : x.phase <;> simp_all [hasExited]

theorem advance_iterate (V : Variant κ ρ) (id : AccountId) {x : ChildState κ ρ}
    (h : x.phase = .receive ∨ hasExited x.phase = true) (m : ℕ) :
    (advance V id)^[m] x = x ∧ sentIn V id m x = [] := by
  induction m with
  | zero => exact ⟨rfl, rfl⟩
  | succ m ih =>
    obtain ⟨h1, h2⟩ := advance_fixed V id h
    rw [Function.iterate_succ_apply, sentIn, h1, h2]
    exact ih

theorem sides_advance (p : Relay) (i : Fin n) (m : ℕ) (x : ChildState κ ρ)
    (down up : List Envelope) :
    Sides (relayProtocol n V orders) p i ⟨true, x, down, up⟩
      ⟨true, (advance V (childId i))^[m] x, down, up ++ sentIn V (childId i) m x⟩ := by
  induction m generalizing x up with
  | zero =>
    rw [sentIn, List.append_nil]
    exact .refl
  | succ m ih =>
    rw [Function.iterate_succ_apply, sentIn, ← List.append_assoc]
    refine .trans ?_ (ih _ _)
    have hside : ∀ c, childMove (bankingChild V (childId i) x) ⟨true, x, down, up⟩ = some c →
        Sides (relayProtocol n V orders) p i ⟨true, x, down, up⟩ c := fun c hc =>
      .single ⟨false, cellMove_false.mpr ⟨rfl, hc⟩⟩
    unfold advance sent
    revert hside
    cases bankingChild V (childId i) x with
    | send e next => exact fun h => h _ rfl
    | tau y => exact fun h => by simpa using h _ rfl
    | connect | recv | halt => exact fun _ => by simpa using Relation.ReflTransGen.refl

theorem sides_serve (p : Relay) (i : Fin n) {x : ChildState κ ρ} (hx : x.phase = .receive)
    (e : Envelope) (down up : List Envelope) :
    Sides (relayProtocol n V orders) p i ⟨true, x, e::down, up⟩
      ⟨true, serve V (childId i) x e, down, up ++ replies V (childId i) x e⟩ := by
  refine .head ⟨false, cellMove_false.mpr ⟨rfl, ?_⟩⟩ (sides_advance p i 4 _ down up)
  change childMove (bankingChild V (childId i) x) _ = _
  unfold bankingChild
  rw [hx]
  rfl

theorem onMessage_clear {c₀ c : κ} {now : Timestamp} (ha : V.arrive x.clock = .ok c₀)
    (hs : V.stamp c₀ = .ok (now, c)) (k : ℕ) (o : TransferOrder) :
    onMessage V id x ⟨k, .transfer o.toBytes⟩ = { x with
      clock := c
      phase := if o.src = id then .debit k o.toBytes o now else destination id k o now } := by
  simp [onMessage, onTransfer, ha, hs, order_fromBytes_toBytes]

theorem onMessage_order (V : Variant κ ρ) (id : AccountId) (x : ChildState κ ρ) (k : ℕ)
    (o : TransferOrder) :
    hasExited (onMessage V id x ⟨k, .transfer o.toBytes⟩).phase = true ∨
    ∃ c now, onMessage V id x ⟨k, .transfer o.toBytes⟩ = { x with
      clock := c
      phase := if o.src = id then .debit k o.toBytes o now else destination id k o now } := by
  cases ha : V.arrive x.clock with
  | error p =>
    left
    simp only [onMessage, ha]
    rfl
  | ok c₀ =>
    cases hs : V.stamp c₀ with
    | error p =>
      left
      simp only [onMessage, onTransfer, ha, hs, order_fromBytes_toBytes]
      rfl
    | ok r => exact Or.inr ⟨r.2, r.1, onMessage_clear ha hs k o⟩

theorem stopped_turn (h : hasExited x.phase = true) (m : ℕ) :
    hasExited ((advance V id)^[m] x).phase = true ∧ sentIn V id m x = [] := by
  obtain ⟨he, hs⟩ := advance_iterate V id (Or.inr h) m
  rw [he]
  exact ⟨h, hs⟩

theorem operation_turn {y : ChildState κ ρ} {e : Envelope} (hx : bankingChild V id x = .tau y)
    (hy : hasExited y.phase = false → bankingChild V id y = sending V y e (y.goto .receive)) :
    (hasExited y.phase = true → (advance V id)^[4] x = y ∧ sentIn V id 4 x = []) ∧
      (hasExited y.phase = false →
        (advance V id)^[4] x = y.goto .receive ∧ sentIn V id 4 x = [e]) := by
  have hadv : advance V id x = y ∧ sent V id x = [] := by
    unfold advance sent
    rw [hx]
    exact ⟨rfl, rfl⟩
  rw [Function.iterate_succ_apply, sentIn, hadv.1, hadv.2, List.nil_append]
  refine ⟨fun h => advance_iterate V id (Or.inr h) 3, fun h => ?_⟩
  have hnext : advance V id y = y.goto .receive ∧ sent V id y = [e] := by
    unfold advance sent
    rw [hy h]
    exact ⟨rfl, rfl⟩
  obtain ⟨h1, h2⟩ := advance_iterate V id (x := y.goto .receive) (Or.inl rfl) 2
  rw [Function.iterate_succ_apply, sentIn, hnext.1, hnext.2, h1, h2]
  exact ⟨rfl, rfl⟩

theorem onDebit_cases (V : Variant κ ρ) (x : ChildState κ ρ) (k : ℕ) (payload : List UInt8)
    (o : TransferOrder) (now : Timestamp) :
    hasExited (onDebit V x k payload o now).phase = true ∨
    ∃ a c, debitAndMark V.marksPending x.account o.amount now = .ok (.ok (), a) ∧
      V.depart x.clock = .ok c ∧ onDebit V x k payload o now =
        ⟨.forward k payload o now, a, c, x.ledger ++ [⟨k, .debit, o.amount, timeOf a⟩]⟩ := by
  unfold onDebit
  split
  · exact Or.inl rfl
  · exact Or.inl rfl
  · next u a hd =>
    unfold ChildState.tick
    cases hc : V.depart (x.post k .debit o.amount a).clock with
    | error p => exact Or.inl rfl
    | ok c => exact Or.inr ⟨a, c, hd, hc, rfl⟩

theorem onCredit_cases (V : Variant κ ρ) (x : ChildState κ ρ) (k : ℕ) (o : TransferOrder)
    (now : Timestamp) :
    hasExited (onCredit V x k o now).phase = true ∨
    ∃ a c, x.account.credit o.amount now = .ok (.ok (), a) ∧ V.depart x.clock = .ok c ∧
      onCredit V x k o now =
        ⟨.acknowledge k, a, c, x.ledger ++ [⟨k, .credit, o.amount, timeOf a⟩]⟩ := by
  unfold onCredit
  split
  · exact Or.inl rfl
  · exact Or.inl rfl
  · next u a hd =>
    unfold ChildState.tick
    cases hc : V.depart (x.post k .credit o.amount a).clock with
    | error p => exact Or.inl rfl
    | ok c => exact Or.inr ⟨a, c, hd, hc, rfl⟩

/-- The outcome of serving a message: the child has stopped and said nothing,
or it waits again and has said `e`. -/
def Turned (V : Variant κ ρ) (id : AccountId) (x : ChildState κ ρ) (e answer : Envelope) : Prop :=
  hasExited (serve V id x e).phase = true ∧ replies V id x e = [] ∨
    (serve V id x e).phase = .receive ∧ replies V id x e = [answer]

theorem serve_source {k : ℕ} {o : TransferOrder} {c : κ} {now : Timestamp} (hsrc : o.src = id)
    (hdst : o.dst ≠ id)
    (hm : onMessage V id x ⟨k, .transfer o.toBytes⟩ = { x with
      clock := c
      phase := if o.src = id then .debit k o.toBytes o now else destination id k o now }) :
    let y := onDebit V { x with clock := c, phase := .debit k o.toBytes o now } k o.toBytes o now
    (hasExited y.phase = true → serve V id x ⟨k, .transfer o.toBytes⟩ = y ∧
        replies V id x ⟨k, .transfer o.toBytes⟩ = []) ∧
      (hasExited y.phase = false → serve V id x ⟨k, .transfer o.toBytes⟩ = y.goto .receive ∧
        replies V id x ⟨k, .transfer o.toBytes⟩ = [⟨k, .transfer o.toBytes⟩]) := by
  unfold serve replies
  rw [hm, if_pos hsrc]
  refine operation_turn rfl fun hrun => ?_
  rcases onDebit_cases V _ k o.toBytes o now with hex | ⟨a, c', _, _, hd⟩
  · rw [hex] at hrun
    cases hrun
  · rw [hd]
    simp [bankingChild, destination, hdst]

theorem serve_target {k : ℕ} {o : TransferOrder} {c : κ} {now : Timestamp} (hsrc : o.src ≠ id)
    (hdst : o.dst = id)
    (hm : onMessage V id x ⟨k, .transfer o.toBytes⟩ = { x with
      clock := c
      phase := if o.src = id then .debit k o.toBytes o now else destination id k o now }) :
    let y := onCredit V { x with clock := c, phase := .credit k o now } k o now
    (hasExited y.phase = true → serve V id x ⟨k, .transfer o.toBytes⟩ = y ∧
        replies V id x ⟨k, .transfer o.toBytes⟩ = []) ∧
      (hasExited y.phase = false → serve V id x ⟨k, .transfer o.toBytes⟩ = y.goto .receive ∧
        replies V id x ⟨k, .transfer o.toBytes⟩ = [⟨k, .ack⟩]) := by
  unfold serve replies
  rw [hm, if_neg hsrc, destination, if_pos hdst]
  refine operation_turn rfl fun hrun => ?_
  rcases onCredit_cases V _ k o now with hex | ⟨a, c', _, _, hd⟩
  · rw [hex] at hrun
    cases hrun
  · rw [hd]
    rfl

theorem turned_of_serve {e answer : Envelope} {y : ChildState κ ρ}
    (h : (hasExited y.phase = true → serve V id x e = y ∧ replies V id x e = []) ∧
      (hasExited y.phase = false → serve V id x e = y.goto .receive ∧
        replies V id x e = [answer])) : Turned V id x e answer := by
  cases hy : hasExited y.phase with
  | true =>
    obtain ⟨hs, hr⟩ := h.1 hy
    exact Or.inl ⟨by rw [hs]; exact hy, hr⟩
  | false =>
    obtain ⟨hs, hr⟩ := h.2 hy
    exact Or.inr ⟨by rw [hs]; rfl, hr⟩

theorem source_turned {k : ℕ} {o : TransferOrder} (hsrc : o.src = id) (hdst : o.dst ≠ id) :
    Turned V id x ⟨k, .transfer o.toBytes⟩ ⟨k, .transfer o.toBytes⟩ := by
  rcases onMessage_order V id x k o with h | ⟨c, now, h⟩
  · exact Or.inl (stopped_turn h 4)
  · exact turned_of_serve (serve_source hsrc hdst h)

theorem target_turned {k : ℕ} {o : TransferOrder} (hsrc : o.src ≠ id) (hdst : o.dst = id) :
    Turned V id x ⟨k, .transfer o.toBytes⟩ ⟨k, .ack⟩ := by
  rcases onMessage_order V id x k o with h | ⟨c, now, h⟩
  · exact Or.inl (stopped_turn h 4)
  · exact turned_of_serve (serve_target hsrc hdst h)

theorem begun_eq (id : AccountId) (b : Balance) {c : κ} (hc : V.depart V.fresh = .ok c) :
    begun V id b = ⟨.receive, .new id b, c, []⟩ ∧
      sentIn V id 2 (.start V id b) = [⟨0, .started⟩] := by
  simp [begun, Function.iterate_succ_apply, sentIn, advance, sent, bankingChild, sending,
    ChildState.start, ChildState.tick, ChildState.goto, hc]

theorem stop_turned (h : Reports V id x) :
    replies V id x ⟨0, .stop⟩ =
        [⟨0, .done⟩, ⟨0, .balanceHistory x.account.history.toBytes⟩] ∧
      (serve V id x ⟨0, .stop⟩).account = x.account := by
  have hans := h.answers
  revert hans
  unfold serve replies onMessage
  cases hc : V.arrive x.clock with
  | error p =>
    obtain ⟨he, _⟩ := advance_iterate V id (x := x.exit (.error p)) (Or.inr rfl) 4
    rw [he]
    exact fun h => by cases h
  | ok c =>
    dsimp only
    unfold ChildState.tick
    cases hd : V.depart c with
    | error p =>
      obtain ⟨he, _⟩ := advance_iterate V id
        (x := ({ x with clock := c } : ChildState κ ρ).exit (.error p)) (Or.inr rfl) 4
      dsimp only
      rw [he]
      exact fun h => by cases h
    | ok c' =>
      intro _
      simp [Function.iterate_succ_apply, sentIn, advance, sent, bankingChild, sending,
        ChildState.goto, ChildState.exit]

end CrabKeeper.SerialRelay
