import CrabKeeper.OrderPlan
import CrabKeeper.TransferPairing

/-!
# Which state of a history stands at which index

A child of the physical tests on its own, with the orders it is to handle in its
stream. Its ledger and what is still asked of it make up what the orders ask for
from the start, until it has executed all of it or stopped. The opening snapshot
and the first value of its clock share the time zero.
-/

set_option autoImplicit false

namespace CrabKeeper.IndexedStates
open Foundation.Machine Foundation.DoubleEntry Foundation.Timeline Foundation.Overdraft
open Foundation.Transition Foundation.Network Foundation.Termination
open CrabKeeper.MessageCodec CrabKeeper.ChannelFraming CrabKeeper.BankTypes
open CrabKeeper.BankAccount CrabKeeper.BankChild CrabKeeper.ChildForecast CrabKeeper.Clocks
open CrabKeeper.AccountCalls CrabKeeper.OrderPlan CrabKeeper.TransferPairing

variable {κ ρ : Type}

def orderMessage (o : TransferOrder) : Message := .transfer o.toBytes

def orderRun (V : Variant κ ρ) (id : AccountId) (b : Balance) (orders : List TransferOrder) :
    System (ChildCell κ ρ) :=
  ofMoves (fun c => c.state = ChildState.start V id b ∧
      c.down.map Envelope.msg = orders.map orderMessage)
    (fun (_ : Unit) c => childMove (bankingChild V id c.state) c)

def postingCall (p : Posting) : Call :=
  match p.side with
  | .debit => .debit p.amount p.time
  | .credit => .credit p.amount p.time

def ledgerCalls (ledger : List Posting) : List Call := ledger.map postingCall

def ahead (id : AccountId) (clock : PhysicalClock) (os : List TransferOrder) :
    Phase ρ → List (Request ℤ)
  | .debit _ _ o now => ⟨.debit, o.amount.toInt, now.toNat⟩ ::
      (creditAsked id now.toNat o ++ askedFrom id clock.current.toNat os)
  | .forward _ _ o now => creditAsked id now.toNat o ++ askedFrom id clock.current.toNat os
  | .credit _ o now => ⟨.credit, o.amount.toInt, now.toNat⟩ ::
      askedFrom id clock.current.toNat os
  | .exited _ => []
  | _ => askedFrom id clock.current.toNat os

/-- The ledger and the requests ahead are those of the whole list of orders, and
the account is what the calls of the ledger make of a new one. -/
structure Serving (id : AccountId) (b : Balance) (orders : List TransferOrder)
    (c : ChildCell PhysicalClock ρ) : Prop where
  wellFormed : WellFormed c.state.account
  played : ∃ log, calls (.new id b) (ledgerCalls c.state.ledger) = .ok (log,c.state.account)
  plan : ∃ os, c.down.map Envelope.msg = os.map orderMessage ∧
    requests (ledgerCalls c.state.ledger) ++
      served (2^63) (balanceOf c.state.account) (ahead id c.state.clock os c.state.phase) =
        executed id b.toInt orders
  inLoop : loops c.state.phase = true ∨ hasExited c.state.phase = true

variable {success : BranchAccount → ρ} {failure : IoError → ρ} {id : AccountId} {b : Balance}
  {orders : List TransferOrder} {c c' : ChildCell PhysicalClock ρ}

theorem serving_start (hc : c.state = ChildState.start (physicalChild success failure) id b)
    (hdown : c.down.map Envelope.msg = orders.map orderMessage) : Serving id b orders c := by
  refine ⟨?_, ⟨[], ?_⟩, ⟨orders, hdown, ?_⟩, ?_⟩ <;> rw [hc]
  · exact new_wellFormed id b
  · rfl
  · rfl
  · exact Or.inl rfl

theorem balanceOf_lt (a : BranchAccount) : balanceOf a < 2^63 := by
  unfold balanceOf
  split
  · exact Int64.toInt_lt _
  · decide

theorem postingCall_time (p : Posting) : (postingCall p).request.time = p.time.toNat := by
  unfold postingCall
  cases p.side <;> rfl

theorem timeOf_written {a a' : BranchAccount} {t : Timestamp} {u : Stamp ℤ}
    (h : Written a u a') (hu : u.time = t.toNat) : timeOf a' = t := by
  have hlast := h.last
  obtain ⟨s, _, hs, _⟩ := lastState_of_wellFormed h.wellFormed
  rw [lastStamp, hs] at hlast
  rw [timeOf, hs]
  exact UInt64.toNat_inj.mp ((congrArg Stamp.time hlast).trans hu)

theorem Serving.stop (h : Serving id b orders c) (r : Checked ρ) {down : List Envelope}
    {rest : List TransferOrder} (hdown : down.map Envelope.msg = rest.map orderMessage)
    (hnone : ∀ os, c.down.map Envelope.msg = os.map orderMessage →
      served (2^63) (balanceOf c.state.account) (ahead id c.state.clock os c.state.phase) = []) :
    Serving id b orders { c with state := c.state.exit r, down := down } := by
  obtain ⟨os, hos, hplan⟩ := h.plan
  rw [hnone os hos] at hplan
  exact ⟨h.wellFormed, h.played, ⟨rest, hdown, hplan⟩, Or.inr rfl⟩

theorem Serving.post (h : Serving id b orders c) {p : Posting} {a : BranchAccount}
    {ph : Phase ρ} (hcall : call c.state.account (postingCall p) = .ok (.ok (), a))
    (hg : Grants (balanceOf c.state.account) (postingCall p).request)
    (hw : Written c.state.account ⟨(postingCall p).request.time,
      balanceOf c.state.account+(postingCall p).request.signed⟩ a)
    (hahead : ∀ os, ahead id c.state.clock os c.state.phase =
      (postingCall p).request :: ahead id c.state.clock os ph)
    (hloop : loops ph = true) :
    Serving id b orders
      { c with state := { c.state.post p.order p.side p.amount a with phase := ph } } := by
  obtain ⟨log, hlog⟩ := h.played
  obtain ⟨os, hos, hplan⟩ := h.plan
  have hledger : ledgerCalls (c.state.post p.order p.side p.amount a).ledger =
      ledgerCalls c.state.ledger ++ [postingCall p] := by
    rw [ChildState.post, timeOf_written hw (postingCall_time p), ledgerCalls, List.map_append]
    rfl
  have hplayed := calls_concat hlog hcall
  have hbalance : balanceOf a =
      balanceOf c.state.account+(postingCall p).request.signed := hw.balanceOf
  have hlt := balanceOf_lt a
  rw [← hledger] at hplayed
  rw [hbalance] at hlt
  rw [hahead, served_cons hg hlt, ← hbalance] at hplan
  refine ⟨hw.wellFormed, ⟨_, hplayed⟩, ⟨os, hos, ?_⟩, Or.inl hloop⟩
  show requests (ledgerCalls (c.state.post p.order p.side p.amount a).ledger) ++
    served (2^63) (balanceOf a) (ahead id c.state.clock os ph) = _
  rw [hledger, requests, List.map_append, List.append_assoc]
  exact hplan

theorem debitAndMark_unmarked (a : BranchAccount) (amount : Balance) (now : Timestamp) :
    debitAndMark false a amount now = call a (.debit amount now) := by
  show debitAndMark false a amount now = a.debit amount now
  unfold debitAndMark
  cases a.debit amount now with
  | error p => rfl
  | ok x =>
    obtain ⟨r, a'⟩ := x
    cases r <;> rfl

theorem Serving.refused (h : Serving id b orders c) {r : Request ℤ} {ph : Phase ρ}
    (hahead : ∀ os, ahead id c.state.clock os c.state.phase =
      r :: ahead id c.state.clock os ph)
    (hr : ¬ (Grants (balanceOf c.state.account) r ∧ balanceOf c.state.account+r.signed < 2^63))
    (result : Checked ρ) : Serving id b orders { c with state := c.state.exit result } := by
  obtain ⟨os, hos, _⟩ := h.plan
  apply h.stop result hos
  intro os _
  rw [hahead, served_stop hr]

theorem Serving.operated (h : Serving id b orders c) {p : Posting} {ph : Phase ρ}
    (hahead : ∀ os, ahead id c.state.clock os c.state.phase =
      (postingCall p).request :: ahead id c.state.clock os ph)
    (hloop : loops ph = true) :
    (∃ e, call c.state.account (postingCall p) = .ok (.error e, c.state.account) ∧
      ∀ result, Serving id b orders { c with state := c.state.exit result }) ∨
    (call c.state.account (postingCall p) = .error .overflow ∧
      ∀ result, Serving id b orders { c with state := c.state.exit result }) ∨
    ∃ a, call c.state.account (postingCall p) = .ok (.ok (), a) ∧
      Serving id b orders
        { c with state := { c.state.post p.order p.side p.amount a with phase := ph } } := by
  rcases call_cases h.wellFormed (postingCall p) with ⟨e, he, hr⟩ | ⟨ho, _, hm⟩ | ⟨a, ha, hg, hw⟩
  · exact Or.inl ⟨e, he, h.refused hahead fun hg => hr hg.1⟩
  · exact Or.inr (Or.inl ⟨ho, h.refused hahead fun hg => not_lt.mpr hm hg.2⟩)
  · exact Or.inr (Or.inr ⟨a, ha, h.post ha hg hw hahead hloop⟩)

theorem Serving.debited (h : Serving id b orders c) {k : ℕ} {payload : List UInt8}
    {o : TransferOrder} {now : Timestamp} (hph : c.state.phase = .debit k payload o now) :
    Serving id b orders { c with
      state := onDebit (physicalChild success failure) c.state k payload o now } := by
  have hahead : ∀ os, ahead id c.state.clock os c.state.phase =
      (postingCall ⟨k, .debit, o.amount, now⟩).request ::
        ahead id c.state.clock os (.forward k payload o now : Phase ρ) := by
    intro os
    rw [hph]
    rfl
  have hmark : debitAndMark (physicalChild success failure).marksPending c.state.account o.amount
      now = call c.state.account (postingCall ⟨k, .debit, o.amount, now⟩) :=
    debitAndMark_unmarked _ _ _
  unfold onDebit
  rw [hmark]
  rcases h.operated hahead rfl with ⟨e, he, hs⟩ | ⟨ho, hs⟩ | ⟨a, ha, hs⟩
  · rw [he]
    exact hs _
  · rw [ho]
    exact hs _
  · rw [ha]
    exact hs

theorem Serving.credited (h : Serving id b orders c) {k : ℕ} {o : TransferOrder}
    {now : Timestamp} (hph : c.state.phase = .credit k o now) :
    Serving id b orders { c with
      state := onCredit (physicalChild success failure) c.state k o now } := by
  have hahead : ∀ os, ahead id c.state.clock os c.state.phase =
      (postingCall ⟨k, .credit, o.amount, now⟩).request ::
        ahead id c.state.clock os (.acknowledge k : Phase ρ) := by
    intro os
    rw [hph]
    rfl
  have hcall : c.state.account.credit o.amount now =
      call c.state.account (postingCall ⟨k, .credit, o.amount, now⟩) := rfl
  unfold onCredit
  rw [hcall]
  rcases h.operated hahead rfl with ⟨e, he, hs⟩ | ⟨ho, hs⟩ | ⟨a, ha, hs⟩
  · rw [he]
    exact hs _
  · rw [ho]
    exact hs _
  · rw [ha]
    exact hs

theorem now_of_lt {clock : PhysicalClock} (h : clock.current.toNat+1 < 2^64) :
    ∃ clock', clock.now = .ok (clock.current, clock') ∧
      clock'.current.toNat = clock.current.toNat+1 := by
  have hadd : addU64 clock.current 1 = .ok (clock.current+1) :=
    if_pos (by rw [UInt64.toNat_one]; exact h)
  exact ⟨⟨clock.current+1⟩, by rw [PhysicalClock.now, hadd]; rfl, addU64_eq_ok.mp hadd⟩

theorem now_of_le {clock : PhysicalClock} (h : ¬ clock.current.toNat+1 < 2^64) :
    clock.now = .error .overflow := by
  have hadd : addU64 clock.current 1 = .error .overflow :=
    if_neg (by rw [UInt64.toNat_one]; exact h)
  rw [PhysicalClock.now, hadd]
  rfl

theorem ahead_destination (clock : PhysicalClock) (os : List TransferOrder) (k : ℕ)
    (o : TransferOrder) (now : Timestamp) :
    ahead id clock os (destination id k o now : Phase ρ) =
      creditAsked id now.toNat o ++ askedFrom id clock.current.toNat os := by
  unfold destination creditAsked
  split_ifs <;> rfl

theorem loops_destination (k : ℕ) (o : TransferOrder) (now : Timestamp) :
    loops (destination id k o now : Phase ρ) = true := by
  unfold destination
  split_ifs <;> rfl

theorem Serving.received (h : Serving id b orders c) (hph : c.state.phase = .receive)
    {e : Envelope} {es : List Envelope} (hdown : c.down = e::es) :
    Serving id b orders { c with
      state := onMessage (physicalChild success failure) id c.state e, down := es } := by
  obtain ⟨os, hos, hplan⟩ := h.plan
  rw [hdown] at hos
  obtain ⟨o, os, rfl⟩ := List.exists_cons_of_ne_nil (l := os) (by rintro rfl; cases hos)
  obtain ⟨hmsg, hrest⟩ := List.cons.inj hos
  have hstate : onMessage (physicalChild success failure) id c.state e =
      onTransfer (physicalChild success failure) id c.state e.order o.toBytes := by
    unfold onMessage
    rw [hmsg]
    rfl
  rw [hstate]
  unfold onTransfer
  rw [order_fromBytes_toBytes]
  have hstamp : (physicalChild success failure).stamp c.state.clock = c.state.clock.now := rfl
  rw [hph] at hplan
  by_cases hclock : c.state.clock.current.toNat+1 < 2^64
  · obtain ⟨clock, hnow, hcur⟩ := now_of_lt hclock
    simp only [hstamp, hnow]
    refine ⟨h.wellFormed, h.played, ⟨os, hrest, ?_⟩, ?_⟩
    · show requests (ledgerCalls c.state.ledger) ++ served _ _ (ahead id clock os _) = _
      rw [← hplan]
      congr 2
      show _ = askedFrom id c.state.clock.current.toNat (o::os)
      rw [askedFrom_cons hclock, ← hcur, asked]
      split_ifs
      · rfl
      · exact ahead_destination clock os _ o _
    · left
      show loops (if o.src = id then _ else destination id _ o _) = true
      split_ifs
      · rfl
      · exact loops_destination _ o _
  · simp only [hstamp, now_of_le hclock]
    apply h.stop _ hrest
    intro os' _
    rw [hph]
    show served _ _ (askedFrom id c.state.clock.current.toNat os') = []
    rw [askedFrom_late hclock]
    rfl

/-- The step lemma, one case for each phase. -/
theorem serving_step (h : Serving id b orders c)
    (hm : childMove (bankingChild (physicalChild success failure) id c.state) c = some c') :
    Serving id b orders c' := by
  have hplan := h.plan
  have hloop := h.inLoop
  unfold bankingChild at hm
  cases hph : c.state.phase <;> rw [hph] at hplan hloop hm
  case launch =>
    obtain rfl := Option.some.inj hm
    exact ⟨h.wellFormed, h.played, hplan, Or.inl rfl⟩
  case started =>
    obtain rfl := Option.some.inj hm
    exact ⟨h.wellFormed, h.played, hplan, Or.inl rfl⟩
  case receive =>
    cases hdown : c.down with
    | nil =>
      simp only [childMove, hdown] at hm
      cases hm
    | cons e es =>
      simp only [childMove, hdown] at hm
      obtain rfl := Option.some.inj hm
      exact h.received hph hdown
  case debit k payload o now =>
    obtain rfl := Option.some.inj hm
    exact h.debited hph
  case forward k payload o now =>
    obtain rfl := Option.some.inj hm
    refine ⟨h.wellFormed, h.played, ?_, Or.inl (loops_destination k o now)⟩
    obtain ⟨os, hos, hrest⟩ := hplan
    refine ⟨os, hos, ?_⟩
    show _ ++ served _ _ (ahead id c.state.clock os (destination id k o now)) = _
    rw [ahead_destination]
    exact hrest
  case credit k o now =>
    obtain rfl := Option.some.inj hm
    exact h.credited hph
  case acknowledge k =>
    obtain rfl := Option.some.inj hm
    exact ⟨h.wellFormed, h.played, hplan, Or.inl rfl⟩
  case done => rcases hloop with hl | hl <;> cases hl
  case report => rcases hloop with hl | hl <;> cases hl
  case exited r => cases hm

theorem reachable_serving
    (hc : Reachable (orderRun (physicalChild success failure) id b orders) c) :
    Serving id b orders c := by
  apply invariant _ _ hc
  · exact fun c h => serving_start h.1 h.2
  · rintro c c' _ h ⟨_, hm⟩
    exact serving_step h hm

theorem Serving.stamps (h : Serving id b orders c) :
    stampsOf c.state.account =
      timeline ⟨0,b.toInt⟩ (balances b.toInt (requests (ledgerCalls c.state.ledger))) := by
  obtain ⟨os, _, hplan⟩ := h.plan
  obtain ⟨hgranted, hmax⟩ := granted_of_served ⟨_, hplan⟩
  have hbelow : BelowMax b.toInt (ledgerCalls c.state.ledger) := by
    unfold BelowMax updates
    rwa [hgranted]
  obtain ⟨log, a, hrun, _, hs⟩ := new_played id hbelow
  obtain ⟨log', hrun'⟩ := h.played
  obtain ⟨_, rfl⟩ := Prod.mk.inj (Except.ok.inj (hrun.symm.trans hrun'))
  rw [hs, updates, hgranted]

/-- `states[N]` is the state at time `N`, for every index of the history. -/
def Indexed (a : BranchAccount) : Prop :=
  ∀ (N : ℕ) s, a.history.states[N]? = some s → s.time.toNat = N

theorem indexed_stamps (a : BranchAccount) :
    Indexed a ↔ ∀ (k : ℕ) u, (stampsOf a)[k]? = some u → u.time = k := by
  constructor
  · intro h k u hu
    rw [stampsOf, List.getElem?_map] at hu
    obtain ⟨s, hs, rfl⟩ := Option.map_eq_some_iff.mp hu
    exact h k s hs
  · intro h k s hs
    apply h k (stampOf s)
    rw [stampsOf, List.getElem?_map, hs]
    rfl

theorem Serving.indexed_iff (h : Serving id b orders c) :
    Indexed c.state.account ↔ Increasing 0 (requests (ledgerCalls c.state.ledger)) := by
  have hchain := Foundation.Timeline.indexed_iff ⟨0,b.toInt⟩
    (balances b.toInt (requests (ledgerCalls c.state.ledger)))
  simp only [Nat.zero_add] at hchain
  rw [indexed_stamps, h.stamps, hchain, isChain_times 0 b.toInt, balances_times]
  rfl

theorem Serving.ledger_initial (h : Serving id b orders c) :
    requests (ledgerCalls c.state.ledger) <+: executed id b.toInt orders := by
  obtain ⟨os, _, hplan⟩ := h.plan
  exact ⟨_, hplan⟩

theorem Serving.finished (h : Serving id b orders c)
    (hstuck : Stuck (orderRun (physicalChild success failure) id b orders) c) :
    requests (ledgerCalls c.state.ledger) = executed id b.toInt orders := by
  obtain ⟨os, hos, hplan⟩ := h.plan
  have hnone : childMove (bankingChild (physicalChild success failure) id c.state) c = none := by
    apply Option.eq_none_iff_forall_ne_some.mpr
    exact fun c' hc' => hstuck c' ⟨(), hc'⟩
  unfold bankingChild at hnone
  cases hph : c.state.phase <;> rw [hph] at hnone hplan
  case receive =>
    cases hdown : c.down with
    | nil =>
      rw [hdown] at hos
      obtain rfl : os = [] := List.map_eq_nil_iff.mp hos.symm
      rw [← hplan]
      exact (List.append_nil _).symm
    | cons e es =>
      simp only [childMove, hdown] at hnone
      cases hnone
  case exited r =>
    rw [← hplan]
    exact (List.append_nil _).symm
  all_goals cases hnone

theorem finishes (success : BranchAccount → ρ) (failure : IoError → ρ) (id : AccountId)
    (b : Balance) (orders : List TransferOrder) :
    ∃ c, Reachable (orderRun (physicalChild success failure) id b orders) c ∧
      Stuck (orderRun (physicalChild success failure) id b orders) c := by
  have hinit : Reachable (orderRun (physicalChild success failure) id b orders)
      ⟨true, ChildState.start (physicalChild success failure) id b,
        orders.map fun o => ⟨0, orderMessage o⟩, []⟩ :=
    .init ⟨rfl, List.map_map⟩
  have hlowers : ∀ c c', Reachable (orderRun (physicalChild success failure) id b orders) c →
      (orderRun (physicalChild success failure) id b orders).step c c' →
      cellWeight (fun x => phaseWeight x.phase) 5 c' <
        cellWeight (fun x => phaseWeight x.phase) 5 c := by
    rintro c c' _ ⟨_, hm⟩
    exact childMove_lowers (child_lowers _ id c.state) hm
  obtain ⟨c, hc, _, hstuck⟩ := reaches_stuck _ hlowers hinit
  exact ⟨c, hc, hstuck⟩

/-- `states[N]` is the state at time `N`, all through every run, exactly if
nothing is executed for order number zero or for an order to oneself. -/
theorem indexed_by_time_iff (success : BranchAccount → ρ) (failure : IoError → ρ)
    (id : AccountId) (b : Balance) (orders : List TransferOrder) :
    (∀ c, Reachable (orderRun (physicalChild success failure) id b orders) c →
      Indexed c.state.account) ↔
      ∀ k o, orders[k]? = some o → Executes id b.toInt orders k → 0 < k ∧ o.src ≠ o.dst := by
  rw [← executed_increasing_iff (Int64.toInt_lt b)]
  constructor
  · intro h
    obtain ⟨c, hc, hstuck⟩ := finishes success failure id b orders
    have hserving := reachable_serving hc
    rw [← hserving.finished hstuck]
    exact hserving.indexed_iff.mp (h c hc)
  · intro h c hc
    have hserving := reachable_serving hc
    apply hserving.indexed_iff.mpr
    apply List.IsChain.sublist h
    exact (hserving.ledger_initial.sublist.map _).cons_cons 0

def firstDebit : List TransferOrder := [⟨1, 2, 30⟩]

theorem first_debit_observed :
    (play (fun (_ : Unit) c => childMove (bankingChild simulateBankingChild 1 c.state) c)
      [(), (), (), ()] ⟨true, ChildState.start simulateBankingChild 1 100,
        firstDebit.map fun o => ⟨0, orderMessage o⟩, []⟩).map
      (fun c => c.state.account.history.states) = some [⟨100, 0, 0⟩, ⟨70, 0, 0⟩] := by
  decide

theorem first_debit_not_indexed :
    Executes 1 100 firstDebit 0 ∧
    ¬ ∀ c, Reachable (orderRun simulateBankingChild 1 100 firstDebit) c →
      Indexed c.state.account := by
  refine ⟨by decide, fun h => ?_⟩
  obtain ⟨c, l, hrun, hstates⟩ := play_reaches (orderRun simulateBankingChild 1 100 firstDebit).init
    [(), (), (), ()] ⟨rfl, rfl⟩ _ first_debit_observed
  have hc := reachable_of_run hrun c List.mem_cons_self
  have htime := h c hc 1 ⟨70, 0, 0⟩ (by rw [hstates]; rfl)
  exact absurd htime (by decide)

end CrabKeeper.IndexedStates
