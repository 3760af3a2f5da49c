import CrabKeeper.Foundation.Changes
import CrabKeeper.CollectedReports
import CrabKeeper.AccountCalls

/-!
# The audit trail of a history

A history keeps one balance for each tick and no record of the calls. The calls
that were executed can still be read off it: they are the changes of its
balance. The reports of a relay therefore show every order an account took part
in, in the order in which they were relayed.
-/

set_option autoImplicit false

namespace CrabKeeper.AuditTrail
open Foundation.Machine Foundation.DoubleEntry Foundation.Timeline Foundation.Overdraft
open Foundation.Changes Foundation.Transition Foundation.Network
open CrabKeeper.BankTypes CrabKeeper.BankAccount CrabKeeper.AccountCalls CrabKeeper.BankChild
open CrabKeeper.ChildAccounts CrabKeeper.ChildForecast CrabKeeper.RelayParent
open CrabKeeper.RelayInvariant CrabKeeper.CollectedReports

/-- The changes of balance that a history shows. -/
def audit (h : BalanceHistory) : List (Stamp ℤ) := trail (h.states.map stampOf)

def movements (ledger : List Posting) : List (Stamp ℤ) :=
  ledger.map fun p => ⟨p.time.toNat,signed p.entry⟩

structure Audited (a : BranchAccount) (ledger : List Posting) : Prop where
  wellFormed : WellFormed a
  shown : audit a.history = movements ledger

theorem audited_new (id : AccountId) (b : Balance) : Audited (.new id b) [] :=
  ⟨new_wellFormed id b, rfl⟩

theorem stamps_last {a : BranchAccount} (ha : WellFormed a) :
    (stampsOf a).getLast? = some (lastStamp a) := by
  obtain ⟨s, _, hlast, _⟩ := lastState_of_wellFormed ha
  have hs : a.history.states.getLast? = some s := hlast
  rw [stampsOf, List.getLast?_map, hs, lastStamp, hlast]
  rfl

theorem audit_written {a a' : BranchAccount} {u : Stamp ℤ} (ha : WellFormed a)
    (hw : Written a u a') (hne : u.value ≠ balanceOf a) :
    audit a'.history = audit a.history ++ [⟨u.time,u.value-balanceOf a⟩] := by
  rw [← lastStamp_value] at hne ⊢
  have hstamps := hw.stamps
  rw [stampsOf, stampsOf] at hstamps
  rw [audit, hstamps]
  exact trail_record (stamps_last ha) hne

theorem audit_markPending {a a' : BranchAccount} {amount : Balance}
    (h : markPending a amount = .ok a') : audit a'.history = audit a.history := by
  unfold markPending at h
  cases hl : a.history.states.getLast? with
  | none =>
    rw [hl] at h
    cases h
  | some last =>
    rw [hl] at h
    obtain rfl := Except.ok.inj h
    obtain ⟨init, hinit⟩ := List.getLast?_eq_some_iff.mp hl
    rw [audit, audit, hinit]
    simp [stampOf]

theorem audit_debitAndMark {a a' : BranchAccount} {marks : Bool} {amount : Balance}
    {t : Timestamp} (h : debitAndMark marks a amount t = .ok (.ok (), a')) :
    ∃ a₁, a.debit amount t = .ok (.ok (), a₁) ∧ audit a'.history = audit a₁.history := by
  obtain ⟨⟨r, a₁⟩, hd, h⟩ := bind_eq_ok.mp h
  cases r with
  | error e => cases h
  | ok u =>
    refine ⟨a₁, hd, ?_⟩
    cases marks with
    | false =>
      obtain rfl := (Prod.mk.inj (Except.ok.inj h)).2
      rfl
    | true =>
      obtain ⟨a₂, hm, h⟩ := bind_eq_ok.mp h
      obtain rfl := (Prod.mk.inj (Except.ok.inj h)).2
      exact audit_markPending hm

theorem Audited.post {a a' : BranchAccount} {ledger : List Posting} (h : Audited a ledger)
    (ha' : WellFormed a') (k : ℕ) (side : Side) {amount : Balance} {t : Timestamp}
    (ht : timeOf a' = t)
    (haudit : audit a'.history =
      audit a.history ++ [⟨t.toNat,signed ⟨k, side, amount.toInt⟩⟩]) :
    Audited a' (ledger ++ [⟨k, side, amount, timeOf a'⟩]) := by
  refine ⟨ha', ?_⟩
  rw [haudit, h.shown, movements, movements, List.map_append, ht]
  rfl

theorem Audited.debit {a a' : BranchAccount} {ledger : List Posting} (h : Audited a ledger)
    {marks : Bool} {amount : Balance} {t : Timestamp}
    (hd : debitAndMark marks a amount t = .ok (.ok (), a')) (k : ℕ) :
    Audited a' (ledger ++ [⟨k, .debit, amount, timeOf a'⟩]) := by
  obtain ⟨a₁, hd₁, hsame⟩ := audit_debitAndMark hd
  have hmoved : 0 < amount.toInt ∧ WellFormed a' ∧ timeOf a' = t := by
    rcases debitAndMark_cases h.wellFormed marks amount t with ⟨e, he, _⟩ | ⟨a₂, ha₂, hpos, _, hm⟩
    · rw [he] at hd
      cases (Prod.mk.inj (Except.ok.inj hd)).1
    · rw [hd] at ha₂
      obtain rfl := (Prod.mk.inj (Except.ok.inj ha₂)).2
      exact ⟨hpos, hm.wellFormed, hm.time⟩
  have hwritten : Written a ⟨t.toNat,balanceOf a-amount.toInt⟩ a₁ := by
    rcases debit_cases h.wellFormed amount t with ⟨e, he, _⟩ | ⟨b, a₂, ha₂, hrec, _, _, hb⟩
    · rw [he] at hd₁
      cases (Prod.mk.inj (Except.ok.inj hd₁)).1
    · rw [hd₁] at ha₂
      obtain rfl := (Prod.mk.inj (Except.ok.inj ha₂)).2
      have := written_of_recorded h.wellFormed hrec (debit_records hd₁)
      rwa [hb] at this
  obtain ⟨hpos, hwf, htime⟩ := hmoved
  apply h.post hwf k .debit htime
  rw [hsame, audit_written h.wellFormed hwritten (by simp only; omega)]
  simp [signed]

theorem Audited.credit {a a' : BranchAccount} {ledger : List Posting} (h : Audited a ledger)
    {amount : Balance} {t : Timestamp} (hc : a.credit amount t = .ok (.ok (), a')) (k : ℕ) :
    Audited a' (ledger ++ [⟨k, .credit, amount, timeOf a'⟩]) := by
  rcases credit_cases h.wellFormed amount t with
    ⟨e, he, _⟩ | ⟨ho, _⟩ | ⟨b, a₂, ha₂, hrec, hpos, hb⟩
  · rw [he] at hc
    cases (Prod.mk.inj (Except.ok.inj hc)).1
  · rw [ho] at hc
    cases hc
  · rw [hc] at ha₂
    obtain rfl := (Prod.mk.inj (Except.ok.inj ha₂)).2
    have hwritten := written_of_recorded h.wellFormed hrec (credit_records hc)
    rw [hb] at hwritten
    have htime : timeOf a' = t := by
      rw [timeOf, hrec.lastOf]
      rfl
    apply h.post hwritten.wellFormed k .credit htime
    rw [audit_written h.wellFormed hwritten (by simp only; omega)]
    simp [signed]

section Relay

variable {κ ρ : Type} {n : ℕ} {orders : List TransferOrder} {id : AccountId}
  {Q : BranchAccount → List Posting → Prop}

theorem onMessage_keeps (V : Variant κ ρ) (id : AccountId) (x : ChildState κ ρ) (e : Envelope) :
    (onMessage V id x e).ledger = x.ledger ∧ (onMessage V id x e).account = x.account := by
  unfold onMessage
  split
  · exact ⟨rfl, rfl⟩
  · next c _ =>
    dsimp only
    split
    · unfold onTransfer
      split
      · exact ⟨rfl, rfl⟩
      · exact ⟨rfl, rfl⟩
      · split <;> exact ⟨rfl, rfl⟩
    · rcases tick_cases { x with clock := c } V.depart .done with ⟨r, hr⟩ | ⟨_, hl, ha⟩
      · rw [hr]
        exact ⟨rfl, rfl⟩
      · exact ⟨hl, ha⟩
    · exact ⟨rfl, rfl⟩

/-- What the two operations on the account preserve, a child preserves. -/
theorem account_step (V : Variant κ ρ) (x : ChildState κ ρ) (h : Q x.account x.ledger)
    (hdebit : ∀ k (amount : Balance) t a,
      debitAndMark V.marksPending x.account amount t = .ok (.ok (), a) →
      Q a (x.ledger ++ [⟨k, .debit, amount, timeOf a⟩]))
    (hcredit : ∀ k (amount : Balance) t a, x.account.credit amount t = .ok (.ok (), a) →
      Q a (x.ledger ++ [⟨k, .credit, amount, timeOf a⟩])) :
    (bankingChild V id x).All (fun _ => True) (fun y => Q y.account y.ledger) := by
  have htick : ∀ (y : ChildState κ ρ) ph, Q y.account y.ledger →
      Q (y.tick V.depart ph).account (y.tick V.depart ph).ledger := by
    intro y ph hy
    rcases tick_cases y V.depart ph with ⟨r, hr⟩ | ⟨_, hl, ha⟩
    · rw [hr]
      exact hy
    · rwa [hl, ha]
  have hsend : ∀ e (next : ChildState κ ρ), Q next.account next.ledger →
      (sending V x e next).All (fun _ => True) (fun y => Q y.account y.ledger) := by
    intro e next hnext r
    cases r with
    | ok _ => exact hnext
    | error err => exact h
  cases hph : x.phase <;> simp only [bankingChild, hph]
  case launch => exact htick x _ h
  case receive =>
    refine ⟨fun m _ => ?_, fun e => h⟩
    obtain ⟨hl, ha⟩ := onMessage_keeps V id x m
    show Q (onMessage V id x m).account (onMessage V id x m).ledger
    rwa [hl, ha]
  case debit k payload order now =>
    show Q (onDebit V x k payload order now).account (onDebit V x k payload order now).ledger
    unfold onDebit
    split
    · exact h
    · exact h
    · next u a hd => exact htick _ _ (hdebit k order.amount now a hd)
  case credit k order now =>
    show Q (onCredit V x k order now).account (onCredit V x k order now).ledger
    unfold onCredit
    split
    · exact h
    · exact h
    · next u a hc => exact htick _ _ (hcredit k order.amount now a hc)
  case exited => trivial
  all_goals exact hsend _ _ h

theorem reachable_audited (V : Variant κ ρ) (b : Fin n → Balance) {s : BankNet κ ρ n}
    (hs : Reachable (relaySystem V b orders) s) (i : Fin n) :
    Audited (s.cell i).state.account (s.cell i).state.ledger := by
  refine state_invariant (relayProtocol n V orders) (fun _ _ => True)
    (fun _ (x : ChildState κ ρ) => Audited x.account x.ledger) ?_ (fun _ _ _ _ _ => trivial)
    (fun i x h => ?_) hs i
  · rintro s rfl i
    exact audited_new _ _
  · exact account_step V x h (fun k _ _ _ hd => h.debit hd k) fun k _ _ _ hc => h.credit hc k

theorem collected_audit (V : Variant κ ρ) (hn : n ≤ 255) (b : Fin n → Balance)
    (hne : ∀ o ∈ orders, o.src ≠ o.dst) {s : BankNet κ ρ n}
    (hs : Reachable (relaySystem V b orders) s) (hpc : s.parent.pc = .finished) {i : Fin n}
    {h : BalanceHistory} (hi : s.parent.histories[i.val]? = some h) :
    (audit h).map (·.value) = (entries (childId i) 0 (orders.map asTransfer)).map signed := by
  obtain ⟨_, rfl⟩ := (reachable_reported V hn b hne hs i).kept h hi
  have hbooks : entriesIn (s.cell i).state.ledger = entriesUpTo orders orders.length i := by
    have hfore := (reachable_good V hn b hne hs).2 i
    rw [Forecast, hpc] at hfore
    exact hfore.settled rfl
  rw [entriesUpTo, List.take_of_length_le (by simp [transfersOf])] at hbooks
  rw [(reachable_audited V b hs i).shown, movements, List.map_map, ← transfersOf, ← hbooks,
    entriesIn, List.map_map]
  rfl

end Relay

/-- From the history of an account alone, the calls that were accepted: whatever
their timestamps were, they are the changes of its balance. -/
theorem audit_calls (id : AccountId) {b : Balance} {cs : List Call}
    (hmax : BelowMax b.toInt cs) :
    ∃ log a, calls (.new id b) cs = .ok (log,a) ∧
      audit a.history = (requests (accepted log)).map Request.movement := by
  obtain ⟨log, a, hcs, hp, hstamps⟩ := new_played id hmax
  refine ⟨log, a, hcs, ?_⟩
  have hb : balanceOf (BranchAccount.new id b) = b.toInt := balanceOf_new id b
  change trail (stampsOf a) = _
  rw [hstamps, trail_timeline, changes_updates, hp.accepted, hb]

theorem audit_calls_back_in_time : ∃ log a,
    calls (.new 1 100) [.debit 30 4, .debit 90 5, .credit 50 2] = .ok (log,a) ∧
      audit a.history = (requests (accepted log)).map Request.movement :=
  audit_calls 1 (by decide)

/-- In every state of a relay a history shows what its child has posted; a
parent that has finished holds, for every account, the amounts of its orders in
the sequence in which they were relayed. -/
theorem audit_relay {κ ρ : Type} {n : ℕ} (V : Variant κ ρ) (hn : n ≤ 255) (b : Fin n → Balance)
    {orders : List TransferOrder} (hne : ∀ o ∈ orders, o.src ≠ o.dst) {s : BankNet κ ρ n}
    (hs : Reachable (relaySystem V b orders) s) :
    (∀ i, audit (s.cell i).state.account.history = movements (s.cell i).state.ledger) ∧
      (s.parent.pc = .finished → s.parent.histories.length = n ∧
        ∀ i : Fin n, ∀ h, s.parent.histories[i.val]? = some h →
          (audit h).map (·.value) =
            (entries (childId i) 0 (orders.map asTransfer)).map signed) := by
  refine ⟨fun i => (reachable_audited V b hs i).shown, fun hpc => ?_⟩
  have hrel := (reachable_good V hn b hne hs).1
  rw [Relaying, hpc] at hrel
  exact ⟨hrel.2, fun i h hi => collected_audit V hn b hne hs hpc hi⟩

theorem audit_relay_one_order :
    ∃ s : BankNet Clocks.LamportClock (Except ChannelFraming.IoError Unit) 2,
      s.parent.histories.length = 2 ∧
        ∀ i : Fin 2, ∀ h, s.parent.histories[i.val]? = some h →
          (audit h).map (·.value) =
            (entries (childId i) 0 (oneOrder.map asTransfer)).map signed := by
  have hplay : (play (relayProtocol 2 simulateBankingChildWithLamport oneOrder).fire completeRun
      (relayStart simulateBankingChildWithLamport twoBalances)).map (·.parent.pc) =
        some .finished := by
    decide +kernel
  obtain ⟨s, l, hl, hpc⟩ := relay_play completeRun _ hplay
  have hs := reachable_of_run hl s (by simp)
  exact ⟨s, (audit_relay simulateBankingChildWithLamport (by decide) twoBalances (by decide)
    hs).2 hpc⟩

end CrabKeeper.AuditTrail
