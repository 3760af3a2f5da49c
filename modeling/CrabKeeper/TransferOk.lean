import CrabKeeper.TransferAcks

/-!
# What an Ok of `transfer` stands for

An ACK carries no order, and `transfer` takes the next message of its
destination's stream for the answer to its own order. What an Ok says of that
order therefore depends on what earlier calls left in the stream.
-/

set_option autoImplicit false

namespace CrabKeeper.TransferOk
open Foundation.Machine Foundation.DoubleEntry Foundation.Transition Foundation.Network
open CrabKeeper.MessageCodec CrabKeeper.ChannelFraming CrabKeeper.BankTypes
open CrabKeeper.BankAccount CrabKeeper.BankChild CrabKeeper.ChildAccounts CrabKeeper.ChildForecast
open CrabKeeper.TransferCall CrabKeeper.TransferAcks CrabKeeper.Clocks

variable {ρ : Type} {n : ℕ} {calls : List TransferOrder}

/-- The child has handled all it was sent, up to an ACK it is about to send. -/
def CaughtUp {κ : Type} (c : ChildCell κ ρ) : Prop :=
  c.down = [] ∧ (c.state.phase = .receive ∨ ∃ k, c.state.phase = .acknowledge k)

def isSide (k : ℕ) (side : Side) (e : Entry ℤ) : Bool := e.order = k && e.side = side

theorem executedOnce_iff {κ : Type} {s : CallNet κ ρ n} {i : Fin n} {k : ℕ} {side : Side} :
    ExecutedOnce s i k side ↔
      (entriesIn (s.cell i).state.ledger).countP (isSide k side) = 1 := by
  rw [ExecutedOnce, executions, entriesIn, List.countP_map]
  rfl

theorem countP_deliveredUpTo (k : ℕ) (i : Fin n) (side : Side) :
    (deliveredUpTo calls k i).countP (isSide k side) = 0 := by
  rw [List.countP_eq_zero]
  intro e he hside
  have := (order_of_delivered he).1
  simp only [isSide, Bool.and_eq_true, decide_eq_true_eq] at hside
  omega

section Loop

variable {k : ℕ} {o : TransferOrder} {i : Fin n} {R : List Envelope} {c : ChildCell PhysicalClock ρ}

theorem self_call (ho : calls[k]? = some o) (hsrc : childId i = o.src) (hdst : childId i = o.dst) :
    deliveredUpTo calls (k+1) i = deliveredUpTo calls k i ++
      [⟨k, .debit, o.amount.toInt⟩, ⟨k, .credit, o.amount.toInt⟩] := by
  rw [deliveredUpTo_src ho hsrc, duesAll_order, debits, credits, if_pos hsrc.symm, if_pos hdst.symm]
  rfl

theorem complete_of_credited (ho : calls[k]? = some o) (hsrc : childId i = o.src)
    (hdst : childId i = o.dst) {es L' : List (Entry ℤ)}
    (hL : es ++ L' = deliveredUpTo calls (k+1) i) (hone : es.countP (isSide k .credit) = 1) :
    L' = [] := by
  have htotal := congrArg (List.countP (isSide k .credit)) hL
  rw [self_call ho hsrc hdst, List.countP_append, List.countP_append, countP_deliveredUpTo,
    hone] at htotal
  have hnone : L'.countP (isSide k .credit) = 0 := by
    simpa [List.countP_cons, isSide] using htotal
  rcases List.eq_nil_or_concat L' with hnil | ⟨l, e, rfl⟩
  · exact hnil
  · have hlast : e = ⟨k, .credit, o.amount.toInt⟩ := by
      have := congrArg List.getLast? hL
      simpa [self_call ho hsrc hdst] using this
    have hnot := List.countP_eq_zero.mp hnone e (by simp)
    simp [hlast, isSide] at hnot

theorem down_of_duesAll (hqueue : ∀ e ∈ c.down, CalledOn calls (childId i) e)
    (h : duesAll (childId i) c.down = []) : c.down = [] := by
  cases hd : c.down with
  | nil => rfl
  | cons e es =>
    have he := hqueue e (by simp [hd])
    rw [hd, duesAll_cons _ (calledOn_not_stop he)] at h
    exact absurd (List.append_eq_nil_iff.mp h).1 (dues_of_calledOn he)

theorem caughtUp_of_complete (hrun : hasExited c.state.phase = false) (hsteady : Steady c.state)
    (hqueue : ∀ e ∈ c.down, CalledOn calls (childId i) e) (hun : unposted (childId i) c = [])
    {p : Posting} (hlast : c.state.ledger.getLast? = some p) (hcredit : p.side = .credit) :
    CaughtUp c := by
  obtain ⟨hdues, hdown⟩ := List.append_eq_nil_iff.mp hun
  have hdown' : loops c.state.phase = true → c.down = [] := fun h =>
    down_of_duesAll hqueue (by rwa [if_pos h] at hdown)
  unfold Steady at hsteady
  cases hph : c.state.phase <;> rw [hph] at hsteady hdues hrun hdown'
  case receive => exact ⟨hdown' rfl, Or.inl hph⟩
  case acknowledge k => exact ⟨hdown' rfl, Or.inr ⟨k, hph⟩⟩
  case launch | started =>
    rw [hsteady] at hlast
    cases hlast
  case forward =>
    obtain ⟨q, hq, hdebit⟩ := hsteady
    obtain rfl := Option.some.inj (hq.symm.trans hlast)
    exact absurd (hdebit.symm.trans hcredit) (by decide)
  case debit | credit => cases hdues
  case done | report => exact hsteady.elim
  case exited => cases hrun

theorem unposted_of_caughtUp (h : CaughtUp c) : unposted (childId i) c = [] := by
  obtain ⟨hdown, hph | ⟨k, hph⟩⟩ := h <;> rw [unposted, hph, hdown] <;> rfl

end Loop

theorem mem_of_executedOnce {κ : Type} {s : CallNet κ ρ n} {i : Fin n} {k : ℕ} {side : Side}
    (h : ExecutedOnce s i k side) :
    ∃ e ∈ entriesIn (s.cell i).state.ledger, e.order = k ∧ e.side = side := by
  rw [executedOnce_iff] at h
  obtain ⟨e, he, hside⟩ := List.countP_pos_iff.mp (h ▸ Nat.one_pos)
  simp only [isSide, Bool.and_eq_true, decide_eq_true_eq] at hside
  exact ⟨e, he, hside⟩

theorem last_posting {ps : List Posting} {es : List (Entry ℤ)} {e : Entry ℤ}
    (h : entriesIn ps = es ++ [e]) : ∃ p, ps.getLast? = some p ∧ p.side = e.side := by
  have hlast := congrArg List.getLast? h
  rw [entriesIn, List.getLast?_map, List.getLast?_concat] at hlast
  obtain ⟨p, hp, rfl⟩ := Option.map_eq_some_iff.mp hlast
  exact ⟨p, hp, rfl⟩

section Returned

variable {success : BranchAccount → ρ} {failure : IoError → ρ} {s : CallNet PhysicalClock ρ n}
  {k : ℕ} {o : TransferOrder} {i : Fin n}

theorem caughtUp_of_credited (hn : n ≤ 255)
    (hs : Reachable (transferSystem (physicalChild success failure) calls) s)
    {r : Except BankingError Unit} (hp : s.parent = .returned k r) (ho : calls[k]? = some o)
    (hi : childId i = o.dst) (h : ExecutedOnce s i k .credit) :
    o.src = o.dst ∧ CaughtUp (s.cell i) := by
  have htracked := (reachable_tracked hn hs).2 i
  rw [hp] at htracked
  obtain ⟨⟨R, hf⟩, hex⟩ := htracked trivial
  change Foreseen _ R (deliveredUpTo calls (k+1) i) _ at hf
  obtain ⟨L', hL, _⟩ := hf.ledger
  obtain ⟨e, he, hek, heside⟩ := mem_of_executedOnce h
  have hmem : e ∈ deliveredUpTo calls (k+1) i := hL ▸ List.mem_append_left L' he
  obtain ⟨_, o', ho', hsrc', _⟩ := order_of_delivered hmem
  rw [hek, ho] at ho'
  obtain rfl := Option.some.inj ho'
  have hnil := complete_of_credited ho hsrc'.symm hi hL.symm (executedOnce_iff.mp h)
  rw [hnil, List.append_nil] at hL
  refine ⟨hsrc'.trans hi, ?_⟩
  cases hf with
  | stopped _ _ hc _ _ _ => exact absurd hL.symm (hex hc)
  | running hrun _ hrest =>
    rw [hL] at hrest
    have hun := List.self_eq_append_right.mp hrest.symm
    rw [self_call ho hsrc'.symm hi, List.append_cons] at hL
    obtain ⟨p, hp, hside⟩ := last_posting hL.symm
    exact caughtUp_of_complete hrun (reachable_steady hs i) (queue_calls hs i) hun hp hside

theorem executed_of_caughtUp (hn : n ≤ 255)
    (hs : Reachable (transferSystem (physicalChild success failure) calls) s)
    {r : Except BankingError Unit} (hp : s.parent = .returned k r) (ho : calls[k]? = some o)
    (hsrc : childId i = o.src) (hdst : childId i = o.dst) (h : CaughtUp (s.cell i)) :
    ExecutedOnce s i k .debit ∧ ExecutedOnce s i k .credit := by
  have htracked := (reachable_tracked hn hs).2 i
  rw [hp] at htracked
  obtain ⟨⟨R, hf⟩, _⟩ := htracked trivial
  change Foreseen _ R (deliveredUpTo calls (k+1) i) _ at hf
  have hall : entriesIn (s.cell i).state.ledger = deliveredUpTo calls (k+1) i := by
    cases hf with
    | stopped _ _ hc _ _ _ => obtain ⟨_, hph | ⟨_, hph⟩⟩ := h <;> rw [hph] at hc <;> cases hc
    | running _ _ hL => rwa [unposted_of_caughtUp h, List.append_nil] at hL
  constructor
  all_goals
    rw [executedOnce_iff, hall, self_call ho hsrc hdst, List.countP_append, countP_deliveredUpTo]
    simp [isSide]

end Returned

/-- Back from a call with Ok, the order of that call has been executed exactly
if it goes from an account to itself and the child has handled all it was sent. -/
theorem executed_iff_caughtUp {success : BranchAccount → ρ} {failure : IoError → ρ} (hn : n ≤ 255)
    {s : CallNet PhysicalClock ρ n}
    (hs : Reachable (transferSystem (physicalChild success failure) calls) s) {k : ℕ}
    (hp : s.parent = .returned k (.ok ())) {o : TransferOrder} (ho : calls[k]? = some o)
    {i j : Fin n} (hi : childId i = o.src) (hj : childId j = o.dst) :
    (ExecutedOnce s i k .debit ∧ ExecutedOnce s j k .credit) ↔
      o.src = o.dst ∧ CaughtUp (s.cell i) := by
  constructor
  · rintro ⟨_, hcredit⟩
    obtain ⟨hself, hc⟩ := caughtUp_of_credited hn hs hp ho hj hcredit
    obtain rfl := childId_injective hn (hi.trans (hself.trans hj.symm))
    exact ⟨hself, hc⟩
  · rintro ⟨hself, hc⟩
    obtain rfl := childId_injective hn (hi.trans (hself.trans hj.symm))
    exact executed_of_caughtUp hn hs hp ho hi hj hc

def selfCalls : List TransferOrder := [⟨1, 1, 10⟩, ⟨1, 1, 20⟩]

def mixedCalls : List TransferOrder := [⟨1, 1, 10⟩, ⟨2, 1, 5⟩]

def callBalances : Fin 2 → Balance := ![100, 50]

def observed {κ : Type} (i : Fin n) (s : CallNet κ ρ n) : Caller × ℕ × ℕ :=
  (s.parent, executions s i 1 .debit, executions s i 1 .credit)

theorem selfCalls_observed :
    (play (transferProtocol 2 simulateBankingChild selfCalls).fire
      [.parent, .child 0, .child 0, .child 0, .child 0, .child 0, .parent, .parent, .parent,
        .child 0, .child 0, .child 0, .child 0, .parent]
      (waitingNet simulateBankingChild callBalances)).map (observed 0) =
      some (.returned 1 (.ok ()), 1, 1) := by
  decide +kernel

theorem mixedCalls_observed :
    (play (transferProtocol 2 simulateBankingChild mixedCalls).fire
      [.parent, .child 0, .child 0, .child 0, .child 0, .child 0, .parent, .parent, .parent,
        .child 1, .child 1, .child 1, .parent]
      (waitingNet simulateBankingChild callBalances)).map (observed 0) =
      some (.returned 1 (.ok ()), 0, 0) := by
  decide +kernel

theorem executed_iff_caughtUp_self_calls :
    ∃ s, Reachable (transferSystem simulateBankingChild selfCalls) s ∧
      s.parent = .returned 1 (.ok ()) ∧ CaughtUp (s.cell (0 : Fin 2)) := by
  obtain ⟨s, l, hl, hobs⟩ := play_reaches CallStart _
    (waitingNet_start simulateBankingChild callBalances) _ selfCalls_observed
  simp only [observed, Prod.mk.injEq] at hobs
  obtain ⟨hp, hdebit, hcredit⟩ := hobs
  have hs := reachable_of_run hl s (by simp)
  exact ⟨s, hs, hp, ((executed_iff_caughtUp (o := ⟨1, 1, 20⟩) (i := 0) (j := 0) (by decide) hs hp
    rfl rfl rfl).mp ⟨hdebit, hcredit⟩).2⟩

/-- The ACK of the first call answers the second, whose order account 2 has
handled and account 1 never receives. -/
theorem ok_without_credit :
    ¬ ∀ s : CallNet PhysicalClock (Except IoError Unit) 2,
      Reachable (transferSystem simulateBankingChild mixedCalls) s →
      s.parent = .returned 1 (.ok ()) → ExecutedOnce s 1 1 .debit ∧ ExecutedOnce s 0 1 .credit := by
  intro hall
  obtain ⟨s, l, hl, hobs⟩ := play_reaches CallStart _
    (waitingNet_start simulateBankingChild callBalances) _ mixedCalls_observed
  simp only [observed, Prod.mk.injEq] at hobs
  obtain ⟨hp, _, hnone⟩ := hobs
  have hcredit := (hall s (reachable_of_run hl s (by simp)) hp).2
  rw [ExecutedOnce, hnone] at hcredit
  cases hcredit

end CrabKeeper.TransferOk
