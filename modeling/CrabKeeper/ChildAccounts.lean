import CrabKeeper.BankChild

/-!
# What a child's account holds

Whatever a child receives, its balance is the initial one plus the effect of
the postings it has executed, is never negative, and its last snapshot carries
the pending mark of its last posting.
-/

set_option autoImplicit false

namespace CrabKeeper.ChildAccounts
open Foundation.Machine Foundation.DoubleEntry Foundation.Network
open CrabKeeper.BankTypes CrabKeeper.BankAccount CrabKeeper.BankChild

variable {κ ρ : Type}

def pendingOf (a : BranchAccount) : ℤ :=
  match lastOf a with
  | some s => s.pendingIn.toInt
  | none => 0

/-- What one operation at time `t` did to an account. -/
structure Moved (a a' : BranchAccount) (delta pending : ℤ) (t : Timestamp) : Prop where
  wellFormed : WellFormed a'
  sameId : a'.id = a.id
  balance : balanceOf a' = balanceOf a+delta
  pending : pendingOf a' = pending
  time : timeOf a' = t

theorem moved_of_recorded {a a' : BranchAccount} {b : Balance} {t : Timestamp} (delta : ℤ)
    (ha : WellFormed a) (h : Recorded a b t a') (hb : b.toInt = balanceOf a+delta) :
    Moved a a' delta 0 t := by
  refine ⟨h.wellFormed ha, h.sameId, by rw [h.balanceOf, hb], ?_, ?_⟩
  · rw [pendingOf, h.lastOf]
    rfl
  · rw [timeOf, h.lastOf]
    rfl

theorem balanceOf_eq {a : BranchAccount} {s : BalanceState} (h : lastOf a = some s) :
    balanceOf a = s.balance.toInt := by
  rw [balanceOf, h]

theorem pendingOf_eq {a : BranchAccount} {s : BalanceState} (h : lastOf a = some s) :
    pendingOf a = s.pendingIn.toInt := by
  rw [pendingOf, h]

theorem timeOf_eq {a : BranchAccount} {s : BalanceState} (h : lastOf a = some s) :
    timeOf a = s.time := by
  rw [timeOf, h]

theorem markPending_last {a : BranchAccount} {last : BalanceState} (h : lastOf a = some last)
    (amount : Balance) : ∃ a', markPending a amount = .ok a' ∧ a'.id = a.id ∧
      a'.history.id = a.history.id ∧ lastOf a' = some { last with pendingIn := amount } := by
  rw [lastOf] at h
  exact ⟨{ a with history := { a.history with
      states := a.history.states.dropLast ++ [{ last with pendingIn := amount }] } },
    by rw [markPending, h], rfl, rfl, by rw [lastOf, List.getLast?_concat]⟩

theorem markPending_moved {a a' : BranchAccount} {delta : ℤ} {t : Timestamp}
    (h : Moved a a' delta 0 t) (amount : Balance) :
    ∃ a'', markPending a' amount = .ok a'' ∧ Moved a a'' delta amount.toInt t := by
  have hlast : lastOf a' = some _ := List.getLast?_eq_some_getLast h.wellFormed.nonempty
  obtain ⟨a'', hm, hid, hhid, hl⟩ := markPending_last hlast amount
  refine ⟨a'', hm, ⟨?_, ?_⟩, by rw [hid, h.sameId], ?_, pendingOf_eq hl, ?_⟩
  · intro hnil
    rw [lastOf, hnil] at hl
    cases hl
  · rw [hhid, hid, h.wellFormed.sameId]
  · rw [← h.balance, balanceOf_eq hlast, balanceOf_eq hl]
  · rw [← h.time, timeOf_eq hlast, timeOf_eq hl]

theorem debitAndMark_cases {a : BranchAccount} (ha : WellFormed a) (marks : Bool)
    (amount : Balance) (t : Timestamp) :
    (∃ e, debitAndMark marks a amount t = .ok (.error e, a) ∧
      (amount.toInt ≤ 0 ∨ balanceOf a < amount.toInt)) ∨
    (∃ a', debitAndMark marks a amount t = .ok (.ok (), a') ∧ 0 < amount.toInt ∧
      amount.toInt ≤ balanceOf a ∧
      Moved a a' (-amount.toInt) (if marks then amount.toInt else 0) t) := by
  rcases debit_cases ha amount t with ⟨e, he, hr⟩ | ⟨b, a', hd, hrec, hpos, hle, hb⟩
  · refine Or.inl ⟨e, ?_, hr⟩
    rw [debitAndMark, he, ok_bind]
    rfl
  · have hmoved := moved_of_recorded (-amount.toInt) ha hrec (by omega)
    cases marks with
    | false =>
      refine Or.inr ⟨a', ?_, hpos, hle, by simpa using hmoved⟩
      rw [debitAndMark, hd, ok_bind]
      rfl
    | true =>
      obtain ⟨a'', hm, hmoved'⟩ := markPending_moved hmoved amount
      refine Or.inr ⟨a'', ?_, hpos, hle, by simpa using hmoved'⟩
      rw [debitAndMark, hd, ok_bind]
      simp only [hm, ok_bind, if_true]
      rfl

theorem credit_moved {a : BranchAccount} (ha : WellFormed a) (amount : Balance) (t : Timestamp) :
    (∃ e, a.credit amount t = .ok (.error e, a) ∧ amount.toInt ≤ 0) ∨
    (a.credit amount t = .error .overflow ∧ 2^63 ≤ balanceOf a+amount.toInt) ∨
    (∃ a', a.credit amount t = .ok (.ok (), a') ∧ 0 < amount.toInt ∧
      Moved a a' amount.toInt 0 t) := by
  rcases credit_cases ha amount t with ⟨e, he, hr⟩ | ⟨ho, _, hb⟩ | ⟨b, a', hc, hrec, hpos, hb⟩
  · exact Or.inl ⟨e, he, hr⟩
  · exact Or.inr (Or.inl ⟨ho, hb⟩)
  · exact Or.inr (Or.inr ⟨a', hc, hpos, moved_of_recorded _ ha hrec hb⟩)

def entriesIn (ledger : List Posting) : List (Entry ℤ) := ledger.map Posting.entry

def pendingDue (marks : Bool) (ledger : List Posting) : ℤ :=
  match ledger.getLast? with
  | some p => if marks && p.side = .debit then p.amount.toInt else 0
  | none => 0

structure Accounted (marks : Bool) (id : AccountId) (b : ℤ) (s : ChildState κ ρ) : Prop where
  wellFormed : WellFormed s.account
  sameId : s.account.id = id
  balance : balanceOf s.account = b+effect (entriesIn s.ledger)
  nonneg : 0 ≤ balanceOf s.account
  pending : pendingOf s.account = pendingDue marks s.ledger
  positive : ∀ p ∈ s.ledger, 0 < p.amount.toInt

variable {marks : Bool} {id : AccountId} {b : ℤ} {s : ChildState κ ρ}

theorem Accounted.start (V : Variant κ ρ) (marks : Bool) (id : AccountId) {b : Balance}
    (hb : 0 ≤ b.toInt) : Accounted marks id b.toInt (ChildState.start V id b) where
  wellFormed := new_wellFormed id b
  sameId := rfl
  balance := by simp [ChildState.start, balanceOf_new, entriesIn]
  nonneg := hb
  pending := rfl
  positive := by simp [ChildState.start]

theorem Accounted.congr {s' : ChildState κ ρ} (h : Accounted marks id b s)
    (ha : s'.account = s.account) (hl : s'.ledger = s.ledger) : Accounted marks id b s' := by
  obtain ⟨h1, h2, h3, h4, h5, h6⟩ := h
  rw [← ha] at h1 h2 h3 h4 h5
  rw [← hl] at h3 h5 h6
  exact ⟨h1, h2, h3, h4, h5, h6⟩

theorem Accounted.exit (h : Accounted marks id b s) (r : Checked ρ) :
    Accounted marks id b (s.exit r) := h.congr rfl rfl

theorem Accounted.goto (h : Accounted marks id b s) (ph : Phase ρ) :
    Accounted marks id b (s.goto ph) := h.congr rfl rfl

theorem Accounted.tick (h : Accounted marks id b s) (f : κ → Checked κ) (ph : Phase ρ) :
    Accounted marks id b (s.tick f ph) := by
  unfold ChildState.tick
  split
  · exact h.exit _
  · exact h.congr rfl rfl

theorem entriesIn_post (s : ChildState κ ρ) (k : ℕ) (side : Side) (amount : Balance)
    (a : BranchAccount) :
    entriesIn (s.post k side amount a).ledger =
      entriesIn s.ledger ++ [⟨k, side, amount.toInt⟩] := by
  simp [entriesIn, ChildState.post, Posting.entry]

theorem Accounted.post (h : Accounted marks id b s) (k : ℕ) (side : Side) {amount : Balance}
    {a : BranchAccount} {t : Timestamp} (hpos : 0 < amount.toInt)
    (hm : Moved s.account a (signed ⟨k, side, amount.toInt⟩)
      (if marks && side = .debit then amount.toInt else 0) t)
    (hnonneg : 0 ≤ balanceOf a) : Accounted marks id b (s.post k side amount a) where
  wellFormed := hm.wellFormed
  sameId := by rw [← h.sameId, ← hm.sameId]; rfl
  balance := by
    rw [entriesIn_post, effect_append]
    simp only [ChildState.post, effect, List.map_cons, List.map_nil, List.sum_singleton]
    rw [hm.balance, h.balance, effect]
    ring
  nonneg := hnonneg
  pending := by
    rw [pendingDue, ChildState.post, List.getLast?_concat]
    exact hm.pending
  positive := by
    intro p hp
    rcases List.mem_append.mp hp with hp | hp
    · exact h.positive p hp
    · obtain rfl := List.mem_singleton.mp hp
      exact hpos

theorem Accounted.onTransfer (V : Variant κ ρ) (h : Accounted marks id b s) (k : ℕ)
    (payload : List UInt8) : Accounted marks id b (onTransfer V id s k payload) := by
  unfold BankChild.onTransfer
  split
  · exact h.exit _
  · exact h.exit _
  · split
    · exact h.exit _
    · exact h.congr rfl rfl

theorem Accounted.onMessage (V : Variant κ ρ) (h : Accounted marks id b s) (e : Envelope) :
    Accounted marks id b (onMessage V id s e) := by
  unfold BankChild.onMessage
  split
  · exact h.exit _
  · next c _ =>
    have hc : Accounted marks id b { s with clock := c } := h.congr rfl rfl
    dsimp only
    split
    · exact hc.onTransfer V _ _
    · exact hc.tick _ _
    · exact hc

theorem Accounted.onDebit {V : Variant κ ρ} (h : Accounted V.marksPending id b s) (k : ℕ)
    (payload : List UInt8) (order : TransferOrder) (now : Timestamp) :
    Accounted V.marksPending id b (onDebit V s k payload order now) := by
  unfold BankChild.onDebit
  rcases debitAndMark_cases h.wellFormed V.marksPending order.amount now with
    ⟨e, he, _⟩ | ⟨a, ha, hpos, hle, hm⟩
  · rw [he]
    exact h.exit _
  · rw [ha]
    refine (h.post k .debit hpos (by simpa [signed] using hm) ?_).tick _ _
    rw [hm.balance]
    omega

theorem Accounted.onCredit {V : Variant κ ρ} (h : Accounted V.marksPending id b s) (k : ℕ)
    (order : TransferOrder) (now : Timestamp) :
    Accounted V.marksPending id b (onCredit V s k order now) := by
  unfold BankChild.onCredit
  have hnonneg := h.nonneg
  rcases credit_moved h.wellFormed order.amount now with ⟨e, he, _⟩ | ⟨ho, _⟩ | ⟨a, ha, hpos, hm⟩
  · rw [he]
    exact h.exit _
  · rw [ho]
    exact h.exit _
  · rw [ha]
    refine (h.post k .credit hpos (by simpa [signed] using hm) ?_).tick _ _
    rw [hm.balance]
    omega

/-- The step lemma: no action of the loop breaks the books, whatever arrives. -/
theorem accounted_step (V : Variant κ ρ) (id : AccountId) (b : ℤ) (s : ChildState κ ρ)
    (h : Accounted V.marksPending id b s) :
    (bankingChild V id s).All (fun _ => True) (Accounted V.marksPending id b) := by
  have hsend : ∀ e next, Accounted V.marksPending id b next →
      (sending V s e next).All (fun _ => True) (Accounted V.marksPending id b) := by
    intro e next hnext r
    cases r with
    | ok _ => exact hnext
    | error err => exact h.exit _
  unfold bankingChild
  split
  · exact h.tick _ _
  · exact hsend _ _ (h.goto _)
  · exact ⟨fun m _ => h.onMessage V m, fun e => h.exit _⟩
  · exact h.onDebit _ _ _ _
  · exact hsend _ _ (h.goto _)
  · exact h.onCredit _ _ _
  · exact hsend _ _ (h.goto _)
  · exact hsend _ _ (h.goto _)
  · exact hsend _ _ (h.exit _)
  · trivial

end CrabKeeper.ChildAccounts
