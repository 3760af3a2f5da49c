import CrabKeeper.AccountCalls

/-!
# Runs of calls on an account

A list of calls is a session with the account. A refused call leaves the
account as it is, so leaving it out changes nothing else; an accepted one only
appends to the history. A run returns exactly if no exact balance exceeds
`i64::MAX`, and a credit after it is exact as long as the sum does not.
-/

set_option autoImplicit false

namespace CrabKeeper.AccountRuns
open Foundation.Machine Foundation.Timeline Foundation.Overdraft Foundation.Sessions
open CrabKeeper.BankTypes CrabKeeper.BankAccount CrabKeeper.AccountCalls

variable {id : AccountId} {b : Balance} {cs : List Call} {log : List (Call × Outcome)}
  {a a' : BranchAccount}

theorem call_refused {c : Call} {e : AccountError} (h : call a c = .ok (.error e, a')) :
    a' = a := by
  cases c with
  | debit amount t =>
    change a.debit amount t = _ at h
    unfold BranchAccount.debit at h
    split_ifs at h
    · exact (Prod.mk.inj (Except.ok.inj h)).2.symm
    · obtain ⟨current, _, h⟩ := bind_eq_ok.mp h
      split_ifs at h
      · exact (Prod.mk.inj (Except.ok.inj h)).2.symm
      · obtain ⟨v, _, h⟩ := bind_eq_ok.mp h
        obtain ⟨u, _, h⟩ := bind_eq_ok.mp h
        cases (Prod.mk.inj (Except.ok.inj h)).1
  | credit amount t =>
    change a.credit amount t = _ at h
    unfold BranchAccount.credit at h
    split_ifs at h
    · exact (Prod.mk.inj (Except.ok.inj h)).2.symm
    · obtain ⟨current, _, h⟩ := bind_eq_ok.mp h
      obtain ⟨v, _, h⟩ := bind_eq_ok.mp h
      obtain ⟨u, _, h⟩ := bind_eq_ok.mp h
      cases (Prod.mk.inj (Except.ok.inj h)).1

/-- `a'` has the identity of `a`, and all its snapshots in their places. -/
def Extends (a a' : BranchAccount) : Prop :=
  a'.id = a.id ∧ a'.history.id = a.history.id ∧ a.history.states <+: a'.history.states

theorem call_extends (ha : WellFormed a) {c : Call} {r : Outcome} (h : call a c = .ok (r,a')) :
    WellFormed a' ∧ Extends a a' := by
  rcases call_cases ha c with ⟨e, he, _⟩ | ⟨ho, _, _⟩ | ⟨a₁, hc, _, hw⟩
  · obtain ⟨_, rfl⟩ := Prod.mk.inj (Except.ok.inj (he.symm.trans h))
    exact ⟨ha, rfl, rfl, List.prefix_rfl⟩
  · cases ho.symm.trans h
  · obtain ⟨_, rfl⟩ := Prod.mk.inj (Except.ok.inj (hc.symm.trans h))
    refine ⟨hw.wellFormed, hw.sameId, ?_, hw.kept⟩
    rw [hw.wellFormed.sameId, hw.sameId, ha.sameId]

/-- The run lemma: calls only extend an account. -/
theorem session_extends (ha : WellFormed a) (h : session call a cs = .ok (log,a')) :
    WellFormed a' ∧ Extends a a' := by
  apply session_related (R := Extends) ?_ ?_ ?_ ha h
  · exact fun a => ⟨rfl, rfl, List.prefix_rfl⟩
  · exact fun a₁ a₂ a₃ h₁ h₂ =>
      ⟨h₂.1.trans h₁.1, h₂.2.1.trans h₁.2.1, h₁.2.2.trans h₂.2.2⟩
  · exact fun a₁ c r a₂ ha₁ hc => call_extends ha₁ hc

theorem calls_accepted (h : calls a cs = .ok (log,a')) :
    calls a (accepted log) = .ok (log.filter (·.2.isOk), a') := by
  apply session_filter _ h
  intro a₁ c r a₂ hc hr
  cases r with
  | ok u => cases hr
  | error e => exact call_refused hc

theorem take_extends (hmax : BelowMax b.toInt cs) (id : AccountId) {k m : ℕ} (hkm : k ≤ m) :
    ∃ log₁ a₁ log₂ a₂, calls (.new id b) (cs.take k) = .ok (log₁,a₁) ∧
      calls (.new id b) (cs.take m) = .ok (log₂,a₂) ∧ Extends a₁ a₂ := by
  obtain ⟨log₂, a₂, hm, _, _⟩ := new_played id (hmax.take m)
  have hsplit : cs.take m = cs.take k ++ (cs.take m).drop k := by
    have h := List.take_append_drop k (cs.take m)
    rw [List.take_take, min_eq_left hkm] at h
    exact h.symm
  have hrun := hm
  rw [hsplit] at hrun
  obtain ⟨log₁, a₁, l, hk, hrest, _⟩ := session_append_eq_ok.mp hrun
  have hwf := (session_extends (new_wellFormed id b) hk).1
  exact ⟨log₁, a₁, log₂, a₂, hk, hm, (session_extends hwf hrest).2⟩

/-- Refused calls leave no trace: without them the same account is left, and the
other calls return what they returned. The history after each call starts with
the history before it. -/
theorem refused_without_trace (id : AccountId) (b : Balance) (cs : List Call)
    (hmax : BelowMax b.toInt cs) :
    (∃ log a, calls (.new id b) cs = .ok (log,a) ∧ log.map Prod.fst = cs ∧
      calls (.new id b) (accepted log) = .ok (log.filter (·.2.isOk), a)) ∧
    ∀ k m, k ≤ m → ∃ log₁ a₁ log₂ a₂, calls (.new id b) (cs.take k) = .ok (log₁,a₁) ∧
      calls (.new id b) (cs.take m) = .ok (log₂,a₂) ∧
      a₁.history.states <+: a₂.history.states := by
  constructor
  · obtain ⟨log, a, hrun, hp, _⟩ := new_played id hmax
    exact ⟨log, a, hrun, hp.logged, calls_accepted hrun⟩
  · intro k m hkm
    obtain ⟨log₁, a₁, log₂, a₂, hk, hm, hext⟩ := take_extends hmax id hkm
    exact ⟨log₁, a₁, log₂, a₂, hk, hm, hext.2.2⟩

def lateRefusal : List Call := [.credit 5 1, .debit 500 9, .debit 20 2]

theorem refused_without_trace_late :
    ∃ log a, calls (.new 1 100) lateRefusal = .ok (log,a) ∧ log.map Prod.fst = lateRefusal ∧
      calls (.new 1 100) (accepted log) = .ok (log.filter (·.2.isOk), a) :=
  (refused_without_trace 1 100 lateRefusal (by decide)).1

theorem calls_return_iff (ha : WellFormed a) (cs : List Call) :
    (∃ log a', calls a cs = .ok (log,a')) ↔ BelowMax (balanceOf a) cs := by
  constructor
  · rintro ⟨log, a', h⟩
    induction cs generalizing a log with
    | nil => exact fun u hu => absurd hu List.not_mem_nil
    | cons c cs ih =>
      obtain ⟨r, a₁, l, hc, hl, rfl⟩ := session_cons_eq_ok.mp h
      rcases call_cases ha c with ⟨e, he, hr⟩ | ⟨ho, _, _⟩ | ⟨a₂, hok, hg, hw⟩
      · obtain ⟨_, rfl⟩ := Prod.mk.inj (Except.ok.inj (he.symm.trans hc))
        exact (belowMax_cons_of_refused hr cs).mpr (ih ha l hl)
      · cases ho.symm.trans hc
      · obtain ⟨_, rfl⟩ := Prod.mk.inj (Except.ok.inj (hok.symm.trans hc))
        have hrest := ih hw.wellFormed l hl
        have hlt : balanceOf a₂ < 2^63 := by
          obtain ⟨v, _, hv⟩ := currentBalance_of_wellFormed hw.wellFormed
          rw [hv]
          exact Int64.toInt_lt v
        rw [hw.balanceOf] at hrest hlt
        exact (belowMax_cons_of_grants hg cs).mpr ⟨hlt, hrest⟩
  · intro h
    obtain ⟨log, a', hrun, _⟩ := calls_played ha h
    exact ⟨log, a', hrun⟩

theorem calls_closing (h : calls (.new id b) cs = .ok (log,a)) :
    WellFormed a ∧ balanceOf a = closing b.toInt (requests cs) := by
  have hmax : BelowMax b.toInt cs := (calls_return_iff (new_wellFormed id b) cs).mp ⟨log, a, h⟩
  obtain ⟨log', a₁, hrun, hp, hs⟩ := new_played id hmax
  obtain ⟨rfl, rfl⟩ := Prod.mk.inj (Except.ok.inj (hrun.symm.trans h))
  refine ⟨hp.wellFormed, ?_⟩
  have hlast := timeline_getLast ⟨0,b.toInt⟩ (updates b.toInt (requests cs))
  rw [← hs, stampsOf, List.getLast?_map] at hlast
  have hval := updates_last 0 b.toInt (requests cs)
  rw [← hlast, Option.map_map] at hval
  obtain ⟨s, hget, hbal⟩ := Option.map_eq_some_iff.mp hval
  rw [balanceOf, lastOf, hget]
  exact hbal

/-- A credit that is refused and leaves the account as it is, or one that
records the exact sum. -/
def CreditExact (a : BranchAccount) (amount : Balance) (t : Timestamp) : Prop :=
  (∃ e, a.credit amount t = .ok (.error e, a)) ∨
    ∃ v w a', a.currentBalance = .ok v ∧ a.credit amount t = .ok (.ok (), a') ∧
      lastOf a' = some (BalanceState.new w t) ∧ w.toInt = v.toInt+amount.toInt

theorem credit_exact_at (ha : WellFormed a) (amount : Balance) (t : Timestamp) :
    CreditExact a amount t ↔ amount.toInt ≤ 0 ∨ balanceOf a+amount.toInt < 2^63 := by
  rcases credit_cases ha amount t with ⟨e, he, hr⟩ | ⟨ho, hpos, hb⟩ | ⟨w, a', hc, hrec, _, hw⟩
  · exact iff_of_true (Or.inl ⟨e, he⟩) (Or.inl hr)
  · apply iff_of_false
    · rintro (⟨e, he⟩ | ⟨v, w, a', _, hc, _⟩)
      · cases he.symm.trans ho
      · cases hc.symm.trans ho
    · omega
  · obtain ⟨v, hcur, hv⟩ := currentBalance_of_wellFormed ha
    have hlt := Int64.toInt_lt w
    rw [hv] at hw ⊢
    exact iff_of_true (Or.inr ⟨v, w, a', hcur, hc, hrec.lastOf, hw⟩) (Or.inr (hw ▸ hlt))

/-- After any run, a credit is exact or refused unless the closing balance and a
positive amount add up to more than `i64::MAX`. -/
theorem credit_exact_iff (hrun : calls (.new id b) cs = .ok (log,a)) (amount : Balance)
    (t : Timestamp) :
    CreditExact a amount t ↔
      amount.toInt ≤ 0 ∨ closing b.toInt (requests cs)+amount.toInt < 2^63 := by
  obtain ⟨ha, hclosing⟩ := calls_closing hrun
  rw [← hclosing]
  exact credit_exact_at ha amount t

theorem credit_exact_late :
    ∃ log a, calls (.new 1 100) lateRefusal = .ok (log,a) ∧
      (CreditExact a 50 9 ↔ Int64.toInt 50 ≤ 0 ∨
        closing (Int64.toInt 100) (requests lateRefusal)+Int64.toInt 50 < 2^63) := by
  have hmax : BelowMax (Int64.toInt 100) lateRefusal := by decide
  obtain ⟨log, a, hrun, _⟩ := new_played 1 hmax
  exact ⟨log, a, hrun, credit_exact_iff hrun 50 9⟩

def fullAccount : BranchAccount := .new 1 9223372036854775807

/-- One more panics, or wraps to a negative sum where additions are unchecked. -/
theorem full_account_overflows :
    calls fullAccount [] = .ok ([],fullAccount) ∧ ¬ CreditExact fullAccount 1 0 ∧
      fullAccount.credit 1 0 = .error .overflow ∧
      fullAccount.currentBalance = .ok 9223372036854775807 ∧
      (9223372036854775807+1 : Int64) < 0 := by
  have ho : fullAccount.credit 1 0 = .error .overflow := by decide
  refine ⟨rfl, ?_, ho, rfl, by decide⟩
  rintro (⟨e, he⟩ | ⟨v, w, a', _, hc, _⟩)
  · cases he.symm.trans ho
  · cases hc.symm.trans ho

end CrabKeeper.AccountRuns
