import CrabKeeper.BankTypes

/-!
# Branch accounts

An account is its history: the balance is that of the last snapshot. Recording
a state first fills the ticks since the last one with the old balance. A debit
is compared with the balance before it is subtracted, a credit is added
unchecked, so only a credit can overflow. Balances are compared with exact
integers through `balanceOf`.
-/

set_option autoImplicit false

namespace CrabKeeper.BankAccount
open Foundation.Machine
open CrabKeeper.BankTypes

inductive AccountError where
  | insufficientFunds (accountId : AccountId) (balance required : Balance)
  | invalidAmount (amount : Balance)
  deriving DecidableEq, Repr

def AccountError.display : AccountError → String
  | .insufficientFunds accountId balance required =>
    "账户 " ++ toString accountId ++ " 余额不足: 现有 " ++ toString balance ++
      "，需要 " ++ toString required
  | .invalidAmount amount => "无效金额: " ++ toString amount

structure BranchAccount where
  id : AccountId
  history : BalanceHistory
  deriving DecidableEq, Repr

def BranchAccount.new (id : AccountId) (initialBalance : Balance) : BranchAccount :=
  ⟨id, BalanceHistory.new id initialBalance⟩

/-- `self.history.states.last().unwrap()`. -/
def BranchAccount.lastState (a : BranchAccount) : Checked BalanceState :=
  match a.history.states.getLast? with
  | some s => .ok s
  | none => .error .unwrap

def BranchAccount.currentBalance (a : BranchAccount) : Checked Balance := do
  let last ← a.lastState
  return last.balance

def ticks (start stop : Timestamp) : List Timestamp :=
  (List.range' start.toNat (stop.toNat-start.toNat)).map UInt64.ofNat

def BranchAccount.push (a : BranchAccount) (states : List BalanceState) : BranchAccount :=
  { a with history := { a.history with states := a.history.states ++ states } }

def BranchAccount.recordState (a : BranchAccount) (time : Timestamp) (newBalance : Balance) :
    Checked BranchAccount := do
  let last ← a.lastState
  if time > last.time then
    let next ← addU64 last.time 1
    let filled := a.push ((ticks next time).map (BalanceState.new last.balance))
    return filled.push [BalanceState.new newBalance time]
  else
    return a.push [BalanceState.new newBalance time]

def BranchAccount.debit (a : BranchAccount) (amount : Balance) (time : Timestamp) :
    Checked (Except AccountError Unit × BranchAccount) :=
  if amount ≤ 0 then .ok (.error (.invalidAmount amount), a) else do
    let current ← a.currentBalance
    if current < amount then
      return (.error (.insufficientFunds a.id current amount), a)
    else
      let newBalance ← subI64 current amount
      let a' ← a.recordState time newBalance
      return (.ok (), a')

def BranchAccount.credit (a : BranchAccount) (amount : Balance) (time : Timestamp) :
    Checked (Except AccountError Unit × BranchAccount) :=
  if amount ≤ 0 then .ok (.error (.invalidAmount amount), a) else do
    let current ← a.currentBalance
    let newBalance ← addI64 current amount
    let a' ← a.recordState time newBalance
    return (.ok (), a')

def lastOf (a : BranchAccount) : Option BalanceState := a.history.states.getLast?

def balanceOf (a : BranchAccount) : ℤ :=
  match lastOf a with
  | some s => s.balance.toInt
  | none => 0

/-- The account has a snapshot, and its history carries its own identifier. -/
structure WellFormed (a : BranchAccount) : Prop where
  nonempty : a.history.states ≠ []
  sameId : a.history.id = a.id

/-- `a'` is `a` after recording a snapshot of balance `b` at time `t`: some
filled ticks, then the snapshot. -/
structure Recorded (a : BranchAccount) (b : Balance) (t : Timestamp) (a' : BranchAccount) :
    Prop where
  sameId : a'.id = a.id
  sameHistoryId : a'.history.id = a.history.id
  appended : ∃ filled, a'.history.states =
    a.history.states ++ (filled ++ [BalanceState.new b t])

theorem new_wellFormed (id : AccountId) (b : Balance) : WellFormed (BranchAccount.new id b) :=
  ⟨by simp [BranchAccount.new, BalanceHistory.new], rfl⟩

theorem balanceOf_new (id : AccountId) (b : Balance) :
    balanceOf (BranchAccount.new id b) = b.toInt := rfl

theorem Recorded.wellFormed {a a' : BranchAccount} {b : Balance} {t : Timestamp}
    (h : Recorded a b t a') (ha : WellFormed a) : WellFormed a' := by
  obtain ⟨filled, hf⟩ := h.appended
  exact ⟨by simp [hf], by rw [h.sameHistoryId, ha.sameId, h.sameId]⟩

theorem Recorded.lastOf {a a' : BranchAccount} {b : Balance} {t : Timestamp}
    (h : Recorded a b t a') : lastOf a' = some (BalanceState.new b t) := by
  obtain ⟨filled, hf⟩ := h.appended
  rw [BankAccount.lastOf, hf, ← List.append_assoc, List.getLast?_concat]

theorem Recorded.balanceOf {a a' : BranchAccount} {b : Balance} {t : Timestamp}
    (h : Recorded a b t a') : balanceOf a' = b.toInt := by
  rw [BankAccount.balanceOf, h.lastOf]
  rfl

theorem lastState_of_wellFormed {a : BranchAccount} (ha : WellFormed a) :
    ∃ s, a.lastState = .ok s ∧ lastOf a = some s ∧ balanceOf a = s.balance.toInt := by
  have hs := List.getLast?_eq_some_getLast ha.nonempty
  exact ⟨_, by rw [BranchAccount.lastState, hs], hs, by rw [balanceOf, lastOf, hs]⟩

theorem currentBalance_of_wellFormed {a : BranchAccount} (ha : WellFormed a) :
    ∃ v, a.currentBalance = .ok v ∧ balanceOf a = v.toInt := by
  obtain ⟨s, hs, _, hb⟩ := lastState_of_wellFormed ha
  refine ⟨s.balance, ?_, hb⟩
  rw [BranchAccount.currentBalance, hs]
  rfl

theorem amount_nonpos (amount : Balance) : amount ≤ 0 ↔ amount.toInt ≤ 0 := by
  rw [Int64.le_iff_toInt_le, Int64.toInt_zero]

theorem recordState_recorded {a : BranchAccount} (ha : WellFormed a) (t : Timestamp)
    (b : Balance) : ∃ a', a.recordState t b = .ok a' ∧ Recorded a b t a' := by
  obtain ⟨s, hs, _, _⟩ := lastState_of_wellFormed ha
  rw [BranchAccount.recordState, hs, ok_bind]
  split_ifs with ht
  · have hlt : s.time.toNat < t.toNat := UInt64.lt_iff_toNat_lt.mp ht
    have htn := UInt64.toNat_lt t
    have hadd : addU64 s.time 1 = .ok (s.time+1) :=
      if_pos (by
        rw [UInt64.toNat_one]
        omega)
    rw [hadd, ok_bind]
    exact ⟨_, rfl, rfl, rfl, (ticks (s.time+1) t).map (BalanceState.new s.balance),
      by simp [BranchAccount.push, List.append_assoc]⟩
  · exact ⟨_, rfl, rfl, rfl, [], by simp [BranchAccount.push]⟩

theorem debit_cases {a : BranchAccount} (ha : WellFormed a) (amount : Balance) (t : Timestamp) :
    (∃ e, a.debit amount t = .ok (.error e, a) ∧
      (amount.toInt ≤ 0 ∨ balanceOf a < amount.toInt)) ∨
    (∃ b a', a.debit amount t = .ok (.ok (), a') ∧ Recorded a b t a' ∧ 0 < amount.toInt ∧
      amount.toInt ≤ balanceOf a ∧ b.toInt = balanceOf a-amount.toInt) := by
  obtain ⟨v, hcur, hb⟩ := currentBalance_of_wellFormed ha
  have hz := amount_nonpos amount
  by_cases hpos : amount ≤ 0
  · exact Or.inl ⟨_, if_pos hpos, Or.inl (hz.mp hpos)⟩
  have hamount : 0 < amount.toInt := by
    rw [hz] at hpos
    omega
  by_cases hlt : v < amount
  · refine Or.inl ⟨.insufficientFunds a.id v amount, ?_, Or.inr ?_⟩
    · rw [BranchAccount.debit, if_neg hpos, hcur, ok_bind, if_pos hlt]
      rfl
    · rw [hb]
      exact Int64.lt_iff_toInt_lt.mp hlt
  · have hle : amount.toInt ≤ v.toInt := by
      rw [Int64.lt_iff_toInt_lt] at hlt
      omega
    have hhi := Int64.toInt_lt v
    have hsub := subI64_of_fits (a := v) (b := amount) ⟨by omega, by omega⟩
    obtain ⟨a', ha', hr⟩ := recordState_recorded ha t (v-amount)
    refine Or.inr ⟨v-amount, a', ?_, hr, hamount, by rw [hb]; exact hle, ?_⟩
    · rw [BranchAccount.debit, if_neg hpos, hcur, ok_bind, if_neg hlt, hsub, ok_bind, ha', ok_bind]
      rfl
    · rw [hb]
      exact subI64_eq_ok.mp hsub

/-- The three outcomes of a credit; only the addition can panic. -/
theorem credit_cases {a : BranchAccount} (ha : WellFormed a) (amount : Balance) (t : Timestamp) :
    (∃ e, a.credit amount t = .ok (.error e, a) ∧ amount.toInt ≤ 0) ∨
    (a.credit amount t = .error .overflow ∧ 0 < amount.toInt ∧
      2^63 ≤ balanceOf a+amount.toInt) ∨
    (∃ b a', a.credit amount t = .ok (.ok (), a') ∧ Recorded a b t a' ∧ 0 < amount.toInt ∧
      b.toInt = balanceOf a+amount.toInt) := by
  obtain ⟨v, hcur, hb⟩ := currentBalance_of_wellFormed ha
  have hz := amount_nonpos amount
  by_cases hpos : amount ≤ 0
  · exact Or.inl ⟨_, if_pos hpos, hz.mp hpos⟩
  have hamount : 0 < amount.toInt := by
    rw [hz] at hpos
    omega
  have hlo := Int64.le_toInt v
  by_cases hfit : v.toInt+amount.toInt < 2^63
  · have hadd := addI64_of_fits (a := v) (b := amount) ⟨by omega, hfit⟩
    obtain ⟨a', ha', hr⟩ := recordState_recorded ha t (v+amount)
    refine Or.inr (Or.inr ⟨v+amount, a', ?_, hr, hamount, ?_⟩)
    · rw [BranchAccount.credit, if_neg hpos, hcur, ok_bind, hadd, ok_bind, ha', ok_bind]
      rfl
    · rw [hb]
      exact addI64_eq_ok.mp hadd
  · refine Or.inr (Or.inl ⟨?_, hamount, by rw [hb]; omega⟩)
    rw [BranchAccount.credit, if_neg hpos, hcur, ok_bind, addI64, if_neg (by omega), error_bind]

end CrabKeeper.BankAccount
