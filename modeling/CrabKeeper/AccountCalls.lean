import CrabKeeper.BankAccount
import CrabKeeper.Foundation.Overdraft
import CrabKeeper.Foundation.Sessions

/-!
# Calls on one account

A list of debit and credit calls on an account, with the result of each. The
account refines an exact one without overdraft: it accepts what that one
grants, and its history is the timeline of the exact balances. Only the
addition of a credit can leave the range of `i64`.
-/

set_option autoImplicit false

namespace CrabKeeper.AccountCalls
open Foundation.Machine Foundation.DoubleEntry Foundation.Timeline Foundation.Overdraft
open Foundation.Sessions
open CrabKeeper.BankTypes CrabKeeper.BankAccount

inductive Call where
  | debit (amount : Balance) (time : Timestamp)
  | credit (amount : Balance) (time : Timestamp)
  deriving DecidableEq, Repr

abbrev Outcome := Except AccountError Unit

def call (a : BranchAccount) : Call → Checked (Outcome × BranchAccount)
  | .debit amount time => a.debit amount time
  | .credit amount time => a.credit amount time

def calls (a : BranchAccount) (cs : List Call) :
    Checked (List (Call × Outcome) × BranchAccount) :=
  session call a cs

theorem calls_cons {a a₁ a' : BranchAccount} {c : Call} {cs : List Call} {r : Outcome}
    {log : List (Call × Outcome)} (hc : call a c = .ok (r,a₁))
    (hcs : calls a₁ cs = .ok (log,a')) : calls a (c::cs) = .ok ((c,r)::log,a') := by
  exact session_cons_eq_ok.mpr ⟨r, a₁, log, hc, hcs, rfl⟩

theorem calls_concat {a a₁ a' : BranchAccount} {c : Call} {cs : List Call} {r : Outcome}
    {log : List (Call × Outcome)} (hcs : calls a cs = .ok (log,a₁))
    (hc : call a₁ c = .ok (r,a')) : calls a (cs ++ [c]) = .ok (log ++ [(c,r)],a') := by
  have hlast : session call a₁ [c] = .ok ([(c,r)],a') :=
    session_cons_eq_ok.mpr ⟨r, a', [], hc, rfl, rfl⟩
  exact session_append_eq_ok.mpr ⟨log, a₁, [(c,r)], hcs, hlast, rfl⟩

def accepted (log : List (Call × Outcome)) : List Call :=
  (log.filter (·.2.isOk)).map Prod.fst

def Call.request : Call → Request ℤ
  | .debit amount time => ⟨.debit, amount.toInt, time.toNat⟩
  | .credit amount time => ⟨.credit, amount.toInt, time.toNat⟩

def Call.time : Call → Timestamp
  | .debit _ time | .credit _ time => time

def requests (cs : List Call) : List (Request ℤ) := cs.map Call.request

@[simp] theorem requests_cons (c : Call) (cs : List Call) :
    requests (c::cs) = c.request :: requests cs := rfl

theorem request_time (c : Call) : c.request.time = c.time.toNat := by
  cases c <;> rfl

/-- No exact balance exceeds `i64::MAX`. -/
def BelowMax (b : ℤ) (cs : List Call) : Prop := ∀ u ∈ updates b (requests cs), u.value < 2^63

instance (b : ℤ) (cs : List Call) : Decidable (BelowMax b cs) :=
  inferInstanceAs (Decidable (∀ u ∈ updates b (requests cs), u.value < 2^63))

def InOrder (cs : List Call) : Prop := (requests cs).Pairwise (·.time ≤ ·.time)

instance (cs : List Call) : Decidable (InOrder cs) :=
  inferInstanceAs (Decidable ((requests cs).Pairwise (·.time ≤ ·.time)))

def stampOf (s : BalanceState) : Stamp ℤ := ⟨s.time.toNat,s.balance.toInt⟩

def stampsOf (a : BranchAccount) : List (Stamp ℤ) := a.history.states.map stampOf

def lastStamp (a : BranchAccount) : Stamp ℤ :=
  match lastOf a with
  | some s => stampOf s
  | none => ⟨0,0⟩

theorem lastStamp_value (a : BranchAccount) : (lastStamp a).value = balanceOf a := by
  unfold lastStamp balanceOf
  cases lastOf a <;> rfl

/-- `a'` is `a` with the stamp `u` recorded. -/
structure Written (a : BranchAccount) (u : Stamp ℤ) (a' : BranchAccount) : Prop where
  wellFormed : WellFormed a'
  sameId : a'.id = a.id
  kept : a.history.states <+: a'.history.states
  stamps : stampsOf a' = stampsOf a ++ growth (lastStamp a) [u]
  last : lastStamp a' = u

theorem ticks_stamps (v : Balance) (s t : Timestamp) :
    ((ticks s t).map (BalanceState.new v)).map stampOf = fill v.toInt s.toNat t.toNat := by
  rw [ticks, fill, List.map_map, List.map_map]
  apply List.map_congr_left
  intro u hu
  have ht := UInt64.toNat_lt t
  have hu := List.mem_range'_1.mp hu
  show (⟨(UInt64.ofNat u).toNat,v.toInt⟩ : Stamp ℤ) = ⟨u,v.toInt⟩
  rw [UInt64.toNat_ofNat', Nat.mod_eq_of_lt (by omega)]

theorem recordState_written {a a' : BranchAccount} (ha : WellFormed a) {t : Timestamp}
    {b : Balance} (h : a.recordState t b = .ok a') : Written a ⟨t.toNat,b.toInt⟩ a' := by
  obtain ⟨a₁, h₁, hrec⟩ := recordState_recorded ha t b
  obtain rfl := Except.ok.inj (h₁.symm.trans h)
  obtain ⟨s, hs, hlast, _⟩ := lastState_of_wellFormed ha
  have hstamp : lastStamp a = stampOf s := by rw [lastStamp, hlast]
  have hlast' : lastStamp a₁ = ⟨t.toNat,b.toInt⟩ := by
    rw [lastStamp, hrec.lastOf]
    rfl
  obtain ⟨filled, hfilled⟩ := hrec.appended
  refine ⟨hrec.wellFormed ha, hrec.sameId, ⟨_, hfilled.symm⟩, ?_, hlast'⟩
  rw [hstamp]
  rw [BranchAccount.recordState, hs, ok_bind] at h
  split_ifs at h with ht
  · have hlt := UInt64.lt_iff_toNat_lt.mp ht
    have htn := UInt64.toNat_lt t
    have hadd : addU64 s.time 1 = .ok (s.time+1) := if_pos (by rw [UInt64.toNat_one]; omega)
    have hnext := addU64_eq_ok.mp hadd
    rw [hadd, ok_bind] at h
    obtain rfl := Except.ok.inj h
    rw [stampsOf, BranchAccount.push, BranchAccount.push, List.map_append, List.map_append,
      ticks_stamps, List.append_assoc, hnext]
    rfl
  · obtain rfl := Except.ok.inj h
    have hle : ¬ s.time.toNat < t.toNat := mt UInt64.lt_iff_toNat_lt.mpr ht
    have hnil : fill (stampOf s).value ((stampOf s).time+1) t.toNat = [] :=
      fill_nil _ (show t.toNat ≤ s.time.toNat+1 by omega)
    rw [stampsOf, BranchAccount.push, List.map_append, growth, hnil]
    rfl

theorem debit_records {a a' : BranchAccount} {amount : Balance} {t : Timestamp}
    (h : a.debit amount t = .ok (.ok (), a')) : ∃ b, a.recordState t b = .ok a' := by
  unfold BranchAccount.debit at h
  split_ifs at h with hpos
  · cases (Prod.mk.inj (Except.ok.inj h)).1
  · obtain ⟨current, _, h⟩ := bind_eq_ok.mp h
    split_ifs at h with hlt
    · cases (Prod.mk.inj (Except.ok.inj h)).1
    · obtain ⟨b, _, h⟩ := bind_eq_ok.mp h
      obtain ⟨a₁, hrec, h⟩ := bind_eq_ok.mp h
      obtain rfl := (Prod.mk.inj (Except.ok.inj h)).2
      exact ⟨b, hrec⟩

theorem credit_records {a a' : BranchAccount} {amount : Balance} {t : Timestamp}
    (h : a.credit amount t = .ok (.ok (), a')) : ∃ b, a.recordState t b = .ok a' := by
  unfold BranchAccount.credit at h
  split_ifs at h with hpos
  · cases (Prod.mk.inj (Except.ok.inj h)).1
  · obtain ⟨current, _, h⟩ := bind_eq_ok.mp h
    obtain ⟨b, _, h⟩ := bind_eq_ok.mp h
    obtain ⟨a₁, hrec, h⟩ := bind_eq_ok.mp h
    obtain rfl := (Prod.mk.inj (Except.ok.inj h)).2
    exact ⟨b, hrec⟩

theorem written_of_recorded {a a' : BranchAccount} (ha : WellFormed a) {t : Timestamp}
    {b : Balance} (hrec : Recorded a b t a') (h : ∃ b, a.recordState t b = .ok a') :
    Written a ⟨t.toNat,b.toInt⟩ a' := by
  obtain ⟨b', hb'⟩ := h
  have hw := recordState_written ha hb'
  have hval : b'.toInt = b.toInt := by
    rw [← hrec.balanceOf, ← lastStamp_value, hw.last]
  exact hval ▸ hw

/-- One call: refused without a trace, or stopped by the addition, or recorded. -/
theorem call_cases {a : BranchAccount} (ha : WellFormed a) (c : Call) :
    (∃ e, call a c = .ok (.error e, a) ∧ ¬ Grants (balanceOf a) c.request) ∨
    (call a c = .error .overflow ∧ Grants (balanceOf a) c.request ∧
      2^63 ≤ balanceOf a+c.request.signed) ∨
    (∃ a', call a c = .ok (.ok (), a') ∧ Grants (balanceOf a) c.request ∧
      Written a ⟨c.request.time,balanceOf a+c.request.signed⟩ a') := by
  cases c with
  | debit amount t =>
    rcases debit_cases ha amount t with ⟨e, he, hr⟩ | ⟨b, a', hd, hrec, hpos, hle, hb⟩
    · refine Or.inl ⟨e, he, fun hg => ?_⟩
      have h1 : 0 < amount.toInt := hg.1
      have h2 : amount.toInt ≤ balanceOf a := hg.2 rfl
      omega
    · refine Or.inr (Or.inr ⟨a', hd, ⟨hpos, fun _ => hle⟩, ?_⟩)
      have hw := written_of_recorded ha hrec (debit_records hd)
      rw [hb, sub_eq_add_neg] at hw
      exact hw
  | credit amount t =>
    rcases credit_cases ha amount t with ⟨e, he, hr⟩ | ⟨ho, hpos, hb⟩ | ⟨b, a', hc, hrec, hpos, hb⟩
    · refine Or.inl ⟨e, he, fun hg => ?_⟩
      have h1 : 0 < amount.toInt := hg.1
      omega
    · exact Or.inr (Or.inl ⟨ho, ⟨hpos, fun h => by cases h⟩, hb⟩)
    · refine Or.inr (Or.inr ⟨a', hc, ⟨hpos, fun h => by cases h⟩, ?_⟩)
      have hw := written_of_recorded ha hrec (credit_records hc)
      rw [hb] at hw
      exact hw

/-- What a run of calls did to an account. -/
structure Played (a : BranchAccount) (cs : List Call) (log : List (Call × Outcome))
    (a' : BranchAccount) : Prop where
  wellFormed : WellFormed a'
  sameId : a'.id = a.id
  kept : a.history.states <+: a'.history.states
  logged : log.map Prod.fst = cs
  accepted : requests (accepted log) = granted (balanceOf a) (requests cs)
  stamps : stampsOf a' = stampsOf a ++ growth (lastStamp a) (updates (balanceOf a) (requests cs))

theorem Played.nil {a : BranchAccount} (ha : WellFormed a) : Played a [] [] a :=
  ⟨ha, rfl, List.prefix_rfl, rfl, rfl, (List.append_nil _).symm⟩

theorem Played.refused {a a' : BranchAccount} {c : Call} {cs : List Call}
    {log : List (Call × Outcome)} {e : AccountError} (h : Played a cs log a')
    (hr : ¬ Grants (balanceOf a) c.request) : Played a (c::cs) ((c,.error e)::log) a' := by
  refine ⟨h.wellFormed, h.sameId, h.kept, by rw [List.map_cons, h.logged], ?_, ?_⟩
  · rw [requests_cons, granted_cons_of_refused hr]
    exact h.accepted
  · rw [requests_cons, updates_cons_of_refused hr]
    exact h.stamps

theorem Written.balanceOf {a a' : BranchAccount} {u : Stamp ℤ} (h : Written a u a') :
    balanceOf a' = u.value := by
  rw [← lastStamp_value, h.last]

theorem Played.granted {a a₁ a' : BranchAccount} {c : Call} {cs : List Call}
    {log : List (Call × Outcome)} (hg : Grants (balanceOf a) c.request)
    (hw : Written a ⟨c.request.time,balanceOf a+c.request.signed⟩ a₁)
    (h : Played a₁ cs log a') : Played a (c::cs) ((c,.ok ())::log) a' := by
  refine ⟨h.wellFormed, h.sameId.trans hw.sameId, hw.kept.trans h.kept,
    by rw [List.map_cons, h.logged], ?_, ?_⟩
  · have hrest := h.accepted
    rw [hw.balanceOf] at hrest
    rw [requests_cons, granted_cons_of_grants hg, ← hrest]
    rfl
  · rw [h.stamps, hw.stamps, hw.last, hw.balanceOf, requests_cons, updates_cons_of_grants hg,
      List.append_assoc]
    simp [growth]

theorem belowMax_cons_of_refused {v : ℤ} {c : Call} (h : ¬ Grants v c.request) (cs : List Call) :
    BelowMax v (c::cs) ↔ BelowMax v cs := by
  rw [BelowMax, requests_cons, updates_cons_of_refused h]
  rfl

theorem belowMax_cons_of_grants {v : ℤ} {c : Call} (h : Grants v c.request) (cs : List Call) :
    BelowMax v (c::cs) ↔ v+c.request.signed < 2^63 ∧ BelowMax (v+c.request.signed) cs := by
  rw [BelowMax, requests_cons, updates_cons_of_grants h]
  exact List.forall_mem_cons

theorem call_below_max {a : BranchAccount} (ha : WellFormed a) {c : Call} {cs : List Call}
    (hmax : BelowMax (balanceOf a) (c::cs)) :
    (∃ e, call a c = .ok (.error e, a) ∧ ¬ Grants (balanceOf a) c.request ∧
      BelowMax (balanceOf a) cs) ∨
    (∃ a', call a c = .ok (.ok (), a') ∧ Grants (balanceOf a) c.request ∧
      Written a ⟨c.request.time,balanceOf a+c.request.signed⟩ a' ∧ BelowMax (balanceOf a') cs) := by
  rcases call_cases ha c with ⟨e, he, hr⟩ | ⟨_, hg, hb⟩ | ⟨a', hc, hg, hw⟩
  · exact Or.inl ⟨e, he, hr, (belowMax_cons_of_refused hr cs).mp hmax⟩
  · have := ((belowMax_cons_of_grants hg cs).mp hmax).1
    omega
  · refine Or.inr ⟨a', hc, hg, hw, ?_⟩
    rw [hw.balanceOf]
    exact ((belowMax_cons_of_grants hg cs).mp hmax).2

/-- The run lemma: without overflow every list of calls is played to its end. -/
theorem calls_played {cs : List Call} {a : BranchAccount} (ha : WellFormed a)
    (hmax : BelowMax (balanceOf a) cs) :
    ∃ log a', calls a cs = .ok (log,a') ∧ Played a cs log a' := by
  induction cs generalizing a with
  | nil => exact ⟨[], a, rfl, Played.nil ha⟩
  | cons c cs ih =>
    rcases call_below_max ha hmax with ⟨e, he, hr, hrest⟩ | ⟨a₁, hc, hg, hw, hrest⟩
    · obtain ⟨log, a', hcs, hp⟩ := ih ha hrest
      refine ⟨(c,.error e)::log, a', ?_, hp.refused hr⟩
      exact calls_cons he hcs
    · obtain ⟨log, a', hcs, hp⟩ := ih hw.wellFormed hrest
      refine ⟨(c,.ok ())::log, a', ?_, Played.granted hg hw hp⟩
      exact calls_cons hc hcs

theorem BelowMax.take {b : ℤ} {cs : List Call} (h : BelowMax b cs) (k : ℕ) :
    BelowMax b (cs.take k) := by
  intro u hu
  apply h u
  rw [requests, List.map_take] at hu
  exact (updates_take b (requests cs) k).mem hu

theorem new_played (id : AccountId) {b : Balance} {cs : List Call}
    (hmax : BelowMax b.toInt cs) :
    ∃ log a, calls (.new id b) cs = .ok (log,a) ∧ Played (.new id b) cs log a ∧
      stampsOf a = timeline ⟨0,b.toInt⟩ (updates b.toInt (requests cs)) := by
  obtain ⟨log, a, hcs, hp⟩ := calls_played (new_wellFormed id b) hmax
  exact ⟨log, a, hcs, hp, hp.stamps⟩

end CrabKeeper.AccountCalls
