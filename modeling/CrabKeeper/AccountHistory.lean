import CrabKeeper.AccountCalls

/-!
# The meaning of an account's history

What a history says about the account at each tick, when its times are in
order, and that no snapshot in it shows an overdraft. Each is a fact about the
timeline of exact balances, read through the snapshots.
-/

set_option autoImplicit false

namespace CrabKeeper.AccountHistory
open Foundation.Machine Foundation.DoubleEntry Foundation.Timeline Foundation.Overdraft
open CrabKeeper.BankTypes CrabKeeper.BankAccount CrabKeeper.AccountCalls

variable {id : AccountId} {b : Balance} {cs : List Call} {log : List (Call × Outcome)}
  {a : BranchAccount}

theorem stamped_chain {R : Stamp ℤ → Stamp ℤ → Prop} (h : (stampsOf a).IsChain R) :
    a.history.states.IsChain fun s t => R (stampOf s) (stampOf t) :=
  (List.isChain_map stampOf).mp h

theorem granted_in_order (b : ℤ) (h : InOrder cs) :
    (granted b (requests cs)).Pairwise (·.time ≤ ·.time) :=
  h.sublist (granted_sublist b (requests cs))

theorem accepted_times (hp : Played (.new id b) cs log a) :
    (granted b.toInt (requests cs)).map (·.time) =
      ((accepted log).map Call.time).map UInt64.toNat := by
  have h := hp.accepted
  rw [balanceOf_new] at h
  rw [← h, requests, List.map_map, List.map_map]
  apply List.map_congr_left
  exact fun c _ => request_time c

theorem last_time (hp : Played (.new id b) cs log a)
    (hs : stampsOf a = timeline ⟨0,b.toInt⟩ (updates b.toInt (requests cs))) :
    (lastOf a).map (·.time) = some (((accepted log).map Call.time).getLastD 0) := by
  have h := timeline_last_time ⟨0,b.toInt⟩ (updates b.toInt (requests cs))
  rw [← hs, updates_times, accepted_times hp, stampsOf, List.getLast?_map, Option.map_map] at h
  have hd := List.getLastD_map (f := UInt64.toNat) (l := (accepted log).map Call.time) (a := 0)
  obtain ⟨s, hlast, htime⟩ := Option.map_eq_some_iff.mp (h.trans (congrArg some hd))
  rw [lastOf, hlast]
  exact congrArg some (UInt64.toNat_inj.mp htime)

theorem balance_at_tick (hcs : InOrder cs) (hp : Played (.new id b) cs log a)
    (hs : stampsOf a = timeline ⟨0,b.toInt⟩ (updates b.toInt (requests cs))) {t : Timestamp}
    (ht : t ≤ ((accepted log).map Call.time).getLastD 0) :
    ∃ s, (a.history.states.filter (·.time = t)).getLast? = some s ∧
      s.balance.toInt = b.toInt+total .credit t.toNat (requests (accepted log))-
        total .debit t.toNat (requests (accepted log)) := by
  have hord := granted_in_order b.toInt hcs
  have hlast : t.toNat ≤ ((updates b.toInt (requests cs)).map (·.time)).getLastD 0 := by
    have hd := List.getLastD_map (f := UInt64.toNat) (l := (accepted log).map Call.time) (a := 0)
    rw [updates_times, accepted_times hp]
    exact hd.symm ▸ UInt64.le_iff_toNat_le.mp ht
  have hval := value_at ((updates_in_order_iff _ _).mpr hord) (Nat.zero_le t.toNat) hlast
  have hchain : (0 :: (granted b.toInt (requests cs)).map (·.time)).IsChain (· ≤ ·) := by
    rw [← updates_times, ← isChain_times 0 b.toInt]
    exact (updates_in_order_iff _ _).mpr hord
  have hacc := hp.accepted
  rw [balanceOf_new] at hacc
  rw [updates, balance_at hchain (Nat.zero_le _), ← updates, ← hs, stampsOf, List.filter_map,
    List.getLast?_map, Option.map_map, ← hacc] at hval
  obtain ⟨s, hget, hbal⟩ := Option.map_eq_some_iff.mp hval
  refine ⟨s, ?_, hbal⟩
  rw [← hget]
  congr 2
  ext u
  exact decide_eq_decide.mpr UInt64.toNat_inj.symm

theorem states_head (hp : Played (.new id b) cs log a) :
    a.history.states.head? = some (BalanceState.new b 0) := by
  obtain ⟨rest, hrest⟩ := hp.kept
  rw [← hrest]
  rfl

/-- The meaning of a history: it starts with the opening balance at time zero,
leaves out no tick up to the last accepted call, and at each tick its last
snapshot shows the opening balance and all that was accepted up to the tick. -/
theorem history_meaning (id : AccountId) (b : Balance) (cs : List Call)
    (hmax : BelowMax b.toInt cs) (hcs : InOrder cs) :
    ∃ log a, calls (.new id b) cs = .ok (log,a) ∧ log.map Prod.fst = cs ∧
      a.history.states.head? = some (BalanceState.new b 0) ∧
      a.history.states.IsChain (fun s t =>
        t.time.toNat = s.time.toNat ∨ t.time.toNat = s.time.toNat+1) ∧
      (lastOf a).map (·.time) = some (((accepted log).map Call.time).getLastD 0) ∧
      ∀ t ≤ ((accepted log).map Call.time).getLastD 0,
        ∃ s, (a.history.states.filter (·.time = t)).getLast? = some s ∧
          s.balance.toInt = b.toInt+total .credit t.toNat (requests (accepted log))-
            total .debit t.toNat (requests (accepted log)) := by
  obtain ⟨log, a, hrun, hp, hs⟩ := new_played id hmax
  have hgapless := (gapless_iff ⟨0,b.toInt⟩ (updates b.toInt (requests cs))).mpr
    ((updates_in_order_iff _ _).mpr (granted_in_order b.toInt hcs))
  rw [← hs] at hgapless
  exact ⟨log, a, hrun, hp.logged, states_head hp, stamped_chain hgapless, last_time hp hs,
    fun t ht => balance_at_tick hcs hp hs ht⟩

def threeCalls : List Call := [.debit 20 2, .debit 500 3, .credit 5 3]

theorem history_meaning_three_calls :
    ∃ log a, calls (.new 1 100) threeCalls = .ok (log,a) ∧ log.map Prod.fst = threeCalls ∧
      a.history.states.head? = some (BalanceState.new 100 0) ∧
      (lastOf a).map (·.time) = some (((accepted log).map Call.time).getLastD 0) := by
  obtain ⟨log, a, hrun, hlog, hhead, _, hlast, _⟩ :=
    history_meaning 1 100 threeCalls (by decide) (by decide)
  exact ⟨log, a, hrun, hlog, hhead, hlast⟩

theorem states_sorted_iff (hs : stampsOf a = timeline ⟨0,b.toInt⟩ (updates b.toInt (requests cs))) :
    a.history.states.Pairwise (·.time ≤ ·.time) ↔
      (granted b.toInt (requests cs)).Pairwise (·.time ≤ ·.time) := by
  rw [← updates_in_order_iff, ← chronological_iff, ← hs, List.isChain_iff_pairwise, stampsOf,
    List.pairwise_map]
  rfl

/-- The times of a history never go back, after any of the calls, exactly if
the timestamps of the calls that an exact account grants never do. -/
theorem times_sorted_iff (id : AccountId) (b : Balance) (cs : List Call)
    (hmax : BelowMax b.toInt cs) :
    (∀ k log a, calls (.new id b) (cs.take k) = .ok (log,a) →
      a.history.states.Pairwise (·.time ≤ ·.time)) ↔
      (granted b.toInt (requests cs)).Pairwise (·.time ≤ ·.time) := by
  constructor
  · intro h
    obtain ⟨log, a, hrun, _, hs⟩ := new_played id hmax
    rw [← List.take_length (l := cs)] at hrun
    exact (states_sorted_iff hs).mp (h cs.length log a hrun)
  · intro h k log a hrun
    obtain ⟨log', a', hrun', _, hs⟩ := new_played id (hmax.take k)
    obtain ⟨rfl, rfl⟩ := Prod.mk.inj (Except.ok.inj (hrun'.symm.trans hrun))
    apply (states_sorted_iff hs).mpr
    rw [requests, List.map_take]
    exact h.sublist (granted_take _ _ k).sublist

theorem times_sorted_three_calls :
    (∀ k log a, calls (.new 1 100) (threeCalls.take k) = .ok (log,a) →
      a.history.states.Pairwise (·.time ≤ ·.time)) ↔
      (granted 100 (requests threeCalls)).Pairwise (·.time ≤ ·.time) :=
  times_sorted_iff 1 100 threeCalls (by decide)

def backCalls : List Call := [.credit 1 5, .credit 1 3]

theorem times_go_back :
    BelowMax 100 backCalls ∧
    ¬ ∀ k log a, calls (.new 1 100) (backCalls.take k) = .ok (log,a) →
      a.history.states.Pairwise (·.time ≤ ·.time) := by
  have hmax : BelowMax (Int64.toInt 100) backCalls := by decide
  refine ⟨hmax, fun h => ?_⟩
  obtain ⟨log, a, hrun, _, hs⟩ := new_played 1 hmax
  have hsorted := (states_sorted_iff hs).mp (h 2 log a hrun)
  revert hsorted
  decide

theorem debit_at (hmax : BelowMax b.toInt cs) (id : AccountId) (k : ℕ) (amount : Balance)
    (t : Timestamp) :
    ∃ log a r a', calls (.new id b) (cs.take k) = .ok (log,a) ∧ a.debit amount t = .ok (r,a') ∧
      (r = .ok () → 0 ≤ balanceOf a' ∧ balanceOf a' = balanceOf a-amount.toInt) := by
  obtain ⟨log, a, hrun, hp, _⟩ := new_played id (hmax.take k)
  refine ⟨log, a, ?_⟩
  rcases debit_cases hp.wellFormed amount t with ⟨e, he, _⟩ | ⟨v, a', ha, hrec, _, hle, hv⟩
  · exact ⟨.error e, a, hrun, he, fun h => by cases h⟩
  · refine ⟨.ok (), a', hrun, ha, fun _ => ?_⟩
    rw [hrec.balanceOf, hv]
    exact ⟨by omega, rfl⟩

/-- No overdraft: no snapshot is below both zero and the opening balance, none
is negative after one that is not, and every debit is covered. -/
theorem no_overdraft (id : AccountId) (b : Balance) (cs : List Call)
    (hmax : BelowMax b.toInt cs) :
    (∃ log a, calls (.new id b) cs = .ok (log,a) ∧
      (∀ s ∈ a.history.states, min 0 b.toInt ≤ s.balance.toInt) ∧
      a.history.states.Pairwise fun s t => 0 ≤ s.balance.toInt → 0 ≤ t.balance.toInt) ∧
    ∀ k amount t, cs[k]? = some (.debit amount t) →
      ∃ log a r a', calls (.new id b) (cs.take k) = .ok (log,a) ∧
        a.debit amount t = .ok (r,a') ∧
        (r = .ok () → 0 ≤ balanceOf a' ∧ balanceOf a' = balanceOf a-amount.toInt) := by
  obtain ⟨log, a, hrun, _, hs⟩ := new_played id hmax
  refine ⟨⟨log, a, hrun, ?_, ?_⟩, fun k amount t _ => debit_at hmax id k amount t⟩
  · intro s hs'
    have hmem : stampOf s ∈ stampsOf a := List.mem_map_of_mem hs'
    rw [hs] at hmem
    obtain ⟨u, hu, hval⟩ := value_recorded hmem
    change s.balance.toInt = u.value at hval
    rw [hval]
    rcases List.mem_cons.mp hu with rfl | hu
    · exact min_le_right _ _
    · exact updates_floor hu
  · have hchain := (values_iff (Q := fun v w : ℤ => 0 ≤ v → 0 ≤ w) (fun _ h => h)
      ⟨0,b.toInt⟩ _).mpr (updates_nonneg 0 b.toInt (requests cs))
    rw [← hs] at hchain
    have htrans : IsTrans BalanceState fun s t => 0 ≤ s.balance.toInt → 0 ≤ t.balance.toInt :=
      ⟨fun _ _ _ h₁ h₂ h => h₂ (h₁ h)⟩
    exact List.isChain_iff_pairwise.mp (stamped_chain hchain)

theorem no_overdraft_three_calls :
    ∃ log a, calls (.new 1 100) threeCalls = .ok (log,a) ∧
      (∀ s ∈ a.history.states, min 0 100 ≤ s.balance.toInt) ∧
      a.history.states.Pairwise fun s t => 0 ≤ s.balance.toInt → 0 ≤ t.balance.toInt :=
  (no_overdraft 1 100 threeCalls (by decide)).1

end CrabKeeper.AccountHistory
