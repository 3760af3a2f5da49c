import CrabKeeper.ChannelFraming
import CrabKeeper.AccountHistory

/-!
# Which reports reach the parent

A child reports its history in one message. The history's count byte holds the
number of its snapshots up to 255; a run of calls whose timestamps stay below
`MAX_T` can leave more, one for each tick and one more for each call on the
tick of the call before.
-/

set_option autoImplicit false

namespace CrabKeeper.ReportCapacity
open Foundation.Machine Foundation.Timeline Foundation.Overdraft
open CrabKeeper.BankTypes CrabKeeper.BankAccount CrabKeeper.AccountCalls
open CrabKeeper.AccountHistory CrabKeeper.MessageCodec CrabKeeper.ChannelFraming

def maxT : ℕ := 256

def report (a : BranchAccount) : Message := .balanceHistory a.history.toBytes

/-- The parent that receives the report decodes the child's history. -/
def ReportIntact (a : BranchAccount) : Prop :=
  ∃ payload t, recvMessage ⟨(sendMessage .fresh (report a)).2.output, [], none⟩ =
      .ok (.ok (.balanceHistory payload), t) ∧
    BalanceHistory.fromBytes payload = .ok (.ok a.history)

theorem recv_report {a : BranchAccount} (h : a.history.states.length ≤ 255) :
    ∃ t, recvMessage ⟨(sendMessage .fresh (report a)).2.output, [], none⟩ =
      .ok (.ok (report a), t) := by
  have hfits : Message.Fits (report a) := by
    have hlen := history_toBytes_length a.history
    rw [fits_iff]
    show a.history.toBytes.length+10 ≤ 2^63
    omega
  have hout : (sendMessage .fresh (report a)).2.output = frame (report a) := by
    rw [send_frame .fresh (report a) rfl]
    rfl
  rw [hout]
  exact ⟨_, recv_frame _ (report a) [] hfits (List.append_nil _).symm⟩

theorem reportIntact_iff (a : BranchAccount) :
    ReportIntact a ↔ a.history.states.length ≤ 255 := by
  constructor
  · rintro ⟨payload, t, _, hd⟩
    exact (history_fromBytes_eq_ok.mp hd).1
  · intro h
    obtain ⟨t, ht⟩ := recv_report h
    exact ⟨a.history.toBytes, t, ht, history_fromBytes_toBytes a.history h⟩

/-- How many snapshots calls in order leave behind, from the times of those that
are granted: one for each tick up to the last, and one more for each that falls
on the tick of the one before. -/
def snapshotCount (b : ℤ) (cs : List Call) : ℕ :=
  let times := (granted b (requests cs)).map (·.time)
  times.getLastD 0+1+repeats 0 times

theorem states_length {b : Balance} {cs : List Call} {a : BranchAccount}
    (hcs : InOrder cs)
    (hs : stampsOf a = timeline ⟨0,b.toInt⟩ (updates b.toInt (requests cs))) :
    a.history.states.length = snapshotCount b.toInt cs := by
  have hord := (updates_in_order_iff b.toInt (requests cs)).mpr
    (hcs.sublist (granted_sublist b.toInt (requests cs)))
  have hlen := timeline_length hord
  rw [← hs, stampsOf, List.length_map, updates_times] at hlen
  exact hlen

/-- After calls in order the report reaches the parent intact exactly when the
snapshots are at most 255. -/
theorem report_intact_iff (id : AccountId) (b : Balance) (cs : List Call)
    (hmax : BelowMax b.toInt cs) (hcs : InOrder cs) :
    ∃ log a, calls (.new id b) cs = .ok (log,a) ∧
      (ReportIntact a ↔ snapshotCount b.toInt cs ≤ 255) := by
  obtain ⟨log, a, hrun, _, hs⟩ := new_played id hmax
  refine ⟨log, a, hrun, ?_⟩
  rw [reportIntact_iff, states_length hcs hs]

theorem report_intact_early :
    ∃ log a, calls (.new 1 100) threeCalls = .ok (log,a) ∧ ReportIntact a := by
  obtain ⟨log, a, hrun, hiff⟩ := report_intact_iff 1 100 threeCalls (by decide) (by decide)
  exact ⟨log, a, hrun, hiff.mpr (by decide)⟩

def lastTick : List Call := [.credit 1 255]

theorem report_refused_last_tick :
    BelowMax 100 lastTick ∧ InOrder lastTick ∧ (∀ c ∈ lastTick, c.time.toNat < maxT) ∧
      ∃ log a, calls (.new 1 100) lastTick = .ok (log,a) ∧ ¬ ReportIntact a := by
  have hmax : BelowMax (Int64.toInt 100) lastTick := by decide
  have hcs : InOrder lastTick := by decide
  obtain ⟨log, a, hrun, _, hs⟩ := new_played 1 hmax
  refine ⟨hmax, hcs, by decide, log, a, hrun, ?_⟩
  rw [reportIntact_iff, states_length hcs hs]
  decide

def onLastTick (a : BranchAccount) : List Call → ℕ
  | [] => 0
  | c::cs =>
    match call a c with
    | .ok (.ok _, a') => (if (lastOf a).map (·.time) = some c.time then 1 else 0)+onLastTick a' cs
    | .ok (.error _, a') => onLastTick a' cs
    | .error _ => 0

theorem on_last_tick_iff {a : BranchAccount} (ha : WellFormed a) (c : Call) :
    (lastOf a).map (·.time) = some c.time ↔ c.request.time = (lastStamp a).time := by
  obtain ⟨s, _, hlast, _⟩ := lastState_of_wellFormed ha
  rw [lastStamp, hlast, request_time]
  show some s.time = some c.time ↔ c.time.toNat = s.time.toNat
  rw [Option.some_inj, UInt64.toNat_inj]
  exact eq_comm

theorem onLastTick_eq {a : BranchAccount} (ha : WellFormed a) {cs : List Call}
    (hmax : BelowMax (balanceOf a) cs) :
    onLastTick a cs =
      repeats (lastStamp a).time ((granted (balanceOf a) (requests cs)).map (·.time)) := by
  induction cs generalizing a with
  | nil => rfl
  | cons c cs ih =>
    rw [requests_cons]
    rcases call_below_max ha hmax with ⟨e, he, hr, hrest⟩ | ⟨a₁, hc, hg, hw, hrest⟩
    · rw [granted_cons_of_refused hr, onLastTick, he]
      exact ih ha hrest
    · have hcount := ih hw.wellFormed hrest
      rw [hw.last, hw.balanceOf] at hcount
      rw [granted_cons_of_grants hg, List.map_cons, repeats, onLastTick, hc]
      simp only [on_last_tick_iff ha c, hcount]

def lastAccepted (log : List (Call × Outcome)) : ℕ :=
  (((accepted log).map Call.time).getLastD 0).toNat

/-- The length of a history, and the reports that the codec can carry. -/
theorem history_length (id : AccountId) (b : Balance) (cs : List Call)
    (hmax : BelowMax b.toInt cs) (hcs : InOrder cs) :
    ∃ log a, calls (.new id b) cs = .ok (log,a) ∧ log.map Prod.fst = cs ∧
      a.history.states.length = lastAccepted log+1+onLastTick (.new id b) cs ∧
      (BalanceHistory.fromBytes a.history.toBytes = .ok (.ok a.history) ↔
        lastAccepted log+onLastTick (.new id b) cs ≤ 254) := by
  obtain ⟨log, a, hrun, hp, hs⟩ := new_played id hmax
  have hk : onLastTick (.new id b) cs =
      repeats 0 ((granted b.toInt (requests cs)).map (·.time)) :=
    onLastTick_eq (new_wellFormed id b) hmax
  have hlast : ((granted b.toInt (requests cs)).map (·.time)).getLastD 0 = lastAccepted log := by
    rw [accepted_times hp]
    exact List.getLastD_map (f := UInt64.toNat) (l := (accepted log).map Call.time) (a := 0)
  have hlen : a.history.states.length = lastAccepted log+1+onLastTick (.new id b) cs := by
    rw [states_length hcs hs, hk, ← hlast]
    rfl
  refine ⟨log, a, hrun, hp.logged, hlen, ?_⟩
  rw [history_fromBytes_eq_ok, and_iff_left rfl]
  omega

theorem history_length_early :
    ∃ log a, calls (.new 1 100) threeCalls = .ok (log,a) ∧
      a.history.states.length = lastAccepted log+1+onLastTick (.new 1 100) threeCalls := by
  obtain ⟨log, a, hrun, _, hlen, _⟩ := history_length 1 100 threeCalls (by decide) (by decide)
  exact ⟨log, a, hrun, hlen⟩

end CrabKeeper.ReportCapacity
