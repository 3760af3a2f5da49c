import CrabKeeper.Clocks
import CrabKeeper.Foundation.Sessions

/-!
# Runs of a Lamport clock

A list of increments and updates on one clock. The clock reads what an exact
clock reads while that fits `u64`; the exact clock only moves forward, and the
reading it ends at is bounded by the received times and the calls that follow
them.
-/

set_option autoImplicit false

namespace CrabKeeper.ClockRuns
open Foundation.Machine Foundation.Sessions
open CrabKeeper.Clocks

inductive ClockCall where
  | increment
  | update (receivedTime : UInt64)
  deriving DecidableEq, Repr

def tick (c : LamportClock) : ClockCall → Checked (UInt64 × LamportClock)
  | .increment => c.increment
  | .update receivedTime => c.update receivedTime

def ClockCall.received : ClockCall → ℕ
  | .increment => 0
  | .update receivedTime => receivedTime.toNat

def reading (t : ℕ) : List ClockCall → ℕ
  | [] => t
  | c::cs => reading (max t c.received+1) cs

theorem tick_eq_ok {c c' : LamportClock} {k : ClockCall} {v : UInt64} :
    tick c k = .ok (v,c') ↔ v.toNat = max c.time.toNat k.received+1 ∧ c'.time = v := by
  cases k with
  | increment =>
    show c.increment = _ ↔ v.toNat = max c.time.toNat 0+1 ∧ _
    rw [increment_eq_ok, max_eq_left (Nat.zero_le _)]
  | update m => exact update_eq_ok

theorem reading_le (t : ℕ) (cs : List ClockCall) : t+cs.length ≤ reading t cs := by
  induction cs generalizing t with
  | nil => exact le_rfl
  | cons c cs ih =>
    have := ih (max t c.received+1)
    have := le_max_left t c.received
    rw [reading, List.length_cons]
    omega

theorem tick_of_lt (c : LamportClock) {k : ClockCall}
    (h : max c.time.toNat k.received+1 < 2^64) :
    ∃ v c', tick c k = .ok (v,c') ∧ c'.time.toNat = max c.time.toNat k.received+1 := by
  have hv : (UInt64.ofNat (max c.time.toNat k.received+1)).toNat =
      max c.time.toNat k.received+1 := by
    rw [UInt64.toNat_ofNat', Nat.mod_eq_of_lt h]
  exact ⟨_, ⟨_⟩, tick_eq_ok.mpr ⟨hv, rfl⟩, hv⟩

theorem clock_returns_iff (c : LamportClock) (cs : List ClockCall) :
    (∃ log c', session tick c cs = .ok (log,c')) ↔ reading c.time.toNat cs < 2^64 := by
  induction cs generalizing c with
  | nil => exact iff_of_true ⟨[], c, rfl⟩ (UInt64.toNat_lt c.time)
  | cons k cs ih =>
    constructor
    · rintro ⟨log, c', h⟩
      obtain ⟨v, d, l, hk, hl, rfl⟩ := session_cons_eq_ok.mp h
      obtain ⟨hv, rfl⟩ := tick_eq_ok.mp hk
      rw [reading, ← hv]
      exact (ih d).mp ⟨l, c', hl⟩
    · intro h
      have hle := reading_le (max c.time.toNat k.received+1) cs
      rw [reading] at h
      obtain ⟨v, d, hk, hd⟩ := tick_of_lt c (k := k) (by omega)
      obtain ⟨l, c', hl⟩ := (ih d).mpr (by rwa [hd])
      exact ⟨_, c', session_cons_eq_ok.mpr ⟨v, d, l, hk, hl, rfl⟩⟩

theorem clock_rises {c c' : LamportClock} {cs : List ClockCall}
    {log : List (ClockCall × UInt64)} (h : session tick c cs = .ok (log,c')) :
    (∀ p ∈ log, c.time < p.2 ∧ p.1.received < p.2.toNat) ∧
      (log.map Prod.snd).Pairwise (· < ·) := by
  induction cs generalizing c log with
  | nil =>
    obtain ⟨rfl, rfl⟩ := session_nil_eq_ok.mp h
    exact ⟨fun p hp => absurd hp List.not_mem_nil, List.Pairwise.nil⟩
  | cons k cs ih =>
    obtain ⟨v, d, l, hk, hl, rfl⟩ := session_cons_eq_ok.mp h
    obtain ⟨hv, hd⟩ := tick_eq_ok.mp hk
    obtain ⟨habove, hrise⟩ := ih hl
    rw [hd] at habove
    have hlt : c.time < v := by
      rw [UInt64.lt_iff_toNat_lt]
      omega
    constructor
    · intro p hp
      rcases List.mem_cons.mp hp with rfl | hp
      · exact ⟨hlt, by simp only; omega⟩
      · exact ⟨UInt64.lt_trans hlt (habove p hp).1, (habove p hp).2⟩
    · rw [List.map_cons, List.pairwise_cons]
      refine ⟨fun w hw => ?_, hrise⟩
      obtain ⟨p, hp, rfl⟩ := List.mem_map.mp hw
      exact (habove p hp).1

theorem reading_lt_iff (t N : ℕ) (cs : List ClockCall) :
    reading t cs < N ↔
      t+cs.length < N ∧ ∀ i k, cs[i]? = some k → k.received+(cs.length-i) < N := by
  induction cs generalizing t with
  | nil => exact (and_iff_left fun i k h => by cases h).symm
  | cons c cs ih =>
    rw [reading, ih, List.length_cons]
    constructor
    · rintro ⟨hfirst, hrest⟩
      have ht := le_max_left t c.received
      have hc := le_max_right t c.received
      refine ⟨by omega, fun i k hk => ?_⟩
      cases i with
      | zero =>
        obtain rfl := Option.some.inj hk
        omega
      | succ i =>
        have := hrest i k hk
        omega
    · rintro ⟨ht, hall⟩
      have hc := hall 0 c rfl
      refine ⟨?_, fun i k hk => ?_⟩
      · rcases max_choice t c.received with h | h <;> omega
      · have := hall (i+1) k hk
        omega

/-- No call overflows, each value is above those before it, and that of an
update is above the time it received. -/
def MovesForward (cs : List ClockCall) : Prop :=
  ∃ log c, session tick .new cs = .ok (log,c) ∧ (log.map Prod.snd).Pairwise (· < ·) ∧
    ∀ m v, (ClockCall.update m, v) ∈ log → m < v

/-- No received time comes to `2^64` when the calls from its own on are added. -/
def InRange (cs : List ClockCall) : Prop :=
  ∀ i k, cs[i]? = some k → k.received+(cs.length-i) < 2^64

theorem inRange_iff (cs : List ClockCall) : InRange cs ↔ reading 0 cs < 2^64 := by
  rw [reading_lt_iff, InRange, Nat.zero_add]
  refine (and_iff_right_of_imp fun h => ?_).symm
  cases cs with
  | nil => exact Nat.two_pow_pos 64
  | cons c cs =>
    have := h 0 c rfl
    omega

/-- A new clock moves forward exactly on the runs in range. -/
theorem clock_moves_forward_iff (cs : List ClockCall) : MovesForward cs ↔ InRange cs := by
  rw [inRange_iff]
  constructor
  · rintro ⟨log, c, h, _⟩
    exact (clock_returns_iff .new cs).mp ⟨log, c, h⟩
  · intro h
    obtain ⟨log, c, hrun⟩ := (clock_returns_iff .new cs).mpr h
    obtain ⟨habove, hrise⟩ := clock_rises hrun
    refine ⟨log, c, hrun, hrise, fun m v hm => ?_⟩
    exact UInt64.lt_iff_toNat_lt.mpr (habove _ hm).2

def largestReceived : List ClockCall := [.update 18446744073709551615]

theorem clock_stops_at_largest :
    session tick .new largestReceived = .error .overflow ∧ ¬ MovesForward largestReceived := by
  have h : session tick .new largestReceived = .error .overflow := by decide
  refine ⟨h, ?_⟩
  rintro ⟨log, c, hrun, _⟩
  cases h.symm.trans hrun

example : session tick .new [.increment, .update 7, .update 3] =
    .ok ([(.increment, 1), (.update 7, 8), (.update 3, 9)], ⟨9⟩) := by decide

end CrabKeeper.ClockRuns
