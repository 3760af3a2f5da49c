import CrabKeeper.BankTypes

/-!
# The physical and the Lamport clock

Both are counters of a `u64`. Every increment is checked, so a clock at the
largest value panics instead of starting again from zero.
-/

set_option autoImplicit false

namespace CrabKeeper.Clocks
open Foundation.Machine
open CrabKeeper.BankTypes

structure PhysicalClock where
  current : Timestamp
  deriving DecidableEq, Repr

def PhysicalClock.new : PhysicalClock := ⟨0⟩

def PhysicalClock.now (c : PhysicalClock) : Checked (Timestamp × PhysicalClock) := do
  let old := c.current
  let next ← addU64 c.current 1
  return (old, ⟨next⟩)

structure LamportClock where
  time : UInt64
  deriving DecidableEq, Repr

def LamportClock.new : LamportClock := ⟨0⟩

def LamportClock.increment (c : LamportClock) : Checked (UInt64 × LamportClock) := do
  let time ← addU64 c.time 1
  return (time, ⟨time⟩)

def LamportClock.update (c : LamportClock) (receivedTime : UInt64) :
    Checked (UInt64 × LamportClock) := do
  let time ← addU64 (max c.time receivedTime) 1
  return (time, ⟨time⟩)

def LamportClock.get (c : LamportClock) : UInt64 := c.time

theorem addU64_one {t : UInt64} (h : t.toNat+1 < 2^64) :
    ∃ u, addU64 t 1 = .ok u ∧ u.toNat = t.toNat+1 := by
  have hadd : addU64 t 1 = .ok (t+1) := if_pos (by rwa [UInt64.toNat_one])
  exact ⟨t+1, hadd, addU64_eq_ok.mp hadd⟩

theorem increment_eq_ok {c c' : LamportClock} {v : UInt64} :
    c.increment = .ok (v,c') ↔ v.toNat = c.time.toNat+1 ∧ c'.time = v := by
  rw [LamportClock.increment, bind_eq_ok]
  constructor
  · rintro ⟨t, ht, heq⟩
    obtain ⟨rfl, rfl⟩ := Prod.mk.inj (Except.ok.inj heq)
    exact ⟨addU64_eq_ok.mp ht, rfl⟩
  · rintro ⟨hv, rfl⟩
    exact ⟨c'.time, addU64_eq_ok.mpr hv, rfl⟩

theorem toNat_max (a b : UInt64) : (max a b).toNat = max a.toNat b.toNat := by
  change (if a ≤ b then b else a).toNat = _
  split_ifs with h <;> rw [UInt64.le_iff_toNat_le] at h <;> omega

theorem update_eq_ok {c c' : LamportClock} {received v : UInt64} :
    c.update received = .ok (v,c') ↔
      v.toNat = max c.time.toNat received.toNat+1 ∧ c'.time = v := by
  rw [LamportClock.update, bind_eq_ok]
  constructor
  · rintro ⟨t, ht, heq⟩
    obtain ⟨rfl, rfl⟩ := Prod.mk.inj (Except.ok.inj heq)
    rw [← toNat_max]
    exact ⟨addU64_eq_ok.mp ht, rfl⟩
  · rintro ⟨hv, rfl⟩
    rw [← toNat_max] at hv
    exact ⟨c'.time, addU64_eq_ok.mpr hv, rfl⟩

theorem increment_of_lt {c : LamportClock} (h : c.time.toNat+1 < 2^64) :
    ∃ v c', c.increment = .ok (v,c') := by
  obtain ⟨v, hv, _⟩ := addU64_one h
  exact ⟨v, ⟨v⟩, by rw [LamportClock.increment, hv]; rfl⟩

theorem update_of_lt {c : LamportClock} {received : UInt64} (hc : c.time.toNat+1 < 2^64)
    (hr : received.toNat+1 < 2^64) : ∃ v c', c.update received = .ok (v,c') := by
  have hmax : (max c.time received).toNat+1 < 2^64 := by
    rw [toNat_max]
    omega
  obtain ⟨v, hv, _⟩ := addU64_one hmax
  exact ⟨v, ⟨v⟩, by rw [LamportClock.update, hv]; rfl⟩

end CrabKeeper.Clocks
