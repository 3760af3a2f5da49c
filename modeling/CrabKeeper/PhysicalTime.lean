import CrabKeeper.Foundation.AtomicObject
import CrabKeeper.BankTypes

/-!
# The global physical clock

One counter serves all threads of the process. `fetch_add` is indivisible and,
unlike the increment of a local clock, starts again from zero after the largest
value.
-/

set_option autoImplicit false

namespace CrabKeeper.PhysicalTime
open Foundation.AtomicObject
open CrabKeeper.BankTypes

/-- `GLOBAL_CLOCK.fetch_add(1, Ordering::SeqCst)`. -/
def getPhysicalTime (globalClock : UInt64) : Timestamp × UInt64 :=
  (globalClock, globalClock+1)

theorem stateAt_toNat (k : ℕ) : (stateAt getPhysicalTime 0 k).toNat = k % 2^64 := by
  induction k with
  | zero => rfl
  | succ k ih =>
    rw [stateAt_succ]
    show (stateAt getPhysicalTime 0 k+1).toNat = _
    rw [UInt64.toNat_add, ih, UInt64.toNat_one, Nat.mod_add_mod]

variable {τ : Type} [DecidableEq τ] {es : List (Event τ Timestamp)} {c : UInt64}
  {st : τ → Status Timestamp} {p : τ} {i f r : ℕ} {v : Timestamp}

theorem time_eq (h : Executes getPhysicalTime 0 es c st) (hc : Call es p i f r v) :
    v.toNat = rank es f % 2^64 := by
  obtain ⟨j, g, hc', hv⟩ := (executes_sound h).calls r p v hc.responded
  rw [hc.effect_eq hc', hv]
  exact stateAt_toNat _

/-- Every response ends a call that took effect in between and returns how many
took effect before it. Up to `2^64` calls, no two return the same time, and one
that responded before another was invoked returns the smaller time. -/
theorem physical_time_shared (h : Executes getPhysicalTime 0 es c st) :
    (∀ r p v, es[r]? = some (.respond p v) →
      ∃ i f, Call es p i f r v ∧ v.toNat = rank es f % 2^64) ∧
    (es.countP Event.isEffect ≤ 2^64 →
      ∀ p i f r v, Call es p i f r v → ∀ q j g u w, Call es q j g u w →
        (r ≠ u → v ≠ w) ∧ (r < j → v < w)) := by
  refine ⟨fun r p v hr => ?_, fun hcount p i f r v hc q j g u w hd => ?_⟩
  · obtain ⟨i, f, hc, _⟩ := (executes_sound h).calls r p v hr
    exact ⟨i, f, hc, time_eq h hc⟩
  · have hv : v.toNat = rank es f := by
      rw [time_eq h hc, Nat.mod_eq_of_lt]
      exact (rank_lt_count hc.effective).trans_le hcount
    have hw : w.toNat = rank es g := by
      rw [time_eq h hd, Nat.mod_eq_of_lt]
      exact (rank_lt_count hd.effective).trans_le hcount
    constructor
    · intro hne heq
      apply hc.rank_ne hd hne
      rw [← hv, ← hw, heq]
    · intro hlt
      rw [UInt64.lt_iff_toNat_lt, hv, hw]
      exact hc.rank_lt hd hlt

def overlapping : List (Event Bool Timestamp) :=
  [.invoke true, .invoke false, .effect false, .effect true, .respond true 1, .respond false 0]

theorem executes_overlapping : ∃ c st, Executes getPhysicalTime 0 overlapping c st := by
  have h₀ : Executes getPhysicalTime 0 ([] : List (Event Bool Timestamp)) 0 fun _ => .idle := .start
  have h₁ := h₀.invoke (p := true) rfl
  have h₂ := h₁.invoke (p := false) rfl
  have h₃ := h₂.effect (p := false) rfl
  have h₄ := h₃.effect (p := true) rfl
  have h₅ := h₄.respond (p := true) (v := 1) rfl
  exact ⟨_, _, h₅.respond (p := false) (v := 0) rfl⟩

theorem physical_time_shared_overlapping :
    ∃ i f, Call overlapping true i f 4 1 ∧ (1 : Timestamp).toNat = rank overlapping f % 2^64 := by
  obtain ⟨c, st, h⟩ := executes_overlapping
  exact (physical_time_shared h).1 4 true 1 rfl

end CrabKeeper.PhysicalTime
