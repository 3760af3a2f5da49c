import CrabKeeper.Foundation.Overdraft

/-!
# What a timeline has recorded

The entries of a timeline at which its value changes, each with its time and the
difference. Filled ticks leave no trace in them, so a timeline of balances gives
back the requests that were granted.
-/

set_option autoImplicit false

namespace Foundation.Changes
open Foundation.Timeline Foundation.Overdraft Foundation.DoubleEntry

variable {B : Type*} [AddCommGroup B] [DecidableEq B]

def changes (v : B) : List (Stamp B) → List (Stamp B)
  | [] => []
  | x::xs =>
    if x.value = v then changes v xs else ⟨x.time,x.value-v⟩ :: changes x.value xs

def trail : List (Stamp B) → List (Stamp B)
  | [] => []
  | y::xs => changes y.value xs

theorem changes_append (v : B) (xs ys : List (Stamp B)) :
    changes v (xs ++ ys) =
      changes v xs ++ changes (((xs.getLast?).map (·.value)).getD v) ys := by
  induction xs generalizing v with
  | nil => rfl
  | cons x xs ih =>
    rw [List.cons_append, changes, changes, ih, ih, List.getLast?_cons]
    cases xs.getLast? with
    | none =>
      split_ifs with h
      · simp [h]
      · rfl
    | some z => split_ifs <;> rfl

theorem changes_fill (v : B) (s t : ℕ) : changes v (fill v s t) = [] := by
  unfold fill
  induction List.range' s (t-s) with
  | nil => rfl
  | cons k ks ih =>
    rw [List.map_cons, changes, if_pos rfl]
    exact ih

theorem changes_growth (y : Stamp B) (xs : List (Stamp B)) :
    changes y.value (growth y xs) = changes y.value xs := by
  induction xs generalizing y with
  | nil => rfl
  | cons x xs ih =>
    have hlast : (((fill y.value (y.time+1) x.time).getLast?).map (·.value)).getD y.value =
        y.value := by
      cases hl : (fill y.value (y.time+1) x.time).getLast? with
      | none => rfl
      | some z => exact (mem_fill.mp (List.mem_of_getLast? hl)).2.2
    rw [growth, changes_append, changes_fill, List.nil_append, hlast, changes, changes]
    split_ifs with h
    · rw [← h]
      exact ih x
    · rw [ih x]

theorem trail_timeline (y : Stamp B) (xs : List (Stamp B)) :
    trail (timeline y xs) = changes y.value xs := changes_growth y xs

theorem trail_record {l : List (Stamp B)} {z u : Stamp B} (hz : l.getLast? = some z)
    (hne : u.value ≠ z.value) :
    trail (l ++ growth z [u]) = trail l ++ [⟨u.time,u.value-z.value⟩] := by
  cases l with
  | nil => cases hz
  | cons y xs =>
    have hlast : ((xs.getLast?).map (·.value)).getD y.value = z.value := by
      rw [List.getLast?_cons, Option.some_inj] at hz
      rw [← hz]
      cases xs.getLast? <;> rfl
    rw [List.cons_append, trail, changes_append, hlast, changes_growth, changes, if_neg hne]
    rfl

def Request.movement (r : Request B) : Stamp B := ⟨r.time,r.signed⟩

variable [LinearOrder B] [IsOrderedAddMonoid B]

omit [DecidableEq B] [IsOrderedAddMonoid B] in
theorem signed_ne_zero {b : B} {r : Request B} (h : Grants b r) : r.signed ≠ 0 := by
  have hpos := h.1
  unfold Request.signed
  cases r.side
  · simpa using hpos.ne'
  · exact hpos.ne'

/-- The changes of the balance are the granted requests. -/
theorem changes_updates (b : B) (rs : List (Request B)) :
    changes b (updates b rs) = (granted b rs).map Request.movement := by
  induction rs generalizing b with
  | nil => rfl
  | cons r rs ih =>
    by_cases h : Grants b r
    · have hne : b+r.signed ≠ b := by simpa using signed_ne_zero h
      rw [updates_cons_of_grants h, granted_cons_of_grants h, changes, if_neg hne, ih,
        List.map_cons, add_sub_cancel_left]
      rfl
    · rw [updates_cons_of_refused h, granted_cons_of_refused h]
      exact ih b

end Foundation.Changes
