import CrabKeeper.Foundation.DoubleEntry
import CrabKeeper.Foundation.Timeline

/-!
# Accounts without overdraft

A request to debit or credit an amount is granted if the amount is positive and
a debit is covered by the balance; a refused request changes nothing. Amounts
and balances are exact, in any ordered group.
-/

set_option autoImplicit false

namespace Foundation.Overdraft
open Foundation.DoubleEntry Foundation.Timeline

structure Request (B : Type*) where
  side : Side
  amount : B
  time : ℕ
  deriving DecidableEq, Repr

variable {B : Type*} [AddCommGroup B]

def Request.signed (r : Request B) : B :=
  match r.side with
  | .debit => -r.amount
  | .credit => r.amount

def balances (b : B) : List (Request B) → List (Stamp B)
  | [] => []
  | r::rs => ⟨r.time,b+r.signed⟩ :: balances (b+r.signed) rs

def total (side : Side) (t : ℕ) (rs : List (Request B)) : B :=
  ((rs.filter fun r => r.side = side ∧ r.time ≤ t).map (·.amount)).sum

theorem balances_times (b : B) (rs : List (Request B)) :
    (balances b rs).map (·.time) = rs.map (·.time) := by
  induction rs generalizing b with
  | nil => rfl
  | cons r rs ih => rw [balances, List.map_cons, List.map_cons, ih]

theorem total_cons_of_le (side : Side) {t : ℕ} {r : Request B} (h : r.time ≤ t)
    (rs : List (Request B)) :
    total side t (r::rs) = (if r.side = side then r.amount else 0)+total side t rs := by
  unfold total
  by_cases hs : r.side = side <;> simp [hs, h]

theorem total_late (side : Side) {t : ℕ} {rs : List (Request B)} (h : ∀ r ∈ rs, t < r.time) :
    total side t rs = 0 := by
  have hnil : rs.filter (fun r => r.side = side ∧ r.time ≤ t) = [] := by
    apply List.filter_eq_nil_iff.mpr
    intro r hr hle
    have := h r hr
    have := (of_decide_eq_true hle).2
    omega
  rw [total, hnil]
  rfl

theorem balances_late {t : ℕ} {b : B} {rs : List (Request B)} (h : ∀ r ∈ rs, t < r.time) :
    (balances b rs).filter (·.time ≤ t) = [] := by
  apply List.filter_eq_nil_iff.mpr
  intro u hu hle
  have hmem : u.time ∈ rs.map (·.time) := balances_times b rs ▸ List.mem_map_of_mem hu
  obtain ⟨r, hr, heq⟩ := List.mem_map.mp hmem
  have := h r hr
  have := of_decide_eq_true hle
  omega

theorem signed_eq (r : Request B) :
    r.signed = (if r.side = .credit then r.amount else 0)-
      (if r.side = .debit then r.amount else 0) := by
  unfold Request.signed
  cases r.side <;> simp

theorem balance_at {s t : ℕ} {b : B} {rs : List (Request B)}
    (h : (s :: rs.map (·.time)).IsChain (· ≤ ·)) (hs : s ≤ t) :
    ((⟨s,b⟩ :: balances b rs).filter (·.time ≤ t)).getLast?.map (·.value) =
      some (b+total .credit t rs-total .debit t rs) := by
  induction rs generalizing b s with
  | nil => simp [balances, hs, total]
  | cons r rs ih =>
    rw [List.map_cons, List.isChain_cons_cons] at h
    have hpair := List.isChain_iff_pairwise.mp h.2
    rw [List.filter_cons_of_pos (by simpa using hs), List.getLast?_cons, Option.map_some]
    by_cases hr : r.time ≤ t
    · have hrest := ih (b := b+r.signed) h.2 hr
      obtain ⟨z, hz, hv⟩ := Option.map_eq_some_iff.mp hrest
      rw [balances, hz, Option.getD_some, hv, total_cons_of_le _ hr, total_cons_of_le _ hr,
        signed_eq]
      congr 1
      abel
    · have hlate : ∀ u ∈ r::rs, t < u.time := by
        intro u hu
        have hle : r.time ≤ u.time := by
          rcases List.mem_cons.mp hu with rfl | hu
          · exact le_rfl
          · exact List.rel_of_pairwise_cons hpair (List.mem_map_of_mem hu)
        omega
      rw [balances_late hlate, total_late _ hlate, total_late _ hlate]
      simp

theorem balances_prefix {b : B} {rs qs : List (Request B)} (h : rs <+: qs) :
    balances b rs <+: balances b qs := by
  induction rs generalizing b qs with
  | nil => exact List.nil_prefix
  | cons r rs ih =>
    obtain ⟨q, qs, rfl⟩ := List.exists_cons_of_ne_nil (h.ne_nil (List.cons_ne_nil r rs))
    obtain ⟨rfl, hrest⟩ := List.cons_prefix_cons.mp h
    exact List.cons_prefix_cons.mpr ⟨rfl, ih hrest⟩

theorem balances_last (t : ℕ) (b : B) (rs : List (Request B)) :
    (⟨t,b⟩ :: balances b rs).getLast?.map (·.value) = some (b+(rs.map Request.signed).sum) := by
  induction rs generalizing t b with
  | nil => simp [balances]
  | cons r rs ih =>
    rw [balances, List.getLast?_cons_cons, ih, List.map_cons, List.sum_cons, add_assoc]

variable [LinearOrder B]

def Grants (b : B) (r : Request B) : Prop := 0 < r.amount ∧ (r.side = .debit → r.amount ≤ b)

instance (b : B) (r : Request B) : Decidable (Grants b r) := instDecidableAnd

/-- The requests that an account of balance `b` grants, in order. -/
def granted (b : B) : List (Request B) → List (Request B)
  | [] => []
  | r::rs => if Grants b r then r :: granted (b+r.signed) rs else granted b rs

def updates (b : B) (rs : List (Request B)) : List (Stamp B) := balances b (granted b rs)

def closing (b : B) (rs : List (Request B)) : B := b+((granted b rs).map Request.signed).sum

theorem updates_last (t : ℕ) (b : B) (rs : List (Request B)) :
    (⟨t,b⟩ :: updates b rs).getLast?.map (·.value) = some (closing b rs) :=
  balances_last t b (granted b rs)

theorem granted_cons_of_grants {b : B} {r : Request B} (h : Grants b r) (rs : List (Request B)) :
    granted b (r::rs) = r :: granted (b+r.signed) rs := if_pos h

theorem granted_cons_of_refused {b : B} {r : Request B} (h : ¬ Grants b r)
    (rs : List (Request B)) : granted b (r::rs) = granted b rs := if_neg h

theorem updates_cons_of_grants {b : B} {r : Request B} (h : Grants b r) (rs : List (Request B)) :
    updates b (r::rs) = ⟨r.time,b+r.signed⟩ :: updates (b+r.signed) rs := by
  rw [updates, granted_cons_of_grants h]
  rfl

theorem updates_cons_of_refused {b : B} {r : Request B} (h : ¬ Grants b r)
    (rs : List (Request B)) : updates b (r::rs) = updates b rs := by
  rw [updates, granted_cons_of_refused h]
  rfl

theorem granted_sublist (b : B) (rs : List (Request B)) : (granted b rs).Sublist rs := by
  induction rs generalizing b with
  | nil => exact List.Sublist.slnil
  | cons r rs ih =>
    by_cases h : Grants b r
    · rw [granted_cons_of_grants h]
      exact (ih (b+r.signed)).cons_cons r
    · rw [granted_cons_of_refused h]
      exact (ih b).cons r

theorem granted_take (b : B) (rs : List (Request B)) (k : ℕ) :
    granted b (rs.take k) <+: granted b rs := by
  induction rs generalizing b k with
  | nil => rw [List.take_nil]
  | cons r rs ih =>
    cases k with
    | zero => exact List.nil_prefix
    | succ k =>
      rw [List.take_succ_cons]
      by_cases h : Grants b r
      · rw [granted_cons_of_grants h, granted_cons_of_grants h]
        exact List.cons_prefix_cons.mpr ⟨rfl, ih (b+r.signed) k⟩
      · rw [granted_cons_of_refused h, granted_cons_of_refused h]
        exact ih b k

theorem updates_take (b : B) (rs : List (Request B)) (k : ℕ) :
    updates b (rs.take k) <+: updates b rs :=
  balances_prefix (granted_take b rs k)

theorem updates_times (b : B) (rs : List (Request B)) :
    (updates b rs).map (·.time) = (granted b rs).map (·.time) :=
  balances_times b (granted b rs)

theorem updates_in_order_iff (b : B) (rs : List (Request B)) :
    ((⟨0,b⟩ : Stamp B) :: updates b rs).IsChain (·.time ≤ ·.time) ↔
      (granted b rs).Pairwise (·.time ≤ ·.time) := by
  rw [isChain_times, updates_times, List.isChain_iff_pairwise, List.pairwise_cons,
    List.pairwise_map]
  exact and_iff_right fun u _ => Nat.zero_le u

/-- The requests served up to the first that is refused or that would take the
balance to `m`. -/
def served (m b : B) : List (Request B) → List (Request B)
  | [] => []
  | r::rs => if Grants b r ∧ b+r.signed < m then r :: served m (b+r.signed) rs else []

theorem served_cons {m b : B} {r : Request B} (h : Grants b r) (hm : b+r.signed < m)
    (rs : List (Request B)) : served m b (r::rs) = r :: served m (b+r.signed) rs :=
  if_pos ⟨h, hm⟩

theorem served_stop {m b : B} {r : Request B} (h : ¬ (Grants b r ∧ b+r.signed < m))
    (rs : List (Request B)) : served m b (r::rs) = [] := if_neg h

theorem served_initial (m b : B) (rs : List (Request B)) : served m b rs <+: rs := by
  induction rs generalizing b with
  | nil => exact List.prefix_rfl
  | cons r rs ih =>
    by_cases h : Grants b r ∧ b+r.signed < m
    · rw [served_cons h.1 h.2]
      exact List.cons_prefix_cons.mpr ⟨rfl, ih (b+r.signed)⟩
    · rw [served_stop h]
      exact List.nil_prefix

theorem granted_of_served {m b : B} {qs rs : List (Request B)} (h : qs <+: served m b rs) :
    granted b qs = qs ∧ ∀ u ∈ balances b qs, u.value < m := by
  induction qs generalizing b rs with
  | nil => exact ⟨rfl, fun u hu => absurd hu List.not_mem_nil⟩
  | cons q qs ih =>
    cases rs with
    | nil => cases List.prefix_nil.mp h
    | cons r rs =>
      by_cases hr : Grants b r ∧ b+r.signed < m
      · rw [served_cons hr.1 hr.2] at h
        obtain ⟨rfl, hrest⟩ := List.cons_prefix_cons.mp h
        obtain ⟨hg, hm⟩ := ih hrest
        rw [granted_cons_of_grants hr.1, hg]
        exact ⟨rfl, List.forall_mem_cons.mpr ⟨hr.2, hm⟩⟩
      · rw [served_stop hr] at h
        cases List.prefix_nil.mp h

variable [IsOrderedAddMonoid B]

theorem floor_le {b : B} {r : Request B} (h : Grants b r) : min 0 b ≤ b+r.signed := by
  obtain ⟨side, amount, time⟩ := r
  cases side with
  | debit =>
    apply min_le_of_left_le
    show 0 ≤ b+-amount
    rw [← sub_eq_add_neg]
    exact sub_nonneg.mpr (h.2 rfl)
  | credit =>
    apply min_le_of_right_le
    exact le_add_of_nonneg_right h.1.le

theorem updates_floor {b : B} {rs : List (Request B)} {u : Stamp B} (hu : u ∈ updates b rs) :
    min 0 b ≤ u.value := by
  induction rs generalizing b with
  | nil => cases hu
  | cons r rs ih =>
    by_cases h : Grants b r
    · rw [updates_cons_of_grants h] at hu
      rcases List.mem_cons.mp hu with rfl | hu
      · exact floor_le h
      · exact le_trans (le_min (min_le_left _ _) (floor_le h)) (ih hu)
    · rw [updates_cons_of_refused h] at hu
      exact ih hu

theorem updates_nonneg (t : ℕ) (b : B) (rs : List (Request B)) :
    (⟨t,b⟩ :: updates b rs).IsChain (fun u v => 0 ≤ u.value → 0 ≤ v.value) := by
  induction rs generalizing b t with
  | nil => exact List.isChain_singleton _
  | cons r rs ih =>
    by_cases h : Grants b r
    · rw [updates_cons_of_grants h]
      apply List.isChain_cons_cons.mpr
      refine ⟨fun hb => ?_, ih r.time (b+r.signed)⟩
      exact le_trans (le_min le_rfl hb) (floor_le h)
    · rw [updates_cons_of_refused h]
      exact ih t b

end Foundation.Overdraft
