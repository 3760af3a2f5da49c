import CrabKeeper.Foundation.DoubleEntry

/-!
# Settling transfers one after the other

A teller takes transfers in order. One that names an account nobody can have,
whose source is unknown or does not cover a positive amount is refused, and
nothing after it is looked at. One whose destination turns out to be unknown has
left its source by then: the amount is lost.
-/

set_option autoImplicit false

namespace Foundation.Settlement
open Foundation.DoubleEntry

variable {α B ι : Type*} [DecidableEq α]

inductive Verdict where
  | settled
  | refused (k : ℕ)
  | lost (k : ℕ)
  deriving DecidableEq, Repr

/-- The names that can be written on a transfer, and those with an account. -/
structure Register (α : Type*) where
  named : α → Bool
  known : α → Bool

def take [Sub B] (bal : α → B) (t : Transfer α B) : α → B :=
  Function.update bal t.src (bal t.src-t.amount)

def give [Add B] (bal : α → B) (t : Transfer α B) : α → B :=
  Function.update bal t.dst (bal t.dst+t.amount)

variable [AddCommGroup B] [LinearOrder B] (R : Register α)

structure Accepts (bal : α → B) (t : Transfer α B) : Prop where
  namedSrc : R.named t.src = true
  namedDst : R.named t.dst = true
  knownSrc : R.known t.src = true
  positive : 0 < t.amount
  covered : t.amount ≤ bal t.src

omit [DecidableEq α] in
theorem accepts_iff (bal : α → B) (t : Transfer α B) : Accepts R bal t ↔
    R.named t.src = true ∧ R.named t.dst = true ∧ R.known t.src = true ∧ 0 < t.amount ∧
      t.amount ≤ bal t.src :=
  ⟨fun ⟨h1, h2, h3, h4, h5⟩ => ⟨h1, h2, h3, h4, h5⟩,
    fun ⟨h1, h2, h3, h4, h5⟩ => ⟨h1, h2, h3, h4, h5⟩⟩

instance (bal : α → B) (t : Transfer α B) : Decidable (Accepts R bal t) :=
  decidable_of_iff _ (accepts_iff R bal t).symm

def settle (bal : α → B) : ℕ → List (Transfer α B) → (α → B) × Verdict
  | _, [] => (bal, .settled)
  | k, t::ts =>
    if Accepts R bal t then
      if R.known t.dst then settle (give (take bal t) t) (k+1) ts else (take bal t, .lost k)
    else (bal, .refused k)

variable {R} {bal : α → B} {t : Transfer α B}

theorem settle_cons (bal : α → B) (k : ℕ) (t : Transfer α B) (ts : List (Transfer α B)) :
    settle R bal k (t::ts) = if (settle R bal k [t]).2 = .settled then
      settle R (settle R bal k [t]).1 (k+1) ts else settle R bal k [t] := by
  simp only [settle]
  split_ifs <;> simp_all

theorem settle_induction {Q : (α → B) → Prop} {k : ℕ} {ts : List (Transfer α B)} (h0 : Q bal)
    (htake : ∀ bal t, Q bal → t ∈ ts → Accepts R bal t → R.known t.dst = false → Q (take bal t))
    (hmove : ∀ bal t, Q bal → t ∈ ts → Accepts R bal t → R.known t.dst = true →
      Q (give (take bal t) t)) : Q (settle R bal k ts).1 := by
  induction ts generalizing bal k with
  | nil => exact h0
  | cons t ts ih =>
    unfold settle
    split_ifs with ha hd
    · exact ih (hmove bal t h0 (by simp) ha hd)
        (fun bal u hq hu => htake bal u hq (by simp [hu]))
        fun bal u hq hu => hmove bal u hq (by simp [hu])
    · exact htake bal t h0 (by simp) ha (by simpa using hd)
    · exact h0

section Order

variable [IsOrderedAddMonoid B]

theorem take_nonneg (h : ∀ a, 0 ≤ bal a) (ha : Accepts R bal t) (a : α) : 0 ≤ take bal t a := by
  by_cases hs : a = t.src
  · rw [hs, take, Function.update_self]
    exact sub_nonneg.mpr ha.covered
  · rw [take, Function.update_of_ne hs]
    exact h a

theorem give_nonneg (h : ∀ a, 0 ≤ bal a) (ht : 0 < t.amount) (a : α) : 0 ≤ give bal t a := by
  by_cases hd : a = t.dst
  · rw [hd, give, Function.update_self]
    exact add_nonneg (h _) ht.le
  · rw [give, Function.update_of_ne hd]
    exact h a

theorem settle_nonneg (h : ∀ a, 0 ≤ bal a) (k : ℕ) (ts : List (Transfer α B)) (a : α) :
    0 ≤ (settle R bal k ts).1 a := by
  refine settle_induction (Q := fun bal => ∀ a, 0 ≤ bal a) h ?_ ?_ a
  · exact fun bal t hq _ ha _ => take_nonneg hq ha
  · exact fun bal t hq _ ha _ => give_nonneg (take_nonneg hq ha) ha.positive

end Order

variable [Fintype ι] {name : ι → α}

def total (name : ι → α) (bal : α → B) : B := ∑ i, bal (name i)

omit [LinearOrder B] in
theorem total_update (hname : Function.Injective name) {i : ι} {a : α} (hi : name i = a) (v : B) :
    total name (Function.update bal a v) = total name bal-bal a+v := by
  classical
  subst hi
  have hterm : ∀ j, Function.update bal (name i) v (name j) =
      Function.update (fun j => bal (name j)) i v j := by
    intro j
    by_cases hj : j = i
    · subst hj
      simp
    · rw [Function.update_of_ne hj, Function.update_of_ne (fun h => hj (hname h))]
  simp only [total, hterm]
  rw [Finset.sum_update_of_mem (Finset.mem_univ i), Finset.sum_eq_add_sum_sdiff_singleton_of_mem
    (Finset.mem_univ i) fun j => bal (name j)]
  abel

omit [LinearOrder B] in
theorem total_take (hname : Function.Injective name) {i : ι} (hi : name i = t.src) :
    total name (take bal t) = total name bal-t.amount := by
  rw [take, total_update hname hi]
  abel

omit [LinearOrder B] in
theorem total_give (hname : Function.Injective name) {i : ι} (hi : name i = t.dst) :
    total name (give bal t) = total name bal+t.amount := by
  rw [give, total_update hname hi]
  abel

theorem settle_total_le [IsOrderedAddMonoid B] (hname : Function.Injective name)
    (hknown : ∀ a, R.known a = true → ∃ i, name i = a) (bal : α → B) (k : ℕ)
    (ts : List (Transfer α B)) : total name (settle R bal k ts).1 ≤ total name bal := by
  refine settle_induction (Q := fun bal' => total name bal' ≤ total name bal) le_rfl ?_ ?_
  · intro bal' t hle _ ha _
    obtain ⟨i, hi⟩ := hknown _ ha.knownSrc
    rw [total_take hname hi]
    exact (sub_le_self _ ha.positive.le).trans hle
  · intro bal' t hle _ ha hd
    obtain ⟨i, hi⟩ := hknown _ ha.knownSrc
    obtain ⟨j, hj⟩ := hknown _ hd
    rw [total_give hname hj, total_take hname hi, sub_add_cancel]
    exact hle

end Foundation.Settlement
