import Mathlib.Tactic.Ring

/-!
# Decimal numerals of bounded integers

The digits of a numeral are folded into an accumulator that overflows as soon as
it leaves its bounds. Bounds that contain zero are left for good, so the fold
fails exactly if the value of the numeral lies outside them.
-/

set_option autoImplicit false

namespace Foundation.Numerals

def digitOf (c : Char) : Option ℤ := if c.isDigit then some ((c.toNat-48 : ℕ) : ℤ) else none

def within (lo hi v : ℤ) : Option ℤ := if lo ≤ v ∧ v ≤ hi then some v else none

/-- The accumulator is multiplied by ten before the next digit is added to it,
or, for a negative numeral, subtracted. -/
def accumulate (lo hi sign : ℤ) : ℤ → List Char → Option ℤ
  | acc, [] => some acc
  | acc, c::cs => do
    let scaled ← within lo hi (acc*10)
    let d ← digitOf c
    let next ← within lo hi (scaled+sign*d)
    accumulate lo hi sign next cs

def parse (signed : Bool) (lo hi : ℤ) (text : List Char) : Option ℤ :=
  match text with
  | [] | ['+'] | ['-'] => none
  | '+'::digits => accumulate lo hi 1 0 digits
  | '-'::digits =>
    if signed then accumulate lo hi (-1) 0 digits else accumulate lo hi 1 0 ('-'::digits)
  | digits => accumulate lo hi 1 0 digits

def decimal (v : ℤ) : List Char :=
  if v < 0 then '-'::Nat.toDigits 10 v.natAbs else Nat.toDigits 10 v.natAbs

def Digits (cs : List Char) : Prop := cs ≠ [] ∧ ∀ c ∈ cs, c.isDigit = true

def value (cs : List Char) : ℤ := Nat.ofDigitChars 10 cs 0

inductive Numeral (signed : Bool) : List Char → ℤ → Prop
  | plain (cs : List Char) : Digits cs → Numeral signed cs (value cs)
  | plus (cs : List Char) : Digits cs → Numeral signed ('+'::cs) (value cs)
  | minus (cs : List Char) : signed = true → Digits cs → Numeral signed ('-'::cs) (-value cs)

theorem within_eq_some {lo hi v w : ℤ} :
    within lo hi v = some w ↔ w = v ∧ lo ≤ v ∧ v ≤ hi := by
  unfold within
  split_ifs with h
  · simp [h, eq_comm]
  · simp [h]

theorem digitOf_eq_some {c : Char} {d : ℤ} :
    digitOf c = some d ↔ c.isDigit = true ∧ d = ((c.toNat-48 : ℕ) : ℤ) := by
  unfold digitOf
  split_ifs with h
  · simp [h, eq_comm]
  · simp [h]

theorem le_ofDigitChars (cs : List Char) (m : ℕ) : m ≤ Nat.ofDigitChars 10 cs m := by
  induction cs generalizing m with
  | nil => simp
  | cons c cs ih =>
    rw [Nat.ofDigitChars_cons]
    exact (by omega : m ≤ 10*m+(c.toNat-48)).trans (ih _)

section Bounds

variable {lo hi sign : ℤ}

theorem within_of_le (hlo : lo ≤ 0) (hhi : 0 ≤ hi) (hs : sign = 1 ∨ sign = -1) {k m : ℕ}
    (hk : k ≤ m) (hm : lo ≤ sign*m ∧ sign*m ≤ hi) : lo ≤ sign*k ∧ sign*k ≤ hi := by
  rcases hs with rfl | rfl <;> omega

theorem accumulate_eq_some (hlo : lo ≤ 0) (hhi : 0 ≤ hi) (hs : sign = 1 ∨ sign = -1)
    (cs : List Char) {m : ℕ} (hm : lo ≤ sign*m ∧ sign*m ≤ hi) {v : ℤ} :
    accumulate lo hi sign (sign*m) cs = some v ↔
      (∀ c ∈ cs, c.isDigit = true) ∧ v = sign*Nat.ofDigitChars 10 cs m ∧ lo ≤ v ∧ v ≤ hi := by
  induction cs generalizing m with
  | nil =>
    simp only [accumulate, Option.some.injEq, List.not_mem_nil, false_imp_iff, implies_true,
      true_and, Nat.ofDigitChars_nil]
    constructor
    · rintro rfl
      exact ⟨rfl, hm⟩
    · exact fun h => h.1.symm
  | cons c cs ih =>
    have hnext : sign*m*10+sign*((c.toNat-48 : ℕ) : ℤ) = sign*(10*m+(c.toNat-48) : ℕ) := by
      push_cast
      ring
    have hten : sign*m*10 = sign*(10*m : ℕ) := by
      push_cast
      ring
    rw [List.forall_mem_cons, Nat.ofDigitChars_cons]
    change _ ↔ _ ∧ v = sign*(Nat.ofDigitChars 10 cs (10*m+(c.toNat-48)) : ℕ) ∧ _
    simp only [accumulate, Option.bind_eq_bind, Option.bind_eq_some_iff, within_eq_some,
      digitOf_eq_some]
    constructor
    · rintro ⟨_, ⟨rfl, _⟩, _, ⟨hc, rfl⟩, _, ⟨rfl, hw⟩, h⟩
      rw [hnext] at h hw
      obtain ⟨hcs, hv, hb⟩ := (ih hw).mp h
      exact ⟨⟨hc, hcs⟩, hv, hb⟩
    · rintro ⟨⟨hc, hcs⟩, hv, hb⟩
      have hle := le_ofDigitChars cs (10*m+(c.toNat-48))
      have hw := within_of_le hlo hhi hs hle (hv ▸ hb)
      refine ⟨_, ⟨rfl, ?_⟩, _, ⟨hc, rfl⟩, _, ⟨rfl, hnext ▸ hw⟩, ?_⟩
      · rw [hten]
        exact within_of_le hlo hhi hs (Nat.le_add_right _ _) hw
      · rw [hnext]
        exact (ih hw).mpr ⟨hcs, hv, hb⟩

theorem accumulate_digits (hlo : lo ≤ 0) (hhi : 0 ≤ hi) (hs : sign = 1 ∨ sign = -1)
    (cs : List Char) {v : ℤ} :
    accumulate lo hi sign 0 cs = some v ↔
      (∀ c ∈ cs, c.isDigit = true) ∧ v = sign*value cs ∧ lo ≤ v ∧ v ≤ hi := by
  have := accumulate_eq_some hlo hhi hs cs (m := 0) (v := v) (by simpa using ⟨hlo, hhi⟩)
  simpa [value] using this

end Bounds

theorem numeral_plus {signed : Bool} {cs : List Char} {v : ℤ} :
    Numeral signed ('+'::cs) v ↔ Digits cs ∧ v = value cs := by
  constructor
  · intro h
    cases h with
    | plain _ hd => exact absurd (hd.2 '+' (by simp)) (by decide)
    | plus _ hd => exact ⟨hd, rfl⟩
  · rintro ⟨hd, rfl⟩
    exact .plus cs hd

theorem numeral_minus {signed : Bool} {cs : List Char} {v : ℤ} :
    Numeral signed ('-'::cs) v ↔ signed = true ∧ Digits cs ∧ v = -value cs := by
  constructor
  · intro h
    cases h with
    | plain _ hd => exact absurd (hd.2 '-' (by simp)) (by decide)
    | minus _ hs hd => exact ⟨hs, hd, rfl⟩
  · rintro ⟨hs, hd, rfl⟩
    exact .minus cs hs hd

theorem numeral_plain {signed : Bool} {c : Char} {cs : List Char} {v : ℤ} (hplus : c ≠ '+')
    (hminus : c ≠ '-') : Numeral signed (c::cs) v ↔ Digits (c::cs) ∧ v = value (c::cs) := by
  constructor
  · intro h
    cases h with
    | plain _ hd => exact ⟨hd, rfl⟩
    | plus => exact absurd rfl hplus
    | minus => exact absurd rfl hminus
  · rintro ⟨hd, rfl⟩
    exact .plain _ hd

/-- A text is parsed exactly if it is a numeral of a number within the bounds. -/
theorem parse_eq_some {signed : Bool} {lo hi : ℤ} (hlo : lo ≤ 0) (hhi : 0 ≤ hi)
    {text : List Char} {v : ℤ} :
    parse signed lo hi text = some v ↔ Numeral signed text v ∧ lo ≤ v ∧ v ≤ hi := by
  have hone := fun cs => accumulate_digits (v := v) hlo hhi (Or.inl rfl) cs
  simp only [one_mul] at hone
  unfold parse
  split
  · refine iff_of_false (by simp) fun h => ?_
    cases h.1 with
    | plain _ hd => exact hd.1 rfl
  · rw [numeral_plus]
    exact iff_of_false (by simp) fun h => h.1.1.1 rfl
  · rw [numeral_minus]
    exact iff_of_false (by simp) fun h => h.1.2.1.1 rfl
  · next cs hne =>
    have hcs : cs ≠ [] := fun h => hne (by rw [h])
    rw [numeral_plus, hone, Digits]
    tauto
  · next cs hne =>
    have hcs : cs ≠ [] := fun h => hne (by rw [h])
    rw [numeral_minus, Digits]
    split_ifs with hs
    · rw [accumulate_digits hlo hhi (Or.inr rfl), neg_one_mul]
      tauto
    · rw [hone]
      refine iff_of_false (fun h => ?_) (fun h => hs h.1.1)
      exact absurd (h.1 '-' (by simp)) (by decide)
  · next hnil _ _ hplus hminus =>
    cases text with
    | nil => exact absurd rfl hnil
    | cons c cs =>
      rw [numeral_plain (fun h => hplus cs (by rw [h])) (fun h => hminus cs (by rw [h])), hone,
        Digits]
      have hcons : c::cs ≠ [] := List.cons_ne_nil _ _
      tauto

theorem digits_toDigits (n : ℕ) : Digits (Nat.toDigits 10 n) :=
  ⟨Nat.toDigits_ne_nil, fun _ hc => Nat.isDigit_of_mem_toDigits (by omega) le_rfl hc⟩

theorem value_toDigits (n : ℕ) : value (Nat.toDigits 10 n) = n := by
  rw [value, Nat.ofDigitChars_toDigits (by omega) le_rfl]

theorem numeral_decimal {signed : Bool} {v : ℤ} (h : signed = true ∨ 0 ≤ v) :
    Numeral signed (decimal v) v := by
  unfold decimal
  have hval := value_toDigits v.natAbs
  split_ifs with hneg
  · have := Numeral.minus _ (h.resolve_right (by omega)) (digits_toDigits v.natAbs)
    rwa [hval, show -((v.natAbs : ℕ) : ℤ) = v by omega] at this
  · have : Numeral signed _ _ := .plain _ (digits_toDigits v.natAbs)
    rwa [hval, show ((v.natAbs : ℕ) : ℤ) = v by omega] at this

theorem Numeral.unique {signed : Bool} {text : List Char} {v w : ℤ} (hv : Numeral signed text v)
    (hw : Numeral signed text w) : v = w := by
  cases hv with
  | plain _ hd =>
    cases hw with
    | plain => rfl
    | plus cs _ => exact absurd (hd.2 '+' (by simp)) (by decide)
    | minus cs _ _ => exact absurd (hd.2 '-' (by simp)) (by decide)
  | plus cs hd => exact (numeral_plus.mp hw).2.symm
  | minus cs _ hd => exact (numeral_minus.mp hw).2.2.symm

theorem parse_decimal {signed : Bool} {lo hi v : ℤ} (hlo : lo ≤ 0) (hhi : 0 ≤ hi)
    (h : signed = true ∨ 0 ≤ v) :
    parse signed lo hi (decimal v) = within lo hi v := by
  ext w
  rw [parse_eq_some hlo hhi, within_eq_some]
  constructor
  · rintro ⟨hw, hb⟩
    obtain rfl := (numeral_decimal h).unique hw
    exact ⟨rfl, hb⟩
  · rintro ⟨rfl, hb⟩
    exact ⟨numeral_decimal h, hb⟩

end Foundation.Numerals
