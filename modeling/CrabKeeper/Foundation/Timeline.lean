import Mathlib.Tactic

/-!
# Recorded timelines

A timeline holds stamped values in the order in which they were recorded.
Recording a value at a later tick first repeats the last value on the ticks in
between. `timeline y xs` is what starts with `y` and records `xs`; its shape is
a function of the recorded times, its values are those of the records.
-/

set_option autoImplicit false

namespace Foundation.Timeline

structure Stamp (β : Type*) where
  time : ℕ
  value : β
  deriving DecidableEq, Repr

variable {β : Type*}

def fill (v : β) (s t : ℕ) : List (Stamp β) := (List.range' s (t-s)).map (⟨·,v⟩)

/-- What a timeline that ends with `y` grows by when `xs` are recorded. -/
def growth (y : Stamp β) : List (Stamp β) → List (Stamp β)
  | [] => []
  | x::xs => fill y.value (y.time+1) x.time ++ x :: growth x xs

def timeline (y : Stamp β) (xs : List (Stamp β)) : List (Stamp β) := y :: growth y xs

def repeats (t : ℕ) : List ℕ → ℕ
  | [] => 0
  | u::ts => (if u = t then 1 else 0)+repeats u ts

@[simp] theorem fill_length (v : β) (s t : ℕ) : (fill v s t).length = t-s := by
  simp [fill]

theorem mem_fill {v : β} {s t : ℕ} {x : Stamp β} :
    x ∈ fill v s t ↔ s ≤ x.time ∧ x.time < t ∧ x.value = v := by
  simp only [fill, List.mem_map, List.mem_range'_1]
  constructor
  · rintro ⟨u, hu, rfl⟩
    exact ⟨hu.1, show u < t by omega, rfl⟩
  · intro h
    exact ⟨x.time, ⟨h.1, by omega⟩, by rw [← h.2.2]⟩

theorem fill_nil (v : β) {s t : ℕ} (h : t ≤ s) : fill v s t = [] := by
  rw [fill, Nat.sub_eq_zero_of_le h]
  rfl

theorem fill_cons (v : β) {s t : ℕ} (h : s < t) : fill v s t = ⟨s,v⟩ :: fill v (s+1) t := by
  rw [fill, show t-s = t-(s+1)+1 by omega, List.range'_succ]
  rfl

theorem timeline_cons (y x : Stamp β) (xs : List (Stamp β)) :
    timeline y (x::xs) = (y :: fill y.value (y.time+1) x.time) ++ timeline x xs := rfl

/-- From the record `a` to the record `b`, with the ticks filled in between,
each entry is related to the next. -/
def Stretch (R : Stamp β → Stamp β → Prop) (a b : Stamp β) : Prop :=
  (a :: (fill a.value (a.time+1) b.time ++ [b])).IsChain R

variable {R P : Stamp β → Stamp β → Prop} {a b : Stamp β}

theorem stretch_near (h : b.time ≤ a.time+1) : Stretch R a b ↔ R a b := by
  rw [Stretch, fill_nil a.value h, List.nil_append, List.isChain_cons_cons]
  exact and_iff_left (List.isChain_singleton b)

theorem stretch_far (h : a.time+1 < b.time) :
    Stretch R a b ↔ R a ⟨a.time+1,a.value⟩ ∧ Stretch R ⟨a.time+1,a.value⟩ b := by
  rw [Stretch, fill_cons a.value h, List.cons_append, List.isChain_cons_cons]
  rfl

theorem stretch_iff (hnear : ∀ a b, b.time ≤ a.time+1 → (R a b ↔ P a b))
    (hfar : ∀ a b, a.time+1 < b.time →
      (R a ⟨a.time+1,a.value⟩ ∧ P ⟨a.time+1,a.value⟩ b ↔ P a b)) :
    Stretch R a b ↔ P a b := by
  obtain ⟨d, hd⟩ : ∃ d, b.time-a.time ≤ d+1 := ⟨b.time, by omega⟩
  induction d generalizing a with
  | zero =>
    rw [stretch_near (by omega)]
    exact hnear a b (by omega)
  | succ d ih =>
    by_cases h : a.time+1 < b.time
    · rw [stretch_far h, ih (by simp only; omega)]
      exact hfar a b h
    · rw [stretch_near (by omega)]
      exact hnear a b (by omega)

/-- What holds from entry to entry of a timeline holds along each stretch
between two records, and conversely. -/
theorem isChain_timeline (y : Stamp β) (xs : List (Stamp β)) :
    (timeline y xs).IsChain R ↔ (y::xs).IsChain (Stretch R) := by
  induction xs generalizing y with
  | nil => exact iff_of_true (List.isChain_singleton y) (List.isChain_singleton y)
  | cons x xs ih =>
    rw [List.isChain_cons_cons, ← ih x]
    exact @List.isChain_split _ R x (y :: fill y.value (y.time+1) x.time) (growth x xs)

theorem timeline_iff (hnear : ∀ a b, b.time ≤ a.time+1 → (R a b ↔ P a b))
    (hfar : ∀ a b, a.time+1 < b.time →
      (R a ⟨a.time+1,a.value⟩ ∧ P ⟨a.time+1,a.value⟩ b ↔ P a b))
    (y : Stamp β) (xs : List (Stamp β)) :
    (timeline y xs).IsChain R ↔ (y::xs).IsChain P := by
  have hPR : Stretch R = P := by
    ext a b
    exact stretch_iff hnear hfar
  rw [isChain_timeline, hPR]

theorem isChain_times {Q : ℕ → ℕ → Prop} (t : ℕ) (v : β) (xs : List (Stamp β)) :
    (⟨t,v⟩::xs).IsChain (fun a b => Q a.time b.time) ↔ (t :: xs.map (·.time)).IsChain Q := by
  rw [← List.map_cons (f := fun s : Stamp β => s.time) (a := ⟨t,v⟩), List.isChain_map]

theorem chronological_iff (y : Stamp β) (xs : List (Stamp β)) :
    (timeline y xs).IsChain (·.time ≤ ·.time) ↔ (y::xs).IsChain (·.time ≤ ·.time) := by
  apply timeline_iff
  · exact fun a b _ => Iff.rfl
  · intro a b h
    show a.time ≤ a.time+1 ∧ a.time+1 ≤ b.time ↔ a.time ≤ b.time
    omega

theorem consecutive_iff (y : Stamp β) (xs : List (Stamp β)) :
    (timeline y xs).IsChain (fun a b => b.time = a.time+1) ↔
      (y::xs).IsChain (·.time < ·.time) := by
  apply timeline_iff
  · intro a b h
    omega
  · intro a b h
    show a.time+1 = a.time+1 ∧ a.time+1 < b.time ↔ a.time < b.time
    omega

theorem numbered_iff (y : Stamp β) (l : List (Stamp β)) :
    (y::l).IsChain (fun a b => b.time = a.time+1) ↔
      ∀ k s, (y::l)[k]? = some s → s.time = y.time+k := by
  induction l generalizing y with
  | nil =>
    apply iff_of_true (List.isChain_singleton y)
    intro k s hs
    cases k with
    | zero =>
      obtain rfl := Option.some.inj hs
      rfl
    | succ k => cases hs
  | cons z l ih =>
    rw [List.isChain_cons_cons, ih z]
    constructor
    · rintro ⟨hz, hl⟩ k s hs
      cases k with
      | zero =>
        obtain rfl := Option.some.inj hs
        rfl
      | succ k =>
        have := hl k s hs
        omega
    · intro h
      have hz := h 1 z rfl
      refine ⟨hz, fun k s hs => ?_⟩
      have := h (k+1) s hs
      omega

theorem indexed_iff (y : Stamp β) (xs : List (Stamp β)) :
    (∀ k s, (timeline y xs)[k]? = some s → s.time = y.time+k) ↔
      (y::xs).IsChain (·.time < ·.time) := by
  rw [← consecutive_iff]
  exact (numbered_iff y (growth y xs)).symm

theorem gapless_iff (y : Stamp β) (xs : List (Stamp β)) :
    (timeline y xs).IsChain (fun a b => b.time = a.time ∨ b.time = a.time+1) ↔
      (y::xs).IsChain (·.time ≤ ·.time) := by
  apply timeline_iff
  · intro a b h
    omega
  · intro a b h
    show (a.time+1 = a.time ∨ a.time+1 = a.time+1) ∧ a.time+1 ≤ b.time ↔ a.time ≤ b.time
    omega

theorem values_iff {Q : β → β → Prop} (hrefl : ∀ v, Q v v) (y : Stamp β)
    (xs : List (Stamp β)) :
    (timeline y xs).IsChain (fun a b => Q a.value b.value) ↔
      (y::xs).IsChain (fun a b => Q a.value b.value) := by
  apply timeline_iff
  · exact fun a b _ => Iff.rfl
  · exact fun a b _ => and_iff_right (hrefl a.value)

theorem value_recorded {y : Stamp β} {xs : List (Stamp β)} {s : Stamp β}
    (h : s ∈ timeline y xs) : ∃ x ∈ y::xs, s.value = x.value := by
  induction xs generalizing y with
  | nil => exact ⟨s, h, rfl⟩
  | cons x xs ih =>
    rw [timeline_cons, List.mem_append, List.mem_cons, mem_fill] at h
    rcases h with (rfl | hfill) | hrest
    · exact ⟨s, List.mem_cons_self, rfl⟩
    · exact ⟨y, List.mem_cons_self, hfill.2.2⟩
    · obtain ⟨z, hz, hv⟩ := ih hrest
      exact ⟨z, List.mem_cons_of_mem y hz, hv⟩

theorem timeline_getLast (y : Stamp β) (xs : List (Stamp β)) :
    (timeline y xs).getLast? = (y::xs).getLast? := by
  induction xs generalizing y with
  | nil => rfl
  | cons x xs ih =>
    rw [timeline_cons, List.getLast?_append, ih x, List.getLast?_cons, Option.some_or,
      List.getLast?_cons_cons, List.getLast?_cons]

theorem timeline_last_time (y : Stamp β) (xs : List (Stamp β)) :
    (timeline y xs).getLast?.map (·.time) = some ((xs.map (·.time)).getLastD y.time) := by
  rw [timeline_getLast]
  induction xs generalizing y with
  | nil => rfl
  | cons x xs ih => rw [List.getLast?_cons_cons, ih x, List.map_cons, List.getLastD_cons]

/-- One entry for each tick up to the last record, and one more for each record
that shares its tick with the one before. -/
theorem timeline_length {y : Stamp β} {xs : List (Stamp β)}
    (h : (y::xs).IsChain (·.time ≤ ·.time)) :
    (timeline y xs).length+y.time =
      (xs.map (·.time)).getLastD y.time+1+repeats y.time (xs.map (·.time)) := by
  induction xs generalizing y with
  | nil => simp [timeline, growth, repeats, Nat.add_comm]
  | cons x xs ih =>
    rw [List.isChain_cons_cons] at h
    have hrest := ih h.2
    have hle := h.1
    rw [timeline_cons, List.length_append, List.length_cons, fill_length, List.map_cons,
      List.getLastD_cons, repeats]
    split_ifs with heq <;> omega

theorem le_time_of_mem {y : Stamp β} {xs : List (Stamp β)}
    (h : (y::xs).IsChain (·.time ≤ ·.time)) {s : Stamp β} (hs : s ∈ timeline y xs) :
    y.time ≤ s.time := by
  have hpair := List.isChain_iff_pairwise.mp ((chronological_iff y xs).mpr h)
  rcases List.mem_cons.mp hs with rfl | hs
  · exact le_rfl
  · exact List.rel_of_pairwise_cons hpair hs

theorem record_mem_timeline {y x : Stamp β} {xs : List (Stamp β)} (h : x ∈ y::xs) :
    x ∈ timeline y xs := by
  induction xs generalizing y with
  | nil => exact h
  | cons z xs ih =>
    rw [timeline_cons, List.mem_append]
    rcases List.mem_cons.mp h with rfl | h
    · exact Or.inl List.mem_cons_self
    · exact Or.inr (ih h)

theorem getLast_value {l : List (Stamp β)} {s : Stamp β} (hs : s ∈ l)
    (h : ∀ x ∈ l, x.value = s.value) : l.getLast?.map (·.value) = some s.value := by
  have hne : l ≠ [] := List.ne_nil_of_mem hs
  rw [List.getLast?_eq_some_getLast hne, Option.map_some, h _ (List.getLast_mem hne)]

theorem value_at {y : Stamp β} {xs : List (Stamp β)} (h : (y::xs).IsChain (·.time ≤ ·.time))
    {t : ℕ} (hy : y.time ≤ t) (ht : t ≤ (xs.map (·.time)).getLastD y.time) :
    ((timeline y xs).filter (·.time = t)).getLast?.map (·.value) =
      ((y::xs).filter (·.time ≤ t)).getLast?.map (·.value) := by
  induction xs generalizing y with
  | nil =>
    have heq : y.time = t := le_antisymm hy ht
    simp [timeline, growth, heq]
  | cons x xs ih =>
    rw [List.isChain_cons_cons] at h
    rw [List.map_cons, List.getLastD_cons] at ht
    have hright : (y::x::xs).filter (·.time ≤ t) = y :: (x::xs).filter (·.time ≤ t) :=
      List.filter_cons_of_pos (by simpa using hy)
    rw [timeline_cons, List.filter_append, List.getLast?_append, hright, List.getLast?_cons]
    by_cases hx : x.time ≤ t
    · -- both sides are decided from `x` on
      have hsome : (x::xs).filter (·.time ≤ t) = x :: xs.filter (·.time ≤ t) :=
        List.filter_cons_of_pos (by simpa using hx)
      have hrest := ih h.2 hx ht
      rw [hsome, List.getLast?_cons] at hrest ⊢
      obtain ⟨z, hz, hv⟩ := Option.map_eq_some_iff.mp hrest
      rw [hz, Option.some_or, Option.map_some, hv]
      rfl
    · -- `t` lies on the stretch that starts with `y`
      have hlate : ∀ s ∈ timeline x xs, t < s.time := fun s hs => by
        have := le_time_of_mem h.2 hs
        omega
      have hnone : (timeline x xs).filter (·.time = t) = [] := by
        apply List.filter_eq_nil_iff.mpr
        intro s hs
        have := hlate s hs
        simp only [decide_eq_true_eq]
        omega
      have hnone' : (x::xs).filter (·.time ≤ t) = [] := by
        apply List.filter_eq_nil_iff.mpr
        intro s hs
        have := hlate s (record_mem_timeline hs)
        simp only [decide_eq_true_eq]
        omega
      rw [hnone, hnone', List.getLast?_nil, Option.none_or]
      apply getLast_value (s := ⟨t,y.value⟩)
      · rw [List.mem_filter, List.mem_cons, mem_fill]
        refine ⟨?_, decide_eq_true rfl⟩
        rcases hy.eq_or_lt with rfl | hlt
        · exact Or.inl rfl
        · exact Or.inr ⟨hlt, by simp only; omega, rfl⟩
      · intro s hs
        rcases List.mem_cons.mp (List.mem_filter.mp hs).1 with rfl | hs
        · rfl
        · exact (mem_fill.mp hs).2.2

end Foundation.Timeline
