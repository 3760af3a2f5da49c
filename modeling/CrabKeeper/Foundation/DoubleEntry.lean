import Mathlib.Tactic
import Mathlib.Algebra.BigOperators.Group.Finset.Basic
import Mathlib.Algebra.BigOperators.Fin
import Mathlib.Data.List.GetD

/-!
# Double-entry bookkeeping

Numbered transfers leave a debit at their source and a credit at their
destination. The entries of one account are a function of the transfers; over
all accounts, any quantity summed over entries is the same quantity summed over
transfers, so signed amounts cancel.
-/

set_option autoImplicit false

namespace Foundation.DoubleEntry

structure Transfer (α B : Type*) where
  src : α
  dst : α
  amount : B
  deriving DecidableEq, Repr

inductive Side where
  | debit
  | credit
  deriving DecidableEq, Repr

structure Entry (B : Type*) where
  order : ℕ
  side : Side
  amount : B
  deriving DecidableEq, Repr

variable {α B C ι : Type*} [DecidableEq α]

def entriesOf (a : α) (k : ℕ) (t : Transfer α B) : List (Entry B) :=
  (if t.src = a then [⟨k, .debit, t.amount⟩] else []) ++
    (if t.dst = a then [⟨k, .credit, t.amount⟩] else [])

def entries (a : α) : ℕ → List (Transfer α B) → List (Entry B)
  | _, [] => []
  | k, t::ts => entriesOf a k t ++ entries a (k+1) ts

def signed [Neg B] (e : Entry B) : B :=
  match e.side with
  | .debit => -e.amount
  | .credit => e.amount

def effect [AddCommGroup B] (es : List (Entry B)) : B := (es.map signed).sum

def incoming [AddCommMonoid B] (a : α) (ts : List (Transfer α B)) : B :=
  ((ts.filter (·.dst = a)).map (·.amount)).sum

def outgoing [AddCommMonoid B] (a : α) (ts : List (Transfer α B)) : B :=
  ((ts.filter (·.src = a)).map (·.amount)).sum

def involves (a : α) (t : Transfer α B) : Bool := decide (t.src = a) || decide (t.dst = a)

theorem entries_append (a : α) (k : ℕ) (ts us : List (Transfer α B)) :
    entries a k (ts ++ us) = entries a k ts ++ entries a (k+ts.length) us := by
  induction ts generalizing k with
  | nil => simp [entries]
  | cons t ts ih =>
    rw [List.cons_append, entries, entries, ih, List.append_assoc, List.length_cons]
    congr 3
    omega

theorem entries_take_succ (a : α) {ts : List (Transfer α B)} {k : ℕ} {t : Transfer α B}
    (h : ts[k]? = some t) :
    entries a 0 (ts.take (k+1)) = entries a 0 (ts.take k) ++ entriesOf a k t := by
  have hk := (List.getElem?_eq_some_iff.mp h).1
  rw [List.take_add_one, h, entries_append]
  simp [entries, Nat.min_eq_left hk.le]

theorem mem_entriesOf {a : α} {k : ℕ} {t : Transfer α B} {e : Entry B} :
    e ∈ entriesOf a k t ↔ (t.src = a ∧ e = ⟨k, .debit, t.amount⟩) ∨
      (t.dst = a ∧ e = ⟨k, .credit, t.amount⟩) := by
  unfold entriesOf
  split_ifs with h1 h2 h2 <;> simp [h1, h2]

theorem mem_entries {a : α} {k : ℕ} {ts : List (Transfer α B)} {e : Entry B} :
    e ∈ entries a k ts ↔ ∃ j t, ts[j]? = some t ∧ e ∈ entriesOf a (k+j) t := by
  induction ts generalizing k with
  | nil => simp [entries]
  | cons t ts ih =>
    rw [entries, List.mem_append, ih]
    constructor
    · rintro (h | ⟨j, u, hu, h⟩)
      · exact ⟨0, t, rfl, h⟩
      · exact ⟨j+1, u, hu, by rwa [show k+(j+1) = k+1+j by omega]⟩
    · rintro ⟨j, u, hu, h⟩
      cases j with
      | zero =>
        obtain rfl := Option.some.inj hu
        exact Or.inl h
      | succ j => exact Or.inr ⟨j, u, hu, by rwa [show k+1+j = k+(j+1) by omega]⟩

@[simp] theorem effect_nil [AddCommGroup B] : effect ([] : List (Entry B)) = 0 := rfl

theorem effect_append [AddCommGroup B] (es fs : List (Entry B)) :
    effect (es ++ fs) = effect es+effect fs := by
  rw [effect, List.map_append, List.sum_append, effect, effect]

theorem effect_entriesOf [AddCommGroup B] (a : α) (k : ℕ) (t : Transfer α B) :
    effect (entriesOf a k t) = incoming a [t]-outgoing a [t] := by
  unfold entriesOf effect incoming outgoing
  by_cases h1 : t.src = a <;> by_cases h2 : t.dst = a <;> simp [h1, h2, signed]

theorem effect_entries [AddCommGroup B] (a : α) (k : ℕ) (ts : List (Transfer α B)) :
    effect (entries a k ts) = incoming a ts-outgoing a ts := by
  induction ts generalizing k with
  | nil => simp [entries, incoming, outgoing]
  | cons t ts ih =>
    have hin : incoming a (t::ts) = incoming a [t]+incoming a ts := by
      by_cases h : t.dst = a <;> simp [incoming, h]
    have hout : outgoing a (t::ts) = outgoing a [t]+outgoing a ts := by
      by_cases h : t.src = a <;> simp [outgoing, h]
    rw [entries, effect_append, effect_entriesOf, ih, hin, hout]
    abel

/-- Where an account's entry stands among its entries: after one for each earlier
transfer it takes part in. -/
theorem entries_index {a : α} {m j : ℕ} {ts : List (Transfer α B)} {e : Entry B}
    (h : ∀ t ∈ ts, t.src ≠ t.dst) (he : (entries a m ts)[j]? = some e) :
    ∃ k t, ts[k]? = some t ∧ involves a t = true ∧ e.order = m+k ∧
      j = (ts.take k).countP (involves a) := by
  induction ts generalizing m j with
  | nil => simp [entries] at he
  | cons t ts ih =>
    have hne := h t (by simp)
    have htail := fun (j : ℕ) => ih (m := m+1) (j := j) fun u hu => h u (by simp [hu])
    by_cases hinv : involves a t = true
    · obtain ⟨e₀, hone, horder⟩ : ∃ e₀, entriesOf a m t = [e₀] ∧ e₀.order = m := by
        unfold entriesOf
        unfold involves at hinv
        by_cases h1 : t.src = a <;> by_cases h2 : t.dst = a <;> simp_all
      rw [entries, hone, List.singleton_append] at he
      cases j with
      | zero =>
        obtain rfl := Option.some.inj he
        exact ⟨0, t, rfl, hinv, horder, rfl⟩
      | succ j =>
        obtain ⟨k, u, hk, hu, ho, hj⟩ := htail j he
        refine ⟨k+1, u, hk, hu, by omega, ?_⟩
        rw [List.take_succ_cons, List.countP_cons, if_pos hinv, hj]
    · have hnone : entriesOf a m t = [] := by
        unfold entriesOf
        unfold involves at hinv
        by_cases h1 : t.src = a <;> by_cases h2 : t.dst = a <;> simp_all
      rw [entries, hnone, List.nil_append] at he
      obtain ⟨k, u, hk, hu, ho, hj⟩ := htail j he
      refine ⟨k+1, u, hk, hu, by omega, ?_⟩
      rw [List.take_succ_cons, List.countP_cons, if_neg hinv, hj, Nat.add_zero]

def Within (name : ι → α) (ts : List (Transfer α B)) : Prop :=
  ∀ t ∈ ts, (∃ i, name i = t.src) ∧ ∃ i, name i = t.dst

variable [Fintype ι] {name : ι → α}

theorem sum_entriesOf [AddCommMonoid C] (hname : Function.Injective name) (f : Entry B → C)
    (k : ℕ) {t : Transfer α B} (hsrc : ∃ i, name i = t.src) (hdst : ∃ i, name i = t.dst) :
    ∑ i, ((entriesOf (name i) k t).map f).sum =
      f ⟨k, .debit, t.amount⟩+f ⟨k, .credit, t.amount⟩ := by
  classical
  obtain ⟨x, hx⟩ := hsrc
  obtain ⟨y, hy⟩ := hdst
  have hsplit : ∀ i, ((entriesOf (name i) k t).map f).sum =
      (if x = i then f ⟨k, .debit, t.amount⟩ else 0)+
        (if y = i then f ⟨k, .credit, t.amount⟩ else 0) := by
    intro i
    have h1 : (t.src = name i) ↔ x = i := by rw [← hx, hname.eq_iff]
    have h2 : (t.dst = name i) ↔ y = i := by rw [← hy, hname.eq_iff]
    unfold entriesOf
    simp only [h1, h2]
    split_ifs <;> simp
  rw [Finset.sum_congr rfl fun i _ => hsplit i, Finset.sum_add_distrib]
  simp

/-- A quantity summed over all entries is its sum over the transfers. -/
theorem sum_entries [AddCommMonoid C] (hname : Function.Injective name) (f : Entry B → C)
    (c : C) (k : ℕ) (ts : List (Transfer α B)) (hts : Within name ts)
    (hf : ∀ j, ∀ t ∈ ts, f ⟨j, .debit, t.amount⟩+f ⟨j, .credit, t.amount⟩ = c) :
    ∑ i, ((entries (name i) k ts).map f).sum = ts.length • c := by
  induction ts generalizing k with
  | nil => simp [entries]
  | cons t ts ih =>
    obtain ⟨hs, hd⟩ := hts t (by simp)
    have hrest := ih (k+1) (fun u hu => hts u (by simp [hu])) (fun j u hu => hf j u (by simp [hu]))
    simp only [entries, List.map_append, List.sum_append, Finset.sum_add_distrib]
    rw [sum_entriesOf hname f k hs hd, hrest, hf k t (by simp), List.length_cons, succ_nsmul']

theorem sum_effect [AddCommGroup B] (hname : Function.Injective name) (k : ℕ)
    (ts : List (Transfer α B)) (hts : Within name ts) :
    ∑ i, effect (entries (name i) k ts) = 0 := by
  have := sum_entries hname signed (0 : B) k ts hts (fun j t _ => by simp [signed])
  simpa [effect] using this

theorem sum_length (hname : Function.Injective name) (k : ℕ) (ts : List (Transfer α B))
    (hts : Within name ts) : ∑ i, (entries (name i) k ts).length = 2*ts.length := by
  have := sum_entries hname (fun _ => 1) 2 k ts hts (fun _ _ _ => rfl)
  simpa [mul_comm] using this

end Foundation.DoubleEntry
