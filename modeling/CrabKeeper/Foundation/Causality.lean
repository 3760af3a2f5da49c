import Mathlib.Tactic

/-!
# Causal depth

Events carry natural numbers. If every event is numbered above its direct
causes, and by exactly one more than some cause unless it has the number one,
then each number is the length of a longest causal chain ending at its event.
Both directions pass to the transitive closure of the direct causes.
-/

set_option autoImplicit false

namespace Foundation.Causality

variable {α : Type*}

/-- A causal chain that ends at `e`, written newest event first. -/
def ChainTo (r : α → α → Prop) (e : α) (earlier : List α) : Prop :=
  (e::earlier).IsChain (fun b a => r a b)

def chainSizes (r : α → α → Prop) (e : α) : Set ℕ :=
  {k | ∃ earlier, ChainTo r e earlier ∧ k = earlier.length+1}

/-- The numbering law, for events that satisfy `V`. -/
structure Numbered (r : α → α → Prop) (V : α → Prop) (τ : α → ℕ) : Prop where
  positive : ∀ e, V e → 1 ≤ τ e
  valid : ∀ a b, r a b → V a
  above : ∀ a b, r a b → τ a < τ b
  tight : ∀ e, V e → τ e = 1 ∨ ∃ a, r a e ∧ τ e = τ a+1

theorem transGen_numbered {r : α → α → Prop} {V : α → Prop} {τ : α → ℕ}
    (h : Numbered r V τ) : Numbered (Relation.TransGen r) V τ where
  positive := h.positive
  valid a b hab := by
    induction hab using Relation.TransGen.head_induction_on with
    | single hr => exact h.valid _ _ hr
    | head hr _ _ => exact h.valid _ _ hr
  above a b hab := by
    induction hab with
    | single hr => exact h.above _ _ hr
    | tail _ hr ih => exact ih.trans (h.above _ _ hr)
  tight e he := by
    rcases h.tight e he with h1 | ⟨a, ha, h1⟩
    · exact Or.inl h1
    · exact Or.inr ⟨a, .single ha, h1⟩

theorem chain_size_le {r : α → α → Prop} {V : α → Prop} {τ : α → ℕ} (h : Numbered r V τ)
    (earlier : List α) (e : α) (he : V e) (hc : ChainTo r e earlier) :
    earlier.length+1 ≤ τ e := by
  induction earlier generalizing e with
  | nil => exact h.positive e he
  | cons a earlier ih =>
    obtain ⟨hr, hc⟩ := List.isChain_cons_cons.mp hc
    have hle := ih a (h.valid a e hr) hc
    have hlt := h.above a e hr
    rw [List.length_cons]
    omega

theorem chain_of_size {r : α → α → Prop} {V : α → Prop} {τ : α → ℕ} (h : Numbered r V τ)
    (k : ℕ) (e : α) (he : V e) (hk : τ e = k+1) :
    ∃ earlier, ChainTo r e earlier ∧ earlier.length = k := by
  induction k generalizing e with
  | zero => exact ⟨[], List.isChain_singleton _, rfl⟩
  | succ k ih =>
    rcases h.tight e he with h1 | ⟨a, ha, h1⟩
    · omega
    · obtain ⟨earlier, hc, hl⟩ := ih a (h.valid a e ha) (by omega)
      exact ⟨a::earlier, List.isChain_cons_cons.mpr ⟨ha, hc⟩, by rw [List.length_cons, hl]⟩

/-- A number is the size of a longest causal chain ending at its event. -/
theorem numbered_longest {r : α → α → Prop} {V : α → Prop} {τ : α → ℕ} (h : Numbered r V τ)
    (e : α) (he : V e) : IsGreatest (chainSizes r e) (τ e) := by
  constructor
  · have hp := h.positive e he
    obtain ⟨earlier, hc, hl⟩ := chain_of_size h (τ e-1) e he (by omega)
    exact ⟨earlier, hc, by omega⟩
  · rintro k ⟨earlier, hc, rfl⟩
    exact chain_size_le h earlier e he hc

end Foundation.Causality
