import CrabKeeper.Foundation.Confluence

/-!
# A coarse system behind a fine one

The coarse system answers a move of the fine one by a move of its own, or stands
still while a measure falls. The fine one can do, in some moves, whatever the
coarse one can, and settles where the coarse one is at rest. Both then reach
related states, they come to rest together, and the fine one has no endless runs
where the coarse one has none.
-/

set_option autoImplicit false

namespace Foundation.Simulation
open Foundation.Transition Foundation.Confluence

variable {S T A B : Type*}

structure Simulates (fine : A → S → Option S) (coarse : B → T → Option T)
    (R : S → T → Prop) (μ : S → ℕ) : Prop where
  forward : ∀ {a s s' t}, R s t → fine a s = some s' →
    R s' t ∧ μ s' < μ s ∨ ∃ b t', coarse b t = some t' ∧ R s' t'
  backward : ∀ {b s t t'}, R s t → coarse b t = some t' →
    ∃ as s', as ≠ [] ∧ play fine as s = some s' ∧ R s' t'
  settles : ∀ {s t}, R s t → AtRest coarse t → ∃ as s', play fine as s = some s' ∧
    AtRest fine s' ∧ R s' t

variable {fine : A → S → Option S} {coarse : B → T → Option T} {R : S → T → Prop}
  {μ : S → ℕ} {s s' : S} {t t' : T}

theorem Simulates.forward_play (h : Simulates fine coarse R μ) {as : List A} (hR : R s t)
    (hs : play fine as s = some s') : ∃ bs t', play coarse bs t = some t' ∧ R s' t' := by
  induction as generalizing s t with
  | nil =>
    obtain rfl := Option.some.inj hs
    exact ⟨[], t, rfl, hR⟩
  | cons a as ih =>
    obtain ⟨u, hu, hs⟩ := Option.bind_eq_some_iff.mp hs
    rcases h.forward hR hu with ⟨hR', _⟩ | ⟨b, v, hv, hR'⟩
    · exact ih hR' hs
    · obtain ⟨bs, t', ht, hR''⟩ := ih hR' hs
      refine ⟨b::bs, t', ?_, hR''⟩
      rw [play, hv]
      exact ht

theorem Simulates.backward_play (h : Simulates fine coarse R μ) {bs : List B} (hR : R s t)
    (ht : play coarse bs t = some t') : ∃ as s', play fine as s = some s' ∧ R s' t' := by
  induction bs generalizing s t with
  | nil =>
    obtain rfl := Option.some.inj ht
    exact ⟨[], s, rfl, hR⟩
  | cons b bs ih =>
    obtain ⟨v, hv, ht⟩ := Option.bind_eq_some_iff.mp ht
    obtain ⟨as, u, _, hu, hR'⟩ := h.backward hR hv
    obtain ⟨as', s', hs, hR''⟩ := ih hR' ht
    refine ⟨as ++ as', s', ?_, hR''⟩
    rw [play_append, hu]
    exact hs

theorem Simulates.atRest (h : Simulates fine coarse R μ) (hR : R s t) (hs : AtRest fine s) :
    AtRest coarse t := by
  intro b
  cases hb : coarse b t with
  | none => rfl
  | some t' =>
    obtain ⟨as, s', hne, hplay, _⟩ := h.backward hR hb
    exact absurd (play_of_atRest hs hplay).1 hne

/-- Where the coarse system can come to rest, so can the fine one. -/
theorem Simulates.completes (h : Simulates fine coarse R μ) {bs : List B} (hR : R s t)
    (ht : play coarse bs t = some t') (hrest : AtRest coarse t') :
    ∃ as s', play fine as s = some s' ∧ AtRest fine s' ∧ R s' t' := by
  obtain ⟨as, u, hu, hR'⟩ := h.backward_play hR ht
  obtain ⟨as', s', hs, hend, hR''⟩ := h.settles hR' hrest
  refine ⟨as ++ as', s', ?_, hend, hR''⟩
  rw [play_append, hu]
  exact hs

def Follows (fire : A → S → Option S) (s' s : S) : Prop := ∃ a, fire a s = some s'

theorem acc_of_bound {fire : A → S → Option S} {N : ℕ}
    (h : ∀ as s', play fire as s = some s' → as.length ≤ N) : Acc (Follows fire) s := by
  induction N generalizing s with
  | zero =>
    refine ⟨s, fun s' ⟨a, ha⟩ => ?_⟩
    have := h [a] s' (by simp [play, ha])
    simp at this
  | succ N ih =>
    refine ⟨s, fun s' ⟨a, ha⟩ => ih fun as u hu => ?_⟩
    have := h (a::as) u (by rw [play, ha]; exact hu)
    simpa using this

theorem Simulates.acc (h : Simulates fine coarse R μ) (ht : Acc (Follows coarse) t)
    (hR : R s t) : Acc (Follows fine) s := by
  induction ht generalizing s with
  | intro t _ ih =>
    -- while the coarse system stands still, the measure falls
    induction hm : μ s using Nat.strong_induction_on generalizing s with
    | h m ihm =>
      refine ⟨s, fun s' ⟨a, ha⟩ => ?_⟩
      rcases h.forward hR ha with ⟨hR', hlt⟩ | ⟨b, t', hb, hR'⟩
      · exact ihm (μ s') (hm ▸ hlt) hR' rfl
      · exact ih t' ⟨b, hb⟩ hR'

/-- Where the runs of the coarse system are bounded, no run of the fine one is endless. -/
theorem Simulates.no_endless_run (h : Simulates fine coarse R μ) {N : ℕ} (hR : R s t)
    (hN : ∀ bs t', play coarse bs t = some t' → bs.length ≤ N) (f : ℕ → S) (h0 : f 0 = s) :
    ¬ ∀ n, ∃ a, fine a (f n) = some (f (n+1)) := fun hf =>
  (acc_iff_isEmpty_descending_chain.mp (h.acc (acc_of_bound hN) hR)).false ⟨f, h0, hf⟩

end Foundation.Simulation
