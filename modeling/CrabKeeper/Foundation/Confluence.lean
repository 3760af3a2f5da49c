import CrabKeeper.Foundation.Termination

/-!
# Systems whose order of moves does not matter

Two moves possible in one state lead to one state, or each is still possible
after the other and both orders lead to one state. One run that comes to rest
then bounds all the others: each of them can be prolonged to the same final
state, in the same number of moves, so none can avoid it or go on forever.
-/

set_option autoImplicit false

namespace Foundation.Confluence
open Foundation.Transition Foundation.Termination

variable {S A : Type*} {fire : A → S → Option S} {I : S → Prop} {s t u : S}

/-- The invariant `I` narrows the states at which moves have to commute. -/
structure Commuting (fire : A → S → Option S) (I : S → Prop) : Prop where
  keeps : ∀ {a s t}, I s → fire a s = some t → I t
  joins : ∀ {a b s t u}, I s → fire a s = some t → fire b s = some u →
    t = u ∨ ∃ a' b' w, fire b' t = some w ∧ fire a' u = some w

def AtRest (fire : A → S → Option S) (s : S) : Prop := ∀ a, fire a s = none

theorem atRest_of_stuck {init : S → Prop} (h : Stuck (ofMoves init fire) s) : AtRest fire s := by
  intro a
  cases ha : fire a s with
  | none => rfl
  | some t => exact absurd ⟨a, ha⟩ (h t)

theorem stuck_of_atRest {init : S → Prop} (h : AtRest fire s) : Stuck (ofMoves init fire) s := by
  rintro t ⟨a, ha⟩
  rw [h a] at ha
  cases ha

theorem play_append (as bs : List A) (s : S) :
    play fire (as ++ bs) s = (play fire as s).bind (play fire bs) := by
  induction as generalizing s with
  | nil => rfl
  | cons a as ih =>
    rw [List.cons_append, play, play, Option.bind_assoc]
    exact Option.bind_congr fun t _ => ih t

theorem play_of_atRest (h : AtRest fire s) {as : List A} (ht : play fire as s = some t) :
    as = [] ∧ t = s := by
  cases as with
  | nil => exact ⟨rfl, (Option.some.inj ht).symm⟩
  | cons a as =>
    rw [play, h a] at ht
    cases ht

theorem play_mono {fire' : A → S → Option S} (h : ∀ a s t, fire a s = some t → fire' a s = some t)
    {as : List A} (hs : play fire as s = some t) : play fire' as s = some t := by
  induction as generalizing s with
  | nil => exact hs
  | cons a as ih =>
    obtain ⟨v, hv, hs⟩ := Option.bind_eq_some_iff.mp hs
    rw [play, h a s v hv, Option.bind_some]
    exact ih hs

theorem AtRest.mono {fire' : A → S → Option S} (h : ∀ a s t, fire a s = some t → fire' a s = some t)
    (hs : AtRest fire' s) : AtRest fire s := by
  intro a
  cases ha : fire a s with
  | none => rfl
  | some t =>
    have := h a s t ha
    rw [hs a] at this
    cases this

/-- After one move off a run that comes to rest, one move fewer is left. -/
theorem Commuting.strip (hc : Commuting fire I) {a : A} {bs : List A} (hs : I s)
    (ha : fire a s = some t) (hbs : play fire bs s = some u) (hu : AtRest fire u) :
    ∃ cs, play fire cs t = some u ∧ bs.length = cs.length+1 := by
  induction bs generalizing s t a with
  | nil =>
    obtain rfl := Option.some.inj hbs
    rw [hu a] at ha
    cases ha
  | cons b bs ih =>
    obtain ⟨v, hb, hbs⟩ := Option.bind_eq_some_iff.mp hbs
    rcases hc.joins hs ha hb with rfl | ⟨a', b', w, hb', ha'⟩
    · exact ⟨bs, hbs, rfl⟩
    · obtain ⟨cs, hcs, hlen⟩ := ih (hc.keeps hs hb) ha' hbs
      refine ⟨b'::cs, ?_, congrArg (·+1) hlen⟩
      rw [play, hb', Option.bind_some, hcs]

/-- A run that comes to rest bounds every run from the same state. -/
theorem Commuting.completes (hc : Commuting fire I) {as bs : List A} (hs : I s)
    (has : play fire as s = some t) (hbs : play fire bs s = some u) (hu : AtRest fire u) :
    ∃ cs, play fire cs t = some u ∧ bs.length = as.length+cs.length := by
  induction as generalizing s bs with
  | nil =>
    obtain rfl := Option.some.inj has
    exact ⟨bs, hbs, (Nat.zero_add _).symm⟩
  | cons a as ih =>
    obtain ⟨v, ha, has⟩ := Option.bind_eq_some_iff.mp has
    obtain ⟨cs, hcs, hlen⟩ := hc.strip hs ha hbs hu
    obtain ⟨ds, hds, hlen'⟩ := ih (hc.keeps hs ha) has hcs
    refine ⟨ds, hds, ?_⟩
    rw [List.length_cons]
    omega

theorem steps_of_play {init : S → Prop} {as : List A} (h : play fire as s = some t) :
    Relation.ReflTransGen (ofMoves init fire).step s t := by
  induction as generalizing s with
  | nil =>
    obtain rfl := Option.some.inj h
    exact .refl
  | cons a as ih =>
    obtain ⟨v, hv, h⟩ := Option.bind_eq_some_iff.mp h
    exact .head ⟨a, hv⟩ (ih h)

theorem play_snoc {as : List A} {a : A} (h : play fire as s = some t) (ha : fire a t = some u) :
    play fire (as ++ [a]) s = some u := by
  rw [play_append, h]
  simp [play, ha]

theorem play_of_steps {init : S → Prop}
    (h : Relation.ReflTransGen (ofMoves init fire).step s t) : ∃ as, play fire as s = some t := by
  induction h with
  | refl => exact ⟨[], rfl⟩
  | tail _ hst ih =>
    obtain ⟨a, ha⟩ := hst
    obtain ⟨as, has⟩ := ih
    exact ⟨as ++ [a], play_snoc has ha⟩

theorem play_of_reachable {s₀ : S} (h : Reachable (ofMoves (· = s₀) fire) s) :
    ∃ as, play fire as s₀ = some s := by
  induction h with
  | init h => exact ⟨[], congrArg some h.symm⟩
  | step _ hst ih =>
    obtain ⟨a, ha⟩ := hst
    obtain ⟨as, has⟩ := ih
    exact ⟨as ++ [a], play_snoc has ha⟩

theorem play_lowers {init : S → Prop} {μ : S → ℕ}
    (hμ : ∀ a s t, Reachable (ofMoves init fire) s → fire a s = some t → μ t < μ s) {as : List A}
    (hs : Reachable (ofMoves init fire) s) (h : play fire as s = some t) :
    as.length+μ t ≤ μ s := by
  induction as generalizing s with
  | nil =>
    obtain rfl := Option.some.inj h
    simp
  | cons a as ih =>
    obtain ⟨u, ha, h⟩ := Option.bind_eq_some_iff.mp h
    have hle := ih (hs.step ⟨a, ha⟩) h
    have hlt := hμ a s u hs ha
    rw [List.length_cons]
    omega

end Foundation.Confluence
