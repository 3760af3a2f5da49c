import Mathlib.Tactic

/-!
# Reachable states and runs

A transition system has initial states and steps. A property of all reachable
states is proved by showing it initially and across one step; a property of a
whole run, as a list of states with the newest first, by the same rule together
with the first step at which something changes. A system whose steps are the
moves of a partial function can be played, which gives concrete runs.
-/

set_option autoImplicit false

namespace Foundation.Transition

structure System (S : Type*) where
  init : S → Prop
  step : S → S → Prop

variable {S A : Type*}

inductive Reachable (T : System S) : S → Prop
  | init {s : S} : T.init s → Reachable T s
  | step {s t : S} : Reachable T s → T.step s t → Reachable T t

/-- The states of a run, newest first. -/
inductive Run (T : System S) : List S → Prop
  | start {s : S} : T.init s → Run T [s]
  | snoc {s t : S} {l : List S} : Run T (s::l) → T.step s t → Run T (t::s::l)

theorem invariant {T : System S} {I : S → Prop} (h0 : ∀ s, T.init s → I s)
    (hstep : ∀ s t, Reachable T s → I s → T.step s t → I t) {s : S} (hs : Reachable T s) : I s := by
  induction hs with
  | init h => exact h0 _ h
  | step hr h ih => exact hstep _ _ hr ih h

theorem reachable_mono {T U : System S} (h0 : ∀ s, T.init s → U.init s)
    (hstep : ∀ s t, T.step s t → U.step s t) {s : S} (hs : Reachable T s) : Reachable U s := by
  induction hs with
  | init h => exact .init (h0 _ h)
  | step _ h ih => exact .step ih (hstep _ _ h)

theorem reachable_of_steps {T : System S} {s t : S} (hs : Reachable T s)
    (h : Relation.ReflTransGen T.step s t) : Reachable T t := by
  induction h with
  | refl => exact hs
  | tail _ hst ih => exact .step ih hst

theorem reachable_of_run {T : System S} {l : List S} (h : Run T l) :
    ∀ s ∈ l, Reachable T s := by
  induction h with
  | start h => simpa using .init h
  | snoc _ hst ih =>
    intro u hu
    rcases List.mem_cons.mp hu with rfl | hu
    · exact .step (ih _ (by simp)) hst
    · exact ih u hu

/-- A property that appears in a run appears at some step of it. -/
theorem run_first {T : System S} (Q : S → Prop) (h0 : ∀ s, T.init s → ¬ Q s) {l : List S}
    (h : Run T l) (hQ : ∃ s ∈ l, Q s) :
    ∃ s t, Reachable T s ∧ t ∈ l ∧ T.step s t ∧ ¬ Q s ∧ Q t := by
  induction h with
  | start h =>
    obtain ⟨s, hs, hq⟩ := hQ
    obtain rfl := List.mem_singleton.mp hs
    exact absurd hq (h0 s h)
  | @snoc s t l hr hst ih =>
    by_cases hp : ∃ u ∈ s::l, Q u
    · obtain ⟨a, b, ha, hb, h⟩ := ih hp
      exact ⟨a, b, ha, List.mem_cons_of_mem t hb, h⟩
    · obtain ⟨u, hu, hq⟩ := hQ
      rcases List.mem_cons.mp hu with rfl | hu
      · exact ⟨s, u, reachable_of_run hr s (by simp), by simp, hst,
          fun hs => hp ⟨s, by simp, hs⟩, hq⟩
      · exact absurd ⟨u, hu, hq⟩ hp

def ofMoves (init : S → Prop) (fire : A → S → Option S) : System S where
  init := init
  step s t := ∃ a, fire a s = some t

def play (fire : A → S → Option S) : List A → S → Option S
  | [], s => some s
  | a::as, s => (fire a s).bind (play fire as)

theorem play_run {init : S → Prop} {fire : A → S → Option S} (as : List A) {s t : S} {l : List S}
    (hl : Run (ofMoves init fire) (s::l)) (h : play fire as s = some t) :
    ∃ l', Run (ofMoves init fire) (t::l') := by
  induction as generalizing s l with
  | nil =>
    obtain rfl := Option.some.inj h
    exact ⟨l, hl⟩
  | cons a as ih =>
    obtain ⟨u, hu, h⟩ := Option.bind_eq_some_iff.mp h
    exact ih (.snoc hl ⟨a, hu⟩) h

theorem play_reaches {B : Type*} (init : S → Prop) {fire : A → S → Option S} (as : List A) {s : S}
    (hs : init s) (f : S → B) {v : B} (h : (play fire as s).map f = some v) :
    ∃ t l, Run (ofMoves init fire) (t::l) ∧ f t = v := by
  obtain ⟨t, ht, hv⟩ := Option.map_eq_some_iff.mp h
  obtain ⟨l, hl⟩ := play_run as (.start hs) ht
  exact ⟨t, l, hl, hv⟩

end Foundation.Transition
