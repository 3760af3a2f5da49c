import CrabKeeper.Foundation.Termination

/-!
# A party alone with its streams

A sequential program sends and receives values on streams that have nothing to
do with each other; the processes it waits for end well. A path is what the
program would do if every send and every receive went well, with its turns. The
program runs along a path exactly if each stream plays its part of it, which can
be told from that stream alone.
-/

set_option autoImplicit false

namespace Foundation.Dialogue
open Foundation.Network Foundation.Termination

variable {S M ε ι π ω : Type}

/-- How a stream takes a value and how it yields one; a receive may also abort. -/
structure Port (S M ε ω : Type) where
  send : S → M → Except ε Unit × S
  recv : S → Except ω (Except ε M × S)

/-- A program, and where it is left when it aborts. -/
structure Party (ι M ε ω π : Type) where
  program : π → ParentAction ι M ε π
  abort : ω → π → π

def alone {σ : Type} : ChildAction M ε σ → ParentAction Unit M ε σ
  | .send m next => .send () m next
  | .recv next => .recv () next
  | .tau next => .tau next
  | .connect _ | .halt => .halt

inductive Turn (M : Type) where
  | sent (m : M)
  | got (m : M)

abbrev Trace (ι M : Type) := List (ι × Turn M)

inductive Path (T : Party ι M ε ω π) : π → Trace ι M → π → Prop
  | nil (p : π) : Path T p [] p
  | tau {p q next : π} {l : Trace ι M} :
      T.program p = .tau next → Path T next l q → Path T p l q
  | wait {p q : π} {l : Trace ι M} {i : ι} {next : Except ε Unit → π} :
      T.program p = .wait i next → Path T (next (.ok ())) l q → Path T p l q
  | sent {p q : π} {l : Trace ι M} {i : ι} {m : M} {next : Except ε Unit → π} :
      T.program p = .send i m next → Path T (next (.ok ())) l q → Path T p ((i, .sent m)::l) q
  | got {p q : π} {l : Trace ι M} {i : ι} {m : M} {next : Except ε M → π} :
      T.program p = .recv i next → Path T (next (.ok m)) l q → Path T p ((i, .got m)::l) q

/-- A stream that plays its part in some turns. -/
inductive Serves (D : Port S M ε ω) : S → List (Turn M) → S → Prop
  | nil (s : S) : Serves D s [] s
  | sent {s t u : S} {m : M} {l : List (Turn M)} :
      D.send s m = (.ok (), t) → Serves D t l u → Serves D s (.sent m::l) u
  | got {s t u : S} {m : M} {l : List (Turn M)} :
      D.recv s = .ok (.ok m, t) → Serves D t l u → Serves D s (.got m::l) u

theorem serves_nil_iff {D : Port S M ε ω} {s t : S} : Serves D s [] t ↔ s = t := by
  constructor
  · intro h
    cases h
    rfl
  · rintro rfl
    exact .nil s

def Talks : ParentAction ι M ε π → Prop
  | .spawn _ _ | .accept _ => False
  | _ => True

/-- Whatever goes wrong ends the program in a broken state. -/
structure Strict (T : Party ι M ε ω π) (broken : π → Prop) : Prop where
  talks : ∀ p, Talks (T.program p)
  stops : ∀ p, broken p → T.program p = .halt
  abort : ∀ e p, broken (T.abort e p)
  send : ∀ p i m next, T.program p = .send i m next → ∀ e, broken (next (.error e))
  recv : ∀ p i next, T.program p = .recv i next → ∀ e, broken (next (.error e))

section Paths

variable {T : Party ι M ε ω π} {p q : π} {l : Trace ι M}

theorem path_halt_iff (hp : T.program p = .halt) : Path T p l q ↔ l = [] ∧ q = p := by
  constructor
  · intro h
    cases h with
    | nil => exact ⟨rfl, rfl⟩
    | tau h _ | wait h _ | sent h _ | got h _ => cases hp.symm.trans h
  · rintro ⟨rfl, rfl⟩
    exact .nil q

variable (hq : T.program q = .halt)

include hq

theorem path_tau_iff {next : π} (hp : T.program p = .tau next) :
    Path T p l q ↔ Path T next l q := by
  constructor
  · intro h
    cases h with
    | nil => cases hp.symm.trans hq
    | tau h hl =>
      obtain rfl := ParentAction.tau.inj (hp.symm.trans h)
      exact hl
    | wait h _ | sent h _ | got h _ => cases hp.symm.trans h
  · exact .tau hp

theorem path_send_iff {i : ι} {m : M} {next : Except ε Unit → π}
    (hp : T.program p = .send i m next) :
    Path T p l q ↔ ∃ r, l = (i, .sent m)::r ∧ Path T (next (.ok ())) r q := by
  constructor
  · intro h
    cases h with
    | nil => cases hp.symm.trans hq
    | sent h hl =>
      obtain ⟨rfl, rfl, rfl⟩ := ParentAction.send.inj (hp.symm.trans h)
      exact ⟨_, rfl, hl⟩
    | tau h _ | wait h _ | got h _ => cases hp.symm.trans h
  · rintro ⟨r, rfl, hr⟩
    exact .sent hp hr

theorem path_recv_iff {i : ι} {next : Except ε M → π} (hp : T.program p = .recv i next) :
    Path T p l q ↔ ∃ m r, l = (i, .got m)::r ∧ Path T (next (.ok m)) r q := by
  constructor
  · intro h
    cases h with
    | nil => cases hp.symm.trans hq
    | got h hl =>
      obtain ⟨rfl, rfl⟩ := ParentAction.recv.inj (hp.symm.trans h)
      exact ⟨_, _, rfl, hl⟩
    | tau h _ | wait h _ | sent h _ => cases hp.symm.trans h
  · rintro ⟨m, r, rfl, hr⟩
    exact .got hp hr

end Paths

def inTurn (f : ι → List (Turn M)) (is : List ι) : Trace ι M := is.flatMap fun j => (f j).map (j, ·)

theorem inTurn_cons (f : ι → List (Turn M)) (i : ι) (is : List ι) :
    inTurn f (i::is) = (f i).map (i, ·) ++ inTurn f is := rfl

theorem inTurn_congr {f g : ι → List (Turn M)} {is : List ι} (h : ∀ i ∈ is, f i = g i) :
    inTurn f is = inTurn g is := by
  apply List.flatMap_congr
  intro i hi
  rw [h i hi]

variable [DecidableEq ι]

def turnsAt (i : ι) (l : Trace ι M) : List (Turn M) := (l.filter (·.1 = i)).map (·.2)

theorem turnsAt_append (i : ι) (l r : Trace ι M) :
    turnsAt i (l ++ r) = turnsAt i l ++ turnsAt i r := by
  simp [turnsAt]

theorem turnsAt_cons (i : ι) (x : ι × Turn M) (l : Trace ι M) :
    turnsAt i (x::l) = if x.1 = i then x.2 :: turnsAt i l else turnsAt i l := by
  by_cases h : x.1 = i <;> simp [turnsAt, h]

theorem turnsAt_own (i : ι) (ts : List (Turn M)) : turnsAt i (ts.map (i, ·)) = ts := by
  induction ts with
  | nil => rfl
  | cons t ts ih => rw [List.map_cons, turnsAt_cons, if_pos rfl, ih]

theorem turnsAt_other {i j : ι} (h : j ≠ i) (ts : List (Turn M)) :
    turnsAt i (ts.map (j, ·)) = [] := by
  induction ts with
  | nil => rfl
  | cons t ts ih => rw [List.map_cons, turnsAt_cons, if_neg h, ih]

theorem turnsAt_inTurn (f : ι → List (Turn M)) {is : List ι} (hnd : is.Nodup) (i : ι) :
    turnsAt i (inTurn f is) = if i ∈ is then f i else [] := by
  induction is with
  | nil => rfl
  | cons j is ih =>
    obtain ⟨hj, hnd⟩ := List.nodup_cons.mp hnd
    rw [inTurn_cons, turnsAt_append, ih hnd]
    by_cases h : j = i
    · subst h
      rw [turnsAt_own, if_neg hj, if_pos List.mem_cons_self, List.append_nil]
    · rw [turnsAt_other h, List.nil_append]
      simp [Ne.symm h]

variable (D : Port S M ε ω) (T : Party ι M ε ω π)

def act (w : π × (ι → S)) : π × (ι → S) :=
  match T.program w.1 with
  | .tau next => (next, w.2)
  | .send i m next => (next (D.send (w.2 i) m).1, Function.update w.2 i (D.send (w.2 i) m).2)
  | .recv i next =>
    match D.recv (w.2 i) with
    | .error e => (T.abort e w.1, w.2)
    | .ok (r, s) => (next r, Function.update w.2 i s)
  | .wait _ next => (next (.ok ()), w.2)
  | .spawn _ _ | .accept _ | .halt => w

variable {D T} {w u : π × (ι → S)}

theorem act_tau {next : π} (h : T.program w.1 = .tau next) : act D T w = (next, w.2) := by
  rw [act, h]

theorem act_wait {i : ι} {next : Except ε Unit → π} (h : T.program w.1 = .wait i next) :
    act D T w = (next (.ok ()), w.2) := by
  rw [act, h]

theorem act_send {i : ι} {m : M} {next : Except ε Unit → π} (h : T.program w.1 = .send i m next)
    {r : Except ε Unit} {s : S} (hs : D.send (w.2 i) m = (r,s)) :
    act D T w = (next r, Function.update w.2 i s) := by
  rw [act, h]
  simp only [hs]

theorem act_recv {i : ι} {next : Except ε M → π} (h : T.program w.1 = .recv i next)
    {r : Except ε M} {s : S} (hs : D.recv (w.2 i) = .ok (r,s)) :
    act D T w = (next r, Function.update w.2 i s) := by
  rw [act, h]
  simp only [hs]

theorem act_abort {i : ι} {next : Except ε M → π} (h : T.program w.1 = .recv i next)
    {e : ω} (hs : D.recv (w.2 i) = .error e) : act D T w = (T.abort e w.1, w.2) := by
  rw [act, h]
  simp only [hs]

theorem act_halt (h : T.program w.1 = .halt) (k : ℕ) : (act D T)^[k] w = w := by
  apply Function.iterate_fixed
  rw [act, h]

section Solo

variable {T : Party Unit M ε ω π} {v : π × S}

def solo (D : Port S M ε ω) (T : Party Unit M ε ω π) (v : π × S) : π × S :=
  ((act D T (v.1, fun _ => v.2)).1, (act D T (v.1, fun _ => v.2)).2 ())

theorem solo_tau {next : π} (h : T.program v.1 = .tau next) : solo D T v = (next, v.2) := by
  rw [solo, act_tau (w := (v.1, fun _ => v.2)) h]

theorem solo_send {m : M} {next : Except ε Unit → π} (h : T.program v.1 = .send () m next)
    {r : Except ε Unit} {s : S} (hs : D.send v.2 m = (r,s)) : solo D T v = (next r, s) := by
  rw [solo, act_send (w := (v.1, fun _ => v.2)) h hs]
  simp

theorem solo_recv {next : Except ε M → π} (h : T.program v.1 = .recv () next)
    {r : Except ε M} {s : S} (hs : D.recv v.2 = .ok (r,s)) : solo D T v = (next r, s) := by
  rw [solo, act_recv (w := (v.1, fun _ => v.2)) h hs]
  simp

theorem solo_abort {next : Except ε M → π} (h : T.program v.1 = .recv () next) {e : ω}
    (hs : D.recv v.2 = .error e) : solo D T v = (T.abort e v.1, v.2) := by
  rw [solo, act_abort (w := (v.1, fun _ => v.2)) h hs]

theorem solo_halt (h : T.program v.1 = .halt) : solo D T v = v := by
  rw [solo, act, h]

end Solo

theorem ends_alike {j k : ℕ} (hj : T.program ((act D T)^[j] w).1 = .halt)
    (hk : T.program ((act D T)^[k] w).1 = .halt) : (act D T)^[j] w = (act D T)^[k] w := by
  rcases le_total j k with h | h
  · obtain ⟨d, rfl⟩ := Nat.exists_eq_add_of_le' h
    rw [Function.iterate_add_apply, act_halt hj]
  · obtain ⟨d, rfl⟩ := Nat.exists_eq_add_of_le' h
    rw [Function.iterate_add_apply, act_halt hk]

theorem turnsAt_turn {l : Trace ι M} {i : ι} {x : Turn M} {s : S}
    (hs : ∀ r t, Serves D s r t → Serves D (w.2 i) (x::r) t)
    (h : ∀ j, Serves D (Function.update w.2 i s j) (turnsAt j l) (u.2 j)) (j : ι) :
    Serves D (w.2 j) (turnsAt j ((i,x)::l)) (u.2 j) := by
  have hj := h j
  rw [turnsAt_cons]
  by_cases hij : i = j
  · subst hij
    rw [if_pos rfl]
    rw [Function.update_self] at hj
    exact hs _ _ hj
  · rw [if_neg hij]
    rwa [Function.update_of_ne (Ne.symm hij)] at hj

/-- A run that has not broken has followed a path, with every stream in its part. -/
theorem path_of_run {broken : π → Prop} (hT : Strict T broken) {k : ℕ}
    (h : (act D T)^[k] w = u) (hu : ¬ broken u.1) :
    ∃ l, Path T w.1 l u.1 ∧ ∀ i, Serves D (w.2 i) (turnsAt i l) (u.2 i) := by
  induction k generalizing w with
  | zero =>
    obtain rfl : w = u := h
    exact ⟨[], .nil _, fun i => .nil _⟩
  | succ k ih =>
    rw [Function.iterate_succ_apply] at h
    have hend : ∀ x, act D T w = x → ¬ broken x.1 := by
      rintro x rfl hx
      rw [act_halt (hT.stops _ hx)] at h
      exact hu (h ▸ hx)
    cases ha : T.program w.1 with
    | tau next =>
      rw [act_tau ha] at h
      obtain ⟨l, hl, hs⟩ := ih h
      exact ⟨l, .tau ha hl, hs⟩
    | send i m next =>
      obtain ⟨r, s, hsend⟩ : ∃ r s, D.send (w.2 i) m = (r,s) := ⟨_, _, rfl⟩
      have hact := act_send ha hsend
      cases r with
      | error e => exact absurd (hT.send _ _ _ _ ha e) (hend _ hact)
      | ok x =>
        rw [hact] at h
        obtain ⟨l, hl, hs⟩ := ih h
        exact ⟨_, .sent ha hl, turnsAt_turn (fun r t hr => .sent hsend hr) hs⟩
    | recv i next =>
      cases hrecv : D.recv (w.2 i) with
      | error e => exact absurd (hT.abort _ _) (hend _ (act_abort ha hrecv))
      | ok x =>
        obtain ⟨r, s⟩ := x
        have hact := act_recv ha hrecv
        cases r with
        | error e => exact absurd (hT.recv _ _ _ ha e) (hend _ hact)
        | ok m =>
          rw [hact] at h
          obtain ⟨l, hl, hs⟩ := ih h
          exact ⟨_, .got ha hl, turnsAt_turn (fun r t hr => .got hrecv hr) hs⟩
    | halt =>
      rw [act, ha] at h
      exact ih h
    | wait i next =>
      rw [act_wait ha] at h
      obtain ⟨l, hl, hs⟩ := ih h
      exact ⟨l, .wait ha hl, hs⟩
    | spawn i next | accept next =>
      have := hT.talks w.1
      rw [ha] at this
      exact this.elim

theorem serves_split {l : Trace ι M} {i : ι} {x : Turn M} {st t : ι → S}
    (h : ∀ j, Serves D (st j) (turnsAt j ((i,x)::l)) (t j)) :
    ∃ s, Serves D (st i) [x] s ∧
      ∀ j, Serves D (Function.update st i s j) (turnsAt j l) (t j) := by
  have hown := h i
  rw [turnsAt_cons, if_pos rfl] at hown
  have hrest : ∀ s, Serves D s (turnsAt i l) (t i) →
      ∀ j, Serves D (Function.update st i s j) (turnsAt j l) (t j) := by
    intro s hs j
    by_cases hij : i = j
    · subst hij
      rwa [Function.update_self]
    · have := h j
      rw [turnsAt_cons, if_neg hij] at this
      rwa [Function.update_of_ne (Ne.symm hij)]
  cases hown with
  | sent hsend hs => exact ⟨_, .sent hsend (.nil _), hrest _ hs⟩
  | got hrecv hs => exact ⟨_, .got hrecv (.nil _), hrest _ hs⟩

/-- Along a path that every stream plays its part in, the program runs. -/
theorem run_of_path {p q : π} {l : Trace ι M} (hl : Path T p l q) {st t : ι → S}
    (h : ∀ i, Serves D (st i) (turnsAt i l) (t i)) : ∃ k, (act D T)^[k] (p, st) = (q, t) := by
  induction hl generalizing st with
  | nil p =>
    have : st = t := funext fun i => serves_nil_iff.mp (h i)
    exact ⟨0, congrArg (p, ·) this⟩
  | tau ha _ ih =>
    obtain ⟨k, hk⟩ := ih h
    exact ⟨k+1, by rw [Function.iterate_succ_apply, act_tau ha]; exact hk⟩
  | wait ha _ ih =>
    obtain ⟨k, hk⟩ := ih h
    exact ⟨k+1, by rw [Function.iterate_succ_apply, act_wait ha]; exact hk⟩
  | sent ha _ ih =>
    obtain ⟨s, hone, hrest⟩ := serves_split h
    obtain ⟨k, hk⟩ := ih hrest
    refine ⟨k+1, ?_⟩
    cases hone with
    | sent hsend hnil =>
      cases hnil
      rw [Function.iterate_succ_apply, act_send ha hsend]
      exact hk
  | got ha _ ih =>
    obtain ⟨s, hone, hrest⟩ := serves_split h
    obtain ⟨k, hk⟩ := ih hrest
    refine ⟨k+1, ?_⟩
    cases hone with
    | got hrecv hnil =>
      cases hnil
      rw [Function.iterate_succ_apply, act_recv ha hrecv]
      exact hk

theorem act_lowers {W : π → ℕ} {d : ℕ} (htalks : Talks (T.program w.1))
    (hW : ParentLowers W d (W w.1) (T.program w.1))
    (hab : ∀ i next e, T.program w.1 = .recv i next → W (T.abort e w.1) < W w.1)
    (hrun : T.program w.1 ≠ .halt) : W (act D T w).1 < W w.1 := by
  cases ha : T.program w.1 with
  | tau next =>
    rw [ha] at hW
    rw [act_tau ha]
    exact hW
  | wait i next =>
    rw [ha] at hW
    rw [act_wait ha]
    exact hW _
  | send i m next =>
    rw [ha] at hW
    rw [act_send ha Prod.mk.eta.symm]
    cases (D.send (w.2 i) m).1 with
    | ok x => exact lt_of_le_of_lt (Nat.le_add_right _ d) hW.1
    | error e => exact hW.2 e
  | recv i next =>
    rw [ha] at hW
    cases hrecv : D.recv (w.2 i) with
    | error e =>
      rw [act_abort ha hrecv]
      exact hab i next e ha
    | ok x =>
      rw [act_recv ha (r := x.1) (s := x.2) hrecv]
      exact hW _
  | halt => exact absurd ha hrun
  | spawn i next | accept next =>
    rw [ha] at htalks
    exact htalks.elim

end Foundation.Dialogue
