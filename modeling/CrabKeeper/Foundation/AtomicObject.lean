import Mathlib.Tactic

/-!
# An object shared by concurrent threads

Any number of threads call one operation of a shared object. A call is invoked,
takes effect in one indivisible step and responds later; between these events
the other threads do what they like. Each response is what a sequential run of
the object returns, in an order that keeps every call that responded before
another was invoked before that other one.
-/

set_option autoImplicit false

namespace Foundation.AtomicObject

variable {τ σ ω : Type*}

inductive Event (τ ω : Type*) where
  | invoke (p : τ)
  | effect (p : τ)
  | respond (p : τ) (v : ω)
  deriving DecidableEq, Repr

def Event.thread : Event τ ω → τ
  | .invoke p | .effect p | .respond p _ => p

def Event.isEffect : Event τ ω → Bool
  | .effect _ => true
  | _ => false

inductive Status (ω : Type*) where
  | idle
  | called
  | done (v : ω)
  deriving DecidableEq, Repr

/-- The histories of an object with one operation, with the state they end in. -/
inductive Executes [DecidableEq τ] (op : σ → ω × σ) (s₀ : σ) :
    List (Event τ ω) → σ → (τ → Status ω) → Prop
  | start : Executes op s₀ [] s₀ (fun _ => .idle)
  | invoke {es s st} {p : τ} : Executes op s₀ es s st → st p = .idle →
      Executes op s₀ (es ++ [.invoke p]) s (Function.update st p .called)
  | effect {es s st} {p : τ} : Executes op s₀ es s st → st p = .called →
      Executes op s₀ (es ++ [.effect p]) (op s).2 (Function.update st p (.done (op s).1))
  | respond {es s st} {p : τ} {v : ω} : Executes op s₀ es s st → st p = .done v →
      Executes op s₀ (es ++ [.respond p v]) s (Function.update st p .idle)

def stateAt (op : σ → ω × σ) (s₀ : σ) (k : ℕ) : σ := (fun s => (op s).2)^[k] s₀

def resultAt (op : σ → ω × σ) (s₀ : σ) (k : ℕ) : ω := (op (stateAt op s₀ k)).1

theorem stateAt_succ (op : σ → ω × σ) (s₀ : σ) (k : ℕ) :
    stateAt op s₀ (k+1) = (op (stateAt op s₀ k)).2 :=
  Function.iterate_succ_apply' _ k s₀

/-- How many calls have taken effect before position `n`. -/
def rank (es : List (Event τ ω)) (n : ℕ) : ℕ := (es.take n).countP Event.isEffect

def Quiet (es : List (Event τ ω)) (p : τ) (m n : ℕ) : Prop :=
  ∀ j e, m < j → j < n → es[j]? = some e → e.thread ≠ p

/-- A call of thread `p`, by the positions of its three events. -/
structure Call (es : List (Event τ ω)) (p : τ) (i f r : ℕ) (v : ω) : Prop where
  invoked : es[i]? = some (.invoke p)
  effective : es[f]? = some (.effect p)
  responded : es[r]? = some (.respond p v)
  before : i < f
  after : f < r
  waits : Quiet es p i f
  returns : Quiet es p f r

variable {es : List (Event τ ω)} {e : Event τ ω} {p q : τ} {v w : ω} {i j k f g m n r u : ℕ}

theorem lookup_old (h : es[i]? = some e) (x : Event τ ω) : (es ++ [x])[i]? = some e := by
  rw [List.getElem?_append_left (List.getElem?_eq_some_iff.mp h).1, h]

theorem lookup_cases {x : Event τ ω} (h : (es ++ [x])[i]? = some e) :
    es[i]? = some e ∨ i = es.length ∧ e = x := by
  rcases Nat.lt_trichotomy i es.length with hi | hi | hi
  · rw [List.getElem?_append_left hi] at h
    exact Or.inl h
  · subst hi
    rw [List.getElem?_concat_length, Option.some_inj] at h
    exact Or.inr ⟨rfl, h.symm⟩
  · rw [List.getElem?_eq_none (by simp; omega)] at h
    cases h

theorem rank_old (h : n ≤ es.length) (x : Event τ ω) : rank (es ++ [x]) n = rank es n := by
  rw [rank, List.take_append_of_le_length h, rank]

theorem rank_length (es : List (Event τ ω)) : rank es es.length = es.countP Event.isEffect := by
  rw [rank, List.take_length]

theorem rank_mono (es : List (Event τ ω)) (h : m ≤ n) : rank es m ≤ rank es n :=
  (List.take_prefix_take_left h).sublist.countP_le

theorem rank_lt (hf : es[f]? = some (.effect p)) (h : f < n) : rank es f < rank es n := by
  have hsucc : rank es (f+1) = rank es f+1 := by
    rw [rank, List.take_add_one, hf, List.countP_append]
    rfl
  have := rank_mono es (show f+1 ≤ n from h)
  omega

theorem rank_lt_count (hf : es[f]? = some (.effect p)) : rank es f < es.countP Event.isEffect := by
  rw [← rank_length]
  exact rank_lt hf (List.getElem?_eq_some_iff.mp hf).1

theorem Quiet.old (h : Quiet es p m n) (hn : n ≤ es.length) (x : Event τ ω) :
    Quiet (es ++ [x]) p m n := by
  intro j e hm hj he
  rcases lookup_cases he with he | ⟨rfl, _⟩
  · exact h j e hm hj he
  · omega

inductive Stands (op : σ → ω × σ) (s₀ : σ) (es : List (Event τ ω)) (p : τ) : Status ω → Prop
  | idle : Stands op s₀ es p .idle
  | called (i : ℕ) : es[i]? = some (.invoke p) → Quiet es p i es.length →
      Stands op s₀ es p .called
  | done (i f : ℕ) : es[i]? = some (.invoke p) → es[f]? = some (.effect p) → i < f →
      Quiet es p i f → Quiet es p f es.length →
      Stands op s₀ es p (.done (resultAt op s₀ (rank es f)))

structure Sound (op : σ → ω × σ) (s₀ : σ) (es : List (Event τ ω)) (s : σ)
    (st : τ → Status ω) : Prop where
  state : s = stateAt op s₀ (es.countP Event.isEffect)
  stands : ∀ p, Stands op s₀ es p (st p)
  calls : ∀ r p v, es[r]? = some (.respond p v) →
    ∃ i f, Call es p i f r v ∧ v = resultAt op s₀ (rank es f)

variable {op : σ → ω × σ} {s₀ : σ} {s : σ} {a : Status ω}

theorem Quiet.extend (h : Quiet es p m es.length) {x : Event τ ω} (hx : x.thread ≠ p) :
    Quiet (es ++ [x]) p m (es ++ [x]).length := by
  intro j e hm _ he
  rcases lookup_cases he with he | ⟨_, rfl⟩
  · exact h j e hm (List.getElem?_eq_some_iff.mp he).1 he
  · exact hx

theorem quiet_since (es : List (Event τ ω)) (x : Event τ ω) (p : τ) :
    Quiet (es ++ [x]) p es.length (es ++ [x]).length := by
  intro j e hm hj _
  rw [List.length_append, List.length_singleton] at hj
  omega

theorem lookup_le (h : es[i]? = some e) : i ≤ es.length :=
  (List.getElem?_eq_some_iff.mp h).1.le

theorem Call.old (h : Call es p i f r v) (x : Event τ ω) : Call (es ++ [x]) p i f r v where
  invoked := lookup_old h.invoked x
  effective := lookup_old h.effective x
  responded := lookup_old h.responded x
  before := h.before
  after := h.after
  waits := h.waits.old (lookup_le h.effective) x
  returns := h.returns.old (lookup_le h.responded) x

theorem Stands.other (h : Stands op s₀ es p a) {x : Event τ ω} (hx : x.thread ≠ p) :
    Stands op s₀ (es ++ [x]) p a := by
  cases h with
  | idle => exact .idle
  | called i hi hq => exact .called i (lookup_old hi x) (hq.extend hx)
  | done i f hi hf hlt hw hq =>
    rw [← rank_old (lookup_le hf) x]
    exact .done i f (lookup_old hi x) (lookup_old hf x) hlt (hw.old (lookup_le hf) x)
      (hq.extend hx)

section Runs

variable [DecidableEq τ] {st : τ → Status ω}

/-- The step lemma: one event of one thread. -/
theorem Sound.snoc (h : Sound op s₀ es s st) {x : Event τ ω} {s' : σ} (hthread : x.thread = p)
    (hstate : s' = stateAt op s₀ ((es ++ [x]).countP Event.isEffect))
    (hstands : Stands op s₀ (es ++ [x]) p a)
    (hcalls : ∀ v, x = .respond p v → ∃ i f, Call (es ++ [x]) p i f es.length v ∧
      v = resultAt op s₀ (rank es f) ∧ f < es.length) :
    Sound op s₀ (es ++ [x]) s' (Function.update st p a) := by
  refine ⟨hstate, fun q => ?_, fun r q v hr => ?_⟩
  · by_cases hq : q = p
    · subst hq
      rwa [Function.update_self]
    · rw [Function.update_of_ne hq]
      exact (h.stands q).other (by rw [hthread]; exact Ne.symm hq)
  · rcases lookup_cases hr with hr | ⟨rfl, hx⟩
    · obtain ⟨i, f, hc, hv⟩ := h.calls r q v hr
      exact ⟨i, f, hc.old x, by rw [rank_old (lookup_le hc.effective)]; exact hv⟩
    · obtain rfl : q = p := by rw [← hthread, ← hx]; rfl
      obtain ⟨i, f, hc, hv, hf⟩ := hcalls v hx.symm
      exact ⟨i, f, hc, by rw [rank_old hf.le]; exact hv⟩

theorem executes_sound (h : Executes op s₀ es s st) : Sound op s₀ es s st := by
  induction h with
  | start => exact ⟨rfl, fun p => .idle, fun r p v hr => by cases hr⟩
  | @invoke es s st p _ hp ih =>
    refine ih.snoc rfl ?_ (.called es.length (by simp) (quiet_since es _ p)) fun v hx => by cases hx
    rw [List.countP_append]
    exact ih.state
  | @effect es s st p _ hp ih =>
    have hstands := ih.stands p
    rw [hp] at hstands
    cases hstands with
    | called i hi hq =>
      have hres : (op s).1 = resultAt op s₀ (rank (es ++ [.effect p]) es.length) := by
        rw [rank_old le_rfl, rank_length, ih.state]
        rfl
      refine ih.snoc rfl ?_ ?_ fun v hx => by cases hx
      · rw [List.countP_append, ih.state]
        exact (stateAt_succ op s₀ _).symm
      · rw [hres]
        exact .done i es.length (lookup_old hi _) (by simp) (List.getElem?_eq_some_iff.mp hi).1
          (hq.old le_rfl _) (quiet_since es _ p)
  | @respond es s st p v _ hp ih =>
    have hstands := ih.stands p
    rw [hp] at hstands
    refine ih.snoc rfl ?_ .idle fun w hx => ?_
    · rw [List.countP_append]
      exact ih.state
    · obtain ⟨_, rfl⟩ := Event.respond.inj hx
      cases hstands with
      | done i f hi hf hlt hw hq =>
        have hlen := (List.getElem?_eq_some_iff.mp hf).1
        refine ⟨i, f, ⟨lookup_old hi _, lookup_old hf _, by simp, hlt, hlen, ?_, ?_⟩, rfl, hlen⟩
        · exact hw.old hlen.le _
        · exact hq.old le_rfl _

end Runs

theorem Call.effect_eq (h : Call es p i f r v) (h' : Call es p j g r w) : f = g := by
  rcases Nat.lt_trichotomy f g with hlt | heq | hlt
  · exact absurd rfl (h.returns g _ hlt h'.after h'.effective)
  · exact heq
  · exact absurd rfl (h'.returns f _ hlt h.after h.effective)

theorem Call.effect_ne (h : Call es p i f r v) (h' : Call es q j g u w) (hne : r ≠ u) :
    f ≠ g := by
  rintro rfl
  obtain rfl : p = q := by
    have := h.effective.symm.trans h'.effective
    simpa using this
  rcases Nat.lt_or_gt_of_ne hne with hlt | hlt
  · exact h'.returns r _ h.after hlt h.responded rfl
  · exact h.returns u _ h'.after hlt h'.responded rfl

theorem Call.rank_ne (h : Call es p i f r v) (h' : Call es q j g u w) (hne : r ≠ u) :
    rank es f ≠ rank es g := by
  rcases Nat.lt_or_gt_of_ne (h.effect_ne h' hne) with hlt | hlt
  · exact (rank_lt h.effective hlt).ne
  · exact (rank_lt h'.effective hlt).ne'

theorem Call.rank_lt (h : Call es p i f r v) (h' : Call es q j g u w) (hlt : r < j) :
    rank es f < rank es g :=
  AtomicObject.rank_lt h.effective (h.after.trans (hlt.trans h'.before))

end Foundation.AtomicObject
