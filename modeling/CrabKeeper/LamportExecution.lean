import CrabKeeper.Foundation.Causality
import CrabKeeper.Clocks

/-!
# The Lamport clock theorem

An execution is a list of events in some order in which they could have
happened; an event is known by its position. Any earlier send may be delivered
at any later time, any number of times or never, so messages are delayed,
reordered, lost and duplicated at will. Happened-before is defined from
processes, positions and messages alone, and never from a clock.
-/

set_option autoImplicit false

namespace CrabKeeper.LamportExecution
open Foundation.Machine Foundation.Causality
open CrabKeeper.Clocks

variable {ι : Type}

/-- A receive names the position of the send whose message it delivers. -/
inductive Event (ι : Type) where
  | internal (p : ι)
  | send (p : ι)
  | receive (p : ι) (sender : ℕ)
  deriving DecidableEq, Repr

def Event.process : Event ι → ι
  | .internal p => p
  | .send p => p
  | .receive p _ => p

def Event.Delivers : Event ι → ℕ → Prop
  | .receive _ sender, d => d = sender
  | _, _ => False

/-- Executions with the final clocks and the value each event returned. Every
process starts from `LamportClock::new()`. -/
inductive Executes [DecidableEq ι] :
    List (Event ι) → (ι → LamportClock) → List UInt64 → Prop
  | start : Executes [] (fun _ => .new) []
  | internal {es cs vs} {p : ι} {v : UInt64} {c : LamportClock} : Executes es cs vs →
      (cs p).increment = .ok (v,c) →
      Executes (es ++ [.internal p]) (Function.update cs p c) (vs ++ [v])
  | send {es cs vs} {p : ι} {v : UInt64} {c : LamportClock} : Executes es cs vs →
      (cs p).increment = .ok (v,c) →
      Executes (es ++ [.send p]) (Function.update cs p c) (vs ++ [v])
  | receive {es cs vs} {p q : ι} {d : ℕ} {m v : UInt64} {c : LamportClock} : Executes es cs vs →
      es[d]? = some (.send q) → vs[d]? = some m → (cs p).update m = .ok (v,c) →
      Executes (es ++ [.receive p d]) (Function.update cs p c) (vs ++ [v])

/-- Position `d` is a direct cause of position `e`: an earlier event of the same
process, or the send that `e` delivers. -/
def Causes (es : List (Event ι)) (d e : ℕ) : Prop :=
  d < e ∧ ∃ a b, es[d]? = some a ∧ es[e]? = some b ∧ (a.process = b.process ∨ b.Delivers d)

def HappenedBefore (es : List (Event ι)) : ℕ → ℕ → Prop := Relation.TransGen (Causes es)

def value (vs : List UInt64) (e : ℕ) : ℕ := ((vs[e]?).map UInt64.toNat).getD 0

/-- What an execution keeps: values number the causes, and each clock holds the
largest value its process has returned. -/
structure Sound (es : List (Event ι)) (cs : ι → LamportClock) (vs : List UInt64) : Prop where
  length : vs.length = es.length
  numbered : Numbered (Causes es) (· < es.length) (value vs)
  covers : ∀ d a, es[d]? = some a → value vs d ≤ (cs a.process).time.toNat
  attained : ∀ p, (cs p).time.toNat = 0 ∨
    ∃ d a, es[d]? = some a ∧ a.process = p ∧ value vs d = (cs p).time.toNat

theorem value_old {vs : List UInt64} {v : UInt64} {d : ℕ} (h : d < vs.length) :
    value (vs ++ [v]) d = value vs d := by
  rw [value, value, List.getElem?_append_left h]

theorem value_new (vs : List UInt64) (v : UInt64) : value (vs ++ [v]) vs.length = v.toNat := by
  simp [value]

theorem lookup_old {es : List (Event ι)} {ev a : Event ι} {d : ℕ} (h : d < es.length) :
    (es ++ [ev])[d]? = some a ↔ es[d]? = some a := by
  rw [List.getElem?_append_left h]

theorem lookup_lt {es : List (Event ι)} {a : Event ι} {d : ℕ} (h : es[d]? = some a) :
    d < es.length :=
  (List.getElem?_eq_some_iff.mp h).1

theorem causes_old {es : List (Event ι)} {ev : Event ι} {d e : ℕ} (he : e < es.length) :
    Causes (es ++ [ev]) d e ↔ Causes es d e := by
  constructor
  · rintro ⟨hlt, a, b, ha, hb, h⟩
    exact ⟨hlt, a, b, (lookup_old (by omega)).mp ha, (lookup_old he).mp hb, h⟩
  · rintro ⟨hlt, a, b, ha, hb, h⟩
    exact ⟨hlt, a, b, (lookup_old (by omega)).mpr ha, (lookup_old he).mpr hb, h⟩

theorem causes_new {es : List (Event ι)} {ev : Event ι} {d : ℕ} :
    Causes (es ++ [ev]) d es.length ↔
      ∃ a, es[d]? = some a ∧ (a.process = ev.process ∨ ev.Delivers d) := by
  constructor
  · rintro ⟨hlt, a, b, ha, hb, h⟩
    obtain rfl : ev = b := by simpa using hb
    exact ⟨a, (lookup_old hlt).mp ha, h⟩
  · rintro ⟨a, ha, h⟩
    have hlt := lookup_lt ha
    exact ⟨hlt, a, ev, (lookup_old hlt).mpr ha, by simp, h⟩

/-- The step lemma. An event's value is one above a number `base` that its own
clock and the message it delivers do not exceed and one of them attains. -/
theorem sound_snoc [DecidableEq ι] {es : List (Event ι)} {cs : ι → LamportClock}
    {vs : List UInt64} (h : Sound es cs vs) (ev : Event ι) (v : UInt64) (c : LamportClock)
    (base : ℕ) (hv : v.toNat = base+1) (hc : c.time = v)
    (hown : (cs ev.process).time.toNat ≤ base)
    (hmsg : ∀ d, d < es.length → ev.Delivers d → value vs d ≤ base)
    (hbase : base = (cs ev.process).time.toNat ∨
      ∃ d, d < es.length ∧ ev.Delivers d ∧ value vs d = base) :
    Sound (es ++ [ev]) (Function.update cs ev.process c) (vs ++ [v]) := by
  have hlen := h.length
  have hnew : value (vs ++ [v]) es.length = base+1 := by rw [← hlen, value_new, hv]
  have hold : ∀ d, d < es.length → value (vs ++ [v]) d = value vs d := fun d hd =>
    value_old (by omega)
  have hcause : ∀ d a, es[d]? = some a → a.process = ev.process → value vs d ≤ base :=
    fun d a ha hp => by
      have := h.covers d a ha
      rw [hp] at this
      omega
  refine ⟨by simp [hlen], ⟨?_, ?_, ?_, ?_⟩, ?_, ?_⟩
  · intro e he
    rw [List.length_append, List.length_singleton] at he
    rcases Nat.lt_succ_iff_lt_or_eq.mp he with he | rfl
    · rw [hold e he]
      exact h.numbered.positive e he
    · omega
  · rintro d e ⟨_, a, _, ha, _⟩
    exact lookup_lt ha
  · intro d e hde
    have he : e < es.length+1 := by
      obtain ⟨_, _, b, _, hb, _⟩ := hde
      simpa using lookup_lt hb
    rcases Nat.lt_succ_iff_lt_or_eq.mp he with he | rfl
    · have hd := hde.1
      rw [hold d (by omega), hold e he]
      exact h.numbered.above d e ((causes_old he).mp hde)
    · obtain ⟨a, ha, hp | hdel⟩ := causes_new.mp hde
      · have := hcause d a ha hp
        rw [hold d (lookup_lt ha)]
        omega
      · have := hmsg d (lookup_lt ha) hdel
        rw [hold d (lookup_lt ha)]
        omega
  · intro e he
    rw [List.length_append, List.length_singleton] at he
    rcases Nat.lt_succ_iff_lt_or_eq.mp he with he | rfl
    · rw [hold e he]
      rcases h.numbered.tight e he with h1 | ⟨d, hd, h1⟩
      · exact Or.inl h1
      · exact Or.inr ⟨d, (causes_old he).mpr hd, by rw [hold d (hd.1.trans he), h1]⟩
    · rw [hnew]
      rcases hbase with hb | ⟨d, hd, hdel, hb⟩
      · rcases h.attained ev.process with h0 | ⟨d, a, ha, hp, h0⟩
        · exact Or.inl (by omega)
        · exact Or.inr ⟨d, causes_new.mpr ⟨a, ha, Or.inl hp⟩,
            by rw [hold d (lookup_lt ha)]; omega⟩
      · exact Or.inr ⟨d, causes_new.mpr ⟨es[d], by simp [hd], Or.inr hdel⟩,
          by rw [hold d hd, hb]⟩
  · intro d a ha
    rcases Nat.lt_succ_iff_lt_or_eq.mp (by simpa using lookup_lt ha) with hd | rfl
    · rw [hold d hd]
      have hcov := h.covers d a ((lookup_old hd).mp ha)
      by_cases hp : a.process = ev.process
      · rw [hp] at hcov ⊢
        rw [Function.update_self, hc, hv]
        omega
      · rwa [Function.update_of_ne hp]
    · obtain rfl : ev = a := by simpa using ha
      rw [Function.update_self, hc, hnew, hv]
  · intro p
    by_cases hp : p = ev.process
    · subst hp
      exact Or.inr ⟨es.length, ev, by simp, rfl, by rw [Function.update_self, hc, hnew, hv]⟩
    · rw [Function.update_of_ne hp]
      rcases h.attained p with h0 | ⟨d, a, ha, hap, h0⟩
      · exact Or.inl h0
      · exact Or.inr ⟨d, a, (lookup_old (lookup_lt ha)).mpr ha, hap,
          by rw [hold d (lookup_lt ha), h0]⟩

theorem executes_sound [DecidableEq ι] {es : List (Event ι)} {cs : ι → LamportClock}
    {vs : List UInt64} (h : Executes es cs vs) : Sound es cs vs := by
  induction h with
  | start =>
    refine ⟨rfl, ⟨?_, ?_, ?_, ?_⟩, ?_, fun p => Or.inl rfl⟩
    · intro e he
      simp at he
    · rintro d e ⟨_, a, _, ha, _⟩
      simp at ha
    · rintro d e ⟨_, a, _, ha, _⟩
      simp at ha
    · intro e he
      simp at he
    · intro d a ha
      simp at ha
  | @internal es cs vs p v c _ hinc ih =>
    obtain ⟨hv, hc⟩ := increment_eq_ok.mp hinc
    exact sound_snoc ih (.internal p) v c _ hv hc le_rfl (fun _ _ hd => hd.elim) (Or.inl rfl)
  | @send es cs vs p v c _ hinc ih =>
    obtain ⟨hv, hc⟩ := increment_eq_ok.mp hinc
    exact sound_snoc ih (.send p) v c _ hv hc le_rfl (fun _ _ hd => hd.elim) (Or.inl rfl)
  | @receive es cs vs p q d m v c _ hsend hm hup ih =>
    obtain ⟨hv, hc⟩ := update_eq_ok.mp hup
    have hval : value vs d = m.toNat := by simp [value, hm]
    refine sound_snoc ih (.receive p d) v c _ hv hc (Nat.le_max_left _ _) ?_ ?_
    · rintro e _ rfl
      rw [hval]
      exact Nat.le_max_right _ _
    · rcases max_choice (cs p).time.toNat m.toNat with h | h
      · exact Or.inl h
      · exact Or.inr ⟨d, lookup_lt hsend, rfl, by rw [hval, h]⟩

section Progress

variable {es : List (Event ι)} {cs : ι → LamportClock} {vs : List UInt64}

def Possible (es : List (Event ι)) (ev : Event ι) : Prop :=
  ∀ d, ev.Delivers d → ∃ q, es[d]? = some (.send q)

theorem clock_lt {N : ℕ} (h : Sound es cs vs) (hN : 0 < N) (hlt : ∀ v ∈ vs, v.toNat < N)
    (p : ι) : (cs p).time.toNat < N := by
  rcases h.attained p with h0 | ⟨d, a, ha, _, hd⟩
  · rwa [h0]
  · have hdlt : d < vs.length := by
      rw [h.length]
      exact lookup_lt ha
    rw [← hd, value, List.getElem?_eq_getElem hdlt]
    exact hlt _ (List.getElem_mem hdlt)

variable [DecidableEq ι]

/-- While all values are below `u64::MAX`, any possible event can come next. -/
theorem executes_extends (h : Executes es cs vs) (hlt : ∀ v ∈ vs, v.toNat < 2^64-1)
    {ev : Event ι} (hev : Possible es ev) : ∃ cs' v, Executes (es ++ [ev]) cs' (vs ++ [v]) := by
  have hclock := clock_lt (executes_sound h) (by decide) hlt
  cases ev with
  | internal p =>
    obtain ⟨v, c, hinc⟩ := increment_of_lt (Nat.add_lt_of_lt_sub (hclock p))
    exact ⟨_, v, .internal h hinc⟩
  | send p =>
    obtain ⟨v, c, hinc⟩ := increment_of_lt (Nat.add_lt_of_lt_sub (hclock p))
    exact ⟨_, v, .send h hinc⟩
  | receive p d =>
    obtain ⟨q, hq⟩ := hev d rfl
    have hd : d < vs.length := by
      rw [(executes_sound h).length]
      exact lookup_lt hq
    have hm := hlt _ (List.getElem_mem hd)
    obtain ⟨v, c, hup⟩ := update_of_lt (Nat.add_lt_of_lt_sub (hclock p)) (Nat.add_lt_of_lt_sub hm)
    exact ⟨_, v, .receive h hq (List.getElem?_eq_getElem hd) hup⟩

/-- Values do not exceed the number of events, so an execution of fewer than
`2^64` possible events always exists. -/
theorem executes_of_possible (es : List (Event ι)) (hlen : es.length < 2^64)
    (hes : ∀ k ev, es[k]? = some ev → Possible (es.take k) ev) : ∃ cs vs, Executes es cs vs := by
  induction es using List.reverseRecOn with
  | nil => exact ⟨_, _, .start⟩
  | append_singleton es ev ih =>
    rw [List.length_append, List.length_singleton] at hlen
    obtain ⟨cs, vs, h⟩ := ih (by omega) fun k a ha => by
      have hk := lookup_lt ha
      have := hes k a ((lookup_old hk).mpr ha)
      rwa [List.take_append_of_le_length hk.le] at this
    have hlast : Possible es ev := by
      have := hes es.length ev (by simp)
      rwa [List.take_left] at this
    have hsound := executes_sound h
    have hvalue : ∀ e < es.length, value vs e ≤ e+1 := by
      intro e
      induction e using Nat.strong_induction_on with
      | h e ihe =>
        intro he
        rcases hsound.numbered.tight e he with h1 | ⟨d, hd, h1⟩
        · omega
        · have := ihe d hd.1 (hd.1.trans he)
          have := hd.1
          omega
    obtain ⟨cs', v, hext⟩ := executes_extends h (fun v hv => by
      obtain ⟨e, he⟩ := List.getElem?_of_mem hv
      have hlt := (List.getElem?_eq_some_iff.mp he).1
      rw [hsound.length] at hlt
      have := hvalue e hlt
      rw [value, he] at this
      change v.toNat ≤ e+1 at this
      omega) hlast
    exact ⟨cs', _, hext⟩

end Progress

/-- Lamport's theorem in exact form: an event's value is the number of events
on a longest happened-before chain that ends at it. -/
theorem lamport_clock_exact [DecidableEq ι] {es : List (Event ι)} {cs : ι → LamportClock}
    {vs : List UInt64} (h : Executes es cs vs) :
    vs.length = es.length ∧
    (∀ e < es.length, IsGreatest (chainSizes (HappenedBefore es) e) (value vs e)) ∧
    ∀ a b, HappenedBefore es a b → value vs a < value vs b := by
  have hn := transGen_numbered (executes_sound h).numbered
  exact ⟨(executes_sound h).length, fun e he => numbered_longest hn e he, hn.above⟩

def oneMessage : List (Event Bool) := [.send false, .receive true 0]

theorem executes_oneMessage : ∃ cs, Executes oneMessage cs [1, 2] := by
  have hsend : Executes ([] ++ [.send false]) _ ([] ++ [1]) :=
    .send .start (c := ⟨1⟩) (increment_eq_ok.mpr ⟨rfl, rfl⟩)
  exact ⟨_, .receive hsend (q := false) (m := 1) (c := ⟨2⟩) rfl rfl (update_eq_ok.mpr ⟨rfl, rfl⟩)⟩

theorem lamport_clock_exact_one_message :
    ∃ cs, Executes oneMessage cs [1, 2] ∧
      IsGreatest (chainSizes (HappenedBefore oneMessage) 1) 2 ∧ (1 : ℕ) < 2 := by
  obtain ⟨cs, h⟩ := executes_oneMessage
  have hexact := lamport_clock_exact h
  have hbefore : HappenedBefore oneMessage 0 1 :=
    .single ⟨by decide, _, _, rfl, rfl, Or.inr rfl⟩
  exact ⟨cs, h, hexact.2.1 1 (by decide), hexact.2.2 0 1 hbefore⟩

end CrabKeeper.LamportExecution
