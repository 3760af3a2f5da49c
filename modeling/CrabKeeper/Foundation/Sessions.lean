import CrabKeeper.Foundation.Machine

/-!
# Sessions with an object

An object takes one call at a time; a call returns a result and the next state,
or panics. A session is a list of calls, and its log pairs each with its
result. A session that returns can be cut anywhere, and calls that leave the
state as it was can be left out of it.
-/

set_option autoImplicit false

namespace Foundation.Sessions
open Foundation.Machine

variable {σ ι ω : Type} {step : σ → ι → Checked (ω × σ)}

def session (step : σ → ι → Checked (ω × σ)) (s : σ) : List ι → Checked (List (ι × ω) × σ)
  | [] => .ok ([], s)
  | c::cs => do
    let (r, s) ← step s c
    let (log, s) ← session step s cs
    return ((c,r)::log, s)

theorem session_nil_eq_ok {s u : σ} {log : List (ι × ω)} :
    session step s [] = .ok (log,u) ↔ log = [] ∧ u = s := by
  constructor
  · intro h
    obtain ⟨rfl, rfl⟩ := Prod.mk.inj (Except.ok.inj h)
    exact ⟨rfl, rfl⟩
  · rintro ⟨rfl, rfl⟩
    rfl

theorem session_cons_eq_ok {s u : σ} {c : ι} {cs : List ι} {log : List (ι × ω)} :
    session step s (c::cs) = .ok (log,u) ↔
      ∃ r t l, step s c = .ok (r,t) ∧ session step t cs = .ok (l,u) ∧ log = (c,r)::l := by
  rw [session, bind_eq_ok]
  constructor
  · rintro ⟨⟨r, t⟩, hc, h⟩
    obtain ⟨⟨l, v⟩, hcs, h⟩ := bind_eq_ok.mp h
    obtain ⟨rfl, rfl⟩ := Prod.mk.inj (Except.ok.inj h)
    exact ⟨r, t, l, hc, hcs, rfl⟩
  · rintro ⟨r, t, l, hc, hcs, rfl⟩
    refine ⟨(r,t), hc, ?_⟩
    show session step t cs >>= _ = _
    rw [hcs]
    rfl

theorem session_append_eq_ok {s u : σ} {cs ds : List ι} {log : List (ι × ω)} :
    session step s (cs ++ ds) = .ok (log,u) ↔
      ∃ l t k, session step s cs = .ok (l,t) ∧ session step t ds = .ok (k,u) ∧ log = l ++ k := by
  induction cs generalizing s log with
  | nil =>
    constructor
    · exact fun h => ⟨[], s, log, rfl, h, rfl⟩
    · rintro ⟨l, t, k, hl, hk, rfl⟩
      obtain ⟨rfl, rfl⟩ := session_nil_eq_ok.mp hl
      exact hk
  | cons c cs ih =>
    rw [List.cons_append, session_cons_eq_ok]
    constructor
    · rintro ⟨r, t, m, hc, hrest, rfl⟩
      obtain ⟨l, v, k, hl, hk, rfl⟩ := ih.mp hrest
      exact ⟨(c,r)::l, v, k, session_cons_eq_ok.mpr ⟨r, t, l, hc, hl, rfl⟩, hk, rfl⟩
    · rintro ⟨m, v, k, hm, hk, rfl⟩
      obtain ⟨r, t, l, hc, hl, rfl⟩ := session_cons_eq_ok.mp hm
      exact ⟨r, t, l ++ k, hc, ih.mpr ⟨l, v, k, hl, hk, rfl⟩, rfl⟩

/-- What every call keeps and relates, a session keeps and relates. -/
theorem session_related {I : σ → Prop} {R : σ → σ → Prop} (hrefl : ∀ s, R s s)
    (htrans : ∀ s t u, R s t → R t u → R s u)
    (hstep : ∀ s c r t, I s → step s c = .ok (r,t) → I t ∧ R s t) {s u : σ} {cs : List ι}
    {log : List (ι × ω)} (hs : I s) (h : session step s cs = .ok (log,u)) : I u ∧ R s u := by
  induction cs generalizing s log with
  | nil =>
    obtain ⟨rfl, rfl⟩ := session_nil_eq_ok.mp h
    exact ⟨hs, hrefl u⟩
  | cons c cs ih =>
    obtain ⟨r, t, l, hc, hl, rfl⟩ := session_cons_eq_ok.mp h
    obtain ⟨ht, hst⟩ := hstep s c r t hs hc
    obtain ⟨hu, htu⟩ := ih ht hl
    exact ⟨hu, htrans s t u hst htu⟩

/-- Calls that leave the state as it was can be left out: the others return what
they returned with them, and the session ends in the same state. -/
theorem session_filter {keep : ι × ω → Bool}
    (hidle : ∀ s c r t, step s c = .ok (r,t) → keep (c,r) = false → t = s) {s u : σ}
    {cs : List ι} {log : List (ι × ω)} (h : session step s cs = .ok (log,u)) :
    session step s ((log.filter keep).map Prod.fst) = .ok (log.filter keep,u) := by
  induction cs generalizing s log with
  | nil =>
    obtain ⟨rfl, rfl⟩ := session_nil_eq_ok.mp h
    rfl
  | cons c cs ih =>
    obtain ⟨r, t, l, hc, hl, rfl⟩ := session_cons_eq_ok.mp h
    by_cases hk : keep (c,r) = true
    · rw [List.filter_cons_of_pos hk]
      exact session_cons_eq_ok.mpr ⟨r, t, _, hc, ih hl, rfl⟩
    · obtain rfl := hidle s c r t hc (Bool.eq_false_iff.mpr hk)
      rw [List.filter_cons_of_neg hk]
      exact ih hl

end Foundation.Sessions
