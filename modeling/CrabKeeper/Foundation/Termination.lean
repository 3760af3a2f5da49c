import CrabKeeper.Foundation.Network

/-!
# Networks that come to rest

A measure that every step lowers bounds the length of runs, so every run can be
prolonged to a state without steps. In a network the measure is a weight of the
local states and of the messages on their way to the children.
-/

set_option autoImplicit false

namespace Foundation.Termination
open Foundation.Transition Foundation.Network

variable {S : Type*}

def Stuck (T : System S) (s : S) : Prop := ∀ t, ¬ T.step s t

theorem reaches_stuck {T : System S} (μ : S → ℕ)
    (hμ : ∀ s t, Reachable T s → T.step s t → μ t < μ s) {s : S} (hs : Reachable T s) :
    ∃ t, Reachable T t ∧ Relation.ReflTransGen T.step s t ∧ Stuck T t := by
  induction hm : μ s using Nat.strong_induction_on generalizing s with
  | h m ih =>
    by_cases hstuck : Stuck T s
    · exact ⟨s, hs, .refl, hstuck⟩
    · simp only [Stuck, not_forall, not_not] at hstuck
      obtain ⟨t, ht⟩ := hstuck
      obtain ⟨u, hu, htu, hend⟩ := ih (μ t) (hm ▸ hμ s t hs ht) (hs.step ht) rfl
      exact ⟨u, hu, .head ht htu, hend⟩

/-- Iterating a function that lowers a measure until something is done, which it
then is, with whatever the function preserves on the way. -/
theorem iterate_settles (f : S → S) (μ : S → ℕ) {I Q : S → Prop}
    (hstep : ∀ s, I s → ¬ Q s → I (f s) ∧ μ (f s) < μ s) {s : S} (hs : I s) :
    ∃ k ≤ μ s, I (f^[k] s) ∧ Q (f^[k] s) := by
  induction hm : μ s using Nat.strong_induction_on generalizing s with
  | h m ih =>
    by_cases hq : Q s
    · exact ⟨0, Nat.zero_le m, hs, hq⟩
    · obtain ⟨hi, hlt⟩ := hstep s hs hq
      obtain ⟨k, hk, hki, hkq⟩ := ih (μ (f s)) (hm ▸ hlt) hi rfl
      exact ⟨k+1, by omega, hki, hkq⟩

variable {ι M ε σ π : Type} {v : σ → ℕ} {W : π → ℕ} {d : ℕ}

def ChildLowers (v : σ → ℕ) (d b : ℕ) : ChildAction M ε σ → Prop
  | .connect next => v next < b
  | .send _ next => ∀ r, v (next r) < b
  | .recv next => (∀ m, v (next (.ok m)) < b+d) ∧ ∀ e, v (next (.error e)) < b
  | .tau next => v next < b
  | .halt => True

def ParentLowers (W : π → ℕ) (d b : ℕ) : ParentAction ι M ε π → Prop
  | .spawn _ next => ∀ r, W (next r) < b
  | .accept next => ∀ r, W (next r) < b
  | .send _ _ next => W (next (.ok ()))+d < b ∧ ∀ e, W (next (.error e)) < b
  | .recv _ next => ∀ r, W (next r) < b
  | .wait _ next => ∀ r, W (next r) < b
  | .tau next => W next < b
  | .halt => True

def cellWeight (v : σ → ℕ) (d : ℕ) (c : Cell M σ) : ℕ := v c.state+d*c.down.length

theorem childMove_lowers {a : ChildAction M ε σ} {c c' : Cell M σ}
    (ha : ChildLowers v d (v c.state) a) (h : childMove a c = some c') :
    cellWeight v d c' < cellWeight v d c := by
  cases a with
  | connect next | tau next =>
    obtain rfl := Option.some.inj h
    exact Nat.add_lt_add_right ha _
  | send m next =>
    obtain rfl := Option.some.inj h
    exact Nat.add_lt_add_right (ha (.ok ())) _
  | recv next =>
    simp only [childMove] at h
    split at h
    · cases h
    · next m rest hd =>
      obtain rfl := Option.some.inj h
      have := ha.1 m
      rw [cellWeight, cellWeight, hd, List.length_cons, mul_add]
      dsimp only
      omega
  | halt => cases h

theorem childFault_lowers {eof broken : ε} {a : ChildAction M ε σ} {c c' : Cell M σ}
    (ha : ChildLowers v d (v c.state) a) (h : childFault eof broken a c = some c') :
    cellWeight v d c' < cellWeight v d c := by
  cases a with
  | send m next =>
    obtain rfl := Option.some.inj h
    exact Nat.add_lt_add_right (ha _) _
  | recv next =>
    simp only [childFault] at h
    split at h
    · obtain rfl := Option.some.inj h
      exact Nat.add_lt_add_right (ha.2 _) _
    · cases h
  | connect | tau | halt => cases h

variable [Fintype ι]

def weight (W : π → ℕ) (v : σ → ℕ) (d : ℕ) (s : Net ι M σ π) : ℕ :=
  W s.parent+∑ i, cellWeight v d (s.cell i)

variable [DecidableEq ι]

theorem sum_setCell (f : Cell M σ → ℕ) (s : Net ι M σ π) (i : ι) (c : Cell M σ) :
    ∑ j, f ((s.setCell i c).cell j)+f (s.cell i) = ∑ j, f (s.cell j)+f c := by
  have hrest : ∑ j ∈ Finset.univ.erase i, f ((s.setCell i c).cell j) =
      ∑ j ∈ Finset.univ.erase i, f (s.cell j) := by
    apply Finset.sum_congr rfl
    intro j hj
    rw [setCell_ne _ _ (Finset.ne_of_mem_erase hj)]
  rw [← Finset.sum_erase_add Finset.univ _ (Finset.mem_univ i), hrest, setCell_self,
    ← Finset.sum_erase_add Finset.univ (fun j => f (s.cell j)) (Finset.mem_univ i)]
  omega

theorem weight_setCell_lt (p : π) {s : Net ι M σ π} {i : ι} {c : Cell M σ}
    (h : W p+cellWeight v d c < W s.parent+cellWeight v d (s.cell i)) :
    weight W v d { s.setCell i c with parent := p } < weight W v d s := by
  have := sum_setCell (cellWeight v d) s i c
  simp only [weight]
  change W p+∑ j, cellWeight v d ((s.setCell i c).cell j) < _
  omega

variable {P : Protocol ι M ε σ π} {s t : Net ι M σ π}

theorem parentMove_lowers (hp : ParentLowers W d (W s.parent) (P.parent s.parent))
    (h : ParentMove P s t) : weight W v d t < weight W v d s := by
  have hkeep : ∀ i (c : Cell M σ) p, cellWeight v d c = cellWeight v d (s.cell i) →
      W p < W s.parent → weight W v d { s.setCell i c with parent := p } < weight W v d s :=
    fun i c p hc hlt => weight_setCell_lt p (by omega)
  cases h with
  | spawn ha =>
    rw [ha] at hp
    exact hkeep _ _ _ rfl (hp _)
  | recv ha _ =>
    rw [ha] at hp
    exact hkeep _ _ _ rfl (hp _)
  | send ha =>
    rw [ha] at hp
    refine weight_setCell_lt _ ?_
    have := hp.1
    simp only [cellWeight, List.length_append, List.length_singleton, mul_add, mul_one]
    omega
  | accept ha _ =>
    rw [ha] at hp
    exact Nat.add_lt_add_right (hp _) _
  | wait ha _ =>
    rw [ha] at hp
    exact Nat.add_lt_add_right (hp _) _
  | tau ha =>
    rw [ha] at hp
    exact Nat.add_lt_add_right hp _
  | sendLost ha _ =>
    rw [ha] at hp
    exact Nat.add_lt_add_right (hp.2 _) _
  | recvLost ha _ _ =>
    rw [ha] at hp
    exact Nat.add_lt_add_right (hp _) _

theorem fire_lowers (hchild : ∀ i x, ChildLowers v d (v x) (P.child i x))
    (hp : ParentLowers W d (W s.parent) (P.parent s.parent)) {m : Move ι}
    (h : P.fire m s = some t) : weight W v d t < weight W v d s := by
  cases m with
  | child i =>
    obtain ⟨_, c, hc, hpar, hcell, _⟩ := fire_child P h
    have hlt := childMove_lowers (hchild i (s.cell i).state) hc
    have hsum := sum_setCell (cellWeight v d) s i c
    have hsame : ∀ j, t.cell j = (s.setCell i c).cell j := fun j => by rw [hcell]; rfl
    simp only [weight, hpar, hsame]
    omega
  | childFault i =>
    obtain ⟨_, _, c, hc, rfl⟩ := fire_childFault P h
    have hlt := childFault_lowers (hchild i (s.cell i).state) hc
    exact weight_setCell_lt s.parent (by omega)
  | parent => exact parentMove_lowers hp (parentMove_of_fire P (Or.inl h))
  | parentFault => exact parentMove_lowers hp (parentMove_of_fire P (Or.inr h))

/-- Every run of a network whose actions lower a weight goes on to a state in
which no party can move. -/
theorem network_reaches_stuck {init : Net ι M σ π → Prop} (W : π → ℕ) (v : σ → ℕ) (d : ℕ)
    (hchild : ∀ i x, ChildLowers v d (v x) (P.child i x))
    (hparent : ∀ s, Reachable (P.system init) s →
      ParentLowers W d (W s.parent) (P.parent s.parent))
    (hs : Reachable (P.system init) s) :
    ∃ t, Reachable (P.system init) t ∧ Relation.ReflTransGen (P.system init).step s t ∧
      Stuck (P.system init) t :=
  reaches_stuck (T := P.system init) (weight W v d)
    (fun s _ hr ⟨_, hm⟩ => fire_lowers hchild (hparent s hr) hm) hs

end Foundation.Termination
