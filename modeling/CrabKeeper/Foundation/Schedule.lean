import CrabKeeper.Foundation.Determinacy
import Mathlib.Data.Fintype.Basic

/-!
# Building one run of a network

The run that determines a network is put together from moves of one cell, moves
of all cells on their own, and sweeps of the parent over its children.
-/

set_option autoImplicit false

namespace Foundation.Schedule
open Foundation.Transition Foundation.Network Foundation.Confluence Foundation.Determinacy

variable {ι M ε σ π : Type} [DecidableEq ι] {P : Protocol ι M ε σ π} {s t u : Net ι M σ π}

def Leads (P : Protocol ι M ε σ π) (s t : Net ι M σ π) : Prop :=
  ∃ ms, play (reliable P) ms s = some t

theorem Leads.refl (s : Net ι M σ π) : Leads P s s := ⟨[], rfl⟩

theorem Leads.trans (h : Leads P s t) (h' : Leads P t u) : Leads P s u := by
  obtain ⟨as, has⟩ := h
  obtain ⟨bs, hbs⟩ := h'
  exact ⟨as ++ bs, by rw [play_append, has, Option.bind_some, hbs]⟩

theorem Leads.one {m : Move ι} (h : reliable P m s = some t) : Leads P s t :=
  ⟨[m], by rw [play, h]; rfl⟩

def Side (P : Protocol ι M ε σ π) (p : π) (i : ι) (c d : Cell M σ) : Prop :=
  ∃ fault, cellMove P fault p i c = some d

abbrev Sides (P : Protocol ι M ε σ π) (p : π) (i : ι) : Cell M σ → Cell M σ → Prop :=
  Relation.ReflTransGen (Side P p i)

theorem leads_cell (hP : Unconnected P) {i : ι} {c : Cell M σ}
    (h : Sides P s.parent i (s.cell i) c) : Leads P s (s.setCell i c) := by
  induction h with
  | refl =>
    have hself : s.setCell i (s.cell i) = s := by simp [Net.setCell]
    rw [hself]
    exact .refl s
  | @tail c d _ hside ih =>
    obtain ⟨fault, hd⟩ := hside
    refine ih.trans (.one (m := sideMove fault i) ?_)
    rw [reliable_side hP, setCell_parent, setCell_self, hd]
    simp [Net.setCell]

theorem leads_cells [Fintype ι] (hP : Unconnected P) (cell : ι → Cell M σ)
    (h : ∀ i, Sides P s.parent i (s.cell i) (cell i)) : Leads P s { s with cell := cell } := by
  have hpart : ∀ S : Finset ι, Leads P s { s with cell := S.piecewise cell s.cell } := by
    intro S
    induction S using Finset.induction_on with
    | empty =>
      rw [Finset.piecewise_empty]
      exact .refl s
    | insert i S hi ih =>
      have hcell : S.piecewise cell s.cell i = s.cell i := Finset.piecewise_eq_of_notMem S _ _ hi
      have hmove := leads_cell (s := { s with cell := S.piecewise cell s.cell }) hP (i := i)
        (c := cell i) (by simpa only [hcell] using h i)
      simp only [Net.setCell, ← Finset.piecewise_insert] at hmove
      exact ih.trans hmove
  simpa using hpart Finset.univ

theorem leads_send {i : ι} {m : M} {next : Except ε Unit → π}
    (ha : P.parent s.parent = .send i m next) :
    Leads P s { s.setCell i { s.cell i with down := (s.cell i).down ++ [m] } with
      parent := next (.ok ()) } :=
  .one (m := .parent) (by simp [reliable, Protocol.fire, ha])

theorem leads_recv {i : ι} {m : M} {rest : List M} {next : Except ε M → π}
    (ha : P.parent s.parent = .recv i next) (hup : (s.cell i).up = m::rest) :
    Leads P s { s.setCell i { s.cell i with up := rest } with parent := next (.ok m) } :=
  .one (m := .parent) (by simp [reliable, Protocol.fire, ha, hup])

theorem leads_eof {i : ι} {next : Except ε M → π} (ha : P.parent s.parent = .recv i next)
    (hup : (s.cell i).up = []) (hh : (P.child i (s.cell i).state).halted = true) :
    Leads P s { s with parent := next (.error P.eof) } :=
  .one (m := .parentFault) (by simp [reliable, Protocol.fire, ha, hup, hh, sendsDown])

theorem leads_tau {next : π} (ha : P.parent s.parent = .tau next) :
    Leads P s { s with parent := next } :=
  .one (m := .parent) (by simp [reliable, Protocol.fire, ha])

/-- A parent that deals with its children one after the other. -/
theorem sweep {n : ℕ} {P : Protocol (Fin n) M ε σ π} (Q : ℕ → π) {cell : Fin n → Cell M σ}
    (cell' : Fin n → Cell M σ) (backlog : List (Fin n))
    (h : ∀ (j : Fin n) (s : Net (Fin n) M σ π), s.parent = Q j → s.cell j = cell j →
      Leads P s { s.setCell j (cell' j) with parent := Q (j+1) }) :
    Leads P ⟨Q 0, cell, backlog⟩ ⟨Q n, cell', backlog⟩ := by
  have hpart : ∀ j ≤ n, Leads P ⟨Q 0, cell, backlog⟩
      ⟨Q j, fun i => if i.val < j then cell' i else cell i, backlog⟩ := by
    intro j hj
    induction j with
    | zero => simpa using Leads.refl _
    | succ j ih =>
      have hstep := h ⟨j, hj⟩ ⟨Q j, fun i => if i.val < j then cell' i else cell i, backlog⟩ rfl
        (by simp)
      have hcells : (fun i : Fin n => if i.val < j+1 then cell' i else cell i) =
          Function.update (fun i => if i.val < j then cell' i else cell i) ⟨j, hj⟩
            (cell' ⟨j, hj⟩) := by
        funext i
        by_cases hi : i = ⟨j, hj⟩
        · subst hi
          simp
        · have hne : i.val ≠ j := fun heq => hi (Fin.ext heq)
          have hlt : i.val < j+1 ↔ i.val < j := by omega
          simp [hi, hlt]
      rw [hcells]
      exact (ih (Nat.le_of_succ_le hj)).trans hstep
  simpa using hpart n le_rfl

end Foundation.Schedule
