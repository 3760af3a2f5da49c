import CrabKeeper.Foundation.Confluence
import CrabKeeper.Foundation.Network

/-!
# Networks whose outcome is determined

Every process waits for one named stream at a time, so moves of different
processes commute as long as no send is lost. A lost send is the only choice a
network leaves open: the message would have stayed in its queue for good. Where
one run that loses nothing comes to rest with all queues empty, no run can lose
anything, and all runs end in that one state.
-/

set_option autoImplicit false

namespace Foundation.Determinacy
open Foundation.Transition Foundation.Termination Foundation.Network Foundation.Confluence

variable {ι M ε σ π : Type}

def sendsUp : ChildAction M ε σ → Bool
  | .send _ _ => true
  | _ => false

def sendsDown : ParentAction ι M ε π → Bool
  | .send _ _ _ => true
  | _ => false

variable (P : Protocol ι M ε σ π)

def Unconnected : Prop := ∀ i x, (P.child i x).connects = false

def cellMove (fault : Bool) (p : π) (i : ι) (c : Cell M σ) : Option (Cell M σ) :=
  match fault with
  | false => if c.spawned then childMove (P.child i c.state) c else none
  | true =>
    if sendsUp (P.child i c.state) then none
    else if c.spawned && (P.parent p).halted then
      childFault P.eof P.broken (P.child i c.state) c
    else none

def sideMove (fault : Bool) (i : ι) : Move ι := if fault then .childFault i else .child i

variable {P}

theorem cellMove_false {p : π} {i : ι} {c c' : Cell M σ} :
    cellMove P false p i c = some c' ↔
      c.spawned = true ∧ childMove (P.child i c.state) c = some c' := by
  simp only [cellMove]
  split_ifs with h <;> simp [h]

theorem childMove_halted {a : ChildAction M ε σ} {c c' : Cell M σ} (h : childMove a c = some c') :
    a.halted = false := by
  cases a with
  | halt => cases h
  | connect | send | recv | tau => rfl

theorem cellMove_exclusive {p : π} {i : ι} {c d d' : Cell M σ}
    (h : cellMove P false p i c = some d) (h' : cellMove P true p i c = some d') : False := by
  simp only [cellMove] at h h'
  split_ifs at h h'
  revert h h'
  cases hact : P.child i c.state with
  | recv next => cases hd : c.down <;> simp [childMove, childFault, hd]
  | send => simp_all [sendsUp]
  | connect | tau | halt => simp [childFault]

theorem childMove_spawned {a : ChildAction M ε σ} {c c' : Cell M σ} (h : childMove a c = some c') :
    childMove a { c with spawned := true } = some { c' with spawned := true } := by
  cases a with
  | recv next =>
    cases hd : c.down <;> simp only [childMove, hd] at h ⊢
    · cases h
    · obtain rfl := Option.some.inj h
      rfl
  | connect | send | tau =>
    obtain rfl := Option.some.inj h
    rfl
  | halt => cases h

theorem childMove_pushed {a : ChildAction M ε σ} {c c' : Cell M σ} (m : M)
    (h : childMove a c = some c') :
    childMove a { c with down := c.down ++ [m] } = some { c' with down := c'.down ++ [m] } := by
  cases a with
  | recv next =>
    cases hd : c.down <;> simp only [childMove, hd] at h ⊢
    · cases h
    · obtain rfl := Option.some.inj h
      rfl
  | connect | send | tau =>
    obtain rfl := Option.some.inj h
    rfl
  | halt => cases h

theorem childMove_popped {a : ChildAction M ε σ} {c c' : Cell M σ} {m : M} {rest : List M}
    (hup : c.up = m::rest) (h : childMove a c = some c') :
    ∃ rest', c'.up = m::rest' ∧
      childMove a { c with up := rest } = some { c' with up := rest' } := by
  cases a with
  | recv next =>
    cases hd : c.down <;> simp only [childMove, hd] at h ⊢
    · cases h
    · obtain rfl := Option.some.inj h
      exact ⟨rest, hup, rfl⟩
  | send m' next =>
    obtain rfl := Option.some.inj h
    exact ⟨rest ++ [m'], by simp [hup], rfl⟩
  | connect | tau =>
    obtain rfl := Option.some.inj h
    exact ⟨rest, hup, rfl⟩
  | halt => cases h

variable [DecidableEq ι] (P)

def reliable : Move ι → Net ι M σ π → Option (Net ι M σ π)
  | .child i, s => P.fire (.child i) s
  | .childFault i, s =>
    if sendsUp (P.child i (s.cell i).state) then none else P.fire (.childFault i) s
  | .parent, s => P.fire .parent s
  | .parentFault, s => if sendsDown (P.parent s.parent) then none else P.fire .parentFault s

/-- A send is about to go to a peer that has stopped. -/
inductive Losing (s : Net ι M σ π) : Prop
  | down {i : ι} {m : M} {next : Except ε Unit → π} : P.parent s.parent = .send i m next →
      (P.child i (s.cell i).state).halted = true → Losing s
  | up {i : ι} {m : M} {next : Except ε Unit → σ} : (s.cell i).spawned = true →
      P.child i (s.cell i).state = .send m next → (P.parent s.parent).halted = true → Losing s

variable {P} {s t u : Net ι M σ π}

theorem fire_of_reliable {m : Move ι} (h : reliable P m s = some t) : P.fire m s = some t := by
  cases m with
  | child | parent => exact h
  | childFault | parentFault =>
    simp only [reliable] at h
    split_ifs at h
    exact h

theorem reliable_or_losing {m : Move ι} (h : P.fire m s = some t) :
    reliable P m s = some t ∨ Losing P s := by
  cases m with
  | child | parent => exact Or.inl h
  | childFault i =>
    cases hs : sendsUp (P.child i (s.cell i).state) with
    | false => exact Or.inl (by simpa [reliable, hs] using h)
    | true =>
      obtain ⟨hsp, hh, _⟩ := fire_childFault P h
      obtain ⟨m, next, ha⟩ : ∃ m next, P.child i (s.cell i).state = .send m next := by
        revert hs
        cases P.child i (s.cell i).state <;> simp [sendsUp]
      exact Or.inr (.up hsp ha hh)
  | parentFault =>
    cases hs : sendsDown (P.parent s.parent) with
    | false => exact Or.inl (by simpa [reliable, hs] using h)
    | true =>
      simp only [Protocol.fire] at h
      split at h
      · next i m next ha =>
        split_ifs at h with hh
        exact Or.inr (.down ha hh)
      · next ha => simp [ha, sendsDown] at hs
      · cases h

theorem reliable_side (hP : Unconnected P) (fault : Bool) (i : ι) (s : Net ι M σ π) :
    reliable P (sideMove fault i) s =
      (cellMove P fault s.parent i (s.cell i)).map (s.setCell i) := by
  cases fault with
  | false =>
    change P.fire (.child i) s = _
    simp only [Protocol.fire, cellMove, hP i, Bool.false_eq_true, if_false]
    split_ifs <;> rfl
  | true =>
    change (if sendsUp (P.child i (s.cell i).state) then none else P.fire (.childFault i) s) = _
    simp only [Protocol.fire, cellMove]
    split_ifs <;> rfl

@[simp] theorem setCell_backlog (s : Net ι M σ π) (i : ι) (c : Cell M σ) :
    (s.setCell i c).backlog = s.backlog := rfl

theorem setCell_comm (s : Net ι M σ π) {i j : ι} (h : i ≠ j) (c d : Cell M σ) :
    (s.setCell i c).setCell j d = (s.setCell j d).setCell i c := by
  simp only [Net.setCell, Function.update_comm h]

theorem joins_sides (hP : Unconnected P) (f g : Bool) {i j : ι} (hij : i ≠ j)
    (ht : reliable P (sideMove f i) s = some t) (hu : reliable P (sideMove g j) s = some u) :
    ∃ w, reliable P (sideMove g j) t = some w ∧ reliable P (sideMove f i) u = some w := by
  rw [reliable_side hP] at ht hu
  obtain ⟨c, hc, rfl⟩ := Option.map_eq_some_iff.mp ht
  obtain ⟨d, hd, rfl⟩ := Option.map_eq_some_iff.mp hu
  refine ⟨(s.setCell i c).setCell j d, ?_, ?_⟩
  · rw [reliable_side hP, setCell_parent, setCell_ne s c hij.symm, hd]
    rfl
  · rw [reliable_side hP, setCell_parent, setCell_ne s d hij, hc, setCell_comm s hij]
    rfl

theorem reliable_touched (hP : Unconnected P) {i j : ι} {c d d' : Cell M σ} (p : π)
    (hc : cellMove P false s.parent i (s.cell i) = some c)
    (hsame : i = j → cellMove P false p i d = some d') (hdiff : i ≠ j → d' = d) :
    reliable P (.child i) { s.setCell j d with parent := p } =
      some { (s.setCell i c).setCell j d' with parent := p } := by
  change reliable P (sideMove false i) _ = _
  rw [reliable_side hP]
  by_cases hij : i = j
  · subst hij
    have hd := hsame rfl
    simp only [Net.setCell, Function.update_self, Function.update_idem] at hd ⊢
    rw [hd]
    simp only [Option.map_some, Net.setCell, Function.update_idem]
  · obtain rfl := hdiff hij
    have hcell : ({ s.setCell j d' with parent := p } : Net ι M σ π).cell i = s.cell i :=
      setCell_ne s d' hij
    rw [hcell]
    change (cellMove P false s.parent i (s.cell i)).map _ = _
    rw [hc, setCell_comm s hij]
    rfl

theorem reliable_untouched (hP : Unconnected P) {i : ι} {c : Cell M σ} (p : π) (backlog : List ι)
    (hc : cellMove P false s.parent i (s.cell i) = some c) :
    reliable P (.child i) { s with parent := p, backlog := backlog } =
      some { s.setCell i c with parent := p, backlog := backlog } := by
  change reliable P (sideMove false i) _ = _
  rw [reliable_side hP]
  change (cellMove P false s.parent i (s.cell i)).map _ = _
  rw [hc]
  rfl

section
variable {i j : ι} {c : Cell M σ} (hP : Unconnected P)
  (hc : cellMove P false s.parent i (s.cell i) = some c)
include hP hc

theorem joins_spawn {next : Except ε Unit → π} (ha : P.parent s.parent = .spawn j next) :
    ∃ w, P.fire .parent (s.setCell i c) = some w ∧ reliable P (.child i)
      { s.setCell j { s.cell j with spawned := true } with parent := next (.ok ()) } = some w := by
  refine ⟨{ (s.setCell i c).setCell j { (s.setCell i c).cell j with spawned := true } with
    parent := next (.ok ()) }, by simp [Protocol.fire, ha], reliable_touched hP _ hc ?_ ?_⟩
  · intro hij
    subst hij
    rw [setCell_self]
    exact cellMove_false.mpr ⟨rfl, childMove_spawned (cellMove_false.mp hc).2⟩
  · intro hij
    rw [setCell_ne s c (Ne.symm hij)]

theorem joins_send {m : M} {next : Except ε Unit → π} (ha : P.parent s.parent = .send j m next) :
    ∃ w, P.fire .parent (s.setCell i c) = some w ∧ reliable P (.child i)
      { s.setCell j { s.cell j with down := (s.cell j).down ++ [m] } with
        parent := next (.ok ()) } = some w := by
  obtain ⟨hsp, hmv⟩ := cellMove_false.mp hc
  refine ⟨{ (s.setCell i c).setCell j { (s.setCell i c).cell j with
    down := ((s.setCell i c).cell j).down ++ [m] } with parent := next (.ok ()) },
    by simp [Protocol.fire, ha], reliable_touched hP _ hc ?_ ?_⟩
  · intro hij
    subst hij
    rw [setCell_self]
    exact cellMove_false.mpr ⟨hsp, childMove_pushed m hmv⟩
  · intro hij
    rw [setCell_ne s c (Ne.symm hij)]

theorem joins_recv {m : M} {rest : List M} {next : Except ε M → π}
    (ha : P.parent s.parent = .recv j next) (hup : (s.cell j).up = m::rest) :
    ∃ w, P.fire .parent (s.setCell i c) = some w ∧ reliable P (.child i)
      { s.setCell j { s.cell j with up := rest } with parent := next (.ok m) } = some w := by
  obtain ⟨hsp, hmv⟩ := cellMove_false.mp hc
  by_cases hij : i = j
  · subst hij
    obtain ⟨rest', hup', hmv'⟩ := childMove_popped hup hmv
    exact ⟨{ (s.setCell i c).setCell i { c with up := rest' } with parent := next (.ok m) },
      by simp [Protocol.fire, ha, hup'], reliable_touched hP _ hc
        (fun _ => cellMove_false.mpr ⟨hsp, hmv'⟩) (fun h => absurd rfl h)⟩
  · have hother := setCell_ne s c (Ne.symm hij)
    exact ⟨{ (s.setCell i c).setCell j { s.cell j with up := rest } with parent := next (.ok m) },
      by simp [Protocol.fire, ha, hother, hup], reliable_touched hP _ hc
        (fun h => absurd h hij) (fun _ => rfl)⟩

omit hP in
theorem stopped_ne (hh : (P.child j (s.cell j).state).halted = true) :
    (s.setCell i c).cell j = s.cell j := by
  apply setCell_ne
  intro hij
  subst hij
  rw [childMove_halted (cellMove_false.mp hc).2] at hh
  cases hh

theorem joins_parent (hu : P.fire .parent s = some u) :
    ∃ w, P.fire .parent (s.setCell i c) = some w ∧ reliable P (.child i) u = some w := by
  cases ha : P.parent s.parent with
  | spawn j next =>
    obtain rfl : _ = u := by simpa [Protocol.fire, ha] using hu
    exact joins_spawn hP hc ha
  | send j m next =>
    obtain rfl : _ = u := by simpa [Protocol.fire, ha] using hu
    exact joins_send hP hc ha
  | recv j next =>
    cases hup : (s.cell j).up with
    | nil => simp [Protocol.fire, ha, hup] at hu
    | cons m rest =>
      obtain rfl : _ = u := by simpa [Protocol.fire, ha, hup] using hu
      exact joins_recv hP hc ha hup
  | accept next =>
    cases hb : s.backlog with
    | nil => simp [Protocol.fire, ha, hb] at hu
    | cons j rest =>
      obtain rfl : _ = u := by simpa [Protocol.fire, ha, hb] using hu
      exact ⟨_, by simp [Protocol.fire, ha, hb], reliable_untouched hP _ _ hc⟩
  | wait j next =>
    obtain ⟨hh, rfl⟩ : (P.child j (s.cell j).state).halted = true ∧ _ = u := by
      simpa [Protocol.fire, ha] using hu
    exact ⟨_, by simp [Protocol.fire, ha, stopped_ne hc hh, hh], reliable_untouched hP _ _ hc⟩
  | tau next =>
    obtain rfl : _ = u := by simpa [Protocol.fire, ha] using hu
    exact ⟨_, by simp [Protocol.fire, ha], reliable_untouched hP _ _ hc⟩
  | halt => simp [Protocol.fire, ha] at hu

theorem joins_parentFault (hu : reliable P .parentFault s = some u) :
    ∃ w, reliable P .parentFault (s.setCell i c) = some w ∧
      reliable P (.child i) u = some w := by
  cases ha : P.parent s.parent with
  | recv j next =>
    cases hup : (s.cell j).up with
    | nil =>
      obtain ⟨hh, rfl⟩ : (P.child j (s.cell j).state).halted = true ∧ _ = u := by
        simpa [reliable, Protocol.fire, ha, hup, sendsDown] using hu
      exact ⟨_, by simp [reliable, Protocol.fire, ha, sendsDown, stopped_ne hc hh, hup, hh],
        reliable_untouched hP _ _ hc⟩
    | cons => simp [reliable, Protocol.fire, ha, hup] at hu
  | send j m next => simp [reliable, ha, sendsDown] at hu
  | spawn | accept | wait | tau | halt => simp [reliable, Protocol.fire, ha] at hu

end

theorem halted_parent_rests {m : Move ι} (hm : m = .parent ∨ m = .parentFault)
    (hh : (P.parent s.parent).halted = true) : P.fire m s = none := by
  cases ha : P.parent s.parent with
  | halt => rcases hm with rfl | rfl <;> simp [Protocol.fire, ha]
  | spawn | accept | send | recv | wait | tau => simp [ha, ParentAction.halted] at hh

theorem side_of_fault {fault : Bool} {i : ι}
    (h : reliable P (sideMove fault i) s = some t) :
    fault = true → (P.parent s.parent).halted = true := by
  rintro rfl
  exact (fire_childFault P (fire_of_reliable h)).2.1

theorem joins_side_parent (hP : Unconnected P) {fault : Bool} {i : ι} {m : Move ι}
    (hm : m = .parent ∨ m = .parentFault) (ht : reliable P (sideMove fault i) s = some t)
    (hu : reliable P m s = some u) :
    ∃ w, reliable P m t = some w ∧ reliable P (sideMove fault i) u = some w := by
  cases fault with
  | false =>
    rw [reliable_side hP] at ht
    obtain ⟨c, hc, rfl⟩ := Option.map_eq_some_iff.mp ht
    rcases hm with rfl | rfl
    · exact joins_parent hP hc hu
    · exact joins_parentFault hP hc hu
  | true =>
    have := fire_of_reliable hu
    rw [halted_parent_rests hm (side_of_fault ht rfl)] at this
    cases this

theorem parent_exclusive (h : reliable P .parent s = some t)
    (h' : reliable P .parentFault s = some u) : False := by
  have hf := fire_of_reliable h'
  simp only [reliable] at h h'
  split_ifs at h'
  cases ha : P.parent s.parent with
  | send => simp_all [sendsDown]
  | recv j next =>
    cases hup : (s.cell j).up <;> simp [Protocol.fire, ha, hup] at h hf
  | spawn | accept | wait | tau | halt => simp [Protocol.fire, ha] at hf

omit [DecidableEq ι] in
theorem move_side (m : Move ι) :
    (∃ fault i, m = sideMove fault i) ∨ (m = .parent ∨ m = .parentFault) := by
  cases m with
  | child i => exact Or.inl ⟨false, i, rfl⟩
  | childFault i => exact Or.inl ⟨true, i, rfl⟩
  | parent => exact Or.inr (Or.inl rfl)
  | parentFault => exact Or.inr (Or.inr rfl)

theorem reliable_commuting (hP : Unconnected P) : Commuting (reliable P) fun _ => True where
  keeps _ _ := trivial
  joins {a b s t u} _ ht hu := by
    by_cases hab : a = b
    · subst hab
      exact Or.inl (Option.some.inj (ht.symm.trans hu))
    · right
      rcases move_side a with ⟨f, i, rfl⟩ | ha <;> rcases move_side b with ⟨g, j, rfl⟩ | hb
      · by_cases hij : i = j
        · subst hij
          rw [reliable_side hP] at ht hu
          obtain ⟨c, hc, _⟩ := Option.map_eq_some_iff.mp ht
          obtain ⟨d, hd, _⟩ := Option.map_eq_some_iff.mp hu
          cases f <;> cases g
          · exact absurd rfl hab
          · exact (cellMove_exclusive hc hd).elim
          · exact (cellMove_exclusive hd hc).elim
          · exact absurd rfl hab
        · obtain ⟨w, hw, hw'⟩ := joins_sides hP f g hij ht hu
          exact ⟨_, _, w, hw, hw'⟩
      · obtain ⟨w, hw, hw'⟩ := joins_side_parent hP hb ht hu
        exact ⟨_, _, w, hw, hw'⟩
      · obtain ⟨w, hw, hw'⟩ := joins_side_parent hP ha hu ht
        exact ⟨_, _, w, hw', hw⟩
      · rcases ha with rfl | rfl <;> rcases hb with rfl | rfl
        · exact absurd rfl hab
        · exact (parent_exclusive ht hu).elim
        · exact (parent_exclusive hu ht).elim
        · exact absurd rfl hab

/-- Something is on its way to a peer that has stopped, and stays there. -/
inductive Doomed (P : Protocol ι M ε σ π) (s : Net ι M σ π) : Prop
  | down (i : ι) : (P.child i (s.cell i).state).halted = true →
      ((∃ m next, P.parent s.parent = .send i m next) ∨ (s.cell i).down ≠ []) → Doomed P s
  | up (i : ι) : (P.parent s.parent).halted = true →
      ((s.cell i).spawned = true ∧ sendsUp (P.child i (s.cell i).state) = true ∨
        (s.cell i).up ≠ []) → Doomed P s

omit [DecidableEq ι] in
theorem doomed_of_losing (h : Losing P s) : Doomed P s := by
  cases h with
  | down ha hh => exact .down _ hh (Or.inl ⟨_, _, ha⟩)
  | up hsp ha hh => exact .up _ hh (Or.inl ⟨hsp, by rw [ha]; rfl⟩)

omit [DecidableEq ι] in
theorem cellMove_halted {fault : Bool} {p : π} {i : ι} {c c' : Cell M σ}
    (h : cellMove P fault p i c = some c') : (P.child i c.state).halted = false := by
  cases fault with
  | false => exact childMove_halted (cellMove_false.mp h).2
  | true =>
    simp only [cellMove] at h
    split_ifs at h
    revert h
    cases P.child i c.state <;> simp [childFault, ChildAction.halted]

omit [DecidableEq ι] in
theorem cellMove_up {fault : Bool} {p : π} {i : ι} {c c' : Cell M σ}
    (h : cellMove P fault p i c = some c')
    (hc : c.spawned = true ∧ sendsUp (P.child i c.state) = true ∨ c.up ≠ []) : c'.up ≠ [] := by
  have hup : ∀ {a : ChildAction M ε σ}, childMove a c = some c' →
      sendsUp a = true ∨ c.up ≠ [] → c'.up ≠ [] := by
    intro a h hc
    cases a with
    | recv next =>
      cases hd : c.down <;> simp only [childMove, hd] at h
      · cases h
      · obtain rfl := Option.some.inj h
        simpa [sendsUp] using hc
    | send m next =>
      obtain rfl := Option.some.inj h
      simp
    | connect | tau =>
      obtain rfl := Option.some.inj h
      simpa [sendsUp] using hc
    | halt => cases h
  cases fault with
  | false => exact hup (cellMove_false.mp h).2 (hc.imp_left And.right)
  | true =>
    simp only [cellMove] at h
    split_ifs at h with hs hh
    have hne : c.up ≠ [] := hc.resolve_left fun hsend => hs hsend.2
    cases ha : P.child i c.state with
    | recv next =>
      cases hd : c.down <;> simp only [ha, childFault, hd] at h
      · obtain rfl := Option.some.inj h
        exact hne
      · cases h
    | send m next =>
      rw [ha] at hs
      exact absurd rfl hs
    | connect | tau | halt => simp [ha, childFault] at h

theorem doomed_side (hP : Unconnected P) {fault : Bool} {i : ι}
    (h : reliable P (sideMove fault i) s = some t) (hd : Doomed P s) : Doomed P t := by
  rw [reliable_side hP] at h
  obtain ⟨c, hc, rfl⟩ := Option.map_eq_some_iff.mp h
  cases hd with
  | down j hh hj =>
    have hij : j ≠ i := by
      rintro rfl
      simp [cellMove_halted hc] at hh
    refine .down j ?_ ?_ <;> rw [setCell_ne s c hij]
    · exact hh
    · exact hj
  | up j hh hj =>
    refine .up j hh ?_
    by_cases hij : j = i
    · subst hij
      rw [setCell_self]
      exact Or.inr (cellMove_up hc hj)
    · rw [setCell_ne s c hij]
      exact hj

theorem parentMove_keeps {j : ι} (h : ParentMove P s t) (hj : (s.cell j).down ≠ []) :
    (t.cell j).down ≠ [] := by
  have hset : ∀ i (c : Cell M σ), (i = j → c.down ≠ []) → ((s.setCell i c).cell j).down ≠ [] := by
    intro i c hc
    by_cases hij : j = i
    · subst hij
      rw [setCell_self]
      exact hc rfl
    · rw [setCell_ne s c hij]
      exact hj
  cases h with
  | spawn | recv =>
    apply hset
    rintro rfl
    exact hj
  | send => exact hset _ _ fun _ => by simp
  | accept | wait | tau | sendLost | recvLost => exact hj

theorem doomed_parent {m : Move ι} (hm : m = .parent ∨ m = .parentFault)
    (h : reliable P m s = some t) (hd : Doomed P s) : Doomed P t := by
  have hfire := fire_of_reliable h
  have hmove : ParentMove P s t := by
    rcases hm with rfl | rfl
    · exact parentMove_of_fire P (Or.inl hfire)
    · exact parentMove_of_fire P (Or.inr hfire)
  cases hd with
  | up j hh _ =>
    rw [halted_parent_rests hm hh] at hfire
    cases hfire
  | down j hh hj =>
    refine .down j (by rw [parentMove_state P hmove]; exact hh) (Or.inr ?_)
    rcases hj with ⟨m', next, ha⟩ | hj
    · rcases hm with rfl | rfl
      · simp only [Protocol.fire, ha] at hfire
        obtain rfl := Option.some.inj hfire
        simp
      · simp [reliable, ha, sendsDown] at h
    · exact parentMove_keeps hmove hj

theorem doomed_play (hP : Unconnected P) {ms : List (Move ι)} (hd : Doomed P s)
    (h : play (reliable P) ms s = some t) : Doomed P t := by
  induction ms generalizing s with
  | nil =>
    obtain rfl := Option.some.inj h
    exact hd
  | cons m ms ih =>
    obtain ⟨v, hv, h⟩ := Option.bind_eq_some_iff.mp h
    apply ih _ h
    rcases move_side m with ⟨fault, i, rfl⟩ | hm
    · exact doomed_side hP hv hd
    · exact doomed_parent hm hv hd

theorem not_doomed (hrest : AtRest P.fire u)
    (hempty : ∀ i, (u.cell i).down = [] ∧ (u.cell i).up = []) : ¬ Doomed P u := by
  intro hd
  cases hd with
  | down i _ h =>
    rcases h with ⟨m, next, ha⟩ | h
    · have := hrest .parent
      simp [Protocol.fire, ha] at this
    · exact h (hempty i).1
  | up i _ h =>
    rcases h with ⟨hsp, hs⟩ | h
    · have := hrest (.child i)
      revert hs
      cases ha : P.child i (u.cell i).state <;> simp_all [Protocol.fire, childMove, sendsUp]
    · exact h (hempty i).2

theorem reliable_of_play (hP : Unconnected P) {s₀ : Net ι M σ π} {bs : List (Move ι)}
    (hbs : play (reliable P) bs s₀ = some u) (hrest : AtRest P.fire u)
    (hempty : ∀ i, (u.cell i).down = [] ∧ (u.cell i).up = []) {as : List (Move ι)}
    (has : play P.fire as s₀ = some s) : play (reliable P) as s₀ = some s := by
  have hru : AtRest (reliable P) u := hrest.mono fun _ _ _ => fire_of_reliable
  induction as generalizing s₀ bs with
  | nil => exact has
  | cons a as ih =>
    obtain ⟨v, hv, has⟩ := Option.bind_eq_some_iff.mp has
    have hkeep : ¬ Losing P s₀ := fun h =>
      not_doomed hrest hempty (doomed_play hP (doomed_of_losing h) hbs)
    have hrv := (reliable_or_losing hv).resolve_right hkeep
    obtain ⟨cs, hcs, _⟩ := (reliable_commuting hP).strip trivial hrv hbs hru
    rw [play, hrv, Option.bind_some]
    exact ih hcs has

/-- One complete run that loses nothing determines all: whatever has happened,
the network goes on to that state, in as many moves as are left. -/
theorem determined (hP : Unconnected P) {s₀ : Net ι M σ π} {bs : List (Move ι)}
    (hbs : play (reliable P) bs s₀ = some u) (hrest : AtRest P.fire u)
    (hempty : ∀ i, (u.cell i).down = [] ∧ (u.cell i).up = []) {as : List (Move ι)}
    (has : play P.fire as s₀ = some s) :
    ∃ cs, play P.fire cs s = some u ∧ as.length+cs.length = bs.length := by
  have hru : AtRest (reliable P) u := hrest.mono fun _ _ _ => fire_of_reliable
  obtain ⟨cs, hcs, hlen⟩ := (reliable_commuting hP).completes trivial
    (reliable_of_play hP hbs hrest hempty has) hbs hru
  exact ⟨cs, play_mono (fun m s t => fire_of_reliable) hcs, hlen.symm⟩

end Foundation.Determinacy
