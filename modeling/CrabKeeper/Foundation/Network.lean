import CrabKeeper.Foundation.Transition

/-!
# A parent process and its children over FIFO streams

Every child has one connection to the parent. A process is a local state and
the action it takes next; an action names the local state that follows each of
its outcomes. The two directions of a connection are queues. A send never
blocks, a receive waits for the head of its queue. Once a peer has stopped, a
send to it may fail, and a receive from it fails as soon as the queue is empty.
A connecting child joins the listener's backlog, from which the parent accepts
in order. Any interleaving of the moves is a run.
-/

set_option autoImplicit false

namespace Foundation.Network
open Foundation.Transition

inductive ChildAction (M ε σ : Type) where
  | connect (next : σ)
  | send (m : M) (next : Except ε Unit → σ)
  | recv (next : Except ε M → σ)
  | tau (next : σ)
  | halt

inductive ParentAction (ι M ε π : Type) where
  | spawn (i : ι) (next : Except ε Unit → π)
  | accept (next : Except ε ι → π)
  | send (i : ι) (m : M) (next : Except ε Unit → π)
  | recv (i : ι) (next : Except ε M → π)
  | wait (i : ι) (next : Except ε Unit → π)
  | tau (next : π)
  | halt

/-- The programs of the two sides, and the errors a lost peer causes. -/
structure Protocol (ι M ε σ π : Type) where
  child : ι → σ → ChildAction M ε σ
  parent : π → ParentAction ι M ε π
  eof : ε
  broken : ε

structure Cell (M σ : Type) where
  spawned : Bool
  state : σ
  down : List M
  up : List M

structure Net (ι M σ π : Type) where
  parent : π
  cell : ι → Cell M σ
  backlog : List ι

inductive Move (ι : Type) where
  | child (i : ι)
  | childFault (i : ι)
  | parent
  | parentFault
  deriving Repr

variable {ι M ε σ π : Type}

def ChildAction.halted : ChildAction M ε σ → Bool
  | .halt => true
  | _ => false

def ParentAction.halted : ParentAction ι M ε π → Bool
  | .halt => true
  | _ => false

def ChildAction.connects : ChildAction M ε σ → Bool
  | .connect _ => true
  | _ => false

def childMove (a : ChildAction M ε σ) (c : Cell M σ) : Option (Cell M σ) :=
  match a with
  | .connect next => some { c with state := next }
  | .send m next => some { c with state := next (.ok ()), up := c.up ++ [m] }
  | .recv next =>
    match c.down with
    | [] => none
    | m::rest => some { c with state := next (.ok m), down := rest }
  | .tau next => some { c with state := next }
  | .halt => none

def childFault (eof broken : ε) (a : ChildAction M ε σ) (c : Cell M σ) : Option (Cell M σ) :=
  match a with
  | .send _ next => some { c with state := next (.error broken) }
  | .recv next =>
    match c.down with
    | [] => some { c with state := next (.error eof) }
    | _::_ => none
  | _ => none

variable [DecidableEq ι] (P : Protocol ι M ε σ π)

def Net.setCell (s : Net ι M σ π) (i : ι) (c : Cell M σ) : Net ι M σ π :=
  { s with cell := Function.update s.cell i c }

def Protocol.fire : Move ι → Net ι M σ π → Option (Net ι M σ π)
  | .child i, s =>
    let c := s.cell i
    let a := P.child i c.state
    if c.spawned then
      (childMove a c).map fun c' =>
        { s.setCell i c' with backlog := if a.connects then s.backlog ++ [i] else s.backlog }
    else none
  | .childFault i, s =>
    let c := s.cell i
    if c.spawned && (P.parent s.parent).halted then
      (childFault P.eof P.broken (P.child i c.state) c).map fun c' => s.setCell i c'
    else none
  | .parent, s =>
    match P.parent s.parent with
    | .spawn i next => some { s.setCell i { s.cell i with spawned := true } with
        parent := next (.ok ()) }
    | .accept next =>
      match s.backlog with
      | [] => none
      | i::rest => some { s with parent := next (.ok i), backlog := rest }
    | .send i m next => some { s.setCell i { s.cell i with down := (s.cell i).down ++ [m] } with
        parent := next (.ok ()) }
    | .recv i next =>
      match (s.cell i).up with
      | [] => none
      | m::rest => some { s.setCell i { s.cell i with up := rest } with parent := next (.ok m) }
    | .wait i next =>
      if (P.child i (s.cell i).state).halted then some { s with parent := next (.ok ()) } else none
    | .tau next => some { s with parent := next }
    | .halt => none
  | .parentFault, s =>
    match P.parent s.parent with
    | .send i _ next =>
      if (P.child i (s.cell i).state).halted then some { s with parent := next (.error P.broken) }
      else none
    | .recv i next =>
      match (s.cell i).up with
      | [] =>
        if (P.child i (s.cell i).state).halted then some { s with parent := next (.error P.eof) }
        else none
      | _::_ => none
    | _ => none

def Protocol.system (init : Net ι M σ π → Prop) : System (Net ι M σ π) := ofMoves init P.fire

@[simp] theorem setCell_parent (s : Net ι M σ π) (i : ι) (c : Cell M σ) :
    (s.setCell i c).parent = s.parent := rfl

@[simp] theorem setCell_self (s : Net ι M σ π) (i : ι) (c : Cell M σ) :
    (s.setCell i c).cell i = c := by
  simp [Net.setCell]

theorem setCell_ne (s : Net ι M σ π) {i j : ι} (c : Cell M σ) (h : j ≠ i) :
    (s.setCell i c).cell j = s.cell j := by
  simp [Net.setCell, h]

theorem forall_setCell {Q : ι → Cell M σ → Prop} {s : Net ι M σ π} {i : ι} {c : Cell M σ}
    (hi : Q i c) (hrest : ∀ j, j ≠ i → Q j (s.cell j)) (j : ι) : Q j ((s.setCell i c).cell j) := by
  by_cases hj : j = i
  · subst hj
    rw [setCell_self]
    exact hi
  · rw [setCell_ne s c hj]
    exact hrest j hj

theorem fire_child {i : ι} {s t : Net ι M σ π} (h : P.fire (.child i) s = some t) :
    (s.cell i).spawned = true ∧ ∃ c, childMove (P.child i (s.cell i).state) (s.cell i) = some c ∧
      t.parent = s.parent ∧ t.cell = Function.update s.cell i c ∧
      t.backlog = if (P.child i (s.cell i).state).connects then s.backlog ++ [i]
        else s.backlog := by
  simp only [Protocol.fire] at h
  split_ifs at h with hsp
  all_goals
    obtain ⟨c, hc, rfl⟩ := Option.map_eq_some_iff.mp h
    exact ⟨hsp, c, hc, rfl, rfl, by simp_all⟩

theorem fire_childFault {i : ι} {s t : Net ι M σ π} (h : P.fire (.childFault i) s = some t) :
    (s.cell i).spawned = true ∧ (P.parent s.parent).halted = true ∧
      ∃ c, childFault P.eof P.broken (P.child i (s.cell i).state) (s.cell i) = some c ∧
        t = s.setCell i c := by
  simp only [Protocol.fire] at h
  split_ifs at h with hsp
  obtain ⟨c, hc, rfl⟩ := Option.map_eq_some_iff.mp h
  obtain ⟨h1, h2⟩ := Bool.and_eq_true_iff.mp hsp
  exact ⟨h1, h2, c, hc, rfl⟩

theorem fire_child_cell {i : ι} {s t : Net ι M σ π} (h : P.fire (.child i) s = some t) :
    ∃ c, childMove (P.child i (s.cell i).state) (s.cell i) = some c ∧ t.parent = s.parent ∧
      t.cell i = c ∧ ∀ j, j ≠ i → t.cell j = s.cell j := by
  obtain ⟨_, c, hc, hp, ht, _⟩ := fire_child P h
  refine ⟨c, hc, hp, by simp [ht], fun j hj => ?_⟩
  simp [ht, hj]

theorem child_fires {i : ι} {s : Net ι M σ π} (hsp : (s.cell i).spawned = true)
    (h : (childMove (P.child i (s.cell i).state) (s.cell i)).isSome) :
    (P.fire (.child i) s).isSome := by
  simp only [Protocol.fire, if_pos hsp, Option.isSome_map]
  exact h

/-- A move of the parent: its new local state is one its action names, and it
touches one cell at most. -/
inductive ParentMove : Net ι M σ π → Net ι M σ π → Prop
  | spawn {s : Net ι M σ π} {i : ι} {next : Except ε Unit → π} :
      P.parent s.parent = .spawn i next →
      ParentMove s { s.setCell i { s.cell i with spawned := true } with parent := next (.ok ()) }
  | accept {s : Net ι M σ π} {i : ι} {rest : List ι} {next : Except ε ι → π} :
      P.parent s.parent = .accept next → s.backlog = i::rest →
      ParentMove s { s with parent := next (.ok i), backlog := rest }
  | send {s : Net ι M σ π} {i : ι} {m : M} {next : Except ε Unit → π} :
      P.parent s.parent = .send i m next →
      ParentMove s { s.setCell i { s.cell i with down := (s.cell i).down ++ [m] } with
        parent := next (.ok ()) }
  | recv {s : Net ι M σ π} {i : ι} {m : M} {rest : List M} {next : Except ε M → π} :
      P.parent s.parent = .recv i next → (s.cell i).up = m::rest →
      ParentMove s { s.setCell i { s.cell i with up := rest } with parent := next (.ok m) }
  | wait {s : Net ι M σ π} {i : ι} {next : Except ε Unit → π} :
      P.parent s.parent = .wait i next → (P.child i (s.cell i).state).halted = true →
      ParentMove s { s with parent := next (.ok ()) }
  | tau {s : Net ι M σ π} {next : π} :
      P.parent s.parent = .tau next → ParentMove s { s with parent := next }
  | sendLost {s : Net ι M σ π} {i : ι} {m : M} {next : Except ε Unit → π} :
      P.parent s.parent = .send i m next → (P.child i (s.cell i).state).halted = true →
      ParentMove s { s with parent := next (.error P.broken) }
  | recvLost {s : Net ι M σ π} {i : ι} {next : Except ε M → π} :
      P.parent s.parent = .recv i next → (s.cell i).up = [] →
      (P.child i (s.cell i).state).halted = true →
      ParentMove s { s with parent := next (.error P.eof) }

theorem parentMove_of_fire {s t : Net ι M σ π}
    (h : P.fire .parent s = some t ∨ P.fire .parentFault s = some t) : ParentMove P s t := by
  rcases h with h | h
  · simp only [Protocol.fire] at h
    split at h
    case h_1 i next ha =>
      cases h
      exact .spawn ha
    case h_2 next ha =>
      split at h <;> cases h
      exact .accept ha ‹_›
    case h_3 i m next ha =>
      cases h
      exact .send ha
    case h_4 i next ha =>
      split at h <;> cases h
      exact .recv ha ‹_›
    case h_5 i next ha =>
      split_ifs at h with hh
      cases h
      exact .wait ha hh
    case h_6 next ha =>
      cases h
      exact .tau ha
    case h_7 => cases h
  · simp only [Protocol.fire] at h
    split at h
    case h_1 i m next ha =>
      split_ifs at h with hh
      cases h
      exact .sendLost ha hh
    case h_2 i next ha =>
      split at h
      · split_ifs at h with hh
        cases h
        exact .recvLost ha ‹_› hh
      · cases h
    case h_3 => cases h

theorem step_of_parentMove {init : Net ι M σ π → Prop} {s t : Net ι M σ π}
    (h : ParentMove P s t) : (P.system init).step s t := by
  cases h with
  | spawn ha | send ha | tau ha => exact ⟨.parent, by simp [Protocol.fire, ha]⟩
  | accept ha h | recv ha h | wait ha h => exact ⟨.parent, by simp [Protocol.fire, ha, h]⟩
  | sendLost ha h => exact ⟨.parentFault, by simp [Protocol.fire, ha, h]⟩
  | recvLost ha h hh => exact ⟨.parentFault, by simp [Protocol.fire, ha, h, hh]⟩

theorem parentMove_state {s t : Net ι M σ π} (h : ParentMove P s t) (j : ι) :
    (t.cell j).state = (s.cell j).state := by
  have hset : ∀ i (c : Cell M σ), c.state = (s.cell i).state →
      ((s.setCell i c).cell j).state = (s.cell j).state := fun i c hc =>
    forall_setCell (Q := fun j c => c.state = (s.cell j).state) hc (fun j _ => rfl) j
  cases h with
  | spawn | send | recv => exact hset _ _ rfl
  | accept | wait | tau | sendLost | recvLost => rfl

theorem parentMove_down {s t : Net ι M σ π} (h : ParentMove P s t) (j : ι) :
    ∀ m ∈ (t.cell j).down, m ∈ (s.cell j).down ∨ ∃ next, P.parent s.parent = .send j m next := by
  have hset : ∀ i (c : Cell M σ), (∀ m ∈ c.down, m ∈ (s.cell i).down ∨
      ∃ next, P.parent s.parent = .send i m next) → ∀ m ∈ ((s.setCell i c).cell j).down,
      m ∈ (s.cell j).down ∨ ∃ next, P.parent s.parent = .send j m next := fun i c hc =>
    forall_setCell (Q := fun j c => ∀ m ∈ c.down, m ∈ (s.cell j).down ∨
      ∃ next, P.parent s.parent = .send j m next) hc (fun j _ m hm => Or.inl hm) j
  cases h with
  | @send i m next ha =>
    apply hset i
    intro m' hm'
    rcases List.mem_append.mp hm' with hm' | hm'
    · exact Or.inl hm'
    · obtain rfl := List.mem_singleton.mp hm'
      exact Or.inr ⟨next, ha⟩
  | spawn | recv => exact hset _ _ fun m hm => Or.inl hm
  | accept | wait | tau | sendLost | recvLost => exact fun m hm => Or.inl hm

def ParentAction.All (Q : π → Prop) : ParentAction ι M ε π → Prop
  | .spawn _ next => ∀ r, Q (next r)
  | .accept next => ∀ r, Q (next r)
  | .send _ _ next => ∀ r, Q (next r)
  | .recv _ next => ∀ r, Q (next r)
  | .wait _ next => ∀ r, Q (next r)
  | .tau next => Q next
  | .halt => True

theorem parentMove_all {Q : π → Prop} {s t : Net ι M σ π} (ha : (P.parent s.parent).All Q)
    (h : ParentMove P s t) : Q t.parent := by
  cases h with
  | spawn h | accept h | send h | recv h | wait h | tau h | sendLost h | recvLost h =>
    rw [h] at ha
    first | exact ha | exact ha _

/-- An invariant of the parent together with one that relates the parent to each
cell on its own: a child's moves are checked against its own cell only. -/
theorem cellwise_invariant {init : Net ι M σ π → Prop} (I : π → Prop)
    (J : π → ι → Cell M σ → Prop)
    (h0 : ∀ s, init s → I s.parent ∧ ∀ i, J s.parent i (s.cell i))
    (hchild : ∀ (s : Net ι M σ π) i c, Reachable (P.system init) s → J s.parent i (s.cell i) →
      childMove (P.child i (s.cell i).state) (s.cell i) = some c → J s.parent i c)
    (hfault : ∀ (s : Net ι M σ π) i c, Reachable (P.system init) s → I s.parent →
      J s.parent i (s.cell i) → (P.parent s.parent).halted = true →
      childFault P.eof P.broken (P.child i (s.cell i).state) (s.cell i) = some c → J s.parent i c)
    (hparent : ∀ s t : Net ι M σ π, Reachable (P.system init) s → I s.parent →
      (∀ i, J s.parent i (s.cell i)) → ParentMove P s t →
      I t.parent ∧ ∀ i, J t.parent i (t.cell i))
    {s : Net ι M σ π} (hs : Reachable (P.system init) s) :
    I s.parent ∧ ∀ i, J s.parent i (s.cell i) := by
  refine invariant (I := fun s => I s.parent ∧ ∀ i, J s.parent i (s.cell i)) h0 ?_ hs
  rintro s t hr ⟨hp, hi⟩ ⟨a, ha⟩
  cases a with
  | child i =>
    obtain ⟨c, hc, hpar, hi', hne⟩ := fire_child_cell P ha
    rw [hpar]
    refine ⟨hp, fun j => ?_⟩
    by_cases hj : j = i
    · subst hj
      rw [hi']
      exact hchild _ _ _ hr (hi j) hc
    · rw [hne j hj]
      exact hi j
  | childFault i =>
    obtain ⟨_, hh, c, hc, rfl⟩ := fire_childFault P ha
    rw [setCell_parent]
    exact ⟨hp, forall_setCell (hfault _ _ _ hr hp (hi i) hh hc) fun j _ => hi j⟩
  | parent => exact hparent s t hr hp hi (parentMove_of_fire P (Or.inl ha))
  | parentFault => exact hparent s t hr hp hi (parentMove_of_fire P (Or.inr ha))

theorem parent_invariant {init : Net ι M σ π → Prop} {I : π → Prop}
    (h0 : ∀ s, init s → I s.parent)
    (hstep : ∀ s, Reachable (P.system init) s → I s.parent → (P.parent s.parent).All I)
    {s : Net ι M σ π} (hs : Reachable (P.system init) s) : I s.parent := by
  apply (cellwise_invariant P I (fun _ _ _ => True) ?_ ?_ ?_ ?_ hs).1
  · exact fun s h => ⟨h0 s h, fun _ => trivial⟩
  · exact fun _ _ _ _ _ _ => trivial
  · exact fun _ _ _ _ _ _ _ _ => trivial
  · exact fun s t hr hI _ hm => ⟨parentMove_all P (hstep s hr hI) hm, fun _ => trivial⟩

def ChildAction.All (G : M → Prop) (Q : σ → Prop) : ChildAction M ε σ → Prop
  | .connect next => Q next
  | .send _ next => ∀ r, Q (next r)
  | .recv next => (∀ m, G m → Q (next (.ok m))) ∧ ∀ e, Q (next (.error e))
  | .tau next => Q next
  | .halt => True

theorem childMove_all {G : M → Prop} {Q : σ → Prop} {a : ChildAction M ε σ} {c c' : Cell M σ}
    (hG : ∀ m ∈ c.down, G m) (ha : a.All G Q) (h : childMove a c = some c') : Q c'.state := by
  cases a with
  | connect next =>
    obtain rfl := Option.some.inj h
    exact ha
  | send m next =>
    obtain rfl := Option.some.inj h
    exact ha _
  | recv next =>
    simp only [childMove] at h
    split at h
    · cases h
    · next m rest hd =>
      obtain rfl := Option.some.inj h
      exact ha.1 m (hG m (by simp [hd]))
  | tau next =>
    obtain rfl := Option.some.inj h
    exact ha
  | halt => cases h

theorem childMove_down {a : ChildAction M ε σ} {c c' : Cell M σ} (h : childMove a c = some c') :
    ∀ m ∈ c'.down, m ∈ c.down := by
  cases a with
  | recv next =>
    simp only [childMove] at h
    split at h
    · cases h
    · next m rest hd =>
      obtain rfl := Option.some.inj h
      intro x hx
      rw [hd]
      exact List.mem_cons_of_mem m hx
  | connect | send | tau =>
    obtain rfl := Option.some.inj h
    exact fun _ hx => hx
  | halt => cases h

theorem childFault_down {eof broken : ε} {a : ChildAction M ε σ} {c c' : Cell M σ}
    (h : childFault eof broken a c = some c') : ∀ m ∈ c'.down, m ∈ c.down := by
  cases a with
  | recv next =>
    simp only [childFault] at h
    split at h
    · obtain rfl := Option.some.inj h
      exact fun _ hx => hx
    · cases h
  | send =>
    obtain rfl := Option.some.inj h
    exact fun _ hx => hx
  | connect | tau | halt => cases h

theorem childFault_all {G : M → Prop} {Q : σ → Prop} {eof broken : ε} {a : ChildAction M ε σ}
    {c c' : Cell M σ} (ha : a.All G Q) (h : childFault eof broken a c = some c') :
    Q c'.state := by
  cases a with
  | send m next =>
    obtain rfl := Option.some.inj h
    exact ha _
  | recv next =>
    simp only [childFault] at h
    split at h
    · obtain rfl := Option.some.inj h
      exact ha.2 _
    · cases h
  | connect next => cases h
  | tau next => cases h
  | halt => cases h

/-- The rules for one action of the parent: what has to be shown of the local
state that follows and of the one cell the action touches. -/
theorem send_rule {I : π → Prop} {J : π → ι → Cell M σ → Prop} {s t : Net ι M σ π}
    {i : ι} {m : M} {next : Except ε Unit → π} (ha : P.parent s.parent = .send i m next)
    (hi : I (next (.ok ())))
    (hself : J (next (.ok ())) i { s.cell i with down := (s.cell i).down ++ [m] })
    (hrest : ∀ j, j ≠ i → J (next (.ok ())) j (s.cell j))
    (hlost : (P.child i (s.cell i).state).halted = true →
      I (next (.error P.broken)) ∧ ∀ j, J (next (.error P.broken)) j (s.cell j))
    (h : ParentMove P s t) : I t.parent ∧ ∀ j, J t.parent j (t.cell j) := by
  cases h with
  | send h =>
    cases ha.symm.trans h
    exact ⟨hi, forall_setCell hself hrest⟩
  | sendLost h hh =>
    cases ha.symm.trans h
    exact hlost hh
  | spawn h | accept h | recv h | wait h | tau h | recvLost h => cases ha.symm.trans h

theorem recv_rule {I : π → Prop} {J : π → ι → Cell M σ → Prop} {s t : Net ι M σ π}
    {i : ι} {next : Except ε M → π} (ha : P.parent s.parent = .recv i next)
    (hok : ∀ m rest, (s.cell i).up = m::rest → I (next (.ok m)) ∧
      J (next (.ok m)) i { s.cell i with up := rest } ∧
      ∀ j, j ≠ i → J (next (.ok m)) j (s.cell j))
    (hlost : (P.child i (s.cell i).state).halted = true → (s.cell i).up = [] →
      I (next (.error P.eof)) ∧ ∀ j, J (next (.error P.eof)) j (s.cell j))
    (h : ParentMove P s t) : I t.parent ∧ ∀ j, J t.parent j (t.cell j) := by
  cases h with
  | recv h hup =>
    cases ha.symm.trans h
    obtain ⟨hi, hself, hrest⟩ := hok _ _ hup
    exact ⟨hi, forall_setCell hself hrest⟩
  | recvLost h hup hh =>
    cases ha.symm.trans h
    exact hlost hh hup
  | spawn h | accept h | send h | wait h | tau h | sendLost h => cases ha.symm.trans h

theorem spawn_rule {I : π → Prop} {J : π → ι → Cell M σ → Prop} {s t : Net ι M σ π}
    {i : ι} {next : Except ε Unit → π} (ha : P.parent s.parent = .spawn i next)
    (hi : I (next (.ok ()))) (hself : J (next (.ok ())) i { s.cell i with spawned := true })
    (hrest : ∀ j, j ≠ i → J (next (.ok ())) j (s.cell j))
    (h : ParentMove P s t) : I t.parent ∧ ∀ j, J t.parent j (t.cell j) := by
  cases h with
  | spawn h =>
    cases ha.symm.trans h
    exact ⟨hi, forall_setCell hself hrest⟩
  | accept h | send h | recv h | wait h | tau h | sendLost h | recvLost h => cases ha.symm.trans h

theorem accept_rule {I : π → Prop} {J : π → ι → Cell M σ → Prop} {s t : Net ι M σ π}
    {next : Except ε ι → π} (ha : P.parent s.parent = .accept next)
    (hok : ∀ i, I (next (.ok i)) ∧ ∀ j, J (next (.ok i)) j (s.cell j))
    (h : ParentMove P s t) : I t.parent ∧ ∀ j, J t.parent j (t.cell j) := by
  cases h with
  | accept h =>
    cases ha.symm.trans h
    exact hok _
  | spawn h | send h | recv h | wait h | tau h | sendLost h | recvLost h => cases ha.symm.trans h

theorem wait_rule {I : π → Prop} {J : π → ι → Cell M σ → Prop} {s t : Net ι M σ π}
    {i : ι} {next : Except ε Unit → π} (ha : P.parent s.parent = .wait i next)
    (hi : I (next (.ok ()))) (hcells : ∀ j, J (next (.ok ())) j (s.cell j))
    (h : ParentMove P s t) : I t.parent ∧ ∀ j, J t.parent j (t.cell j) := by
  cases h with
  | wait h =>
    cases ha.symm.trans h
    exact ⟨hi, hcells⟩
  | spawn h | accept h | send h | recv h | tau h | sendLost h | recvLost h => cases ha.symm.trans h

theorem tau_rule {I : π → Prop} {J : π → ι → Cell M σ → Prop} {s t : Net ι M σ π} {next : π}
    (ha : P.parent s.parent = .tau next) (hi : I next) (hcells : ∀ j, J next j (s.cell j))
    (h : ParentMove P s t) : I t.parent ∧ ∀ j, J t.parent j (t.cell j) := by
  cases h with
  | tau h =>
    cases ha.symm.trans h
    exact ⟨hi, hcells⟩
  | spawn h | accept h | send h | recv h | wait h | sendLost h | recvLost h =>
    cases ha.symm.trans h

theorem halt_rule {s t : Net ι M σ π} (ha : P.parent s.parent = .halt) : ¬ ParentMove P s t := by
  intro h
  cases h with
  | spawn h | accept h | send h | recv h | wait h | tau h | sendLost h | recvLost h =>
    cases ha.symm.trans h

/-- An invariant of one child's local state. The messages a child receives are
assumed to satisfy `G`, which the rest of the system guarantees. -/
theorem state_invariant {init : Net ι M σ π → Prop} (G : ι → M → Prop) (Q : ι → σ → Prop)
    (h0 : ∀ s, init s → ∀ i, Q i (s.cell i).state)
    (hG : ∀ s, Reachable (P.system init) s → ∀ i, ∀ m ∈ (s.cell i).down, G i m)
    (hstep : ∀ i x, Q i x → (P.child i x).All (G i) (Q i))
    {s : Net ι M σ π} (hs : Reachable (P.system init) s) (i : ι) : Q i (s.cell i).state := by
  refine invariant (I := fun s => ∀ i, Q i (s.cell i).state) h0 ?_ hs i
  rintro s t hr hq ⟨a, ha⟩ j
  cases a with
  | child i =>
    obtain ⟨c, hc, _, hi', hne⟩ := fire_child_cell P ha
    by_cases hj : j = i
    · subst hj
      rw [hi']
      exact childMove_all (hG s hr j) (hstep j _ (hq j)) hc
    · rw [hne j hj]
      exact hq j
  | childFault i =>
    obtain ⟨_, _, c, hc, rfl⟩ := fire_childFault P ha
    exact forall_setCell (Q := fun i c => Q i c.state) (childFault_all (hstep i _ (hq i)) hc)
      (fun j _ => hq j) j
  | parent =>
    rw [parentMove_state P (parentMove_of_fire P (Or.inl ha))]
    exact hq j
  | parentFault =>
    rw [parentMove_state P (parentMove_of_fire P (Or.inr ha))]
    exact hq j

theorem queue_invariant {init : Net ι M σ π → Prop} (G : ι → M → Prop)
    (h0 : ∀ s, init s → ∀ i, ∀ m ∈ (s.cell i).down, G i m)
    (hsend : ∀ s, Reachable (P.system init) s → ∀ i m next,
      P.parent s.parent = .send i m next → G i m)
    {s : Net ι M σ π} (hs : Reachable (P.system init) s) (i : ι) :
    ∀ m ∈ (s.cell i).down, G i m := by
  refine (cellwise_invariant P (fun _ => True) (fun _ i c => ∀ m ∈ c.down, G i m)
    (fun s h => ⟨trivial, h0 s h⟩) ?_ ?_ ?_ hs).2 i
  · exact fun _ i c _ h hm m hx => h m (childMove_down hm m hx)
  · exact fun _ i c _ _ h _ hm m hx => h m (childFault_down hm m hx)
  · intro s t hr _ h hm
    refine ⟨trivial, fun j m hmem => ?_⟩
    rcases parentMove_down P hm j m hmem with hold | ⟨next, ha⟩
    · exact h j m hold
    · exact hsend s hr j m next ha

end Foundation.Network
