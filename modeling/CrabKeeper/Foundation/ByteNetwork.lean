import CrabKeeper.Foundation.ByteStreams
import CrabKeeper.Foundation.Network
import CrabKeeper.Foundation.Simulation

/-!
# The network over byte streams

The processes are those of a network of message queues, and every queue is a
byte stream. A send is under way for as long as its frame has not been written
to the last byte, a receive waits for a whole frame, and delivery is a move of
its own. The byte network simulates the network of queues in both directions.
-/

set_option autoImplicit false

namespace Foundation.ByteNetwork
open Foundation.Transition Foundation.Network Foundation.Confluence Foundation.Simulation
open Foundation.Framing Foundation.ByteStreams

structure ByteCell (L B σ : Type) where
  spawned : Bool
  state : σ
  down : Pipe L B
  up : Pipe L B

structure ByteNet (ι L B σ π : Type) where
  parent : π
  cell : ι → ByteCell L B σ
  backlog : List ι

/-- A process that writes writes `k` bytes. -/
inductive ByteMove (ι : Type) where
  | child (i : ι) (k : ℕ)
  | childFault (i : ι)
  | parent (k : ℕ)
  | parentFault
  | deliverDown (i : ι) (k : ℕ)
  | deliverUp (i : ι) (k : ℕ)
  deriving Repr

variable {ι M L N B ε σ π : Type} (W : Wire M L N B)

def byteChildMove (k : ℕ) (a : ChildAction M ε σ) (c : ByteCell L B σ) :
    Option (ByteCell L B σ) :=
  match a with
  | .connect next => some { c with state := next }
  | .send m next => (c.up.write W m k).map fun r =>
      { c with state := if r.1 then next (.ok ()) else c.state, up := r.2 }
  | .recv next => (c.down.read W).map fun r => { c with state := next (.ok r.1), down := r.2 }
  | .tau next => some { c with state := next }
  | .halt => none

def byteChildFault (eof broken : ε) (a : ChildAction M ε σ) (c : ByteCell L B σ) :
    Option (ByteCell L B σ) :=
  match a with
  | .send _ next => some { c with state := next (.error broken), up := c.up.abandon }
  | .recv next => if c.down.dry W then some { c with state := next (.error eof) } else none
  | _ => none

variable [DecidableEq ι] (P : Protocol ι M ε σ π)

def ByteNet.setCell (s : ByteNet ι L B σ π) (i : ι) (c : ByteCell L B σ) : ByteNet ι L B σ π :=
  { s with cell := Function.update s.cell i c }

def byteFire : ByteMove ι → ByteNet ι L B σ π → Option (ByteNet ι L B σ π)
  | .child i k, s =>
    let c := s.cell i
    let a := P.child i c.state
    if c.spawned then
      (byteChildMove W k a c).map fun c' =>
        { s.setCell i c' with backlog := if a.connects then s.backlog ++ [i] else s.backlog }
    else none
  | .childFault i, s =>
    let c := s.cell i
    if c.spawned && (P.parent s.parent).halted then
      (byteChildFault W P.eof P.broken (P.child i c.state) c).map fun c' => s.setCell i c'
    else none
  | .parent k, s =>
    match P.parent s.parent with
    | .spawn i next => some { s.setCell i { s.cell i with spawned := true } with
        parent := next (.ok ()) }
    | .accept next =>
      match s.backlog with
      | [] => none
      | i::rest => some { s with parent := next (.ok i), backlog := rest }
    | .send i m next => ((s.cell i).down.write W m k).map fun r =>
        { s.setCell i { s.cell i with down := r.2 } with
          parent := if r.1 then next (.ok ()) else s.parent }
    | .recv i next => ((s.cell i).up.read W).map fun r =>
        { s.setCell i { s.cell i with up := r.2 } with parent := next (.ok r.1) }
    | .wait i next =>
      if (P.child i (s.cell i).state).halted then some { s with parent := next (.ok ()) } else none
    | .tau next => some { s with parent := next }
    | .halt => none
  | .parentFault, s =>
    match P.parent s.parent with
    | .send i _ next =>
      if (P.child i (s.cell i).state).halted then
        some { s.setCell i { s.cell i with down := (s.cell i).down.abandon } with
          parent := next (.error P.broken) }
      else none
    | .recv i next =>
      if (s.cell i).up.dry W && (P.child i (s.cell i).state).halted then
        some { s with parent := next (.error P.eof) }
      else none
    | _ => none
  | .deliverDown i k, s => ((s.cell i).down.deliver k).map fun x =>
      s.setCell i { s.cell i with down := x }
  | .deliverUp i k, s => ((s.cell i).up.deliver k).map fun x =>
      s.setCell i { s.cell i with up := x }

@[simp] theorem byte_setCell_self (s : ByteNet ι L B σ π) (i : ι) (c : ByteCell L B σ) :
    (s.setCell i c).cell i = c := by
  simp [ByteNet.setCell]

theorem byte_setCell_ne (s : ByteNet ι L B σ π) {i j : ι} (c : ByteCell L B σ) (h : j ≠ i) :
    (s.setCell i c).cell j = s.cell j := by
  simp [ByteNet.setCell, h]

/-! ## The queues a byte network stands for -/

def sending : ChildAction M ε σ → Option M
  | .send m _ => some m
  | _ => none

def sendingTo (a : ParentAction ι M ε π) (j : ι) : Option M :=
  match a with
  | .send i m _ => if i = j then some m else none
  | _ => none

/-- A cell of streams and one of queues. The reader of the stream upwards is
`live`, and `cur` is being written downwards. -/
structure CellMatches (live : Prop) (cur : Option M) (i : ι) (c : ByteCell L B σ)
    (d : Cell M σ) : Prop where
  spawned : c.spawned = d.spawned
  state : c.state = d.state
  down : Carries W ((P.child i d.state).halted = false) cur c.down d.down
  up : Carries W live (sending (P.child i d.state)) c.up d.up

structure Matches (s : ByteNet ι L B σ π) (t : Net ι M σ π) : Prop where
  parent : s.parent = t.parent
  backlog : s.backlog = t.backlog
  cell : ∀ i, CellMatches W P ((P.parent t.parent).halted = false)
    (sendingTo (P.parent t.parent) i) i (s.cell i) (t.cell i)

structure Sound (t : Net ι M σ π) : Prop where
  up : ∀ i, ∀ m ∈ sending (P.child i (t.cell i).state), W.code.Valid (W.value m)
  down : ∀ i, ∀ m ∈ sendingTo (P.parent t.parent) i, W.code.Valid (W.value m)

variable {W P} {live : Prop} {cur : Option M} {i : ι} {c c' : ByteCell L B σ} {d d' : Cell M σ}
  {s s' : ByteNet ι L B σ π} {t t' : Net ι M σ π} {k : ℕ}

omit [DecidableEq ι] in
theorem CellMatches.turns (h : CellMatches W P live none i c d) {live' : Prop}
    (himp : live' → live) (hcur : ∀ m ∈ cur, W.code.Valid (W.value m)) :
    CellMatches W P live' cur i c d :=
  ⟨h.spawned, h.state, h.down.begins hcur, h.up.mono himp⟩

omit [DecidableEq ι] in
theorem next_matches {x y : Pipe L B} {q p : List M} {sp sp' : Bool} {z z' : σ}
    (hsp : sp = sp') (hz : z = z')
    (hdown : Carries W ((P.child i z).halted = false) cur x q) (hup : Carries W live none y p)
    (hsound : ∀ m ∈ sending (P.child i z), W.code.Valid (W.value m)) :
    CellMatches W P live cur i ⟨sp, z, x, y⟩ ⟨sp', z', q, p⟩ := by
  subst hsp hz
  exact ⟨rfl, rfl, hdown, hup.begins hsound⟩

/-! ## Every byte move is a move of the queues or lowers the load -/

variable (W P) in
def cellLoad (p : π) (i : ι) (c : ByteCell L B σ) : ℕ :=
  c.down.load W (sendingTo (P.parent p) i)+c.up.load W (sending (P.child i c.state))

variable (W P) in
/-- What the streams have still to do for the frames that are under way. -/
def netLoad [Fintype ι] (s : ByteNet ι L B σ π) : ℕ := ∑ i, cellLoad W P s.parent i (s.cell i)

theorem load_setCell [Fintype ι]
    (h : cellLoad W P s.parent i c < cellLoad W P s.parent i (s.cell i)) :
    netLoad W P (s.setCell i c) < netLoad W P s := by
  refine Finset.sum_lt_sum (fun j _ => ?_) ⟨i, Finset.mem_univ i, ?_⟩
  · change cellLoad W P s.parent j _ ≤ _
    by_cases hj : j = i
    · subst hj
      rw [byte_setCell_self]
      exact h.le
    · rw [byte_setCell_ne s c hj]
  · change cellLoad W P s.parent i _ < _
    rwa [byte_setCell_self]

omit [DecidableEq ι] in
theorem child_turn (hm : CellMatches W P live cur i c d)
    (hsend : sending (P.child i d.state) = none)
    (h : byteChildMove W k (P.child i c.state) c = some c') :
    ∃ d', childMove (P.child i d.state) d = some d' ∧
      ((∀ m ∈ sending (P.child i d'.state), W.code.Valid (W.value m)) →
        CellMatches W P live cur i c' d') := by
  have hdown := hm.down
  have hup := hm.up
  rw [hsend] at hup
  rw [hm.state] at h
  cases ha : P.child i d.state with
  | connect next | tau next =>
    rw [ha] at h hdown
    obtain rfl := Option.some.inj h
    refine ⟨_, rfl, fun hs => ?_⟩
    exact next_matches hm.spawned rfl (hdown.mono fun _ => rfl) hup hs
  | send m next =>
    rw [ha] at hsend
    cases hsend
  | recv next =>
    rw [ha] at h hdown
    obtain ⟨⟨m, y⟩, hr, rfl⟩ := Option.map_eq_some_iff.mp h
    obtain ⟨ms, hq, hrest⟩ := hdown.read rfl hr
    refine ⟨{ d with state := next (.ok m), down := ms }, by simp [childMove, hq], fun hs => ?_⟩
    exact next_matches hm.spawned rfl (hrest.mono fun _ => rfl) hup hs
  | halt =>
    rw [ha] at h
    cases h

omit [DecidableEq ι] in
theorem child_part (hm : CellMatches W P live cur i c d) {m : M} {next : Except ε Unit → σ}
    (ha : P.child i d.state = .send m next) {y : Pipe L B}
    (hw : c.up.write W m k = some (false, y)) :
    CellMatches W P live cur i { c with up := y } d := by
  have hup := hm.up
  rw [ha] at hup
  refine ⟨hm.spawned, hm.state, hm.down, ?_⟩
  rw [ha]
  exact hup.write_part hw

omit [DecidableEq ι] in
theorem child_whole (hm : CellMatches W P live cur i c d) {m : M} {next : Except ε Unit → σ}
    (ha : P.child i d.state = .send m next) {y : Pipe L B}
    (hw : c.up.write W m k = some (true, y))
    (hs : ∀ m ∈ sending (P.child i (next (.ok ()))), W.code.Valid (W.value m)) :
    CellMatches W P live cur i { c with state := next (.ok ()), up := y }
      { d with state := next (.ok ()), up := d.up ++ [m] } := by
  have hdown := hm.down
  have hup := hm.up
  rw [ha] at hdown hup
  exact next_matches hm.spawned rfl (hdown.mono fun _ => rfl) (hup.write_whole hw) hs

omit [DecidableEq ι] in
theorem childFault_forward (hm : CellMatches W P False none i c d)
    (h : byteChildFault W P.eof P.broken (P.child i c.state) c = some c') :
    ∃ d', childFault P.eof P.broken (P.child i d.state) d = some d' ∧
      ((∀ m ∈ sending (P.child i d'.state), W.code.Valid (W.value m)) →
        CellMatches W P False none i c' d') := by
  have hdown := hm.down
  have hup := hm.up
  rw [hm.state] at h
  cases ha : P.child i d.state with
  | send m next =>
    rw [ha] at h hdown hup
    obtain rfl := Option.some.inj h
    refine ⟨_, rfl, fun hs => ?_⟩
    exact next_matches hm.spawned rfl (hdown.mono fun _ => rfl)
      (abandon_carries not_false c.up d.up) hs
  | recv next =>
    rw [ha] at h hdown hup
    simp only [byteChildFault] at h
    split_ifs at h with hdry
    obtain rfl := Option.some.inj h
    have hq : d.down = [] := by
      have hflight : c.down.flight = [] := by
        simp only [Pipe.dry, Bool.and_eq_true, List.isEmpty_iff] at hdry
        exact hdry.1
      exact (hdown.dry_iff rfl hflight).mp hdry
    refine ⟨{ d with state := next (.error P.eof) }, by simp [childFault, hq], fun hs => ?_⟩
    exact next_matches hm.spawned rfl (hdown.mono fun _ => rfl) hup hs
  | connect | tau | halt =>
    rw [ha] at h
    cases h

theorem cell_matches (h : ∀ j, CellMatches W P live none j (s.cell j) (t.cell j))
    (hi : CellMatches W P live none i c d) (j : ι) :
    CellMatches W P live none j ((s.setCell i c).cell j) ((t.setCell i d).cell j) := by
  by_cases hj : j = i
  · subst hj
    rw [byte_setCell_self, setCell_self]
    exact hi
  · rw [byte_setCell_ne s c hj, setCell_ne t d hj]
    exact h j

theorem matches_of_cells {p : π} {b : List ι} {f : ι → ByteCell L B σ} {g : ι → Cell M σ}
    (h : ∀ j, CellMatches W P True none j (f j) (g j)) (hs : Sound W P ⟨p, g, b⟩) :
    Matches W P ⟨p, f, b⟩ ⟨p, g, b⟩ :=
  ⟨rfl, rfl, fun j => (h j).turns (fun _ => trivial) (hs.down j)⟩

theorem Matches.idle (h : Matches W P s t) (hsend : ∀ j, sendingTo (P.parent t.parent) j = none)
    (hl : (P.parent t.parent).halted = false) (j : ι) :
    CellMatches W P True none j (s.cell j) (t.cell j) := by
  have hj := h.cell j
  rw [hsend j] at hj
  exact hj.turns (fun _ => hl) nofun

theorem Matches.others (h : Matches W P s t) {m : M} {next : Except ε Unit → π}
    (ha : P.parent t.parent = .send i m next) {j : ι} (hj : j ≠ i) :
    CellMatches W P True none j (s.cell j) (t.cell j) := by
  have hcell := h.cell j
  rw [ha] at hcell
  simp only [sendingTo, if_neg hj.symm] at hcell
  exact hcell.turns (fun _ => rfl) nofun

theorem Matches.sent (h : Matches W P s t) {m : M} {next : Except ε Unit → π}
    (ha : P.parent t.parent = .send i m next) :
    CellMatches W P True (some m) i (s.cell i) (t.cell i) := by
  have hcell := h.cell i
  rw [ha] at hcell
  simp only [sendingTo, if_pos] at hcell
  exact ⟨hcell.spawned, hcell.state, hcell.down, hcell.up.mono fun _ => rfl⟩

theorem send_matches (h : Matches W P s t) {m : M} {next : Except ε Unit → π}
    (ha : P.parent t.parent = .send i m next) {p : π} {x : Pipe L B} {q : List M}
    (hx : Carries W ((P.child i (t.cell i).state).halted = false) none x q)
    (hs : Sound W P { t.setCell i { t.cell i with down := q } with parent := p }) :
    Matches W P { s.setCell i { s.cell i with down := x } with parent := p }
      { t.setCell i { t.cell i with down := q } with parent := p } := by
  obtain ⟨sp, f, b⟩ := s
  obtain ⟨tp, g, b'⟩ := t
  obtain rfl : sp = tp := h.parent
  obtain rfl : b = b' := h.backlog
  refine matches_of_cells (fun j => ?_) hs
  have hi := h.sent ha
  by_cases hj : j = i
  · subst hj
    simp only [ByteNet.setCell, Net.setCell, Function.update_self]
    exact ⟨hi.spawned, hi.state, hx, hi.up⟩
  · simp only [ByteNet.setCell, Net.setCell, Function.update_of_ne hj]
    exact h.others ha hj

theorem part_matches (h : Matches W P s t) {m : M} {next : Except ε Unit → π}
    (ha : P.parent t.parent = .send i m next) {x : Pipe L B}
    (hx : Carries W ((P.child i (t.cell i).state).halted = false) (some m) x (t.cell i).down) :
    Matches W P (s.setCell i { s.cell i with down := x }) t := by
  refine ⟨h.parent, h.backlog, fun j => ?_⟩
  by_cases hj : j = i
  · subst hj
    have hi := h.cell j
    rw [ha] at hi ⊢
    simp only [sendingTo, if_pos, byte_setCell_self] at hi ⊢
    exact ⟨hi.spawned, hi.state, hx, hi.up⟩
  · rw [byte_setCell_ne s _ hj]
    exact h.cell j

theorem parent_turn (h : Matches W P s t) (hsend : ∀ j, sendingTo (P.parent t.parent) j = none)
    (hs : byteFire W P (.parent k) s = some s') :
    ∃ t', P.fire .parent t = some t' ∧ (Sound W P t' → Matches W P s' t') := by
  have hidle := h.idle hsend
  obtain ⟨sp, f, b⟩ := s
  obtain rfl : sp = t.parent := h.parent
  obtain rfl : b = t.backlog := h.backlog
  cases ha : P.parent t.parent with
  | spawn j next =>
    replace hidle := hidle (by rw [ha]; rfl)
    simp only [byteFire, ha, Option.some.injEq] at hs
    subst hs
    exact ⟨{ t.setCell j { t.cell j with spawned := true } with parent := next (.ok ()) },
      by simp [Protocol.fire, ha], matches_of_cells
        (cell_matches hidle ⟨rfl, (hidle j).state, (hidle j).down, (hidle j).up⟩)⟩
  | accept next =>
    replace hidle := hidle (by rw [ha]; rfl)
    cases hb : t.backlog with
    | nil => simp [byteFire, ha, hb] at hs
    | cons j rest =>
      simp only [byteFire, ha, hb, Option.some.injEq] at hs
      subst hs
      exact ⟨_, by simp [Protocol.fire, ha, hb], matches_of_cells hidle⟩
  | send j m next => simpa [ha, sendingTo] using hsend j
  | recv j next =>
    replace hidle := hidle (by rw [ha]; rfl)
    simp only [byteFire, ha, Option.map_eq_some_iff] at hs
    obtain ⟨⟨m, x⟩, hr, rfl⟩ := hs
    obtain ⟨ms, hq, hrest⟩ := (hidle j).up.read trivial hr
    exact ⟨{ t.setCell j { t.cell j with up := ms } with parent := next (.ok m) },
      by simp [Protocol.fire, ha, hq], matches_of_cells
        (cell_matches hidle ⟨(hidle j).spawned, (hidle j).state, (hidle j).down, hrest⟩)⟩
  | wait j next =>
    replace hidle := hidle (by rw [ha]; rfl)
    simp only [byteFire, ha] at hs
    split_ifs at hs with hh
    rw [(hidle j).state] at hh
    obtain rfl := Option.some.inj hs
    exact ⟨_, by simp [Protocol.fire, ha, hh], matches_of_cells hidle⟩
  | tau next =>
    replace hidle := hidle (by rw [ha]; rfl)
    simp only [byteFire, ha, Option.some.injEq] at hs
    subst hs
    exact ⟨_, by simp [Protocol.fire, ha], matches_of_cells hidle⟩
  | halt => simp [byteFire, ha] at hs

theorem parentFault_forward (h : Matches W P s t) (hs : byteFire W P .parentFault s = some s') :
    ∃ t', P.fire .parentFault t = some t' ∧ (Sound W P t' → Matches W P s' t') := by
  obtain ⟨sp, f, b⟩ := s
  obtain rfl : sp = t.parent := h.parent
  obtain rfl : b = t.backlog := h.backlog
  have hstate : ∀ j, (f j).state = (t.cell j).state := fun j => (h.cell j).state
  cases ha : P.parent t.parent with
  | send j m next =>
    simp only [byteFire, ha] at hs
    split_ifs at hs with hh
    rw [hstate j] at hh
    obtain rfl := Option.some.inj hs
    refine ⟨{ t with parent := next (.error P.broken) }, by simp [Protocol.fire, ha, hh],
      fun hsound => ?_⟩
    have hdead : ¬ (P.child j (t.cell j).state).halted = false := by simp [hh]
    have hself : t.setCell j { t.cell j with down := (t.cell j).down } = t := by
      simp [Net.setCell]
    have hmatch := send_matches (p := next (.error P.broken)) h ha
      (abandon_carries hdead (f j).down (t.cell j).down)
    rw [hself] at hmatch
    exact hmatch hsound
  | recv j next =>
    have hidle := h.idle (by simp [ha, sendingTo]) (by simp [ha, ParentAction.halted])
    simp only [byteFire, ha] at hs
    split_ifs at hs with hh
    rw [hstate j] at hh
    obtain rfl := Option.some.inj hs
    obtain ⟨hdry, hhalt⟩ := Bool.and_eq_true_iff.mp hh
    have hnone : sending (P.child j (t.cell j).state) = none := by
      revert hhalt
      cases P.child j (t.cell j).state <;> simp [ChildAction.halted, sending]
    have hup := (hidle j).up
    rw [hnone] at hup
    have hflight : (f j).up.flight = [] := by
      simp only [Pipe.dry, Bool.and_eq_true, List.isEmpty_iff] at hdry
      exact hdry.1
    have hq := (hup.dry_iff trivial hflight).mp hdry
    exact ⟨_, by simp [Protocol.fire, ha, hq, hhalt], fun hsound =>
      matches_of_cells hidle hsound⟩
  | spawn | accept | wait | tau | halt => simp [byteFire, ha] at hs

theorem side_matches (h : Matches W P s t) (b : List ι)
    (hi : CellMatches W P ((P.parent t.parent).halted = false) (sendingTo (P.parent t.parent) i) i
      c d) :
    Matches W P { s.setCell i c with backlog := b } { t.setCell i d with backlog := b } := by
  refine ⟨h.parent, rfl, fun j => ?_⟩
  by_cases hj : j = i
  · subst hj
    simp only [ByteNet.setCell, Net.setCell, Function.update_self]
    exact hi
  · simp only [ByteNet.setCell, Net.setCell, Function.update_of_ne hj]
    exact h.cell j

theorem fired_matches (h : Matches W P s t) {connects : Bool}
    (hm : (∀ m ∈ sending (P.child i d.state), W.code.Valid (W.value m)) →
      CellMatches W P ((P.parent t.parent).halted = false) (sendingTo (P.parent t.parent) i) i c d)
    (hs : Sound W P { t.setCell i d with
      backlog := if connects then t.backlog ++ [i] else t.backlog }) :
    Matches W P
      { s.setCell i c with backlog := if connects then s.backlog ++ [i] else s.backlog }
      { t.setCell i d with backlog := if connects then t.backlog ++ [i] else t.backlog } := by
  have hup := hs.up i
  simp only [Net.setCell, Function.update_self] at hup
  rw [h.backlog]
  exact side_matches h _ (hm hup)

theorem cell_turn (h : Matches W P s t) (hsend : sending (P.child i (t.cell i).state) = none)
    (hs : byteFire W P (.child i k) s = some s') :
    ∃ t', P.fire (.child i) t = some t' ∧ (Sound W P t' → Matches W P s' t') := by
  have hi := h.cell i
  simp only [byteFire, Option.ite_none_right_eq_some, Option.map_eq_some_iff] at hs
  obtain ⟨hsp, c, hc, rfl⟩ := hs
  obtain ⟨d, hd, hm⟩ := child_turn hi hsend hc
  have hsp' : (t.cell i).spawned = true := hi.spawned.symm.trans hsp
  refine ⟨{ t.setCell i d with backlog :=
    if (P.child i (t.cell i).state).connects then t.backlog ++ [i] else t.backlog },
    by simp only [Protocol.fire, hsp', if_true, hd, Option.map_some], ?_⟩
  rw [← hi.state]
  exact fired_matches h hm

theorem cellFault_forward (h : Matches W P s t)
    (hs : byteFire W P (.childFault i) s = some s') :
    ∃ t', P.fire (.childFault i) t = some t' ∧ (Sound W P t' → Matches W P s' t') := by
  obtain ⟨sp, f, b⟩ := s
  obtain rfl : sp = t.parent := h.parent
  obtain rfl : b = t.backlog := h.backlog
  have hi := h.cell i
  simp only [byteFire, Option.ite_none_right_eq_some, Option.map_eq_some_iff,
    Bool.and_eq_true] at hs
  obtain ⟨⟨hspawned, hhalt⟩, c, hc, rfl⟩ := hs
  have hnone : sendingTo (P.parent t.parent) i = none := by
    revert hhalt
    cases P.parent t.parent <;> simp [ParentAction.halted, sendingTo]
  have hlost : (P.parent t.parent).halted = false ↔ False := by simp [hhalt]
  rw [hnone, hlost] at hi
  obtain ⟨d, hd, hm⟩ := childFault_forward hi hc
  have hsp' : (t.cell i).spawned = true := hi.spawned.symm.trans hspawned
  refine ⟨t.setCell i d, by simp [Protocol.fire, hsp', hhalt, hd], fun hsound => ?_⟩
  refine side_matches h t.backlog ?_
  rw [hnone, hlost]
  apply hm
  have hup := hsound.up i
  simp only [Net.setCell, Function.update_self] at hup
  exact hup

theorem parent_send [Fintype ι] (h : Matches W P s t) {m : M} {next : Except ε Unit → π}
    (ha : P.parent t.parent = .send i m next) (hs : byteFire W P (.parent k) s = some s') :
    ∃ t', P.fire .parent t = some t' ∧ (Matches W P s' t ∧ netLoad W P s' < netLoad W P s ∨
      (Sound W P t' → Matches W P s' t')) := by
  have hdown := (h.sent ha).down
  simp only [byteFire, h.parent, ha, Option.map_eq_some_iff] at hs
  obtain ⟨⟨whole, x⟩, hw, rfl⟩ := hs
  refine ⟨{ t.setCell i { t.cell i with down := (t.cell i).down ++ [m] } with
    parent := next (.ok ()) }, by simp [Protocol.fire, ha], ?_⟩
  cases whole with
  | false =>
    have hpart := part_matches h ha (hdown.write_part hw)
    have hload : netLoad W P (s.setCell i { s.cell i with down := x }) < netLoad W P s := by
      refine load_setCell (Nat.add_lt_add_right ?_ _)
      simp only [h.parent, ha, sendingTo, if_true]
      exact load_write hw
    simpa [← h.parent] using Or.inl ⟨hpart, hload⟩
  | true => exact Or.inr (send_matches h ha (hdown.write_whole hw))

theorem parent_sends (h : Matches W P s t) {m : M} {next : Except ε Unit → π}
    (ha : P.parent t.parent = .send i m next) (ht : P.fire .parent t = some t') :
    ∃ a s', byteFire W P a s = some s' ∧ (Sound W P t' → Matches W P s' t') := by
  have hdown := (h.sent ha).down
  obtain ⟨k, x, hw⟩ := hdown.writes
  simp only [Protocol.fire, ha, Option.some.injEq] at ht
  subst ht
  exact ⟨.parent k, { s.setCell i { s.cell i with down := x } with parent := next (.ok ()) },
    by simp [byteFire, h.parent, ha, hw], send_matches h ha (hdown.write_whole hw)⟩

theorem cell_send [Fintype ι] (h : Matches W P s t) {m : M} {next : Except ε Unit → σ}
    (ha : P.child i (t.cell i).state = .send m next)
    (hs : byteFire W P (.child i k) s = some s') :
    ∃ t', P.fire (.child i) t = some t' ∧ (Matches W P s' t ∧ netLoad W P s' < netLoad W P s ∨
      (Sound W P t' → Matches W P s' t')) := by
  have hi := h.cell i
  simp only [byteFire, Option.ite_none_right_eq_some, Option.map_eq_some_iff] at hs
  obtain ⟨hsp, c, hc, rfl⟩ := hs
  rw [hi.state, ha] at hc ⊢
  obtain ⟨⟨whole, y⟩, hw, rfl⟩ := Option.map_eq_some_iff.mp hc
  have hsp' : (t.cell i).spawned = true := hi.spawned.symm.trans hsp
  refine ⟨t.setCell i { t.cell i with state := next (.ok ()), up := (t.cell i).up ++ [m] },
    by simp [Protocol.fire, hsp', ha, childMove, ChildAction.connects, Net.setCell], ?_⟩
  cases whole with
  | false =>
    have hpart := side_matches h t.backlog (child_part hi ha hw)
    have hload : netLoad W P (s.setCell i { s.cell i with up := y }) < netLoad W P s := by
      refine load_setCell (Nat.add_lt_add_left ?_ _)
      simp only [hi.state, ha, sending]
      exact load_write hw
    exact Or.inl ⟨⟨hpart.parent, h.backlog, by simpa [Net.setCell] using hpart.cell⟩, hload⟩
  | true =>
    have hwhole := child_whole hi ha hw
    exact Or.inr fun hsound => fired_matches h hwhole hsound

theorem cell_sends (h : Matches W P s t) {m : M} {next : Except ε Unit → σ}
    (ha : P.child i (t.cell i).state = .send m next) (ht : P.fire (.child i) t = some t') :
    ∃ a s', byteFire W P a s = some s' ∧ (Sound W P t' → Matches W P s' t') := by
  have hi := h.cell i
  have hup := hi.up
  rw [ha] at hup
  obtain ⟨k, y, hw⟩ := hup.writes
  simp only [Protocol.fire, Option.ite_none_right_eq_some, ha, childMove, Option.map_some,
    Option.some.injEq] at ht
  obtain ⟨hsp, rfl⟩ := ht
  refine ⟨.child i k, { s.setCell i { s.cell i with state := next (.ok ()), up := y } with
    backlog := s.backlog }, ?_, fired_matches h (child_whole hi ha hw)⟩
  simp [byteFire, hi.spawned, hsp, hi.state, ha, byteChildMove, hw, ChildAction.connects]

/-! ## Delivery -/

theorem pipes_match (h : Matches W P s t) {x y : Pipe L B}
    (hx : ∀ {live cur q}, Carries W live cur (s.cell i).down q → Carries W live cur x q)
    (hy : ∀ {live cur q}, Carries W live cur (s.cell i).up q → Carries W live cur y q) :
    Matches W P (s.setCell i { s.cell i with down := x, up := y }) t := by
  refine ⟨h.parent, h.backlog, fun j => ?_⟩
  have hj := h.cell j
  by_cases hij : j = i
  · subst hij
    rw [byte_setCell_self]
    exact ⟨hj.spawned, hj.state, hx hj.down, hy hj.up⟩
  · rw [byte_setCell_ne s _ hij]
    exact hj

theorem down_delivered (h : Matches W P s t) {x : Pipe L B}
    (hx : (s.cell i).down.deliver k = some x) :
    Matches W P (s.setCell i { s.cell i with down := x }) t :=
  pipes_match h (fun hc => hc.deliver hx) id

theorem up_delivered (h : Matches W P s t) {x : Pipe L B}
    (hx : (s.cell i).up.deliver k = some x) :
    Matches W P (s.setCell i { s.cell i with up := x }) t :=
  pipes_match h id fun hc => hc.deliver hx

def ByteMove.Delivers : ByteMove ι → Prop
  | .deliverDown _ _ => True
  | .deliverUp _ _ => True
  | _ => False

/-- Every move delivers, or can be made on the queues: now, or when the rest of
the frame is written. -/
theorem byte_forward [Fintype ι] {a : ByteMove ι} (h : Matches W P s t)
    (hs : byteFire W P a s = some s') :
    a.Delivers ∧ Matches W P s' t ∧ netLoad W P s' < netLoad W P s ∨
      ∃ m t', P.fire m t = some t' ∧ (Matches W P s' t ∧ netLoad W P s' < netLoad W P s ∨
        (Sound W P t' → Matches W P s' t')) := by
  cases a with
  | child i k =>
    right
    cases ha : P.child i (t.cell i).state with
    | send m next => exact ⟨_, cell_send h ha hs⟩
    | connect | recv | tau | halt =>
      obtain ⟨t', ht, hm⟩ := cell_turn h (by rw [ha]; rfl) hs
      exact ⟨_, t', ht, Or.inr hm⟩
  | childFault i =>
    obtain ⟨t', ht, hm⟩ := cellFault_forward h hs
    exact Or.inr ⟨_, t', ht, Or.inr hm⟩
  | parent k =>
    right
    cases ha : P.parent t.parent with
    | send i m next => exact ⟨_, parent_send h ha hs⟩
    | spawn | accept | recv | wait | tau | halt =>
      obtain ⟨t', ht, hm⟩ := parent_turn h (fun j => by rw [ha]; rfl) hs
      exact ⟨_, t', ht, Or.inr hm⟩
  | parentFault =>
    obtain ⟨t', ht, hm⟩ := parentFault_forward h hs
    exact Or.inr ⟨_, t', ht, Or.inr hm⟩
  | deliverDown i k =>
    obtain ⟨x, hx, rfl⟩ := Option.map_eq_some_iff.mp hs
    exact Or.inl ⟨trivial, down_delivered h hx,
      load_setCell (Nat.add_lt_add_right (load_deliver hx) _)⟩
  | deliverUp i k =>
    obtain ⟨x, hx, rfl⟩ := Option.map_eq_some_iff.mp hs
    exact Or.inl ⟨trivial, up_delivered h hx,
      load_setCell (Nat.add_lt_add_left (load_deliver hx) _)⟩

def ByteCell.drain (c : ByteCell L B σ) : ByteCell L B σ :=
  { c with down := c.down.drain, up := c.up.drain }

theorem drains_down (W : Wire M L N B) (P : Protocol ι M ε σ π) (s : ByteNet ι L B σ π) (i : ι) :
    ∃ as, play (byteFire W P) as s =
      some (s.setCell i { s.cell i with down := (s.cell i).down.drain }) := by
  by_cases hf : (s.cell i).down.flight = []
  · refine ⟨[], ?_⟩
    rw [drain_of_flight hf]
    simp [play, ByteNet.setCell]
  · exact ⟨[.deliverDown i (s.cell i).down.flight.length], by
      simp [play, byteFire, deliver_drain hf]⟩

theorem drains_up (W : Wire M L N B) (P : Protocol ι M ε σ π) (s : ByteNet ι L B σ π) (i : ι) :
    ∃ as, play (byteFire W P) as s =
      some (s.setCell i { s.cell i with up := (s.cell i).up.drain }) := by
  by_cases hf : (s.cell i).up.flight = []
  · refine ⟨[], ?_⟩
    rw [drain_of_flight hf]
    simp [play, ByteNet.setCell]
  · exact ⟨[.deliverUp i (s.cell i).up.flight.length], by
      simp [play, byteFire, deliver_drain hf]⟩

theorem drains_cell (W : Wire M L N B) (P : Protocol ι M ε σ π) (s : ByteNet ι L B σ π) (i : ι) :
    ∃ as, play (byteFire W P) as s = some (s.setCell i (s.cell i).drain) := by
  obtain ⟨as, has⟩ := drains_down W P s i
  obtain ⟨bs, hbs⟩ := drains_up W P (s.setCell i { s.cell i with down := (s.cell i).down.drain }) i
  refine ⟨as ++ bs, ?_⟩
  rw [play_append, has, Option.bind_some, hbs]
  simp [ByteNet.setCell, ByteCell.drain]

theorem drain_matches (h : Matches W P s t) (i : ι) :
    Matches W P (s.setCell i (s.cell i).drain) t :=
  pipes_match h Carries.drain Carries.drain

theorem drains_cells (h : Matches W P s t) (l : List ι) :
    ∃ as s', play (byteFire W P) as s = some s' ∧ Matches W P s' t ∧
      ∀ i ∈ l, (s'.cell i).drain = s'.cell i := by
  induction l with
  | nil => exact ⟨[], s, rfl, h, nofun⟩
  | cons i l ih =>
    obtain ⟨as, u, hu, hm, hl⟩ := ih
    obtain ⟨bs, hbs⟩ := drains_cell W P u i
    refine ⟨as ++ bs, u.setCell i (u.cell i).drain, ?_, drain_matches hm i, fun j hj => ?_⟩
    · rw [play_append, hu]
      exact hbs
    · by_cases hji : j = i
      · subst hji
        rw [byte_setCell_self]
        simp [ByteCell.drain]
      · rw [byte_setCell_ne u _ hji]
        exact hl j ((List.mem_cons.mp hj).resolve_left hji)

theorem drains [Fintype ι] (h : Matches W P s t) :
    ∃ as s', play (byteFire W P) as s = some s' ∧ Matches W P s' t ∧
      ∀ i, (s'.cell i).drain = s'.cell i := by
  obtain ⟨as, s', hs, hm, hd⟩ := drains_cells h Finset.univ.toList
  exact ⟨as, s', hs, hm, fun i => hd i (Finset.mem_toList.mpr (Finset.mem_univ i))⟩

/-! ## With everything delivered, every move of the queues can be made -/

omit [DecidableEq ι] in
theorem drained_flights (h : c.drain = c) : c.down.flight = [] ∧ c.up.flight = [] :=
  ⟨flight_of_drain (congrArg ByteCell.down h), flight_of_drain (congrArg ByteCell.up h)⟩

omit [DecidableEq ι] in
theorem childMove_answers (hm : CellMatches W P live cur i c d) (hd : c.drain = c)
    (hsend : sending (P.child i d.state) = none)
    (h : childMove (P.child i d.state) d = some d') :
    ∃ c', byteChildMove W 0 (P.child i c.state) c = some c' := by
  have hdown := hm.down
  rw [hm.state]
  cases ha : P.child i d.state with
  | connect next | tau next => exact ⟨_, rfl⟩
  | send m next =>
    rw [ha] at hsend
    cases hsend
  | recv next =>
    rw [ha] at h hdown
    cases hq : d.down with
    | nil => simp [childMove, hq] at h
    | cons m q =>
      rw [hq] at hdown
      obtain ⟨y, hy⟩ := hdown.reads rfl (drained_flights hd).1
      exact ⟨{ c with state := next (.ok m), down := y }, by rw [byteChildMove, hy]; rfl⟩
  | halt =>
    rw [ha] at h
    cases h

omit [DecidableEq ι] in
theorem childFault_answers {eof broken : ε} (hm : CellMatches W P live none i c d)
    (hd : c.drain = c) (h : childFault eof broken (P.child i d.state) d = some d') :
    ∃ c', byteChildFault W eof broken (P.child i c.state) c = some c' := by
  have hdown := hm.down
  rw [hm.state]
  cases ha : P.child i d.state with
  | send m next => exact ⟨_, rfl⟩
  | recv next =>
    rw [ha] at h hdown
    cases hq : d.down with
    | nil =>
      have hdry := (hdown.dry_iff rfl (drained_flights hd).1).mpr hq
      exact ⟨{ c with state := next (.error eof) }, by rw [byteChildFault, if_pos hdry]⟩
    | cons m q => simp [childFault, hq] at h
  | connect | tau | halt =>
    rw [ha] at h
    cases h

theorem cell_answers (h : Matches W P s t) (hd : (s.cell i).drain = s.cell i)
    (ht : P.fire (.child i) t = some t') :
    ∃ a s', byteFire W P a s = some s' ∧ (Sound W P t' → Matches W P s' t') := by
  cases ha : P.child i (t.cell i).state with
  | send m next => exact cell_sends h ha ht
  | connect | recv | tau | halt =>
    have hsend : sending (P.child i (t.cell i).state) = none := by
      rw [ha]
      rfl
    obtain ⟨hsp, d, hmove, _⟩ := fire_child P ht
    obtain ⟨c, hc⟩ := childMove_answers (h.cell i) hd hsend hmove
    obtain ⟨s', hfire⟩ : ∃ s', byteFire W P (.child i 0) s = some s' := by
      simp only [byteFire, (h.cell i).spawned, hsp, if_true, hc, Option.map_some]
      exact ⟨_, rfl⟩
    obtain ⟨u, hu, hm⟩ := cell_turn h hsend hfire
    obtain rfl := Option.some.inj (hu.symm.trans ht)
    exact ⟨_, _, hfire, hm⟩

theorem cellFault_answers (h : Matches W P s t) (hd : (s.cell i).drain = s.cell i)
    (ht : P.fire (.childFault i) t = some t') :
    ∃ a s', byteFire W P a s = some s' ∧ (Sound W P t' → Matches W P s' t') := by
  obtain ⟨hsp, hhalt, d, hfault, _⟩ := fire_childFault P ht
  have hi := h.cell i
  have hnone : sendingTo (P.parent t.parent) i = none := by
    revert hhalt
    cases P.parent t.parent <;> simp [ParentAction.halted, sendingTo]
  rw [hnone] at hi
  obtain ⟨c, hc⟩ := childFault_answers hi hd hfault
  have hfire : byteFire W P (.childFault i) s = some (s.setCell i c) := by
    simp only [byteFire, hi.spawned, hsp, h.parent, hhalt, Bool.and_self, if_true, hc,
      Option.map_some]
  obtain ⟨u, hu, hm⟩ := cellFault_forward h hfire
  obtain rfl := Option.some.inj (hu.symm.trans ht)
  exact ⟨_, _, hfire, hm⟩

theorem parent_answers (h : Matches W P s t) (hd : ∀ i, (s.cell i).drain = s.cell i)
    (ht : P.fire .parent t = some t') :
    ∃ a s', byteFire W P a s = some s' ∧ (Sound W P t' → Matches W P s' t') := by
  have hsend : (∃ i m next, P.parent t.parent = .send i m next) ∨
      ∀ j, sendingTo (P.parent t.parent) j = none := by
    cases ha : P.parent t.parent with
    | send i m next => exact Or.inl ⟨i, m, next, rfl⟩
    | spawn | accept | recv | wait | tau | halt => exact Or.inr fun j => rfl
  rcases hsend with ⟨i, m, next, ha⟩ | hsend
  · exact parent_sends h ha ht
  · obtain ⟨s', hfire⟩ : ∃ s', byteFire W P (.parent 0) s = some s' := by
      cases ha : P.parent t.parent with
      | send i m next => simpa [ha, sendingTo] using hsend i
      | spawn i next | tau next =>
        simp only [byteFire, h.parent, ha]
        exact ⟨_, rfl⟩
      | accept next =>
        cases hb : t.backlog with
        | nil => simp [Protocol.fire, ha, hb] at ht
        | cons i rest =>
          simp only [byteFire, h.parent, ha, h.backlog, hb]
          exact ⟨_, rfl⟩
      | recv i next =>
        cases hq : (t.cell i).up with
        | nil => simp [Protocol.fire, ha, hq] at ht
        | cons m q =>
          have hup := (h.idle hsend (by rw [ha]; rfl) i).up
          rw [hq] at hup
          obtain ⟨y, hy⟩ := hup.reads trivial (drained_flights (hd i)).2
          simp only [byteFire, h.parent, ha, hy]
          exact ⟨_, rfl⟩
      | wait i next =>
        have hh : (P.child i (t.cell i).state).halted = true := by
          by_contra hh
          simp [Protocol.fire, ha, hh] at ht
        simp only [byteFire, h.parent, ha, (h.cell i).state, hh, if_true]
        exact ⟨_, rfl⟩
      | halt => simp [Protocol.fire, ha] at ht
    obtain ⟨u, hu, hm⟩ := parent_turn h hsend hfire
    obtain rfl := Option.some.inj (hu.symm.trans ht)
    exact ⟨_, _, hfire, hm⟩

theorem parentFault_answers (h : Matches W P s t) (hd : ∀ i, (s.cell i).drain = s.cell i)
    (ht : P.fire .parentFault t = some t') :
    ∃ a s', byteFire W P a s = some s' ∧ (Sound W P t' → Matches W P s' t') := by
  obtain ⟨s', hfire⟩ : ∃ s', byteFire W P .parentFault s = some s' := by
    cases ha : P.parent t.parent with
    | send i m next =>
      simp only [Protocol.fire, ha, Option.ite_none_right_eq_some] at ht
      simp only [byteFire, h.parent, ha, (h.cell i).state, ht.1, if_true]
      exact ⟨_, rfl⟩
    | recv i next =>
      cases hq : (t.cell i).up with
      | cons m q => simp [Protocol.fire, ha, hq] at ht
      | nil =>
        simp only [Protocol.fire, ha, hq, Option.ite_none_right_eq_some] at ht
        have hnone : sending (P.child i (t.cell i).state) = none := by
          have hh := ht.1
          revert hh
          cases P.child i (t.cell i).state <;> simp [ChildAction.halted, sending]
        have hup := (h.idle (fun j => by rw [ha]; rfl) (by rw [ha]; rfl) i).up
        rw [hnone] at hup
        have hdry := (hup.dry_iff trivial (drained_flights (hd i)).2).mpr hq
        simp only [byteFire, h.parent, ha, hdry, (h.cell i).state, ht.1, Bool.and_self, if_true]
        exact ⟨_, rfl⟩
    | spawn | accept | wait | tau | halt => simp [Protocol.fire, ha] at ht
  obtain ⟨u, hu, hm⟩ := parentFault_forward h hfire
  obtain rfl := Option.some.inj (hu.symm.trans ht)
  exact ⟨_, _, hfire, hm⟩

theorem byte_answers (h : Matches W P s t) (hd : ∀ i, (s.cell i).drain = s.cell i) {m : Move ι}
    (ht : P.fire m t = some t') :
    ∃ a s', byteFire W P a s = some s' ∧ (Sound W P t' → Matches W P s' t') := by
  cases m with
  | child i => exact cell_answers h (hd i) ht
  | childFault i => exact cellFault_answers h (hd i) ht
  | parent => exact parent_answers h hd ht
  | parentFault => exact parentFault_answers h hd ht

/-! ## The simulation -/

variable {init : Net ι M σ π → Prop}

/-- The byte network simulates the network of queues, from every state that the
latter can reach, where all messages that are sent have frames. -/
theorem byte_simulates [Fintype ι] (hsound : ∀ t, Reachable (P.system init) t → Sound W P t) :
    Simulates (byteFire W P) P.fire
      (fun s t => Matches W P s t ∧ Reachable (P.system init) t) (netLoad W P) where
  forward := by
    intro a s s' t h hs
    rcases byte_forward h.1 hs with ⟨_, hm, hlt⟩ | ⟨m, t', ht, ⟨hm, hlt⟩ | hm⟩
    · exact Or.inl ⟨⟨hm, h.2⟩, hlt⟩
    · exact Or.inl ⟨⟨hm, h.2⟩, hlt⟩
    · have hr := h.2.step ⟨m, ht⟩
      exact Or.inr ⟨m, t', ht, hm (hsound t' hr), hr⟩
  backward := by
    intro m s t t' h ht
    obtain ⟨as, u, hu, hm, hd⟩ := drains h.1
    obtain ⟨a, s', hs, hm'⟩ := byte_answers hm hd ht
    have hr := h.2.step ⟨m, ht⟩
    refine ⟨as ++ [a], s', by simp, ?_, hm' (hsound t' hr), hr⟩
    rw [play_append, hu, Option.bind_some, play, hs]
    rfl
  settles := by
    intro s t h hrest
    obtain ⟨as, u, hu, hm, hd⟩ := drains h.1
    refine ⟨as, u, hu, fun a => ?_, hm, h.2⟩
    cases hs : byteFire W P a u with
    | none => rfl
    | some s' =>
      rcases byte_forward hm hs with ⟨hdel, _⟩ | ⟨m, t', ht, _⟩
      · cases a with
        | deliverDown i k =>
          have hnone := deliver_of_drain (k := k) (congrArg ByteCell.down (hd i))
          simp [byteFire, hnone] at hs
        | deliverUp i k =>
          have hnone := deliver_of_drain (k := k) (congrArg ByteCell.up (hd i))
          simp [byteFire, hnone] at hs
        | child | childFault | parent | parentFault => exact hdel.elim
      · rw [hrest m] at ht
        cases ht

/-! ## The start -/

def ofNet (t : Net ι M σ π) : ByteNet ι L B σ π where
  parent := t.parent
  cell i := ⟨(t.cell i).spawned, (t.cell i).state, .fresh, .fresh⟩
  backlog := t.backlog

theorem ofNet_matches (hsound : Sound W P t)
    (hempty : ∀ i, (t.cell i).down = [] ∧ (t.cell i).up = []) :
    Matches W P (ofNet t) t where
  parent := rfl
  backlog := rfl
  cell i := by
    refine ⟨rfl, rfl, ?_, ?_⟩
    · rw [(hempty i).1]
      exact fresh_carries (hsound.down i)
    · rw [(hempty i).2]
      exact fresh_carries (hsound.up i)

end Foundation.ByteNetwork
