import CrabKeeper.ProcessWork
import CrabKeeper.Foundation.Termination

/-!
# The STARTED/DONE barrier

`parent_work` with children that run `child_work`. How far the parent is with a
connection determines what its child has sent and received and what is in the
stream; the passes over the connections then make the two barriers.
-/

set_option autoImplicit false

namespace CrabKeeper.WorkBarrier
open Foundation.Machine Foundation.Transition Foundation.Network Foundation.Termination
open CrabKeeper.MessageCodec CrabKeeper.ChannelFraming CrabKeeper.ProcessWork

variable {n : ℕ}

def workProtocol (n : ℕ) : Protocol (Fin n) Message IoError ChildWork (ParentWork n) where
  child _ := childWork
  parent := parentWork
  eof := .unexpectedEof
  broken := .brokenPipe

abbrev WorkNet (n : ℕ) := Net (Fin n) Message ChildWork (ParentWork n)

def workStart (n : ℕ) : WorkNet n where
  parent := .start n
  cell _ := ⟨false, .start, [], []⟩
  backlog := []

def workSystem (n : ℕ) : System (WorkNet n) := (workProtocol n).system (· = workStart n)

structure Connections (s : WorkNet n) : Prop where
  nodup : (s.parent.streams ++ s.backlog).Nodup
  connected : ∀ j, j ∈ s.parent.streams ++ s.backlog ↔ (s.cell j).state.phase ≠ .connect

theorem childWork_connect {x : ChildWork} (h : x.phase = .connect) :
    childWork x = .connect { x with phase := .started } := by
  rw [childWork, h]

theorem childWork_connected {x : ChildWork} (h : x.phase ≠ .connect) :
    (childWork x).connects = false ∧
      (childWork x).All (fun _ => True) (fun y => y.phase ≠ .connect) := by
  unfold childWork
  split
  case h_1 hph => exact absurd hph h
  case h_3 => exact ⟨rfl, fun _ _ => by simp, fun _ => by simp [ChildWork.fail]⟩
  case h_5 => exact ⟨rfl, trivial⟩
  all_goals
    refine ⟨rfl, ?_⟩
    rintro (e | u) <;> simp [ChildWork.fail]

theorem connections_parent {s t : WorkNet n} (h : Connections s)
    (hm : ParentMove (workProtocol n) s t) : Connections t := by
  have hphase := fun j => congrArg ChildWork.phase (parentMove_state _ hm j)
  have hsame : t.parent.streams ++ t.backlog = s.parent.streams ++ s.backlog := by
    have hkeep : (∀ next, parentWork s.parent ≠ .accept next) →
        t.parent.streams = s.parent.streams := fun hna =>
      parentMove_all (workProtocol n) (Q := fun q => q.streams = s.parent.streams)
        ((parentWork_does s.parent).streams hna) hm
    cases hm with
    | accept ha hb =>
      cases Does.eq ha
      simp [acceptStream, hb]
    | spawn ha | send ha | recv ha | wait ha | tau ha | sendLost ha | recvLost ha =>
      exact congrArg (· ++ s.backlog) (hkeep fun next hn => by cases ha.symm.trans hn)
  refine ⟨hsame ▸ h.nodup, fun j => ?_⟩
  rw [hsame, h.connected j, hphase]

theorem connections_child {s t : WorkNet n} {i : Fin n} (h : Connections s)
    (hm : (workProtocol n).fire (.child i) s = some t) : Connections t := by
  obtain ⟨_, c, hc, hp, hcell, hb⟩ := fire_child _ hm
  by_cases hph : (s.cell i).state.phase = .connect
  · have ha := childWork_connect hph
    change childMove (childWork _) _ = _ at hc
    change t.backlog = if (childWork _).connects then _ else _ at hb
    rw [ha] at hc hb
    obtain rfl := Option.some.inj hc
    have hnew : i ∉ s.parent.streams ++ s.backlog := fun hi => (h.connected i).mp hi hph
    have hall : t.parent.streams ++ t.backlog = (s.parent.streams ++ s.backlog) ++ [i] := by
      rw [hp, hb]
      simp [ChildAction.connects]
    refine ⟨?_, fun j => ?_⟩
    · rw [hall]
      exact List.nodup_append.mpr ⟨h.nodup, List.nodup_singleton i, fun a ha b hb hab => by
        rw [List.mem_singleton.mp hb] at hab
        exact hnew (hab ▸ ha)⟩
    · rw [hall, hcell, List.mem_append, List.mem_singleton]
      by_cases hj : j = i
      · subst hj
        simp
      · rw [Function.update_of_ne hj, h.connected j]
        simp [hj]
  · obtain ⟨hcon, hnext⟩ := childWork_connected hph
    have hc' : c.state.phase ≠ .connect := childMove_all (fun _ _ => trivial) hnext hc
    have hall : t.parent.streams ++ t.backlog = s.parent.streams ++ s.backlog := by
      rw [hp, hb]
      change _ ++ (if (childWork _).connects = true then _ else _) = _
      rw [hcon]
      rfl
    refine ⟨hall ▸ h.nodup, fun j => ?_⟩
    rw [hall, h.connected j, hcell]
    by_cases hj : j = i
    · subst hj
      rw [Function.update_self]
      exact iff_of_true hph hc'
    · rw [Function.update_of_ne hj]

theorem connections_childFault {s t : WorkNet n} {i : Fin n} (h : Connections s)
    (hm : (workProtocol n).fire (.childFault i) s = some t) : Connections t := by
  obtain ⟨_, _, c, hc, rfl⟩ := fire_childFault _ hm
  have hph : (s.cell i).state.phase ≠ .connect := by
    intro hph
    change childFault _ _ (childWork _) _ = _ at hc
    rw [childWork_connect hph] at hc
    cases hc
  have hc' : c.state.phase ≠ .connect := childFault_all (childWork_connected hph).2 hc
  refine ⟨h.nodup, fun j => (h.connected j).trans ?_⟩
  exact forall_setCell
    (Q := fun j (x : Cell Message ChildWork) =>
      (s.cell j).state.phase ≠ .connect ↔ x.state.phase ≠ .connect)
    (iff_of_true hph hc') (fun j _ => Iff.rfl) j

theorem reachable_connections {s : WorkNet n} (hs : Reachable (workSystem n) s) :
    Connections s := by
  refine invariant ?_ ?_ hs
  · rintro s rfl
    exact ⟨List.nodup_nil, fun j => by simp [workStart, ParentWork.start, ChildWork.start]⟩
  · rintro s t _ h ⟨m, hm⟩
    cases m with
    | child i => exact connections_child h hm
    | childFault i => exact connections_childFault h hm
    | parent => exact connections_parent h (parentMove_of_fire _ (Or.inl hm))
    | parentFault => exact connections_parent h (parentMove_of_fire _ (Or.inr hm))

/-- What each stage of a connection says of the child and of its stream. -/
inductive AtStage : Stage → Cell Message ChildWork → Prop
  | connecting (sp : Bool) : AtStage .fresh ⟨sp, ⟨.connect, [], []⟩, [], []⟩
  | connected (sp : Bool) : AtStage .fresh ⟨sp, ⟨.started, [], []⟩, [], []⟩
  | announced (sp : Bool) : AtStage .fresh ⟨sp, ⟨.work, [.started], []⟩, [], [.started]⟩
  | awaited (sp : Bool) : AtStage .ready ⟨sp, ⟨.work, [.started], []⟩, [], []⟩
  | assigned (sp : Bool) (w : List UInt8) :
      AtStage .working ⟨sp, ⟨.work, [.started], []⟩, [.data w], []⟩
  | busy (sp : Bool) (w : List UInt8) :
      AtStage .working ⟨sp, ⟨.done, [.started], [.data w]⟩, [], []⟩
  | reported (sp : Bool) (w : List UInt8) :
      AtStage .working ⟨sp, ⟨.returned (.ok ()), [.started, .done], [.data w]⟩, [], [.done]⟩
  | finished (sp : Bool) (w : List UInt8) :
      AtStage .finished ⟨sp, ⟨.returned (.ok ()), [.started, .done], [.data w]⟩, [], []⟩

variable {st : Stage} {c c' : Cell Message ChildWork}

theorem AtStage.spawn (h : AtStage st c) (sp : Bool) : AtStage st { c with spawned := sp } := by
  cases h <;> constructor

/-- The step lemma for a child: its moves keep the stage. -/
theorem AtStage.child (h : AtStage st c) (hm : childMove (childWork c.state) c = some c') :
    AtStage st c' ∧ c'.spawned = c.spawned := by
  cases h with
  | connecting | connected | assigned | busy =>
    obtain rfl := Option.some.inj hm
    exact ⟨by constructor, rfl⟩
  | announced | awaited | reported | finished => cases hm

theorem AtStage.finished_halted (h : AtStage .finished c) : (childWork c.state).halted = true := by
  cases h
  rfl

theorem AtStage.finished_fault {eof broken : IoError} (h : AtStage .finished c) :
    childFault eof broken (childWork c.state) c = none := by
  cases h
  rfl

theorem AtStage.take_started {m : Message} {rest : List Message} (h : AtStage .fresh c)
    (hup : c.up = m::rest) : m = .started ∧ AtStage .ready { c with up := rest } := by
  cases h with
  | connecting | connected => cases hup
  | announced =>
    cases hup
    exact ⟨rfl, .awaited _⟩

theorem AtStage.take_done {m : Message} {rest : List Message} (h : AtStage .working c)
    (hup : c.up = m::rest) : m = .done ∧ AtStage .finished { c with up := rest } := by
  cases h with
  | assigned | busy => cases hup
  | reported =>
    cases hup
    exact ⟨rfl, .finished _ _⟩

theorem AtStage.assign (h : AtStage .ready c) (w : List UInt8) :
    AtStage .working { c with down := c.down ++ [.data w] } := by
  cases h
  exact .assigned _ w

theorem AtStage.given_work (h : AtStage st c) (hr : c.state.received ≠ []) :
    st = .working ∨ st = .finished := by
  cases h with
  | busy | reported => exact Or.inl rfl
  | finished => exact Or.inr rfl
  | connecting | connected | announced | awaited | assigned => exact absurd rfl hr

theorem AtStage.announced_of (h : AtStage st c) (hst : st ≠ .fresh) :
    Message.started ∈ c.state.sent := by
  cases h with
  | connecting | connected => exact absurd rfl hst
  | announced | awaited | assigned | busy | reported | finished => simp

theorem AtStage.halted_up (h : AtStage st c) (hst : st ≠ .finished)
    (hh : (childWork c.state).halted = true) : c.up ≠ [] ∧ st = .working := by
  cases h with
  | reported => exact ⟨List.cons_ne_nil _ _, rfl⟩
  | finished => exact absurd rfl hst
  | connecting | connected | announced | awaited | assigned | busy => cases hh

def Spawned (p : ParentWork n) (j : Fin n) (sp : Bool) : Prop :=
  match p.pc with
  | .spawn i => sp = decide (j.val < i)
  | _ => sp = true

def Behaved (p : ParentWork n) : Prop := Accepted p ∧ Unfailed p

def Staged (p : ParentWork n) (j : Fin n) (c : Cell Message ChildWork) : Prop :=
  AtStage (stageOf p j) c ∧ Spawned p j c.spawned

theorem staged_fault {p : ParentWork n} {j : Fin n} {eof broken : IoError} (hp : Behaved p)
    (h : Staged p j c) (hh : (parentWork p).halted = true) :
    childFault eof broken (childWork c.state) c = none := by
  have hfin : stageOf p j = .finished := by
    have hun := hp.2
    have hdoes := parentWork_does p
    revert hh hdoes
    generalize parentWork p = a
    intro hh hdoes
    cases hdoes with
    | returned r hpc =>
      cases r with
      | error e =>
        rw [Unfailed, hpc] at hun
        exact hun.elim
      | ok u => rw [stageOf, hpc]
    | panicked hpc =>
      rw [Unfailed, hpc] at hun
      exact hun.elim
    | _ => cases hh
  exact (hfin ▸ h.1).finished_fault

theorem AtStage.turn {a b : Stage} {l : List (Fin n)} (hnd : l.Nodup) {i : ℕ} {x : Fin n}
    (hx : l[i]? = some x) {cell : Fin n → Cell Message ChildWork}
    (h : ∀ j, AtStage (swept a b l i j) (cell j)) :
    AtStage a (cell x) ∧ (∀ c, AtStage b c → AtStage (swept a b l (i+1) x) c) ∧
      ∀ j, j ≠ x → AtStage (swept a b l (i+1) j) (cell j) := by
  obtain ⟨hold, hnew, hrest⟩ := swept_next a b hnd hx
  refine ⟨hold ▸ h x, fun c hc => hnew.symm ▸ hc, fun j hj => ?_⟩
  rw [hrest j hj]
  exact h j

theorem AtStage.pass {a b d : Stage} {l : List (Fin n)} {i : ℕ} (hnone : l[i]? = none) {j : Fin n}
    (hj : j ∈ l) (h : AtStage (swept a b l i j) c) : AtStage (swept b d l 0 j) c := by
  rw [swept_all a b hnone hj] at h
  rwa [swept_zero]

/-- The step lemma for the parent, one case for each of its positions. -/
theorem staged_parent {s t : WorkNet n} (hsafe : t.parent.pc ≠ .panicked)
    (hnd : s.parent.streams.Nodup) (hI : Behaved s.parent)
    (hJ : ∀ j, Staged s.parent j (s.cell j)) (hm : ParentMove (workProtocol n) s t) :
    Behaved t.parent ∧ ∀ j, Staged t.parent j (t.cell j) := by
  obtain ⟨hacc, _⟩ := hI
  obtain ⟨a, ha⟩ : ∃ a, parentWork s.parent = a := ⟨_, rfl⟩
  cases Does.eq ha with
  | spawn i hi hpc =>
    simp only [Accepted, Staged, stageOf, Spawned, hpc] at hacc hJ
    refine spawn_rule (workProtocol n) ha ⟨⟨hi, hacc.2⟩, trivial⟩ ?_ ?_ hm
    · exact ⟨(hJ ⟨i, hi⟩).1.spawn true, by simp [Spawned, ParentWork.after, ParentWork.goto]⟩
    · intro j hj
      refine ⟨(hJ j).1, ?_⟩
      have hji : j.val ≠ i := fun h => hj (Fin.ext h)
      change (s.cell j).spawned = decide (j.val < i+1)
      rw [(hJ j).2]
      exact decide_eq_decide.mpr (by omega)
  | spawned i hi hpc =>
    simp only [Accepted, Staged, stageOf, Spawned, hpc] at hacc hJ
    refine tau_rule (workProtocol n) ha ⟨⟨Nat.zero_le _, ?_⟩, trivial⟩ ?_ hm
    · change s.parent.streams.length = 0
      rw [hacc.2, List.length_nil]
    · intro j
      refine ⟨(hJ j).1, ?_⟩
      change (s.cell j).spawned = true
      rw [(hJ j).2]
      exact decide_eq_true (by omega)
  | accept i hi hpc =>
    simp only [Accepted, Staged, stageOf, Spawned, hpc] at hacc hJ
    refine accept_rule (workProtocol n) ha (fun c => ⟨⟨⟨hi, ?_⟩, trivial⟩, hJ⟩) hm
    simp [acceptStream, hacc.2]
  | accepted i hi hpc =>
    simp only [Accepted, Staged, stageOf, Spawned, hpc] at hacc hJ
    refine tau_rule (workProtocol n) ha ⟨?_, trivial⟩ (fun j => ⟨?_, (hJ j).2⟩) hm
    · change s.parent.streams.length = n
      omega
    · change AtStage (swept _ _ s.parent.streams 0 j) _
      rw [swept_zero]
      exact (hJ j).1
  | started i c hc hpc =>
    simp only [Accepted, Staged, stageOf, Spawned, hpc] at hacc hJ
    obtain ⟨hstage, hserved, hothers⟩ := AtStage.turn hnd hc fun j => (hJ j).1
    refine recv_rule (workProtocol n) ha ?_ ?_ hm
    · intro m rest hup
      obtain ⟨rfl, hready⟩ := hstage.take_started hup
      exact ⟨⟨hacc, trivial⟩, ⟨hserved _ hready, (hJ c).2⟩, fun j hj => ⟨hothers j hj, (hJ j).2⟩⟩
    · intro hh hup
      exact absurd hup (hstage.halted_up (by decide) hh).1
  | allStarted i hc hpc =>
    simp only [Accepted, Staged, stageOf, Spawned, hpc] at hacc hJ
    exact tau_rule (workProtocol n) ha ⟨hacc, trivial⟩
      (fun j => ⟨(hJ j).1.pass hc (mem_streams hnd hacc j), (hJ j).2⟩) hm
  | distribute i c work hc hwork hpc =>
    simp only [Accepted, Staged, stageOf, Spawned, hpc] at hacc hJ
    obtain ⟨hstage, hserved, hothers⟩ := AtStage.turn hnd hc fun j => (hJ j).1
    obtain ⟨_, rfl⟩ := workFor_eq_ok.mp hwork
    refine send_rule (workProtocol n) ha ⟨hacc, trivial⟩ ⟨hserved _ (hstage.assign _), (hJ c).2⟩
      (fun j hj => ⟨hothers j hj, (hJ j).2⟩) ?_ hm
    intro hh
    exact absurd (hstage.halted_up (by decide) hh).2 (by decide)
  | overflow i c e hc hwork hpc =>
    have hpanic : t.parent.pc = .panicked ∧ ∀ j : Fin n, True :=
      tau_rule (I := fun q => q.pc = .panicked) (J := fun _ _ _ => True) (workProtocol n) ha rfl
        (fun _ => trivial) hm
    exact absurd hpanic.1 hsafe
  | distributed i hc hpc =>
    simp only [Accepted, Staged, stageOf, Spawned, hpc] at hacc hJ
    exact tau_rule (workProtocol n) ha ⟨hacc, trivial⟩
      (fun j => ⟨(hJ j).1.pass hc (mem_streams hnd hacc j), (hJ j).2⟩) hm
  | done i c hc hpc =>
    simp only [Accepted, Staged, stageOf, Spawned, hpc] at hacc hJ
    obtain ⟨hstage, hserved, hothers⟩ := AtStage.turn hnd hc fun j => (hJ j).1
    refine recv_rule (workProtocol n) ha ?_ ?_ hm
    · intro m rest hup
      obtain ⟨rfl, hfin⟩ := hstage.take_done hup
      exact ⟨⟨hacc, trivial⟩, ⟨hserved _ hfin, (hJ c).2⟩, fun j hj => ⟨hothers j hj, (hJ j).2⟩⟩
    · intro hh hup
      exact absurd hup (hstage.halted_up (by decide) hh).1
  | allDone i hc hpc =>
    simp only [Accepted, Staged, stageOf, Spawned, hpc] at hacc hJ
    refine tau_rule (workProtocol n) ha ⟨trivial, trivial⟩ (fun j => ⟨?_, (hJ j).2⟩) hm
    have := (hJ j).1
    rwa [swept_all _ _ hc (mem_streams hnd hacc j)] at this
  | wait i hi hpc =>
    simp only [Staged, stageOf, Spawned, hpc] at hJ
    exact wait_rule (workProtocol n) ha ⟨trivial, trivial⟩ hJ hm
  | waited i hi hpc =>
    simp only [Staged, stageOf, Spawned, hpc] at hJ
    exact tau_rule (workProtocol n) ha ⟨trivial, trivial⟩ hJ hm
  | returned | panicked => exact absurd hm (halt_rule (workProtocol n) ha)

def Safe (n : ℕ) : Prop := ∀ s, Reachable (workSystem n) s → s.parent.pc ≠ .panicked

theorem reachable_accepted {s : WorkNet n} (hs : Reachable (workSystem n) s) :
    Accepted s.parent := by
  apply parent_invariant (workProtocol n) ?_ ?_ hs
  · rintro s rfl
    unfold Accepted workStart ParentWork.start
    rcases Nat.eq_zero_or_pos n with rfl | h
    · trivial
    · simp only [if_neg h.ne']
      exact ⟨Nat.zero_le n, trivial⟩
  · exact fun s _ hI => accepted_next (parentWork_does s.parent) hI

theorem safe_of_le (hn : n ≤ 255) : Safe n := by
  intro s hs
  apply parent_invariant (workProtocol n) (I := fun p => p.pc ≠ .panicked) ?_ ?_ hs
  · rintro s rfl
    unfold workStart ParentWork.start
    split_ifs <;> simp
  · exact fun s hr _ => safe_next hn (parentWork_does s.parent) (reachable_accepted hr)

theorem reachable_staged (hsafe : Safe n) {s : WorkNet n} (hs : Reachable (workSystem n) s) :
    Behaved s.parent ∧ ∀ j, Staged s.parent j (s.cell j) := by
  refine cellwise_invariant (workProtocol n) Behaved Staged ?_ ?_ ?_ ?_ hs
  · rintro s rfl
    unfold Behaved Accepted Unfailed Staged stageOf Spawned workStart ParentWork.start
    rcases Nat.eq_zero_or_pos n with rfl | h
    · exact ⟨⟨trivial, trivial⟩, fun j => j.elim0⟩
    · simp only [if_neg h.ne']
      exact ⟨⟨⟨Nat.zero_le n, trivial⟩, trivial⟩, fun j => ⟨.connecting false, by simp⟩⟩
  · rintro s j c - ⟨hstage, hsp⟩ hm
    obtain ⟨hstage', heq⟩ := hstage.child hm
    exact ⟨hstage', heq ▸ hsp⟩
  · intro s j c _ hI hJ hh hm
    cases (staged_fault hI hJ hh).symm.trans hm
  · intro s t hr hI hJ hm
    have hnd := (List.nodup_append.mp (reachable_connections hr).nodup).1
    exact staged_parent (hsafe t (hr.step (step_of_parentMove _ hm))) hnd hI hJ hm

/-- A child of which the parent still awaits something can move, unless it has
already sent it. -/
theorem AtStage.awaited_moves (h : AtStage st c) (hst : st = .fresh ∨ st = .working) :
    (childMove (childWork c.state) c).isSome ∨ c.up ≠ [] := by
  cases h with
  | connecting | connected | assigned | busy => exact Or.inl rfl
  | announced | reported => exact Or.inr (List.cons_ne_nil _ _)
  | awaited | finished => rcases hst with h | h <;> cases h

theorem recv_or_child {s : WorkNet n} {i : Fin n} {next : Except IoError Message → ParentWork n}
    (ha : parentWork s.parent = .recv i next) (hsp : (s.cell i).spawned = true)
    (hstage : AtStage st (s.cell i)) (hst : st = .fresh ∨ st = .working) :
    ((workProtocol n).fire .parent s).isSome ∨
      ∃ j, ((workProtocol n).fire (.child j) s).isSome := by
  rcases hstage.awaited_moves hst with hmove | hup
  · exact Or.inr ⟨i, child_fires _ hsp hmove⟩
  · obtain ⟨m, rest, hmr⟩ := List.exists_cons_of_ne_nil hup
    have ha' : (workProtocol n).parent s.parent = .recv i next := ha
    simp [Protocol.fire, ha', hmr]

theorem accept_or_child {s : WorkNet n} (hconn : Connections s)
    {next : Except IoError (Fin n) → ParentWork n} (ha : parentWork s.parent = .accept next)
    (hsp : ∀ j, (s.cell j).spawned = true) (hlen : s.parent.streams.length < n) :
    ((workProtocol n).fire .parent s).isSome ∨
      ∃ j, ((workProtocol n).fire (.child j) s).isSome := by
  have ha' : (workProtocol n).parent s.parent = .accept next := ha
  cases hb : s.backlog with
  | cons i rest => simp [Protocol.fire, ha', hb]
  | nil =>
    obtain ⟨j, hj⟩ : ∃ j, j ∉ s.parent.streams := by
      by_contra hall
      simp only [not_exists, not_not] at hall
      have hcard := Fintype.card_le_of_surjective (fun k : Fin s.parent.streams.length =>
        s.parent.streams.get k) fun j => List.mem_iff_get.mp (hall j)
      simp only [Fintype.card_fin] at hcard
      omega
    have hph : (s.cell j).state.phase = .connect := by
      by_contra hne
      have := (hconn.connected j).mpr hne
      rw [hb, List.append_nil] at this
      exact hj this
    refine Or.inr ⟨j, child_fires _ (hsp j) ?_⟩
    change (childMove (childWork _) _).isSome
    rw [childWork_connect hph]
    rfl

theorem not_deadlocked (hsafe : Safe n) {s : WorkNet n} (hs : Reachable (workSystem n) s)
    (hnot : s.parent.pc ≠ .returned (.ok ())) :
    ((workProtocol n).fire .parent s).isSome ∨
      ∃ j, ((workProtocol n).fire (.child j) s).isSome := by
  obtain ⟨⟨hacc, hun⟩, hJ⟩ := reachable_staged hsafe hs
  have hconn := reachable_connections hs
  have hnd := (List.nodup_append.mp hconn.nodup).1
  obtain ⟨a, ha⟩ : ∃ a, parentWork s.parent = a := ⟨_, rfl⟩
  have ha' : (workProtocol n).parent s.parent = a := ha
  cases Does.eq ha with
  | accept i hi hpc =>
    simp only [Accepted, Staged, Spawned, hpc] at hacc hJ
    exact accept_or_child hconn ha (fun j => (hJ j).2) (by omega)
  | started i c hc hpc =>
    simp only [Staged, stageOf, Spawned, hpc] at hJ
    exact recv_or_child ha (hJ c).2 (hJ c).1 (Or.inl (swept_next _ _ hnd hc).1)
  | done i c hc hpc =>
    simp only [Staged, stageOf, Spawned, hpc] at hJ
    exact recv_or_child ha (hJ c).2 (hJ c).1 (Or.inr (swept_next _ _ hnd hc).1)
  | wait i hi hpc =>
    simp only [Staged, stageOf, hpc] at hJ
    have hh : ((workProtocol n).child ⟨i, hi⟩ (s.cell ⟨i, hi⟩).state).halted = true :=
      (hJ ⟨i, hi⟩).1.finished_halted
    exact Or.inl (by simp [Protocol.fire, ha', hh])
  | returned r hpc =>
    cases r with
    | error e =>
      rw [Unfailed, hpc] at hun
      exact hun.elim
    | ok u => exact absurd hpc hnot
  | panicked hpc =>
    rw [Unfailed, hpc] at hun
    exact hun.elim
  | _ => exact Or.inl (by simp [Protocol.fire, ha'])

def childWeight (x : ChildWork) : ℕ :=
  match x.phase with
  | .connect => 4
  | .started => 3
  | .work => 2
  | .done => 1
  | .returned _ => 0

def parentWeight (p : ParentWork n) : ℕ :=
  match p.pc with
  | .spawn i => 6*(n+1)+(n-i)
  | .accept i => 5*(n+1)+(n-i)
  | .started i => 4*(n+1)+(n-i)
  | .distribute i => 2*(n+1)+1+2*(n-i)
  | .done i => (n+1)+1+(n-i)
  | .wait i => 1+(n-i)
  | .returned _ | .panicked => 0

theorem childWork_lowers (x : ChildWork) :
    ChildLowers childWeight 1 (childWeight x) (childWork x) := by
  obtain ⟨ph, sent, received⟩ := x
  cases ph with
  | connect => exact Nat.lt_succ_self 3
  | started | done => rintro (e | u) <;> simp [childWeight, ChildWork.fail]
  | work => exact ⟨fun m => Nat.lt_of_sub_pos Nat.two_pos, fun e => Nat.two_pos⟩
  | returned r => trivial

theorem parentWork_lowers {p : ParentWork n} (hacc : Accepted p) :
    ParentLowers parentWeight 1 (parentWeight p) (parentWork p) := by
  have hlt : ∀ {i : ℕ} {c : Fin n}, p.streams[i]? = some c → i < p.streams.length :=
    fun h => (List.getElem?_eq_some_iff.mp h).1
  obtain ⟨a, ha⟩ : ∃ a, parentWork p = a := ⟨_, rfl⟩
  rw [ha]
  cases Does.eq ha with
  | spawn i hi hpc =>
    intro r
    apply after_rule (Q := fun q => parentWeight q < parentWeight p) (fun _ => ?_) <;>
      simp only [parentWeight, hpc, ParentWork.fail, ParentWork.goto] <;> omega
  | wait i hi hpc =>
    intro r
    apply after_rule (Q := fun q => parentWeight q < parentWeight p) (fun _ => ?_) <;>
      simp only [parentWeight, hpc, ParentWork.fail, ParentWork.goto] <;> omega
  | accept i hi hpc =>
    rintro (e | c) <;>
      simp only [parentWeight, hpc, acceptStream, ParentWork.fail, ParentWork.goto] <;> omega
  | started i c hc hpc =>
    simp only [Accepted, hpc] at hacc
    have := hlt hc
    intro r
    apply expect_rule (Q := fun q => parentWeight q < parentWeight p) (fun _ => ?_) <;>
      simp only [parentWeight, hpc, ParentWork.fail, ParentWork.goto] <;> omega
  | done i c hc hpc =>
    simp only [Accepted, hpc] at hacc
    have := hlt hc
    intro r
    apply expect_rule (Q := fun q => parentWeight q < parentWeight p) (fun _ => ?_) <;>
      simp only [parentWeight, hpc, ParentWork.fail, ParentWork.goto] <;> omega
  | distribute i c work hc _ hpc =>
    simp only [Accepted, hpc] at hacc
    have := hlt hc
    refine ⟨?_, fun e => ?_⟩ <;>
      simp only [parentWeight, hpc, ParentWork.after, ParentWork.fail, ParentWork.goto] <;> omega
  | spawned | accepted | allStarted | overflow | distributed | allDone | waited =>
    simp only [ParentLowers, parentWeight, ParentWork.goto, *]
    omega
  | returned | panicked => trivial

/-- Every run goes on to a state in which the parent has returned Ok. -/
theorem work_completes (hsafe : Safe n) {s : WorkNet n} (hs : Reachable (workSystem n) s) :
    ∃ t, Relation.ReflTransGen (workSystem n).step s t ∧ t.parent.pc = .returned (.ok ()) := by
  obtain ⟨t, ht, hst, hstuck⟩ := network_reaches_stuck parentWeight childWeight 1
    (fun _ x => childWork_lowers x) (fun _ hr => parentWork_lowers (reachable_accepted hr)) hs
  refine ⟨t, hst, ?_⟩
  by_contra hnot
  rcases not_deadlocked hsafe ht hnot with h | ⟨j, h⟩
  · obtain ⟨u, hu⟩ := Option.isSome_iff_exists.mp h
    exact hstuck u ⟨.parent, hu⟩
  · obtain ⟨u, hu⟩ := Option.isSome_iff_exists.mp h
    exact hstuck u ⟨.child j, hu⟩

/-- No child is given work before all have reported for it; the parent returns
Ok only when all have done theirs, meets no message it does not expect, and is
never left without a move that brings it on. -/
theorem work_barrier (hn : n ≤ 255) {s : WorkNet n} (hs : Reachable (workSystem n) s) :
    ((∃ i, (s.cell i).state.received ≠ []) → ∀ j, Message.started ∈ (s.cell j).state.sent) ∧
    (s.parent.pc = .returned (.ok ()) → ∀ i, (∃ w, (s.cell i).state.received = [.data w]) ∧
      Message.done ∈ (s.cell i).state.sent) ∧
    (∀ e, s.parent.pc ≠ .returned (.error e)) ∧
    (s.parent.pc ≠ .returned (.ok ()) → ((workProtocol n).fire .parent s).isSome ∨
      ∃ j, ((workProtocol n).fire (.child j) s).isSome) := by
  have hsafe := safe_of_le hn
  obtain ⟨⟨hacc, hun⟩, hJ⟩ := reachable_staged hsafe hs
  refine ⟨?_, ?_, fun e he => ?_, not_deadlocked hsafe hs⟩
  · rintro ⟨i, hi⟩ j
    exact (hJ j).1.announced_of (stage_barrier ((hJ i).1.given_work hi))
  · intro hpc i
    have hfin := (hJ i).1
    simp only [stageOf, hpc] at hfin
    generalize s.cell i = c at hfin
    cases hfin
    exact ⟨⟨_, rfl⟩, by simp⟩
  · rw [Unfailed, he] at hun
    exact hun

theorem two_return :
    (play (workProtocol 2).fire [.parent, .parent, .parent, .child 1, .child 0, .parent, .parent,
      .parent, .child 0, .child 1, .parent, .parent, .parent, .parent, .parent, .parent, .child 0,
      .child 0, .child 1, .child 1, .parent, .parent, .parent, .parent, .parent, .parent]
      (workStart 2)).map (fun s => s.parent) = some ⟨.returned (.ok ()), [1, 0]⟩ := by
  decide +kernel

theorem work_barrier_two :
    ∃ s, Reachable (workSystem 2) s ∧ s.parent.pc = .returned (.ok ()) ∧
      ∀ i, (∃ w, (s.cell i).state.received = [.data w]) ∧ Message.done ∈ (s.cell i).state.sent := by
  obtain ⟨s, l, hl, hobs⟩ := play_reaches (· = workStart 2) _ rfl _ two_return
  have hs := reachable_of_run hl s (by simp)
  have hpc : s.parent.pc = .returned (.ok ()) := congrArg ParentWork.pc hobs
  exact ⟨s, hs, hpc, (work_barrier (by decide) hs).2.1 hpc⟩

end CrabKeeper.WorkBarrier
