import CrabKeeper.StreamTurns
import CrabKeeper.WorkBarrier
import CrabKeeper.WorkPeers

/-!
# How `parent_work` ends on arbitrary streams

Once its connections are accepted the parent is left to their bytes. Any bytes
may arrive on each, and each may stop taking bytes at any moment. The parent
comes to its end, and to a good one exactly on the streams of willing peers.
-/

set_option autoImplicit false

namespace CrabKeeper.ParentThread
open Foundation.Machine Foundation.Network Foundation.Termination Foundation.Dialogue
open CrabKeeper.MessageCodec CrabKeeper.ChannelFraming CrabKeeper.ProcessWork
open CrabKeeper.WorkBarrier CrabKeeper.WorkPeers CrabKeeper.StreamTurns

variable {n : ℕ}

def workParty (n : ℕ) : Party (Fin n) Message IoError Panic (ParentWork n) where
  program := parentWork
  abort _ p := p.goto .panicked

/-- The party acts as the host does when the processes end well. -/
theorem act_eq_fire {h : Host n} (ht : Talks (parentWork h.work)) :
    act tcp (workParty n) (h.work, h.conn) =
      ((h.fire .go).map fun g => (g.work, g.conn)).getD (h.work, h.conn) := by
  cases ha : parentWork h.work with
  | spawn i next | accept next =>
    rw [ha] at ht
    exact ht.elim
  | recv c next =>
    cases hr : recvMessage (h.conn c) <;> simp [act, workParty, tcp, Host.fire, ha, hr]
  | send | wait | tau | halt => simp [act, workParty, tcp, Host.fire, ha]

def accepted (l : List (Fin n)) : ParentWork n := ⟨.started 0, l⟩

def Takes (s : TcpStream) : Prop := ∀ k, s.room = some k → 18 ≤ k

/-- A peer that says STARTED and DONE, and takes its work in between. -/
structure Cooperative (s : TcpStream) : Prop where
  talks : ∃ rest, s.input = frame .started ++ (frame .done ++ rest)
  takes : Takes s

def Willing (st : Fin n → TcpStream) : Prop := n ≤ 255 ∧ ∀ j, Cooperative (st j)

def Served (l : List (Fin n)) (j : Fin n) (s₀ s : TcpStream) : Prop :=
  ∃ work, workFor (l.idxOf j) = .ok work ∧ s.output = s₀.output ++ frame work

/-- How much of a stream has been used up, stage by stage. -/
def Seen (l : List (Fin n)) (j : Fin n) (s₀ s : TcpStream) : Stage → Prop
  | .fresh => s = s₀
  | .ready => s₀ = { s with input := frame .started ++ s.input }
  | .working => s₀.input = frame .started ++ s.input ∧ Takes s₀ ∧ Served l j s₀ s
  | .finished =>
    s₀.input = frame .started ++ (frame .done ++ s.input) ∧ Takes s₀ ∧ Served l j s₀ s

def Wrote (l : List (Fin n)) (j : Fin n) (s₀ s : TcpStream) : Prop :=
  s.output = s₀.output ∨ ∃ work, workFor (l.idxOf j) = .ok work ∧
    s₀.output <+: s.output ∧ s.output <+: s₀.output ++ frame work

theorem Seen.wrote {l : List (Fin n)} {j : Fin n} {s₀ s : TcpStream} {g : Stage}
    (h : Seen l j s₀ s g) : Wrote l j s₀ s := by
  have hserved : Served l j s₀ s → Wrote l j s₀ s := by
    rintro ⟨work, hw, hout⟩
    refine Or.inr ⟨work, hw, ?_, ?_⟩ <;> rw [hout]
    exact List.prefix_append _ _
  cases g with
  | fresh => exact Or.inl (congrArg TcpStream.output h)
  | ready => exact Or.inl (congrArg TcpStream.output h).symm
  | working | finished => exact hserved h.2.2

section Pass

variable {l : List (Fin n)} {st s : Fin n → TcpStream} {a b : Stage} {i : ℕ} {c : Fin n}

theorem seen_next (hnd : l.Nodup) (hc : l[i]? = some c)
    (h : ∀ j, Seen l j (st j) (s j) (swept a b l i j)) {t : TcpStream}
    (ht : Seen l c (st c) t b) (j : Fin n) :
    Seen l j (st j) (Function.update s c t j) (swept a b l (i+1) j) := by
  obtain ⟨_, hnew, hold⟩ := swept_next a b hnd hc
  by_cases hj : j = c
  · subst hj
    rw [Function.update_self, hnew]
    exact ht
  · rw [Function.update_of_ne hj, hold j hj]
    exact h j

theorem seen_turn (hnd : l.Nodup) (hlen : l.length = n) (hc : l[i]? = none)
    (h : ∀ j, Seen l j (st j) (s j) (swept a b l i j)) (d : Stage) (j : Fin n) :
    Seen l j (st j) (s j) (swept b d l 0 j) := by
  rw [swept_zero]
  have := h j
  rwa [swept_all a b hc (mem_streams hnd hlen j)] at this

theorem seen_current (hnd : l.Nodup) (hc : l[i]? = some c)
    (h : ∀ j, Seen l j (st j) (s j) (swept a b l i j)) : Seen l c (st c) (s c) a := by
  have := h c
  rwa [(swept_next a b hnd hc).1] at this

theorem index_eq (hnd : l.Nodup) (hc : l[i]? = some c) : l.idxOf c = i := by
  obtain ⟨hi, rfl⟩ := List.getElem?_eq_some_iff.mp hc
  exact hnd.idxOf_getElem i hi

end Pass

section Actions

variable {w : ParentWork n × (Fin n → TcpStream)} {c : Fin n}

theorem update_output {s : Fin n → TcpStream} {t : TcpStream} (ht : t.output = (s c).output)
    (j : Fin n) : (Function.update s c t j).output = (s j).output := by
  by_cases hj : j = c
  · subst hj
    rw [Function.update_self, ht]
  · rw [Function.update_of_ne hj]

theorem act_expect {m : Message} {name : String} {pc : WorkPc} (hm : Message.Fits m)
    (ha : parentWork w.1 = .recv c (w.1.expect m name pc)) :
    (∃ rest, (w.2 c).input = frame m ++ rest ∧
      act tcp (workParty n) w = (w.1.goto pc,
        Function.update w.2 c { w.2 c with input := rest })) ∨
    (∀ rest, (w.2 c).input ≠ frame m ++ rest) ∧ ¬ Unfailed (act tcp (workParty n) w).1 ∧
      ∀ j, ((act tcp (workParty n) w).2 j).output = (w.2 j).output := by
  by_cases hin : ∃ rest, (w.2 c).input = frame m ++ rest
  · obtain ⟨rest, hin⟩ := hin
    refine Or.inl ⟨rest, hin, ?_⟩
    rw [act_recv (D := tcp) ha (recv_frame _ m rest hm hin), ParentWork.expect,
      if_neg (not_not.mpr rfl)]
  · simp only [not_exists] at hin
    refine Or.inr ⟨hin, ?_⟩
    cases hr : recvMessage (w.2 c) with
    | error p =>
      rw [act_abort (D := tcp) ha hr]
      exact ⟨fun h => h, fun j => rfl⟩
    | ok x =>
      obtain ⟨r, s⟩ := x
      rw [act_recv (D := tcp) ha hr]
      refine ⟨?_, update_output (recv_suffix hr).2⟩
      cases r with
      | error e => exact fun h => h
      | ok msg =>
        have hne : msg ≠ m := by
          rintro rfl
          obtain ⟨_, rest, hrest, _⟩ := recv_eq_ok.mp hr
          exact hin rest hrest
        rw [ParentWork.expect, if_pos hne]
        exact fun h => h

theorem act_give {m : Message} {pc : WorkPc} (ha : parentWork w.1 = .send c m (w.1.after pc))
    (hm : (frame m).length = 18) :
    (Takes (w.2 c) ∧ ∃ s, act tcp (workParty n) w = (w.1.goto pc, Function.update w.2 c s) ∧
      s.input = (w.2 c).input ∧ s.output = (w.2 c).output ++ frame m) ∨
    ¬ Takes (w.2 c) ∧ ¬ Unfailed (act tcp (workParty n) w).1 ∧
      ∃ s, (act tcp (workParty n) w).2 = Function.update w.2 c s ∧
        (w.2 c).output <+: s.output ∧ s.output <+: (w.2 c).output ++ frame m := by
  by_cases ht : Takes (w.2 c)
  · have hs := send_takes (m := m) (s := w.2 c) (by rwa [hm])
    exact Or.inl ⟨ht, _, act_send (D := tcp) (T := workParty n) ha hs, rfl, rfl⟩
  · obtain ⟨k, hk, hlt⟩ : ∃ k, (w.2 c).room = some k ∧ k < 18 := by
      simpa [Takes] using ht
    rw [act_send (D := tcp) ha (send_breaks hk (by omega))]
    refine Or.inr ⟨ht, fun h => h, _, rfl, List.prefix_append _ _, ?_⟩
    exact (List.prefix_append_right_inj _).mpr (List.take_prefix k _)

end Actions

theorem fits_empty {m : Message} (h : m.payload = []) : Message.Fits m := by
  rw [fits_iff, h]
  decide

theorem work_length {i : ℕ} {work : Message} (h : workFor i = .ok work) :
    (frame work).length = 18 := by
  obtain ⟨_, rfl⟩ := workFor_eq_ok.mp h
  rw [frame_length]
  rfl

variable {l : List (Fin n)} {st : Fin n → TcpStream}

def Passing : WorkPc → Prop
  | .started _ | .distribute _ | .done _ | .wait _ | .returned (.ok _) => True
  | _ => False

/-- A parent on its way through the three passes, or one that has failed on
streams that make it fail. -/
inductive Tracked (l : List (Fin n)) (st : Fin n → TcpStream)
    (w : ParentWork n × (Fin n → TcpStream)) : Prop
  | going : w.1.streams = l → Passing w.1.pc →
      (∀ j, Seen l j (st j) (w.2 j) (stageOf w.1 j)) → Tracked l st w
  | failed : ¬ Unfailed w.1 → (∀ j, Wrote l j (st j) (w.2 j)) → ¬ Willing st → Tracked l st w

section Passes

variable {p : ParentWork n} {s : Fin n → TcpStream} {i : ℕ} {c : Fin n}

theorem wrote_same {t : Fin n → TcpStream} (h : ∀ j, Seen l j (st j) (s j) (stageOf p j))
    (ht : ∀ j, (t j).output = (s j).output) (j : Fin n) : Wrote l j (st j) (t j) := by
  unfold Wrote
  rw [ht j]
  exact (h j).wrote

theorem tracked_started (hnd : p.streams.Nodup) (hc : p.streams[i]? = some c)
    (hpc : p.pc = .started i) (hseen : ∀ j, Seen p.streams j (st j) (s j) (stageOf p j))
    (ha : parentWork p = .recv c (p.expect .started "Started" (.started (i+1)))) :
    Tracked p.streams st (act tcp (workParty n) (p, s)) := by
  have hwrote := fun t => wrote_same (t := t) hseen
  simp only [stageOf, hpc] at hseen
  have hcur : s c = st c := seen_current hnd hc hseen
  rcases act_expect (w := (p, s)) (fits_empty rfl) ha with ⟨rest, hin, heq⟩ | ⟨hin, hf, hout⟩
  · rw [heq]
    refine .going rfl trivial (seen_next hnd hc hseen ?_)
    show st c = _
    rw [← hcur, ← hin]
  · refine .failed hf (hwrote _ hout) fun hw => ?_
    obtain ⟨rest, hrest⟩ := (hw.2 c).talks
    exact hin _ (hcur ▸ hrest)

theorem tracked_done (hnd : p.streams.Nodup) (hc : p.streams[i]? = some c)
    (hpc : p.pc = .done i) (hseen : ∀ j, Seen p.streams j (st j) (s j) (stageOf p j))
    (ha : parentWork p = .recv c (p.expect .done "Done" (.done (i+1)))) :
    Tracked p.streams st (act tcp (workParty n) (p, s)) := by
  have hwrote := fun t => wrote_same (t := t) hseen
  simp only [stageOf, hpc] at hseen
  have hcur : Seen p.streams c (st c) (s c) .working := seen_current hnd hc hseen
  rcases act_expect (w := (p, s)) (fits_empty rfl) ha with ⟨rest, hin, heq⟩ | ⟨hin, hf, hout⟩
  · rw [heq]
    refine .going rfl trivial (seen_next hnd hc hseen ⟨?_, hcur.2⟩)
    rw [hcur.1]
    exact congrArg _ hin
  · refine .failed hf (hwrote _ hout) fun hw => ?_
    obtain ⟨rest, hrest⟩ := (hw.2 c).talks
    exact hin rest (List.append_cancel_left (hcur.1.symm.trans hrest))

theorem tracked_given {work : Message} (hnd : p.streams.Nodup) (hc : p.streams[i]? = some c)
    (hwork : workFor i = .ok work) (hpc : p.pc = .distribute i)
    (hseen : ∀ j, Seen p.streams j (st j) (s j) (stageOf p j))
    (ha : parentWork p = .send c work (p.after (.distribute (i+1)))) :
    Tracked p.streams st (act tcp (workParty n) (p, s)) := by
  have hwrote := wrote_same (t := s) hseen fun _ => rfl
  simp only [stageOf, hpc] at hseen
  have hcur : st c = { s c with input := frame .started ++ (s c).input } :=
    seen_current hnd hc hseen
  have hroom : (st c).room = (s c).room := by rw [hcur]
  have hsame : (st c).output = (s c).output := by rw [hcur]
  have hidx : workFor (p.streams.idxOf c) = .ok work := (index_eq hnd hc).symm ▸ hwork
  rcases act_give (w := (p, s)) ha (work_length hwork) with
    ⟨ht, t, heq, hin, hout⟩ | ⟨ht, hf, t, heq, hbeg, hend⟩
  · rw [heq]
    refine .going rfl trivial (seen_next hnd hc hseen ⟨?_, ?_, work, hidx, ?_⟩)
    · rw [hin, hcur]
    · rwa [Takes, hroom]
    · rw [hsame]
      exact hout
  · refine .failed hf (fun j => ?_) fun hw => ht ?_
    · rw [heq]
      by_cases hj : j = c
      · subst hj
        rw [Function.update_self]
        exact Or.inr ⟨work, hidx, hsame ▸ hbeg, hsame ▸ hend⟩
      · rw [Function.update_of_ne hj]
        exact hwrote j
    · have := (hw.2 c).takes
      rwa [Takes, hroom] at this

end Passes

theorem Passing.unfailed {p : ParentWork n} (h : Passing p.pc) : Unfailed p := by
  obtain ⟨pc, l⟩ := p
  cases pc with
  | spawn i | accept i | panicked => exact h.elim
  | started i | distribute i | done i | wait i => trivial
  | returned r => cases r <;> trivial

theorem accepted_of_passing {p : ParentWork n} (h : Passing p.pc) (hlen : p.streams.length = n) :
    Accepted p := by
  obtain ⟨pc, l⟩ := p
  cases pc with
  | spawn i | accept i => exact h.elim
  | started i | distribute i | done i => exact hlen
  | wait i | returned r | panicked => trivial

theorem talks_of_passing {p : ParentWork n} (h : Passing p.pc) : Talks (parentWork p) := by
  obtain ⟨a, ha⟩ : ∃ a, parentWork p = a := ⟨_, rfl⟩
  rw [ha]
  cases Does.eq ha with
  | spawn i hi hpc | accept i hi hpc => simp [Passing, hpc] at h
  | _ => trivial

theorem passing_lowers {w : ParentWork n × (Fin n → TcpStream)} (hpass : Passing w.1.pc)
    (hlen : w.1.streams.length = n) (hrun : (parentWork w.1).halted = false) :
    parentWeight (act tcp (workParty n) w).1 < parentWeight w.1 := by
  have hlow := parentWork_lowers (accepted_of_passing hpass hlen)
  apply act_lowers (T := workParty n) (talks_of_passing hpass) hlow
  · intro i next e ha
    change parentWork w.1 = _ at ha
    rw [ha] at hlow
    exact Nat.zero_lt_of_lt (hlow (.error .unexpectedEof))
  · intro ha
    change parentWork w.1 = _ at ha
    rw [ha] at hrun
    cases hrun

/-- The step lemma: one case for each pass, and one for the end of each. -/
theorem Tracked.step (hnd : l.Nodup) (hlen : l.length = n)
    {w : ParentWork n × (Fin n → TcpStream)} (ht : Tracked l st w)
    (hrun : (parentWork w.1).halted = false) :
    Tracked l st (act tcp (workParty n) w) ∧
      parentWeight (act tcp (workParty n) w).1 < parentWeight w.1 := by
  cases ht with
  | failed hf _ _ => exact absurd ((Does.eq rfl).unfailed hrun) hf
  | going hl hpass hseen =>
    refine ⟨?_, passing_lowers hpass (hl ▸ hlen) hrun⟩
    obtain ⟨p, s⟩ := w
    obtain rfl : p.streams = l := hl
    obtain ⟨a, ha⟩ : ∃ a, parentWork p = a := ⟨_, rfl⟩
    cases Does.eq ha with
    | started i c hc hpc => exact tracked_started hnd hc hpc hseen ha
    | distribute i c work hc hwork hpc => exact tracked_given hnd hc hwork hpc hseen ha
    | done i c hc hpc => exact tracked_done hnd hc hpc hseen ha
    | overflow i c e hc hwork hpc =>
      rw [act_tau (T := workParty n) (w := (p, s)) ha]
      refine .failed (fun h => h) (wrote_same hseen fun _ => rfl) fun hw => ?_
      have hn := hw.1
      have hi := (List.getElem?_eq_some_iff.mp hc).1
      rw [workFor_eq (by omega)] at hwork
      cases hwork
    | allStarted i hc hpc | distributed i hc hpc =>
      rw [act_tau (T := workParty n) (w := (p, s)) ha]
      simp only [stageOf, hpc] at hseen
      exact .going rfl trivial (seen_turn hnd hlen hc hseen _)
    | allDone i hc hpc =>
      rw [act_tau (T := workParty n) (w := (p, s)) ha]
      simp only [stageOf, hpc] at hseen
      refine .going rfl trivial fun j => ?_
      have := hseen j
      rwa [swept_all _ _ hc (mem_streams hnd hlen j)] at this
    | wait i hi hpc =>
      rw [act_wait (T := workParty n) (w := (p, s)) ha]
      simp only [stageOf, hpc] at hseen
      exact .going rfl trivial hseen
    | waited i hi hpc =>
      rw [act_tau (T := workParty n) (w := (p, s)) ha]
      simp only [stageOf, hpc] at hseen
      exact .going rfl trivial hseen
    | spawn i hi hpc | accept i hi hpc | spawned i hi hpc | accepted i hi hpc =>
      simp [Passing, hpc] at hpass
    | returned r hpc | panicked hpc =>
      change (parentWork p).halted = false at hrun
      rw [ha] at hrun
      cases hrun

theorem willing_of_seen (hnd : l.Nodup) (hlen : l.length = n) {s : Fin n → TcpStream}
    (h : ∀ j, Seen l j (st j) (s j) .finished) : Willing st := by
  refine ⟨?_, fun j => ⟨⟨_, (h j).1⟩, (h j).2.1⟩⟩
  by_contra hn
  have hc : l[255]? = some (l.get ⟨255, by omega⟩) := List.getElem?_eq_getElem _
  obtain ⟨work, hwork, _⟩ := (h (l.get ⟨255, by omega⟩)).2.2
  rw [index_eq hnd hc] at hwork
  have := (workFor_eq_ok.mp hwork).1
  omega

structure Finished (l : List (Fin n)) (j : Fin n) (s₀ s : TcpStream) : Prop where
  read : s₀.input = frame .started ++ (frame .done ++ s.input)
  written : Served l j s₀ s

inductive Ended (l : List (Fin n)) (st : Fin n → TcpStream)
    (w : ParentWork n × (Fin n → TcpStream)) : Prop
  | ok : w.1.pc = .returned (.ok ()) → Willing st → (∀ j, Finished l j (st j) (w.2 j)) →
      Ended l st w
  | failed : w.1.pc = .panicked ∨ (∃ e, w.1.pc = .returned (.error e)) → ¬ Willing st →
      (∀ j, Wrote l j (st j) (w.2 j)) → Ended l st w

theorem Tracked.ended (hnd : l.Nodup) (hlen : l.length = n)
    {w : ParentWork n × (Fin n → TcpStream)} (ht : Tracked l st w)
    (hh : (parentWork w.1).halted = true) : Ended l st w := by
  cases ht with
  | going hl hpass hseen =>
    obtain ⟨a, ha⟩ : ∃ a, parentWork w.1 = a := ⟨_, rfl⟩
    rw [ha] at hh
    cases Does.eq ha with
    | returned r hpc =>
      cases r with
      | error e => simp [Passing, hpc] at hpass
      | ok u =>
        simp only [stageOf, hpc] at hseen
        exact .ok hpc (willing_of_seen hnd hlen hseen) fun j => ⟨(hseen j).1, (hseen j).2.2⟩
    | panicked hpc => simp [Passing, hpc] at hpass
    | spawn | spawned | accept | accepted | started | allStarted | distribute | overflow
    | distributed | done | allDone | wait | waited => cases hh
  | failed hf hwrote hno =>
    refine .failed ?_ hno hwrote
    unfold Unfailed at hf
    split at hf
    · exact Or.inl ‹_›
    · exact Or.inr ⟨_, ‹_›⟩
    · exact absurd trivial hf

def earlyLeaver : Fin 2 → TcpStream
  | 0 => ⟨frame .started ++ (frame .done ++ []), [], none⟩
  | 1 => ⟨frame .started, [], some 18⟩

end CrabKeeper.ParentThread
