import CrabKeeper.WorkBarrier

/-!
# The work labels

Connection `idx` is given the label `idx as u8 + 1`. Each message of work that a
child holds or has taken is the label of its connection's place, so the messages
are distinct as long as the places stay below 255; the place 255 itself stops
the parent.
-/

set_option autoImplicit false

namespace CrabKeeper.WorkLabels
open Foundation.Machine Foundation.Transition Foundation.Network
open CrabKeeper.MessageCodec CrabKeeper.ChannelFraming CrabKeeper.ProcessWork
open CrabKeeper.WorkBarrier

variable {n : ℕ}

def workOf (c : Cell Message ChildWork) : List Message := c.state.received ++ c.down

def workSent (s : WorkNet n) : List Message := (List.finRange n).flatMap fun j => workOf (s.cell j)

def Counted (p : ParentWork n) : Prop :=
  match p.pc with
  | .distribute i => i ≤ 255
  | .done _ | .wait _ | .returned (.ok _) => n ≤ 255
  | _ => True

theorem counted_next {p : ParentWork n} {a : WorkAction n} (h : Does p a) (hacc : Accepted p)
    (hcount : Counted p) : a.All Counted := by
  unfold Accepted at hacc
  unfold Counted at hcount
  cases h with
  | distribute i c work hc hwork hpc =>
    rw [hpc] at hcount
    have hlt := (workFor_eq_ok.mp hwork).1
    change i ≤ 255 at hcount
    have hnext : i+1 ≤ 255 := by omega
    exact after_rule (fun _ => trivial) hnext
  | distributed i hc hpc =>
    rw [hpc] at hacc hcount
    have hle := List.getElem?_eq_none_iff.mp hc
    show n ≤ 255
    change i ≤ 255 at hcount
    omega
  | done i c hc hpc =>
    rw [hpc] at hcount
    exact expect_rule (fun _ => trivial) hcount _ _
  | started => exact expect_rule (fun _ => trivial) trivial _ _
  | allStarted => exact Nat.zero_le 255
  | allDone i hc hpc | waited i hi hpc =>
    rw [hpc] at hcount
    exact hcount
  | wait i hi hpc =>
    rw [hpc] at hcount
    exact after_rule (fun _ => trivial) hcount
  | spawn => exact after_rule (fun _ => trivial) trivial
  | accept => rintro (e | c) <;> trivial
  | spawned | accepted | overflow | returned | panicked => trivial

theorem reachable_counted {s : WorkNet n} (hs : Reachable (workSystem n) s) :
    Counted s.parent := by
  apply parent_invariant (workProtocol n) ?_ ?_ hs
  · rintro s rfl
    unfold Counted workStart ParentWork.start
    rcases Nat.eq_zero_or_pos n with rfl | h
    · exact Nat.zero_le 255
    · simp only [if_neg h.ne']
  · exact fun s hr hI => counted_next (parentWork_does s.parent) (reachable_accepted hr) hI

/-- A parent that never panics has run to its end, and so has no place 255. -/
theorem safe_iff : Safe n ↔ n ≤ 255 := by
  constructor
  · intro hsafe
    obtain ⟨t, ht, hpc⟩ := work_completes hsafe (.init rfl)
    have hs : Reachable (workSystem n) t := reachable_of_steps (.init rfl) ht
    have hcount := reachable_counted hs
    rw [Counted, hpc] at hcount
    exact hcount
  · exact safe_of_le

/-- Every message of work to child `j` is the label of its connection's place. -/
def Labelled (p : ParentWork n) (j : Fin n) (c : Cell Message ChildWork) : Prop :=
  ∀ m ∈ workOf c, ∃ k, p.streams[k]? = some j ∧ workFor k = .ok m

theorem childWork_keeps {c c' : Cell Message ChildWork}
    (h : childMove (childWork c.state) c = some c') : workOf c' = workOf c := by
  obtain ⟨sp, ⟨ph, sent, received⟩, down, up⟩ := c
  cases ph with
  | connect | started | done =>
    obtain rfl := Option.some.inj h
    rfl
  | work =>
    cases down with
    | nil => cases h
    | cons m rest =>
      obtain rfl := Option.some.inj h
      exact List.append_assoc received [m] rest
  | returned r => cases h

theorem childFault_keeps {eof broken : IoError} {c c' : Cell Message ChildWork}
    (h : childFault eof broken (childWork c.state) c = some c') : workOf c' = workOf c := by
  obtain ⟨sp, ⟨ph, sent, received⟩, down, up⟩ := c
  cases ph with
  | started | done =>
    obtain rfl := Option.some.inj h
    rfl
  | work =>
    cases down with
    | nil =>
      obtain rfl := Option.some.inj h
      rfl
    | cons m rest => cases h
  | connect | returned r => cases h

theorem streams_next {p : ParentWork n} {a : WorkAction n} (h : Does p a) :
    a.All fun q => p.streams <+: q.streams := by
  cases h with
  | accept =>
    rintro (e | c)
    · exact List.prefix_rfl
    · exact List.prefix_append _ _
  | spawn | distribute | wait => exact fun r => after_streams p _ r ▸ List.prefix_rfl
  | started | done => exact fun r => expect_streams p _ _ _ r ▸ List.prefix_rfl
  | spawned | accepted | allStarted | overflow | distributed | allDone | waited =>
    exact List.prefix_rfl
  | returned | panicked => trivial

theorem labelled_parent {s t : WorkNet n} (h : ∀ j, Labelled s.parent j (s.cell j))
    (hm : ParentMove (workProtocol n) s t) (j : Fin n) : Labelled t.parent j (t.cell j) := by
  obtain ⟨rest, hgrow⟩ :=
    parentMove_all (workProtocol n) (streams_next (parentWork_does s.parent)) hm
  have hkeep : ∀ {k}, s.parent.streams[k]? = some j → t.parent.streams[k]? = some j := fun hk => by
    rw [← hgrow, List.getElem?_append_left (List.getElem?_eq_some_iff.mp hk).1]
    exact hk
  intro m hmem
  rw [workOf, parentMove_state _ hm] at hmem
  have hcase : m ∈ workOf (s.cell j) ∨ ∃ next, parentWork s.parent = .send j m next := by
    rcases List.mem_append.mp hmem with htaken | hdown
    · exact Or.inl (List.mem_append_left _ htaken)
    · exact (parentMove_down _ hm j m hdown).imp_left (List.mem_append_right _)
  rcases hcase with hold | ⟨next, ha⟩
  · obtain ⟨k, hk, hwork⟩ := h j m hold
    exact ⟨k, hkeep hk, hwork⟩
  · cases Does.eq ha with
    | distribute i _ _ hc hwork _ => exact ⟨i, hkeep hc, hwork⟩

theorem reachable_labelled {s : WorkNet n} (hs : Reachable (workSystem n) s) (j : Fin n) :
    Labelled s.parent j (s.cell j) := by
  refine (cellwise_invariant (workProtocol n) (fun _ => True) Labelled ?_ ?_ ?_ ?_ hs).2 j
  · rintro s rfl
    exact ⟨trivial, fun j m hm => absurd hm List.not_mem_nil⟩
  · intro s i c _ h hm
    rw [Labelled, childWork_keeps hm]
    exact h
  · intro s i c _ _ h _ hm
    rw [Labelled, childFault_keeps hm]
    exact h
  · exact fun s t _ _ h hm => ⟨trivial, labelled_parent h hm⟩

theorem AtStage.one_work {st : Stage} {c : Cell Message ChildWork} (h : AtStage st c) :
    (workOf c).Nodup := by
  cases h <;> simp [workOf]

theorem label_injective {j k : ℕ} {m : Message} (hj : workFor j = .ok m) (hk : workFor k = .ok m)
    (hj' : j < 255) (hk' : k < 255) : j = k := by
  obtain ⟨_, rfl⟩ := workFor_eq_ok.mp hj
  obtain ⟨_, heq⟩ := workFor_eq_ok.mp hk
  have hval := congrArg UInt8.toNat (List.cons.inj (Message.data.inj heq)).1
  rw [UInt8.toNat_ofNat', UInt8.toNat_ofNat'] at hval
  omega

theorem work_distinct (hn : n ≤ 255) {s : WorkNet n} (hs : Reachable (workSystem n) s) :
    (workSent s).Nodup := by
  have hnd := (List.nodup_append.mp (reachable_connections hs).nodup).1
  have hlen : s.parent.streams.length ≤ n := by
    have := hnd.length_le_card
    rwa [Fintype.card_fin] at this
  rw [workSent, List.nodup_flatMap]
  refine ⟨fun j _ => AtStage.one_work ((reachable_staged (safe_of_le hn) hs).2 j).1, ?_⟩
  apply (List.nodup_finRange n).imp
  intro i j hij m hi hj
  obtain ⟨k, hk, hwk⟩ := reachable_labelled hs i m hi
  obtain ⟨l, hl, hwl⟩ := reachable_labelled hs j m hj
  have hklt := (List.getElem?_eq_some_iff.mp hk).1
  have hllt := (List.getElem?_eq_some_iff.mp hl).1
  obtain rfl := label_injective hwk hwl (by omega) (by omega)
  exact hij (Option.some.inj (hk.symm.trans hl))

/-- No label overflows and all work is distinct, in every run, exactly up to 255
children. -/
theorem work_labels_iff (n : ℕ) :
    (∀ s, Reachable (workSystem n) s → s.parent.pc ≠ .panicked ∧ (workSent s).Nodup) ↔
      n ≤ 255 := by
  constructor
  · exact fun h => safe_iff.mp fun s hs => (h s hs).1
  · exact fun hn s hs => ⟨safe_of_le hn s hs, work_distinct hn hs⟩

/-- With 256 children some run panics; unchecked, the label of place 256 is the
label of place zero. -/
theorem work_labels_256 :
    workFor 255 = .error .overflow ∧
      (∃ s, Reachable (workSystem 256) s ∧ s.parent.pc = .panicked) ∧
      UInt8.ofNat 256+1 = UInt8.ofNat 0+1 := by
  have hpanic : ¬ Safe 256 := fun h => absurd (safe_iff.mp h) (by decide)
  simp only [Safe, not_forall, not_not] at hpanic
  obtain ⟨s, hs, hpc⟩ := hpanic
  exact ⟨by decide, ⟨s, hs, hpc⟩, by decide⟩

end CrabKeeper.WorkLabels
