import CrabKeeper.RelayInvariant

/-!
# The reports the parent collects

A report leaves a child as its last action, and what the parent decodes and
keeps as the history of stream `i` is the history of child `i`.
-/

set_option autoImplicit false

namespace CrabKeeper.CollectedReports
open Foundation.Machine Foundation.DoubleEntry Foundation.Transition Foundation.Network
open CrabKeeper.MessageCodec CrabKeeper.ChannelFraming CrabKeeper.BankTypes
open CrabKeeper.BankAccount CrabKeeper.BankChild CrabKeeper.ChildAccounts CrabKeeper.ChildForecast
open CrabKeeper.RelayParent CrabKeeper.RelayInvariant

variable {κ ρ : Type} {n : ℕ} {orders : List TransferOrder} {id : AccountId}
  {c c' : ChildCell κ ρ}

/-- If the message is a report at all, it is the last word of this child. -/
def FinalReport (c : ChildCell κ ρ) (m : Message) : Prop :=
  ∀ bytes, m = .balanceHistory bytes →
    hasExited c.state.phase = true ∧ bytes = c.state.account.history.toBytes

structure Reported (p : Relay) (i : Fin n) (c : ChildCell κ ρ) : Prop where
  queued : ∀ e ∈ c.up, FinalReport c e.msg
  read : ∀ report, p.pc = .decode i.val report → FinalReport c report
  kept : ∀ h, p.histories[i.val]? = some h →
    hasExited c.state.phase = true ∧ h = c.state.account.history

theorem FinalReport.of_running {m : Message} (h : FinalReport c m)
    (hc : hasExited c.state.phase = false) : FinalReport c' m := by
  intro bytes hm
  have := (h bytes hm).1
  rw [hc] at this
  cases this

theorem child_sends (V : Variant κ ρ)
    (h : childMove (bankingChild V id c.state) c = some c') :
    hasExited c.state.phase = false ∧ ∀ e ∈ c'.up, e ∈ c.up ∨ FinalReport c' e.msg := by
  have hplain : ∀ (e : Envelope) (up : List Envelope), (∀ b, e.msg ≠ .balanceHistory b) →
      ∀ x ∈ up ++ [e], x ∈ up ∨ FinalReport c' x.msg := by
    intro e up he x hx
    rcases List.mem_append.mp hx with hx | hx
    · exact Or.inl hx
    · obtain rfl := List.mem_singleton.mp hx
      exact Or.inr fun b hb => absurd hb (he b)
  obtain ⟨sp, ⟨ph, a, clk, led⟩, down, up⟩ := c
  cases ph with
  | launch | debit | credit =>
    obtain rfl := Option.some.inj h
    exact ⟨rfl, fun e he => Or.inl he⟩
  | receive =>
    cases down with
    | nil => cases h
    | cons e es =>
      obtain rfl := Option.some.inj h
      exact ⟨rfl, fun e he => Or.inl he⟩
  | started | forward | acknowledge | done =>
    obtain rfl := Option.some.inj h
    exact ⟨rfl, hplain _ _ (by simp)⟩
  | report =>
    obtain rfl := Option.some.inj h
    refine ⟨rfl, fun e he => ?_⟩
    rcases List.mem_append.mp he with he | he
    · exact Or.inl he
    · obtain rfl := List.mem_singleton.mp he
      refine Or.inr fun bytes hb => ⟨rfl, ?_⟩
      cases hb
      rfl
  | exited r => cases h

theorem child_fault_stops (V : Variant κ ρ) {eof broken : IoError}
    (h : childFault eof broken (bankingChild V id c.state) c = some c') :
    hasExited c.state.phase = false ∧ c'.up = c.up := by
  obtain ⟨sp, ⟨ph, a, clk, led⟩, down, up⟩ := c
  cases ph with
  | receive =>
    cases down with
    | nil =>
      obtain rfl := Option.some.inj h
      exact ⟨rfl, rfl⟩
    | cons e es => cases h
  | started | forward | acknowledge | done | report =>
    obtain rfl := Option.some.inj h
    exact ⟨rfl, rfl⟩
  | launch | debit | credit | exited => cases h

theorem Reported.of_running {p : Relay} {i : Fin n} (h : Reported p i c)
    (hc : hasExited c.state.phase = false) (hup : ∀ e ∈ c'.up, e ∈ c.up ∨ FinalReport c' e.msg) :
    Reported p i c' := by
  refine ⟨fun e he => ?_, fun r hr => (h.read r hr).of_running hc, fun k hk => ?_⟩
  · rcases hup e he with he | he
    · exact (h.queued e he).of_running hc
    · exact he
  · have := (h.kept k hk).1
    rw [hc] at this
    cases this

structure Keeps (p q : Relay) : Prop where
  reads : ∀ j r, q.pc = .decode j r → p.pc = .decode j r
  keeps : q.histories = p.histories

def decoding : RelayPc → Bool
  | .decode _ _ => true
  | _ => false

theorem keeps {p q : Relay} (hpc : decoding q.pc = false) (hh : q.histories = p.histories) :
    Keeps p q := by
  refine ⟨fun j r hr => ?_, hh⟩
  rw [hr] at hpc
  cases hpc

theorem Reported.quiet {p q : Relay} {i : Fin n} (h : Reported p i c)
    (hs : c'.state = c.state) (hup : ∀ e ∈ c'.up, e ∈ c.up) (hq : Keeps p q) :
    Reported q i c' := by
  refine ⟨fun e he => ?_, fun r hr => ?_, fun k hk => ?_⟩
  · unfold FinalReport
    rw [hs]
    exact h.queued e (hup e he)
  · unfold FinalReport
    rw [hs]
    exact h.read r (hq.reads _ r hr)
  · rw [hq.keeps] at hk
    rw [hs]
    exact h.kept k hk

section Steps

variable {V : Variant κ ρ} {s t : BankNet κ ρ n} {p : Relay}

theorem reported_sendTo {i : Option (Fin n)} {none next : Relay} {e : Envelope}
    (ha : (relayProtocol n V orders).parent s.parent = sendTo p i none e next)
    (hmove : ParentMove (relayProtocol n V orders) s t) (h : ∀ i, Reported p i (s.cell i))
    (hnone : Keeps p none) (hnext : Keeps p next) : ∀ j, Reported t.parent j (t.cell j) := by
  have hquiet : ∀ q : Relay, Keeps p q → ∀ j, Reported q j (s.cell j) := fun q hq j =>
    (h j).quiet rfl (fun _ he => he) hq
  refine (sendTo_step (I := fun _ => True) (J := Reported) V ha hmove ⟨trivial, ?_⟩ ?_ ?_).2
  · exact hquiet p.panic ⟨fun _ _ hr => hr, rfl⟩
  · exact fun _ => ⟨trivial, hquiet none hnone⟩
  · intro x _
    exact ⟨trivial, (h x).quiet rfl (fun _ he => he) hnext, fun j _ => hquiet next hnext j⟩

theorem reported_recvFrom {i : Option (Fin n)} {none : Relay} {next : Envelope → Relay}
    (ha : (relayProtocol n V orders).parent s.parent = recvFrom p i none next)
    (hmove : ParentMove (relayProtocol n V orders) s t) (h : ∀ i, Reported p i (s.cell i))
    (hnone : Keeps p none) (hnext : ∀ e, Keeps p (next e)) :
    ∀ j, Reported t.parent j (t.cell j) := by
  have hquiet : ∀ q : Relay, Keeps p q → ∀ j, Reported q j (s.cell j) := fun q hq j =>
    (h j).quiet rfl (fun _ he => he) hq
  refine (recvFrom_step (I := fun _ => True) (J := Reported) V ha hmove ⟨trivial, ?_⟩ ?_ ?_).2
  · exact hquiet p.panic ⟨fun _ _ hr => hr, rfl⟩
  · exact fun _ => ⟨trivial, hquiet none hnone⟩
  · intro x e rest _ hup
    exact ⟨trivial, (h x).quiet rfl (fun _ he => by rw [hup]; exact List.mem_cons_of_mem e he)
      (hnext e), fun j _ => hquiet (next e) (hnext e) j⟩

theorem reported_history {j : ℕ} {hs : List BalanceHistory}
    (hp : s.parent = ⟨.history j, false, hs⟩) (h : ∀ i, Reported s.parent i (s.cell i))
    (hmove : ParentMove (relayProtocol n V orders) s t) :
    ∀ i, Reported t.parent i (t.cell i) := by
  rw [hp] at h
  have ha : (relayProtocol n V orders).parent s.parent =
      awaitReport ⟨.history j, false, hs⟩ j := by
    rw [hp]
    rfl
  have hpanic : ∀ i, Reported (Relay.panic ⟨.history j, false, hs⟩) i (s.cell i) := fun i =>
    (h i).quiet rfl (fun _ he => he) ⟨fun _ _ hr => hr, rfl⟩
  refine (recvFrom_step (I := fun _ => True) (J := Reported) V ha hmove ⟨trivial, hpanic⟩
    (fun _ => ⟨trivial, hpanic⟩) ?_).2
  intro x e rest hx hup
  obtain rfl := streamAt_eq_some.mp hx
  refine ⟨trivial, ⟨fun f hf => ?_, fun r hr => ?_, (h x).kept⟩, fun i hi => ?_⟩
  · exact (h x).queued f (by rw [hup]; exact List.mem_cons_of_mem e hf)
  · cases hr
    exact (h x).queued e (by simp [hup])
  · have hne := Fin.val_ne_of_ne hi
    exact ⟨(h i).queued, fun r hr => absurd (RelayPc.decode.inj hr).1.symm hne, (h i).kept⟩

theorem reported_decode {j : ℕ} {report : Message} {hs : List BalanceHistory}
    (hp : s.parent = ⟨.decode j report, false, hs⟩) (hlen : hs.length = j)
    (h : ∀ i, Reported s.parent i (s.cell i)) (hmove : ParentMove (relayProtocol n V orders) s t) :
    ∀ i, Reported t.parent i (t.cell i) := by
  rw [hp] at h
  have ha : (relayProtocol n V orders).parent s.parent =
      .tau (onReport ⟨.decode j report, false, hs⟩ j report) := by
    rw [hp]
    rfl
  have hpanic : ∀ i, Reported (Relay.panic ⟨.decode j report, false, hs⟩) i (s.cell i) := fun i =>
    (h i).quiet rfl (fun _ he => he) ⟨fun _ _ hr => hr, rfl⟩
  refine (tau_rule (I := fun _ => True) (J := Reported) _ ha trivial ?_ hmove).2
  unfold onReport
  split
  · next bytes =>
    split
    · next k hk =>
      intro i
      refine ⟨(h i).queued, fun r hr => (by cases hr), fun k' hk' => ?_⟩
      change (hs ++ [k])[i.val]? = some k' at hk'
      rcases Nat.lt_trichotomy i.val j with hi | hi | hi
      · rw [List.getElem?_append_left (by omega)] at hk'
        exact (h i).kept k' hk'
      · obtain ⟨hex, hbytes⟩ := (h i).read _ (by rw [hi]) bytes rfl
        rw [List.getElem?_append_right (by omega), hi, hlen, Nat.sub_self] at hk'
        obtain rfl := Option.some.inj hk'
        rw [hbytes] at hk
        exact ⟨hex, history_report_faithful hk⟩
      · rw [List.getElem?_eq_none (by simp; omega)] at hk'
        cases hk'
    · exact hpanic
  · exact hpanic

theorem reported_order {k : ℕ} {hs : List BalanceHistory} (hp : s.parent = ⟨.order k, false, hs⟩)
    (h : ∀ i, Reported s.parent i (s.cell i)) (hmove : ParentMove (relayProtocol n V orders) s t) :
    ∀ i, Reported t.parent i (t.cell i) := by
  rw [hp] at h
  have htau : ∀ q : Relay, (relayProtocol n V orders).parent s.parent = .tau q →
      Keeps ⟨.order k, false, hs⟩ q → ∀ i, Reported t.parent i (t.cell i) :=
    fun q ha hq => (tau_rule (I := fun _ => True) (J := Reported) _ ha trivial (fun i =>
      (h i).quiet rfl (fun _ he => he) hq) hmove).2
  cases hk : orders[k]? with
  | none =>
    have ha : (relayProtocol n V orders).parent s.parent =
        .tau (Relay.goto ⟨.order k, false, hs⟩ (.stop 0)) := by
      rw [hp]
      exact relayParent_none hk
    exact htau _ ha (keeps rfl rfl)
  | some o =>
    have ha : (relayProtocol n V orders).parent s.parent =
        doTransfer ⟨.order k, false, hs⟩ k o := by
      rw [hp]
      exact relayParent_some hk
    unfold doTransfer at ha
    split at ha
    · exact htau _ ha (keeps rfl rfl)
    · split at ha
      · exact htau _ ha (keeps rfl rfl)
      · exact reported_sendTo ha hmove h (keeps rfl rfl) (keeps rfl rfl)

theorem reported_parent (hlen : ∀ j r, s.parent.pc = .decode j r → s.parent.histories.length = j)
    (h : ∀ i, Reported s.parent i (s.cell i)) (hmove : ParentMove (relayProtocol n V orders) s t) :
    ∀ i, Reported t.parent i (t.cell i) := by
  cases hp : s.parent with
  | mk pc panicked hs =>
    cases panicked with
    | true => exact absurd hmove (halt_rule _ (by rw [hp]; rfl))
    | false =>
      rw [hp] at hlen
      cases pc with
      | history j => exact reported_history hp h hmove
      | decode j report => exact reported_decode hp (hlen j report rfl) h hmove
      | finished => exact absurd hmove (halt_rule _ (by rw [hp]; rfl))
      | started j =>
        have ha : (relayProtocol n V orders).parent s.parent =
            expectStartedAll ⟨.started j, false, hs⟩ j := by rw [hp]; rfl
        refine reported_recvFrom ha hmove (hp ▸ h) (keeps rfl rfl) fun e => ?_
        split_ifs <;> exact (keeps rfl rfl)
      | forwarded k srcIdx dstIdx =>
        have ha : (relayProtocol n V orders).parent s.parent =
            awaitForward ⟨.forwarded k srcIdx dstIdx, false, hs⟩ k srcIdx dstIdx := by rw [hp]; rfl
        refine reported_recvFrom ha hmove (hp ▸ h) (keeps rfl rfl) fun e => ?_
        split_ifs <;> exact (keeps rfl rfl)
      | ack k dstIdx =>
        have ha : (relayProtocol n V orders).parent s.parent =
            awaitAck ⟨.ack k dstIdx, false, hs⟩ k dstIdx := by rw [hp]; rfl
        refine reported_recvFrom ha hmove (hp ▸ h) (keeps rfl rfl) fun e => ?_
        split_ifs <;> exact (keeps rfl rfl)
      | done j =>
        have ha : (relayProtocol n V orders).parent s.parent =
            awaitDone ⟨.done j, false, hs⟩ j := by rw [hp]; rfl
        refine reported_recvFrom ha hmove (hp ▸ h) (keeps rfl rfl) fun e => ?_
        split_ifs <;> exact (keeps rfl rfl)
      | relay k dstIdx relayed =>
        have ha : (relayProtocol n V orders).parent s.parent =
            relayOn ⟨.relay k dstIdx relayed, false, hs⟩ k dstIdx relayed := by rw [hp]; rfl
        exact reported_sendTo ha hmove (hp ▸ h) (keeps rfl rfl)
          (keeps rfl rfl)
      | stop j =>
        have ha : (relayProtocol n V orders).parent s.parent =
            sendStopAll ⟨.stop j, false, hs⟩ j := by rw [hp]; rfl
        exact reported_sendTo ha hmove (hp ▸ h) (keeps rfl rfl)
          (keeps rfl rfl)
      | order k => exact reported_order hp h hmove

end Steps

theorem reachable_reported (V : Variant κ ρ) (hn : n ≤ 255) (b : Fin n → Balance)
    (hne : ∀ o ∈ orders, o.src ≠ o.dst) {s : BankNet κ ρ n}
    (hs : Reachable (relaySystem V b orders) s) : ∀ i, Reported s.parent i (s.cell i) := by
  refine (cellwise_invariant (relayProtocol n V orders) (fun _ => True) Reported
    ?_ ?_ ?_ ?_ hs).2
  · rintro s rfl
    exact ⟨trivial, fun i => ⟨fun e he => (by cases he), fun _ hr => (by cases hr),
      fun k hk => (by cases hk)⟩⟩
  · intro s i c _ h hm
    obtain ⟨hc, hup⟩ := child_sends V hm
    exact h.of_running hc hup
  · intro s i c _ _ h _ hm
    obtain ⟨hc, hup⟩ := child_fault_stops V hm
    exact h.of_running hc fun e he => Or.inl (hup ▸ he)
  · intro s t hr _ h hm
    refine ⟨trivial, reported_parent (fun j r hpc => ?_) h hm⟩
    have hrel := (reachable_good V hn b hne hr).1
    rw [Relaying, hpc] at hrel
    exact hrel.2.1

end CrabKeeper.CollectedReports
