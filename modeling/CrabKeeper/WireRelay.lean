import CrabKeeper.Foundation.ByteNetwork
import CrabKeeper.RelayOutcome

/-!
# The relay over TCP

The bytes on the connections are those `send_message` writes, handed over in
pieces of any size, and a process goes on when `recv_message` has a whole frame.
The order numbers of the model travel beside the bytes. Every message of the
relay has a frame: what an order carries has ten bytes, and a report that is
sent is one the parent will decode.
-/

set_option autoImplicit false

namespace CrabKeeper.WireRelay
open Foundation.Machine Foundation.Transition Foundation.Network Foundation.Confluence
open Foundation.Framing Foundation.ByteStreams Foundation.ByteNetwork Foundation.Simulation
open CrabKeeper.MessageCodec CrabKeeper.ChannelFraming CrabKeeper.BankTypes
open CrabKeeper.BankAccount CrabKeeper.BankChild CrabKeeper.ChildAccounts CrabKeeper.ChildForecast
open CrabKeeper.RelayParent CrabKeeper.RelayInvariant CrabKeeper.SerialRelay
open CrabKeeper.RelayOutcome CrabKeeper.Clocks

def wire : Wire Envelope ℕ Message UInt8 where
  tag := ⟨fun e => (e.order, e.msg), fun p => ⟨p.1, p.2⟩, fun _ => rfl, fun _ => rfl⟩
  code := frameCode

variable {κ ρ : Type} {n : ℕ} {V : Variant κ ρ} {b : Fin n → Balance}
  {orders : List TransferOrder} {s t : BankNet κ ρ n} {i : Fin n}

abbrev WireNet (κ ρ : Type) (n : ℕ) := ByteNet (Fin n) ℕ UInt8 (ChildState κ ρ) Relay

def wireFire (V : Variant κ ρ) (orders : List TransferOrder) :
    ByteMove (Fin n) → WireNet κ ρ n → Option (WireNet κ ρ n) :=
  byteFire wire (relayProtocol n V orders)

def wireStart (V : Variant κ ρ) (b : Fin n → Balance) : WireNet κ ρ n := ofNet (relayStart V b)

/-! ## Every message that is sent has a frame -/

theorem small_fits {m : Message} (h : m.payload.length ≤ 6122) : Message.Fits m := by
  rw [fits_iff]
  omega

theorem history_fits {h : BalanceHistory} (hlen : h.states.length ≤ 255) :
    Message.Fits (.balanceHistory h.toBytes) := by
  apply small_fits
  change h.toBytes.length ≤ 6122
  rw [history_toBytes_length]
  omega

theorem order_small (o : TransferOrder) : (Message.transfer o.toBytes).payload.length ≤ 10 :=
  (order_toBytes_length o).le

theorem closing_small {e : Envelope} (h : e ∈ closing) : e.msg.payload.length ≤ 10 := by
  simp only [closing, List.mem_cons, List.not_mem_nil, or_false] at h
  rcases h with rfl | rfl <;> decide

theorem awaited_small {e : Envelope} {pc : RelayPc} (h : e ∈ awaited orders pc i) :
    e.msg.payload.length ≤ 10 := by
  cases pc with
  | order | relay | finished => cases h
  | started j | ack k j =>
    simp only [awaited] at h
    split_ifs at h
    all_goals simp_all [Message.payload]
  | forwarded k srcIdx dstIdx =>
    simp only [awaited] at h
    split at h
    · split_ifs at h
      · obtain rfl := List.mem_singleton.mp h
        exact order_small _
      · cases h
    · cases h
  | stop j | done j | decode j =>
    simp only [awaited] at h
    split_ifs at h
    all_goals first | exact closing_small h | cases h
  | history j =>
    simp only [awaited] at h
    split_ifs at h
    · cases h
    · obtain rfl := List.mem_singleton.mp h
      decide
    · exact closing_small h

theorem sent_awaited (h : Good orders s.parent s.cell) {e : Envelope}
    (he : e ∈ Foundation.ByteNetwork.sending (bankingChild V (childId i) (s.cell i).state)) :
    shape e ∈ awaited orders s.parent.pc i := by
  have howed : shape e ∈ owed (childId i) (s.cell i).state.phase := by
    revert he
    unfold bankingChild owed
    cases (s.cell i).state.phase <;>
      simp [Foundation.ByteNetwork.sending, BankChild.sending, shape, closing] <;>
      rintro rfl <;> simp
  cases h.2 i with
  | running _ hR _ =>
    rw [← hR, upcoming]
    simp [howed]
  | stopped _ _ hex _ _ _ =>
    cases hph : (s.cell i).state.phase <;> simp_all [hasExited, owed]

def closes : RelayPc → Bool
  | .stop _ | .done _ | .history _ | .decode _ _ | .finished => true
  | _ => false

theorem closes_of_report {pc : RelayPc} {k : ℕ}
    (h : (⟨k, .balanceHistory []⟩ : Envelope) ∈ awaited orders pc i) : closes pc = true := by
  cases pc with
  | stop | done | history | decode | finished => rfl
  | order | relay => cases h
  | started j | ack k j =>
    simp only [awaited] at h
    split_ifs at h <;> simp at h
  | forwarded k srcIdx dstIdx =>
    simp only [awaited] at h
    split at h
    · split_ifs at h <;> simp at h
    · cases h

theorem parent_closes {p : Relay} (h : closes p.pc = true) :
    (relayParent (n := n) orders p).All fun q => closes q.pc = true := by
  obtain ⟨pc, panicked, hs⟩ := p
  cases panicked with
  | true => trivial
  | false =>
    cases pc with
    | started | order | forwarded | relay | ack => cases h
    | stop j =>
      simp only [relayParent, Bool.false_eq_true, if_false, sendStopAll, sendTo]
      split
      · rfl
      · rintro (_ | _) <;> rfl
    | done j =>
      simp only [relayParent, Bool.false_eq_true, if_false, awaitDone, recvFrom]
      split
      · rfl
      · rintro (_ | e)
        · rfl
        · dsimp only
          split_ifs <;> rfl
    | history j =>
      simp only [relayParent, Bool.false_eq_true, if_false, awaitReport, recvFrom]
      split
      · rfl
      · rintro (_ | e) <;> rfl
    | decode j m =>
      change closes (onReport _ j m).pc = true
      unfold onReport
      split
      · split <;> rfl
      · rfl
    | finished => trivial

theorem serialOrder_closes (V : Variant κ ρ) (k : ℕ) (o : TransferOrder)
    (xs : Fin n → ChildState κ ρ) : ∀ pc ∈ (serialOrder V k o xs).1, closes pc = false := by
  intro pc h
  unfold serialOrder at h
  split at h
  · split at h
    · obtain rfl := Option.some.inj h
      rfl
    · dsimp only at h
      split_ifs at h
      · obtain rfl := Option.some.inj h
        rfl
      · split at h
        · obtain rfl := Option.some.inj h
          rfl
        · split_ifs at h
          · obtain rfl := Option.some.inj h
            rfl
          · cases h
  · obtain rfl := Option.some.inj h
    rfl

theorem serialOrders_closes (V : Variant κ ρ) (os : List TransferOrder) (k : ℕ)
    (xs : Fin n → ChildState κ ρ) (h : (serialOrders V k os xs).1.panicked = true) :
    closes (serialOrders V k os xs).1.pc = false := by
  induction os generalizing k xs with
  | nil => cases h
  | cons o os ih =>
    rw [serialOrders] at h ⊢
    have hone := serialOrder_closes V k o xs
    revert h hone
    rcases serialOrder V k o xs with ⟨_ | pc, ys⟩
    · exact fun h _ => ih _ _ h
    · exact fun _ hone => hone pc rfl

def ReportStage (a : BranchAccount) (x : ChildState κ ρ) : Prop :=
  x.account = a ∧ (x.phase = .report ∨ hasExited x.phase = true)

theorem report_stage {a : BranchAccount} {id : AccountId} {x : ChildState κ ρ}
    (h : ReportStage a x) :
    (bankingChild V id x).All (fun _ => True) (ReportStage a) := by
  obtain ⟨ha, hph | hex⟩ := h
  · unfold bankingChild
    rw [hph]
    rintro (_ | _)
    · exact ⟨ha, Or.inr rfl⟩
    · exact ⟨ha, Or.inr rfl⟩
  · unfold bankingChild
    cases hph : x.phase <;> simp_all [hasExited, ChildAction.All]

theorem all_at {Q : ChildState κ ρ → Prop} {a : ChildAction Envelope IoError (ChildState κ ρ)}
    {j : Fin n} (h : j = i → a.All (fun _ => True) Q) :
    a.All (fun _ => True) fun x => j = i → Q x := by
  cases a with
  | connect | tau => exact h
  | send => exact fun r hj => h hj r
  | recv => exact ⟨fun m hm hj => (h hj).1 m hm, fun e hj => (h hj).2 e⟩
  | halt => trivial

/-- A branch that reports does so when all orders are done, with the account of
the serial relay, which its report fits. -/
theorem report_small (hn : n ≤ 255) (hne : ∀ o ∈ orders, o.src ≠ o.dst) (hr : Reporting V b orders)
    (ht : Reachable (relaySystem V b orders) t) (hi : (t.cell i).state.phase = .report) :
    (t.cell i).state.account.history.states.length ≤ 255 := by
  obtain ⟨moves, hmoves⟩ := play_of_reachable ht
  obtain ⟨N, hN⟩ := goes_on V b hne hr
  obtain ⟨more, hmore, _⟩ := hN moves t hmoves
  have hend : Reachable ((relayProtocol n V orders).system (· = t)) (serialNet V b orders) :=
    reachable_of_steps (.init rfl) (steps_of_play hmore)
  have hcloses : closes t.parent.pc = true := by
    have hsent : (⟨0, .balanceHistory (t.cell i).state.account.history.toBytes⟩ : Envelope) ∈
        Foundation.ByteNetwork.sending (bankingChild V (childId i) (t.cell i).state) := by
      unfold bankingChild
      rw [hi]
      rfl
    exact closes_of_report (sent_awaited (reachable_good V hn b hne ht) hsent)
  have hpc : closes (serialNet V b orders).parent.pc = true :=
    parent_invariant _ (I := fun p => closes p.pc = true) (fun u hu => by rw [hu]; exact hcloses)
      (fun _ _ => parent_closes) hend
  have hstage : ReportStage (t.cell i).state.account ((serialNet V b orders).cell i).state :=
    state_invariant _ (fun _ _ => True)
      (fun j x => j = i → ReportStage (t.cell i).state.account x)
      (fun u hu j hj => by subst hu hj; exact ⟨rfl, Or.inl hi⟩) (fun _ _ _ _ _ => trivial)
      (fun j x hx => ?_) hend i rfl
  · rw [← hstage.1]
    unfold serialNet serialRun at hpc ⊢
    have hclosed := serialOrders_closes V orders 0 fun i => begun V (childId i) (b i)
    have hreports := hr.reports
    unfold serialBranches at hpc hreports ⊢
    revert hclosed hpc hreports
    rcases serialOrders V 0 orders fun i => begun V (childId i) (b i) with ⟨p, xs⟩
    intro hpc hclosed hreports
    cases hp : p.panicked with
    | true =>
      simp only [hp, if_true, quietNet] at hpc
      rw [hclosed hp] at hpc
      cases hpc
    | false =>
      simp only [hp, Bool.false_eq_true, if_false, quietNet]
      rw [(stop_turned (hreports hp i)).2]
      exact (hreports hp i).decodable
  · exact all_at fun hj => report_stage (hx hj)

theorem sent_shape {id : AccountId} {x : ChildState κ ρ} {e : Envelope}
    (he : e ∈ Foundation.ByteNetwork.sending (bankingChild V id x)) :
    x.phase = .report ∧ e.msg = .balanceHistory x.account.history.toBytes ∨ shape e = e := by
  revert he
  unfold bankingChild
  cases x.phase <;> simp [Foundation.ByteNetwork.sending, BankChild.sending, shape] <;>
    rintro rfl <;> simp

theorem sendTo_sent {p none next : Relay} {x : Option (Fin n)} {e m : Envelope}
    (h : m ∈ sendingTo (sendTo p x none e next) i) : m = e := by
  cases x with
  | none => cases h
  | some j =>
    simp only [sendTo, sendingTo] at h
    split_ifs at h
    · exact (Option.some.inj h).symm
    · cases h

theorem recvFrom_sent {p none : Relay} {x : Option (Fin n)} {next : Envelope → Relay}
    {m : Envelope} : m ∉ sendingTo (recvFrom p x none next) i := by
  cases x <;> exact nofun

theorem parent_small (hrel : Relaying n orders t.parent) {m : Envelope}
    (hm : m ∈ sendingTo (relayParent orders t.parent) i) : m.msg.payload.length ≤ 10 := by
  revert hrel hm
  rcases t.parent with ⟨pc, panicked, hs⟩
  intro hrel hm
  cases panicked with
  | true => cases hm
  | false =>
    cases pc with
    | started | forwarded | ack | done | history => exact absurd hm recvFrom_sent
    | decode | finished => cases hm
    | order k =>
      cases hk : orders[k]? with
      | none =>
        rw [relayParent_none hk] at hm
        cases hm
      | some o =>
        rw [relayParent_some hk] at hm
        unfold doTransfer at hm
        split at hm
        · cases hm
        · split at hm
          · cases hm
          · rw [sendTo_sent hm]
            exact order_small o
    | relay k dstIdx relayed =>
      obtain ⟨_, o, _, _, rfl, _⟩ := hrel
      rw [sendTo_sent hm]
      exact order_small o
    | stop j =>
      rw [sendTo_sent hm]
      decide

/-- In every state that the relay can reach, what is being sent has a frame. -/
theorem relay_sound (hn : n ≤ 255) (hne : ∀ o ∈ orders, o.src ≠ o.dst)
    (hr : Reporting V b orders) (ht : Reachable (relaySystem V b orders) t) :
    Sound wire (relayProtocol n V orders) t where
  up j m hm := by
    have hgood := reachable_good V hn b hne ht
    rcases sent_shape hm with ⟨hph, hmsg⟩ | hshape
    · change Message.Fits m.msg
      rw [hmsg]
      exact history_fits (report_small hn hne hr ht hph)
    · have hsmall := awaited_small (sent_awaited hgood hm)
      rw [hshape] at hsmall
      exact small_fits (m := m.msg) (hsmall.trans (by decide))
  down j m hm := by
    have hsmall := parent_small (reachable_good V hn b hne ht).1 hm
    exact small_fits (m := m.msg) (hsmall.trans (by decide))

theorem wire_simulates (hn : n ≤ 255) (hne : ∀ o ∈ orders, o.src ≠ o.dst)
    (hr : Reporting V b orders) : Simulates (wireFire V orders) (relayProtocol n V orders).fire
      (fun s t => Matches wire (relayProtocol n V orders) s t ∧
        Reachable (relaySystem V b orders) t) (netLoad wire (relayProtocol n V orders)) :=
  byte_simulates fun _ => relay_sound hn hne hr

theorem wireStart_matches (hn : n ≤ 255) (hne : ∀ o ∈ orders, o.src ≠ o.dst)
    (hr : Reporting V b orders) :
    Matches wire (relayProtocol n V orders) (wireStart V b) (relayStart V b) ∧
      Reachable (relaySystem V b orders) (relayStart V b) :=
  ⟨ofNet_matches (relay_sound hn hne hr (.init rfl)) fun _ => ⟨rfl, rfl⟩, .init rfl⟩

/-! ## What is read, and where the runs end -/

/-- The bytes on a stream are the frames of a queue of messages and a part of one
more, and `recv_message` returns the first of the queue or waits for more. -/
structure Readable (x : Pipe ℕ UInt8) (q : List Envelope) : Prop where
  bytes : ∃ part, x.inbox ++ x.flight = frames frameCode (q.map (·.msg)) ++ part ∧
    frameCode.decode part = none
  read : (∃ e rest t, q = e::rest ∧ recvMessage ⟨x.inbox, [], none⟩ = .ok (.ok e.msg, t)) ∨
    ∃ t, recvMessage ⟨x.inbox, [], none⟩ = .ok (.error .unexpectedEof, t)

theorem readable_of_carries {live : Prop} {cur : Option Envelope} {x : Pipe ℕ UInt8}
    {q : List Envelope} (h : Carries wire live cur x q) (hl : live) : Readable x q where
  bytes := by
    refine ⟨_, h.bytes hl, ?_⟩
    cases cur with
    | none =>
      refine Option.eq_none_iff_forall_ne_some.mpr fun p hp => ?_
      obtain ⟨hv, hnil⟩ := (frameCode.decode_iff _ p.1 p.2).mp hp
      exact frameCode.encode_ne_nil _ hv (List.append_eq_nil_iff.mp hnil.symm).1
    | some m =>
      exact decode_part (W := wire) (h.valid m rfl).1 (h.valid m rfl).2 (List.append_nil _)
  read := by
    cases hd : frameCode.decode x.inbox with
    | none =>
      have hvalid : ∀ m ∈ (q ++ cur.toList).map wire.value, Message.Fits m := by
        intro m hm
        obtain ⟨e, he, rfl⟩ := List.mem_map.mp hm
        rcases List.mem_append.mp he with he | he
        · exact h.queued hl e he
        · exact (h.valid e (Option.mem_toList.mp he)).1
      exact Or.inr ⟨_, recv_remnant hvalid (h.remnant hl hd) ⟨x.inbox, [], none⟩ rfl⟩
    | some p =>
      obtain ⟨hv, hin⟩ := (frameCode.decode_iff _ p.1 p.2).mp hd
      obtain ⟨e, rest, hq, hval, _⟩ := h.decodes hl hd
      refine Or.inl ⟨e, rest, _, hq, recv_frame _ e.msg p.2 ?_ ?_⟩
      · exact h.queued hl e (by simp [hq])
      · rw [hin, hval]
        rfl

/-- What a state of the byte network has in common with one of the relay. -/
structure StandsFor (V : Variant κ ρ) (orders : List TransferOrder) (s : WireNet κ ρ n)
    (t : BankNet κ ρ n) : Prop where
  parent : s.parent = t.parent
  state : ∀ i, (s.cell i).state = (t.cell i).state
  down : ∀ i, (bankingChild V (childId i) (s.cell i).state).halted = false →
    Readable (s.cell i).down (t.cell i).down
  up : (relayParent (n := n) orders s.parent).halted = false →
    ∀ i, Readable (s.cell i).up (t.cell i).up

theorem standsFor_of_matches {s : WireNet κ ρ n}
    (h : Matches wire (relayProtocol n V orders) s t) : StandsFor V orders s t where
  parent := h.parent
  state i := (h.cell i).state
  down i hl := by
    rw [(h.cell i).state] at hl
    exact readable_of_carries (h.cell i).down hl
  up hl i := by
    rw [h.parent] at hl
    exact readable_of_carries (h.cell i).up hl

def Serial (V : Variant κ ρ) (b : Fin n → Balance) (orders : List TransferOrder)
    (s : WireNet κ ρ n) : Prop :=
  s.parent = (serialRun V b orders).1 ∧ ∀ i, (s.cell i).state = (serialRun V b orders).2 i

/-- The relay over byte streams has the outcome of the serial relay: any run goes
on to it, a run that can do nothing more is there, and no run is endless. -/
theorem wire_outcome (V : Variant κ ρ) (hn : n ≤ 255) (b : Fin n → Balance)
    (hne : ∀ o ∈ orders, o.src ≠ o.dst) (hr : Reporting V b orders) :
    (∀ moves s, play (wireFire V orders) moves (wireStart V b) = some s →
      (∃ more s', play (wireFire V orders) more s = some s' ∧ AtRest (wireFire V orders) s' ∧
        Serial V b orders s') ∧
      (AtRest (wireFire V orders) s → Serial V b orders s)) ∧
    ∀ f : ℕ → WireNet κ ρ n, f 0 = wireStart V b →
      ¬ ∀ k, ∃ a, wireFire V orders a (f k) = some (f (k+1)) := by
  have hsim := wire_simulates (V := V) hn hne hr
  have hstart := wireStart_matches (V := V) hn hne hr
  obtain ⟨N, hN⟩ := goes_on V b hne hr
  have hend := (serial_leads (V := V) b hne hr).2
  have hserial : ∀ {s : WireNet κ ρ n}, Matches wire (relayProtocol n V orders) s
      (serialNet V b orders) → Serial V b orders s :=
    fun hm => ⟨hm.parent, fun i => (hm.cell i).state⟩
  refine ⟨fun moves s hs => ?_, fun f h0 => hsim.no_endless_run hstart (N := N) ?_ f h0⟩
  · obtain ⟨ms, t, hms, hR⟩ := hsim.forward_play hstart hs
    obtain ⟨more, hmore, _⟩ := hN ms t hms
    constructor
    · obtain ⟨as, s', hs', hrest, hm, _⟩ := hsim.completes hR hmore hend
      exact ⟨as, s', hs', hrest, hserial hm⟩
    · intro hrest
      obtain ⟨_, hnet⟩ := play_of_atRest (hsim.atRest hR hrest) hmore
      rw [← hnet] at hR
      exact hserial hR.1
  · intro ms t hms
    obtain ⟨more, _, hlen⟩ := hN ms t hms
    omega

theorem wire_outcome_one_order :
    (∀ moves s, play (wireFire simulateBankingChild oneOrder) moves
        (wireStart simulateBankingChild twoBalances) = some s →
      (∃ more s', play (wireFire simulateBankingChild oneOrder) more s = some s' ∧
        AtRest (wireFire simulateBankingChild oneOrder) s' ∧
        Serial simulateBankingChild twoBalances oneOrder s') ∧
      (AtRest (wireFire simulateBankingChild oneOrder) s →
        Serial simulateBankingChild twoBalances oneOrder s)) ∧
    ∀ f : ℕ → WireNet PhysicalClock (Except IoError Unit) 2,
      f 0 = wireStart simulateBankingChild twoBalances →
        ¬ ∀ k, ∃ a, wireFire simulateBankingChild oneOrder a (f k) = some (f (k+1)) :=
  wire_outcome simulateBankingChild (by decide) twoBalances (by decide) oneOrder_reporting

end CrabKeeper.WireRelay
