import CrabKeeper.AuditTrail
import CrabKeeper.StreamTurns
import CrabKeeper.TransferPairing

/-!
# A branch and an arbitrary peer

The thread of a branch runs its loop on one stream, and nothing binds the peer
to the protocol: any bytes may arrive, and the peer may stop reading at any
moment. What the bytes mean is decided by the whole frames at their front.
-/

set_option autoImplicit false

namespace CrabKeeper.BranchThread
open Foundation.Machine Foundation.DoubleEntry Foundation.Framing Foundation.Network
open Foundation.Termination
open Foundation.Dialogue hiding act act_tau act_send act_recv act_lowers
open CrabKeeper.MessageCodec CrabKeeper.ChannelFraming CrabKeeper.BankTypes
open CrabKeeper.BankAccount CrabKeeper.BankChild CrabKeeper.ChildAccounts CrabKeeper.ChildForecast
open CrabKeeper.AuditTrail CrabKeeper.TransferPairing
open CrabKeeper.StreamTurns

variable {κ ρ : Type}

/-- A message as it comes off a stream, which carries no number. -/
def arrived (m : Message) : Envelope := ⟨0, m⟩

/-- A party's actions on streams, whose messages carry no number. -/
def bare {ι π : Type} : ParentAction ι Envelope IoError π → ParentAction ι Message IoError π
  | .spawn i next => .spawn i next
  | .accept next => .accept next
  | .send i e next => .send i e.msg next
  | .recv i next => .recv i fun r => next (r.map arrived)
  | .wait i next => .wait i next
  | .tau next => .tau next
  | .halt => .halt

def branchParty (V : Variant κ ρ) (id : AccountId) :
    Party Unit Message IoError Panic (ChildState κ ρ) where
  program x := bare (alone (bankingChild V id x))
  abort p x := x.exit (.error p)

def act (V : Variant κ ρ) (id : AccountId) (w : ChildState κ ρ × TcpStream) :
    ChildState κ ρ × TcpStream :=
  solo tcp (branchParty V id) w

def heardUpto : ℕ → List UInt8 → List Envelope
  | 0, _ => []
  | n+1, bytes =>
    match frameCode.decode bytes with
    | none => []
    | some (m, rest) => arrived m :: heardUpto n rest

def heard (bytes : List UInt8) : List Envelope := heardUpto bytes.length bytes

theorem decode_shortens {bytes rest : List UInt8} {m : Message}
    (h : frameCode.decode bytes = some (m,rest)) : rest.length < bytes.length := by
  obtain ⟨hm, rfl⟩ := (frameCode.decode_iff _ _ _).mp h
  have := List.length_pos_iff.mpr (frameCode.encode_ne_nil m hm)
  rw [List.length_append]
  omega

theorem heardUpto_none {bytes : List UInt8} (h : frameCode.decode bytes = none) (n : ℕ) :
    heardUpto n bytes = [] := by
  cases n with
  | zero => rfl
  | succ n => simp [heardUpto, h]

theorem heardUpto_eq {m n : ℕ} {bytes : List UInt8} (hm : bytes.length ≤ m)
    (hn : bytes.length ≤ n) : heardUpto m bytes = heardUpto n bytes := by
  induction m generalizing n bytes with
  | zero =>
    have hnil := List.eq_nil_of_length_eq_zero (Nat.le_zero.mp hm)
    subst hnil
    have hd : frameCode.decode [] = none := rfl
    rw [heardUpto_none hd, heardUpto_none hd]
  | succ m ih =>
    cases hd : frameCode.decode bytes with
    | none => rw [heardUpto_none hd, heardUpto_none hd]
    | some x =>
      have hlt : x.2.length < bytes.length := decode_shortens hd
      cases n with
      | zero => omega
      | succ n =>
        simp only [heardUpto, hd]
        rw [ih (n := n) (by omega) (by omega)]

theorem heard_none {bytes : List UInt8} (h : frameCode.decode bytes = none) :
    heard bytes = [] := heardUpto_none h _

theorem heard_some {bytes rest : List UInt8} {m : Message}
    (h : frameCode.decode bytes = some (m,rest)) : heard bytes = arrived m :: heard rest := by
  have hlt := decode_shortens h
  obtain ⟨k, hk⟩ : ∃ k, bytes.length = k+1 := ⟨bytes.length-1, by omega⟩
  rw [heard, hk]
  simp only [heardUpto, h]
  rw [heardUpto_eq (n := rest.length) (by omega) le_rfl, heard]

variable {V : Variant κ ρ} {id : AccountId} {w : ChildState κ ρ × TcpStream}

theorem branch_program {a : ChildAction Envelope IoError (ChildState κ ρ)}
    (h : bankingChild V id w.1 = a) : (branchParty V id).program w.1 = bare (alone a) :=
  congrArg (fun a => bare (alone a)) h

theorem act_tau {next : ChildState κ ρ} (h : bankingChild V id w.1 = .tau next) :
    act V id w = (next, w.2) :=
  solo_tau (branch_program h)

theorem act_send {e : Envelope} {next : Except IoError Unit → ChildState κ ρ}
    (h : bankingChild V id w.1 = .send e next) :
    act V id w = (next (sendMessage w.2 e.msg).1, (sendMessage w.2 e.msg).2) :=
  solo_send (branch_program h) rfl

theorem act_recv {next : Except IoError Envelope → ChildState κ ρ}
    (h : bankingChild V id w.1 = .recv next) :
    (∃ m s, act V id w = (next (.ok (arrived m)), s) ∧ s.output = w.2.output ∧
      s.input.length < w.2.input.length ∧ heard w.2.input = arrived m :: heard s.input) ∨
    heard w.2.input = [] ∧
      ((∃ err s, act V id w = (next (.error err), s) ∧ s.output = w.2.output ∧
        s.input.length ≤ w.2.input.length) ∨
      ∃ p, act V id w = (w.1.exit (.error p), w.2)) := by
  have hnone : (∀ m s, recvMessage w.2 ≠ .ok (.ok m, s)) → heard w.2.input = [] := by
    intro hno
    apply heard_none
    cases hd : frameCode.decode w.2.input with
    | none => rfl
    | some x =>
      obtain ⟨hm, hin⟩ := (frameCode.decode_iff _ x.1 x.2).mp hd
      exact absurd (recv_frame w.2 x.1 x.2 hm hin) (hno _ _)
  rw [act]
  cases hr : recvMessage w.2 with
  | error p =>
    rw [solo_abort (D := tcp) (branch_program h) hr]
    refine Or.inr ⟨hnone fun m s hc => ?_, Or.inr ⟨p, rfl⟩⟩
    cases hr.symm.trans hc
  | ok x =>
    obtain ⟨r, s⟩ := x
    obtain ⟨hsuf, hout⟩ := recv_suffix hr
    rw [solo_recv (D := tcp) (branch_program h) hr]
    cases r with
    | error err =>
      refine Or.inr ⟨hnone fun m t hc => ?_, Or.inl ⟨err, s, rfl, hout, hsuf.length_le⟩⟩
      cases hr.symm.trans hc
    | ok m =>
      obtain ⟨hm, rest, hin, rfl⟩ := recv_eq_ok.mp hr
      have hd : frameCode.decode w.2.input = some (m,rest) :=
        (frameCode.decode_iff _ _ _).mpr ⟨hm, hin⟩
      exact Or.inl ⟨m, _, rfl, rfl, decode_shortens hd, heard_some hd⟩

theorem act_all {Q : ChildState κ ρ → Prop} (hw : Q w.1)
    (h : (bankingChild V id w.1).All (fun _ => True) Q)
    (hpanic : ∀ p, Q (w.1.exit (.error p))) : Q (act V id w).1 := by
  cases ha : bankingChild V id w.1 with
  | tau next =>
    rw [ha] at h
    rw [act_tau ha]
    exact h
  | send e next =>
    rw [ha] at h
    rw [act_send ha]
    exact h _
  | recv next =>
    rw [ha] at h
    rcases act_recv ha with ⟨m, s, heq, _⟩ | ⟨_, ⟨err, s, heq, _⟩ | ⟨p, heq⟩⟩ <;> rw [heq]
    · exact h.1 _ trivial
    · exact h.2 _
    · exact hpanic p
  | connect next | halt =>
    rw [act, solo_halt (branch_program ha)]
    exact hw

def Aborted (V : Variant κ ρ) (x : ChildState κ ρ) : Prop :=
  ∀ r, x.phase = .exited r → (∃ p, r = .error p) ∨ ∃ e, r = .ok (V.failure e)

theorem aborted_running {x : ChildState κ ρ} (h : hasExited x.phase = false) : Aborted V x := by
  intro r hr
  rw [hr] at h
  cases h

theorem aborted_panic (x : ChildState κ ρ) (p : Panic) : Aborted V (x.exit (.error p)) := by
  intro r hr
  obtain rfl := Phase.exited.inj hr
  exact Or.inl ⟨p, rfl⟩

theorem aborted_failure (x : ChildState κ ρ) (e : IoError) :
    Aborted V (x.exit (.ok (V.failure e))) := by
  intro r hr
  obtain rfl := Phase.exited.inj hr
  exact Or.inr ⟨e, rfl⟩

theorem aborted_tick (x : ChildState κ ρ) (f : κ → Checked κ) {ph : Phase ρ}
    (h : hasExited ph = false) : Aborted V (x.tick f ph) := by
  unfold ChildState.tick
  split
  · exact aborted_panic x _
  · exact aborted_running h

theorem aborted_message (V : Variant κ ρ) (id : AccountId) {x : ChildState κ ρ}
    (hx : x.phase = .receive) (e : Envelope) : Aborted V (onMessage V id x e) := by
  unfold onMessage
  split
  · exact aborted_panic x _
  · next c _ =>
    dsimp only
    split
    · unfold onTransfer
      split
      · exact aborted_panic _ _
      · exact aborted_failure _ _
      · split
        · exact aborted_panic _ _
        · apply aborted_running
          dsimp only
          unfold destination
          split_ifs <;> rfl
    · exact aborted_tick _ _ rfl
    · exact aborted_running (by rw [hx]; rfl)

theorem aborted_step (V : Variant κ ρ) (id : AccountId) {x : ChildState κ ρ}
    (hx : x.phase ≠ .report) : (bankingChild V id x).All (fun _ => True) (Aborted V) := by
  have hsend : ∀ e (next : ChildState κ ρ), hasExited next.phase = false →
      (sending V x e next).All (fun _ => True) (Aborted V) := by
    intro e next hnext r
    cases r with
    | ok _ => exact aborted_running hnext
    | error err => exact aborted_failure x err
  cases hph : x.phase <;> simp only [bankingChild, hph]
  case launch => exact aborted_tick x _ rfl
  case receive => exact ⟨fun e _ => aborted_message V id hph e, fun e => aborted_failure x e⟩
  case debit k payload order now =>
    change Aborted V (onDebit V x k payload order now)
    unfold onDebit
    split
    · exact aborted_panic x _
    · exact aborted_failure x _
    · exact aborted_tick _ _ rfl
  case credit k order now =>
    change Aborted V (onCredit V x k order now)
    unfold onCredit
    split
    · exact aborted_panic x _
    · exact aborted_failure x _
    · exact aborted_tick _ _ rfl
  case forward k payload order now =>
    apply hsend
    change hasExited (destination id k order now : Phase ρ) = false
    unfold destination
    split_ifs <;> rfl
  case report => exact absurd hph hx
  case exited => trivial
  all_goals exact hsend _ _ rfl

def bytesOf (said : List Envelope) : List UInt8 := frames frameCode (said.map (·.msg))

theorem bytesOf_concat (said : List Envelope) (e : Envelope) :
    bytesOf (said ++ [e]) = bytesOf said ++ frame e.msg := by
  simp [bytesOf, frames, frameCode]

/-- The thread returned its account, having answered everything. -/
structure Completed (V : Variant κ ρ) (R : List Envelope) (L : List (Entry ℤ))
    (w : ChildState κ ρ × TcpStream) (said : List Envelope) : Prop where
  returned : w.1.phase = .exited (.ok (V.success w.1.account))
  answered : said.map shape = R
  posted : entriesIn w.1.ledger = L
  reported : said.getLast? = some ⟨0, .balanceHistory w.1.account.history.toBytes⟩
  written : w.2.output = bytesOf said

/-- A thread on the way to `R` and `L`, which has written the frames of `said`. -/
structure Tracked (V : Variant κ ρ) (id : AccountId) (R : List Envelope) (L : List (Entry ℤ))
    (w : ChildState κ ρ × TcpStream) (said : List Envelope) : Prop where
  foreseen : Foreseen id R L ⟨true, w.1, heard w.2.input, said⟩
  begun : bytesOf said <+: w.2.output
  written : hasExited w.1.phase = false → w.2.output = bytesOf said
  ended : Aborted V w.1 ∨ Completed V R L w said

theorem send_extends (s : TcpStream) (m : Message) :
    s.output <+: (sendMessage s m).2.output := by
  obtain ⟨input, output, room⟩ := s
  cases room with
  | none =>
    rw [send_frame _ m rfl]
    exact List.prefix_append _ _
  | some k =>
    by_cases hk : (frame m).length ≤ k
    · rw [send_takes (fun j hj => by cases hj; exact hk)]
      exact List.prefix_append _ _
    · rw [send_breaks rfl (by omega)]
      exact List.prefix_append _ _

theorem send_error_exits {x : ChildState κ ρ} {e : Envelope}
    {next : Except IoError Unit → ChildState κ ρ} (h : bankingChild V id x = .send e next)
    (err : IoError) : next (.error err) = x.exit (.ok (V.failure err)) := by
  unfold bankingChild at h
  split at h <;> cases h <;> rfl

theorem recv_error_exits {x : ChildState κ ρ} {next : Except IoError Envelope → ChildState κ ρ}
    (h : bankingChild V id x = .recv next) (err : IoError) :
    next (.error err) = x.exit (.ok (V.failure err)) := by
  unfold bankingChild at h
  split at h <;> cases h
  rfl

section Steps

variable {R : List Envelope} {L : List (Entry ℤ)} {said : List Envelope}

theorem Tracked.sent (h : Tracked V id R L w said) (hw : hasExited w.1.phase = false)
    {e : Envelope} {next : Except IoError Unit → ChildState κ ρ}
    (ha : bankingChild V id w.1 = .send e next) :
    (∃ s, act V id w = (next (.ok ()), s) ∧ s.output = bytesOf (said ++ [e]) ∧
      Foreseen id R L ⟨true, next (.ok ()), heard s.input, said ++ [e]⟩) ∨
    ∃ err s, act V id w = (next (.error err), s) ∧ bytesOf said <+: s.output ∧
      Foreseen id R L ⟨true, next (.error err), heard s.input, said⟩ := by
  rw [act_send ha]
  cases hr : sendMessage w.2 e.msg with
  | mk r s =>
    have hin := send_input hr
    cases r with
    | ok u =>
      refine Or.inl ⟨s, rfl, ?_, ?_⟩
      · rw [send_ok hr, h.written hw, bytesOf_concat]
      · rw [hin]
        exact foreseen_child V h.foreseen (by rw [ha]; rfl)
    | error err =>
      refine Or.inr ⟨err, s, rfl, ?_, ?_⟩
      · have hext := send_extends w.2 e.msg
        rw [hr] at hext
        exact h.begun.trans hext
      · rw [hin]
        exact foreseen_childFault V h.foreseen (show childFault err err _ _ = some _ by
          rw [ha]
          rfl)

theorem Tracked.report (h : Tracked V id R L w said) (hrep : w.1.phase = .report) :
    ∃ said', Tracked V id R L (act V id w) said' := by
  have hw : hasExited w.1.phase = false := by rw [hrep]; rfl
  have ha : bankingChild V id w.1 = sending V w.1
      ⟨0, .balanceHistory w.1.account.history.toBytes⟩
      (w.1.exit (.ok (V.success w.1.account))) := by
    unfold bankingChild
    rw [hrep]
  rcases h.sent hw ha with ⟨s, heq, hout, hfore⟩ | ⟨err, s, heq, hext, hfore⟩
  · rw [heq]
    refine ⟨_, hfore, ?_, fun hrun => (by cases hrun), Or.inr ⟨rfl, ?_, ?_, ?_, hout⟩⟩
    · show bytesOf _ <+: s.output
      rw [hout]
    · cases h.foreseen with
      | running _ hR _ =>
        rw [← hR, List.map_append, upcoming, hrep]
        rfl
      | stopped _ _ hex => exact absurd (hw.symm.trans hex) (by simp)
    · cases h.foreseen with
      | running _ _ hL =>
        rw [← hL, unposted, hrep]
        simp [dues, loops, ChildState.exit]
      | stopped _ _ hex => exact absurd (hw.symm.trans hex) (by simp)
    · rw [List.getLast?_concat]
      rfl
  · rw [heq]
    exact ⟨said, hfore, hext, fun hrun => (by cases hrun), Or.inl (aborted_failure w.1 err)⟩

/-- The step lemma: a running thread stays on its way. -/
theorem Tracked.step (h : Tracked V id R L w said) (hw : hasExited w.1.phase = false) :
    ∃ said', Tracked V id R L (act V id w) said' := by
  by_cases hrep : w.1.phase = .report
  · exact h.report hrep
  have hend : Aborted V (act V id w).1 :=
    act_all (aborted_running hw) (aborted_step V id hrep) (aborted_panic w.1)
  cases ha : bankingChild V id w.1 with
  | tau next =>
    rw [act_tau ha] at hend ⊢
    exact ⟨said, foreseen_child V h.foreseen (by rw [ha]; rfl), h.begun,
      fun _ => h.written hw, Or.inl hend⟩
  | send e next =>
    rcases h.sent hw ha with ⟨s, heq, hout, hfore⟩ | ⟨err, s, heq, hext, hfore⟩ <;>
      rw [heq] at hend ⊢
    · refine ⟨_, hfore, ?_, fun _ => hout, Or.inl hend⟩
      show bytesOf _ <+: s.output
      rw [hout]
    · refine ⟨said, hfore, hext, fun hrun => ?_, Or.inl hend⟩
      rw [send_error_exits ha] at hrun
      cases hrun
  | recv next =>
    rcases act_recv ha with ⟨m, s, heq, hout, _, hheard⟩ |
      ⟨hnil, ⟨err, s, heq, hout, _⟩ | ⟨p, heq⟩⟩ <;> rw [heq] at hend ⊢
    · refine ⟨said, foreseen_child V h.foreseen ?_, ?_, fun _ => ?_, Or.inl hend⟩
      · rw [ha, hheard]
        rfl
      · show bytesOf _ <+: s.output
        rw [hout]
        exact h.begun
      · exact hout.trans (h.written hw)
    · have hfault : childFault err err (bankingChild V id w.1)
          ⟨true, w.1, heard w.2.input, said⟩ =
            some ⟨true, next (.error err), heard w.2.input, said⟩ := by
        rw [ha, hnil]
        rfl
      have hfore := foreseen_childFault V h.foreseen hfault
      have hex := recv_error_exits ha err
      refine ⟨said, hfore.unread ?_ _, ?_, fun hrun => ?_, Or.inl hend⟩
      · rw [hex]
        rfl
      · show bytesOf _ <+: s.output
        rw [hout]
        exact h.begun
      · rw [hex] at hrun
        cases hrun
    · refine ⟨said, ?_, h.begun, fun hrun => (by cases hrun), Or.inl hend⟩
      cases h.foreseen with
      | running _ hR hL =>
        exact .stop [] hR hL rfl rfl (by simp [ChildState.exit]) List.nil_prefix
      | stopped _ _ hex => exact absurd (hw.symm.trans hex) (by simp)
  | connect next | halt =>
    rw [act, solo_halt (branch_program ha)]
    exact ⟨said, h⟩

theorem act_lowers (V : Variant κ ρ) (id : AccountId) {w : ChildState κ ρ × TcpStream}
    (hw : hasExited w.1.phase = false) :
    phaseWeight (act V id w).1.phase+5*(act V id w).2.input.length <
      phaseWeight w.1.phase+5*w.2.input.length := by
  have hlow := child_lowers V id w.1
  have hpos : 0 < phaseWeight w.1.phase := by
    revert hw
    cases w.1.phase <;> simp [hasExited, phaseWeight]
  cases ha : bankingChild V id w.1 with
  | tau next =>
    rw [ha] at hlow
    rw [act_tau ha]
    exact Nat.add_lt_add_right hlow _
  | send e next =>
    rw [ha] at hlow
    rw [act_send ha]
    have hin : (sendMessage w.2 e.msg).2.input = w.2.input := send_input (Prod.mk.eta).symm
    rw [hin]
    exact Nat.add_lt_add_right (hlow _) _
  | recv next =>
    rw [ha] at hlow
    rcases act_recv ha with ⟨m, s, heq, _, hlt, _⟩ | ⟨_, ⟨err, s, heq, _, hle⟩ | ⟨p, heq⟩⟩ <;>
      rw [heq]
    · have := hlow.1 (arrived m)
      dsimp only at this ⊢
      omega
    · have := hlow.2 err
      dsimp only at this ⊢
      omega
    · show 0+5*w.2.input.length < _
      omega
  | connect next =>
    unfold bankingChild at ha
    split at ha <;> cases ha
  | halt =>
    unfold bankingChild at ha
    split at ha <;> cases ha
    next hph =>
      rw [hph] at hw
      cases hw

end Steps

theorem repliesAll_answers {es : List Envelope} (h : ∀ e ∈ es, e.msg ≠ .stop) :
    ∀ f ∈ repliesAll id es, answersOrder f = true := by
  induction es with
  | nil => exact fun f hf => by cases hf
  | cons e es ih =>
    rw [List.forall_mem_cons] at h
    rw [repliesAll_cons id h.1]
    intro f hf
    rcases List.mem_append.mp hf with hf | hf
    · unfold repliesTo at hf
      split at hf
      · unfold forwards acks at hf
        rcases List.mem_append.mp hf with hf | hf
        · split_ifs at hf
          · obtain rfl := List.mem_singleton.mp hf
            rfl
          · cases hf
        · split_ifs at hf
          · obtain rfl := List.mem_singleton.mp hf
            rfl
          · cases hf
      · cases hf
    · exact ih h.2 f hf

def expected (id : AccountId) (bytes : List UInt8) : List Envelope :=
  ⟨0, .started⟩ :: repliesAll id (heard bytes)

def called (id : AccountId) (bytes : List UInt8) : List (Entry ℤ) := duesAll id (heard bytes)

/-- How a thread that was given `bytes` has ended. -/
structure Ended (V : Variant κ ρ) (id : AccountId) (b : ℤ) (bytes : List UInt8)
    (w : ChildState κ ρ × TcpStream) : Prop where
  stopped : hasExited w.1.phase = true
  books : entriesIn w.1.ledger <+: called id bytes
  balance : balanceOf w.1.account = b+effect (entriesIn w.1.ledger)
  nonneg : 0 ≤ balanceOf w.1.account
  shown : audit w.1.account.history = movements w.1.ledger
  answers : ∃ said, said.map shape <+: expected id bytes ∧ bytesOf said <+: w.2.output
  returns : Aborted V w.1 ∨ (∃ e ∈ heard bytes, e.msg = .stop) ∧
    ∃ said, Completed V (expected id bytes) (called id bytes) w said

theorem Completed.asked {b : List UInt8} {L : List (Entry ℤ)} {said : List Envelope}
    (h : Completed V (expected id b) L w said) : ∃ e ∈ heard b, e.msg = .stop := by
  by_contra hno
  simp only [not_exists, not_and] at hno
  have hmem : shape ⟨0, .balanceHistory w.1.account.history.toBytes⟩ ∈ expected id b := by
    rw [← h.answered]
    exact List.mem_map_of_mem (List.mem_of_getLast? h.reported)
  rcases List.mem_cons.mp hmem with heq | hmem
  · cases heq
  · have := repliesAll_answers hno _ hmem
    cases this

def strayStream : TcpStream :=
  ⟨frame (.transfer (TransferOrder.mk 1 2 30).toBytes) ++ [1, 2, 3], [], some 5⟩

end CrabKeeper.BranchThread
