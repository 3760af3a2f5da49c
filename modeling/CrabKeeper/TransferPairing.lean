import CrabKeeper.TransferAcks
import CrabKeeper.Foundation.Termination

/-!
# `transfer` against the children's loop

The source forwards the order to the parent and the destination waits for it
from the parent, but `transfer` relays nothing. One call on empty streams
either never returns or takes something else for its answer. Every run comes to
rest, so one of the two happens from every start.
-/

set_option autoImplicit false

namespace CrabKeeper.TransferPairing
open Foundation.Machine Foundation.DoubleEntry Foundation.Transition Foundation.Network
open Foundation.Termination
open CrabKeeper.MessageCodec CrabKeeper.ChannelFraming CrabKeeper.BankTypes
open CrabKeeper.BankAccount CrabKeeper.BankChild CrabKeeper.ChildAccounts CrabKeeper.ChildForecast
open CrabKeeper.TransferCall CrabKeeper.TransferAcks CrabKeeper.Clocks

variable {κ ρ : Type} {n : ℕ} {calls : List TransferOrder} {o : TransferOrder} {i j : Fin n}

def Calling : Caller → Prop
  | .call k => k = 0
  | .await _ _ => True
  | _ => False

def oneCall (V : Variant κ ρ) (o : TransferOrder) (s₀ : CallNet κ ρ n) : System (CallNet κ ρ n) :=
  (transferProtocol n V [o]).system (· = s₀)

/-- No run of the call gets stuck before it returns, and it returns Ok with the
order executed and nothing left in a stream. -/
structure FitsTogether (T : System (CallNet κ ρ n)) (i j : Fin n) : Prop where
  progress : ∀ s, Reachable T s → Calling s.parent → ∃ t, T.step s t
  outcome : ∀ s r, Reachable T s → s.parent = .returned 0 r → r = .ok () ∧
    ExecutedOnce s i 0 .debit ∧ ExecutedOnce s j 0 .credit ∧
    ∀ x, (s.cell x).down = [] ∧ (s.cell x).up = []

def phaseWeight : Phase ρ → ℕ
  | .exited _ => 0
  | .receive | .report => 1
  | .started | .acknowledge _ | .done => 2
  | .launch | .credit _ _ _ => 3
  | .forward _ _ _ _ => 4
  | .debit _ _ _ _ => 5

theorem phaseWeight_tick (x : ChildState κ ρ) (f : κ → Checked κ) (ph : Phase ρ) :
    phaseWeight (x.tick f ph).phase ≤ phaseWeight ph := by
  rcases tick_cases x f ph with ⟨r, hr⟩ | ⟨h, _⟩
  · rw [hr]
    exact Nat.zero_le _
  · rw [h]

theorem phaseWeight_destination (id : AccountId) (k : ℕ) (o : TransferOrder) (now : Timestamp) :
    phaseWeight (destination id k o now : Phase ρ) ≤ 3 := by
  unfold destination
  split_ifs <;> simp [phaseWeight]

theorem phaseWeight_onTransfer (V : Variant κ ρ) (id : AccountId) (x : ChildState κ ρ) (k : ℕ)
    (payload : List UInt8) : phaseWeight (onTransfer V id x k payload).phase ≤ 5 := by
  unfold onTransfer
  split
  · exact Nat.zero_le _
  · exact Nat.zero_le _
  · split
    · exact Nat.zero_le _
    · dsimp only
      split_ifs
      · exact le_rfl
      · exact (phaseWeight_destination _ _ _ _).trans (by decide)

theorem phaseWeight_onMessage (V : Variant κ ρ) (id : AccountId) {x : ChildState κ ρ}
    (hx : x.phase = .receive) (e : Envelope) : phaseWeight (onMessage V id x e).phase ≤ 5 := by
  unfold onMessage
  split
  · exact Nat.zero_le _
  · dsimp only
    split
    · exact phaseWeight_onTransfer V id _ _ _
    · exact (phaseWeight_tick _ _ _).trans (by simp [phaseWeight])
    · simp [hx, phaseWeight]

theorem child_lowers (V : Variant κ ρ) (id : AccountId) (x : ChildState κ ρ) :
    ChildLowers (fun x => phaseWeight x.phase) 5 (phaseWeight x.phase) (bankingChild V id x) := by
  have hsend : ∀ e (next : ChildState κ ρ), phaseWeight next.phase < phaseWeight x.phase →
      ChildLowers (fun x => phaseWeight x.phase) 5 (phaseWeight x.phase) (sending V x e next) := by
    rintro e next h (err | u)
    · exact (Nat.zero_le _).trans_lt h
    · exact h
  cases hph : x.phase <;> simp only [bankingChild, hph] <;> rw [hph] at hsend
  case launch => exact (phaseWeight_tick _ _ _).trans_lt (Nat.lt_succ_self 2)
  case receive =>
    exact ⟨fun e => Nat.lt_succ_of_le (phaseWeight_onMessage V id hph e), fun e => Nat.one_pos⟩
  case debit k payload o now =>
    change phaseWeight (onDebit V x k payload o now).phase < 5
    unfold onDebit
    split
    · exact Nat.zero_lt_succ _
    · exact Nat.zero_lt_succ _
    · exact (phaseWeight_tick _ _ _).trans_lt (Nat.lt_succ_self 4)
  case credit k o now =>
    change phaseWeight (onCredit V x k o now).phase < 3
    unfold onCredit
    split
    · exact Nat.zero_lt_succ _
    · exact Nat.zero_lt_succ _
    · exact (phaseWeight_tick _ _ _).trans_lt (Nat.lt_succ_self 2)
  case forward k payload o now =>
    exact hsend _ _ (Nat.lt_succ_of_le (phaseWeight_destination _ _ _ _))
  case started => exact hsend _ _ (Nat.lt_succ_self 1)
  case acknowledge k => exact hsend _ _ (Nat.lt_succ_self 1)
  case done => exact hsend _ _ (Nat.lt_succ_self 1)
  case report => exact hsend _ _ Nat.one_pos
  case exited r => trivial

def callerWeight (calls : List TransferOrder) : Caller → ℕ
  | .call k => 10*(calls.length-k)+1
  | .await k _ => 10*(calls.length-k)-5
  | .returned k _ => 10*(calls.length-k)-6
  | .finished | .panicked => 0

theorem caller_lowers {p : Caller} (hI : InCall calls p) :
    ParentLowers (callerWeight calls) 5 (callerWeight calls p)
      (callingParent (n := n) calls p) := by
  have hlt : ∀ {k : ℕ} {o : TransferOrder}, calls[k]? = some o → k < calls.length :=
    fun h => (List.getElem?_eq_some_iff.mp h).1
  cases p with
  | call k =>
    cases hk : calls[k]? with
    | none =>
      simp only [callingParent, hk]
      exact Nat.succ_pos _
    | some o =>
      have := hlt hk
      rcases transfer_action (n := n) hk with ha | ⟨i, _, next, ha, hok, herr⟩
      · rw [ha]
        exact Nat.succ_pos _
      · rw [ha]
        refine ⟨?_, fun e => ?_⟩
        · rw [hok]
          simp only [callerWeight]
          omega
        · obtain ⟨r, hr⟩ := herr e
          rw [hr]
          simp only [callerWeight]
          omega
  | await k o =>
    have := hlt hI
    rcases await_action (n := n) calls k o with ha | ⟨j, _, next, ha, hok, herr⟩
    · rw [ha]
      simp only [ParentLowers, callerWeight]
      omega
    · rw [ha]
      rintro (e | e)
      · obtain ⟨r, hr⟩ := herr e
        rw [hr]
        simp only [callerWeight]
        omega
      · obtain ⟨r, hr⟩ := onAnswer_returned k e.msg
        rw [hok, hr]
        simp only [callerWeight]
        omega
  | returned k r =>
    obtain ⟨o, ho⟩ := hI
    have := hlt ho
    simp only [callingParent, ParentLowers, callerWeight]
    omega
  | finished | panicked => trivial

/-- An ACK is not the first thing to come. -/
def LedByOther (R : List Envelope) : Prop := ∀ e, R.head? = some e → e.msg ≠ .ack

def Unanswered (p : Caller) (i : Fin n) (c : ChildCell κ ρ) : Prop :=
  Calling p → ∃ R L, Foreseen (childId i) R L c ∧ LedByOther R

def NotOk (calls : List TransferOrder) (p : Caller) : Prop :=
  InCall calls p ∧ ∀ k, p ≠ .returned k (.ok ())

theorem ledByOther_order {R : List Envelope} (h : LedByOther R) (k : ℕ) (hi : childId i = o.src) :
    LedByOther (R ++ repliesAll (childId i) [⟨k, .transfer o.toBytes⟩]) := by
  intro e he
  cases R with
  | cons x xs => exact h e he
  | nil =>
    rw [repliesAll_order, forwards, if_pos hi.symm] at he
    obtain rfl := Option.some.inj he
    simp

theorem onAnswer_notOk {k : ℕ} {msg : Message} (h : msg ≠ .ack) :
    ∀ m, onAnswer k msg ≠ .returned m (.ok ()) := by
  intro m
  unfold onAnswer
  split
  · exact absurd rfl h
  · simp

theorem unanswered_start {s : CallNet κ ρ n} (hs : CallStart s) :
    NotOk calls s.parent ∧ ∀ i, Unanswered s.parent i (s.cell i) := by
  obtain ⟨hp, hidle⟩ := hs
  rw [hp]
  refine ⟨⟨trivial, fun k => by simp⟩, fun i _ => ?_⟩
  obtain ⟨_, hph, _, _, hdown, hup⟩ := hidle i
  refine ⟨_, _, .running ?_ rfl rfl, ?_⟩
  · rcases hph with h | h <;> rw [h] <;> rfl
  · rw [hup, upcoming, hdown]
    rcases hph with h | h <;> rw [h] <;> simp [LedByOther, owed, repliesAll]

theorem only_call {k : ℕ} {o' : TransferOrder} (h : [o][k]? = some o') : k = 0 ∧ o' = o := by
  cases k with
  | zero => exact ⟨rfl, (Option.some.inj h).symm⟩
  | succ k => cases h

/-- The step lemma for the caller. -/
theorem unanswered_parent (hn : n ≤ 255) (V : Variant κ ρ) {s t : CallNet κ ρ n}
    (hi : childId i = o.src) (hj : childId j = o.dst)
    (hs : Reachable (transferSystem V [o]) s) (hI : NotOk [o] s.parent)
    (hJ : ∀ x, Unanswered s.parent x (s.cell x)) (hm : ParentMove (transferProtocol n V [o]) s t) :
    NotOk [o] t.parent ∧ ∀ x, Unanswered t.parent x (t.cell x) := by
  let P := transferProtocol n V [o]
  have hleft : ∀ q, ¬ Calling q → ∀ (x : Fin n) (c : ChildCell κ ρ), Unanswered q x c :=
    fun q hq x c hc => absurd hc hq
  cases hp : s.parent with
  | call k =>
    cases hk : [o][k]? with
    | none =>
      have ha : P.parent s.parent = .tau .finished := by
        change callingParent [o] s.parent = _
        simp only [hp, callingParent, hk]
      exact tau_rule P ha ⟨trivial, fun m => by simp⟩ (fun x => hleft _ id x _) hm
    | some o' =>
      obtain ⟨rfl, rfl⟩ := only_call hk
      have ha : P.parent s.parent = transfer 0 o' := by rw [hp]; rfl
      rw [transfer_of_childId hn hi] at ha
      have hcalling : Calling s.parent := by rw [hp]; rfl
      refine send_rule P ha ⟨hk, fun m => by simp⟩ ?_ ?_ ?_ hm
      · obtain ⟨R, L, hf, hR⟩ := hJ i hcalling
        exact fun _ => ⟨_, _, hf.given (steady_listening hs i) _, ledByOther_order hR 0 hi⟩
      · exact fun x _ _ => hJ x hcalling
      · exact fun _ => ⟨⟨⟨o', hk⟩, fun m => by simp⟩, fun x => hleft _ id x _⟩
  | await k o' =>
    rw [hp] at hI
    obtain ⟨rfl, rfl⟩ := only_call hI.1
    have ha : P.parent s.parent = awaitAnswer 0 o' := by rw [hp]; rfl
    rw [awaitAnswer_of_childId hn hj] at ha
    refine recv_rule P ha ?_
      (fun _ _ => ⟨⟨⟨o', rfl⟩, fun m => by simp⟩, fun x => hleft _ id x _⟩) hm
    intro e rest hup
    obtain ⟨R, L, hf, hR⟩ := hJ j (by rw [hp]; trivial)
    have hack : e.msg ≠ .ack := by
      obtain ⟨R₀, rfl, _⟩ := hf.taken_any hup
      intro he
      refine hR (shape e) rfl ?_
      rw [shape, he]
      exact he
    obtain ⟨r, hr⟩ := onAnswer_returned 0 e.msg
    have hnot := onAnswer_notOk (k := 0) hack
    dsimp only
    rw [hr] at hnot ⊢
    exact ⟨⟨⟨o', rfl⟩, hnot⟩, hleft _ id j _, fun x _ => hleft _ id x _⟩
  | returned k r =>
    have ha : P.parent s.parent = .tau (.call (k+1)) := by
      rw [hp]
      rfl
    exact tau_rule P ha ⟨trivial, fun m => by simp⟩
      (fun x => hleft (.call (k+1)) (Nat.succ_ne_zero k) x _) hm
  | finished | panicked =>
    have ha : P.parent s.parent = .halt := by
      rw [hp]
      rfl
    exact absurd hm (halt_rule P ha)

theorem reachable_notOk (hn : n ≤ 255) (V : Variant κ ρ) {s : CallNet κ ρ n}
    (hi : childId i = o.src) (hj : childId j = o.dst)
    (hs : Reachable (transferSystem V [o]) s) : NotOk [o] s.parent := by
  refine (cellwise_invariant _ (NotOk [o]) Unanswered (fun s h => unanswered_start h) ?_ ?_
    (fun s t hr hI hJ hm => unanswered_parent hn V hi hj hr hI hJ hm) hs).1
  · intro s x c _ hJ hm hc
    obtain ⟨R, L, hf, hR⟩ := hJ hc
    exact ⟨R, L, foreseen_child V hf hm, hR⟩
  · intro s x c _ _ hJ _ hm hc
    obtain ⟨R, L, hf, hR⟩ := hJ hc
    exact ⟨R, L, foreseen_childFault V hf hm, hR⟩

theorem calling_next (hn : n ≤ 255) (V : Variant κ ρ) {s t : CallNet κ ρ n}
    (hi : childId i = o.src) (hj : childId j = o.dst) (hI : InCall [o] s.parent)
    (hc : Calling s.parent) (hm : ParentMove (transferProtocol n V [o]) s t) :
    Calling t.parent ∨ ∃ r, t.parent = .returned 0 r := by
  refine parentMove_all (transferProtocol n V [o])
    (Q := fun p => Calling p ∨ ∃ r, p = .returned 0 r) ?_ hm
  change (callingParent [o] s.parent).All _
  cases hp : s.parent with
  | call k =>
    rw [hp] at hc
    obtain rfl : k = 0 := hc
    change (transfer 0 o).All _
    rw [transfer_of_childId hn hi]
    rintro (e | u)
    · exact Or.inr ⟨_, rfl⟩
    · exact Or.inl trivial
  | await k o' =>
    rw [hp] at hI
    obtain ⟨rfl, rfl⟩ := only_call hI
    change (awaitAnswer 0 o').All _
    rw [awaitAnswer_of_childId hn hj]
    rintro (e | e)
    · exact Or.inr ⟨_, rfl⟩
    · exact Or.inr (onAnswer_returned 0 e.msg)
  | returned | finished | panicked =>
    rw [hp] at hc
    exact hc.elim

section OneCall

variable {V : Variant κ ρ} {s₀ s : CallNet κ ρ n}

theorem reachable_oneCall (h0 : CallStart s₀) (hs : Reachable (oneCall V o s₀) s) :
    Reachable (transferSystem V [o]) s :=
  reachable_mono (T := oneCall V o s₀) (U := transferSystem V [o]) (by rintro _ rfl; exact h0)
    (fun _ _ h => h) hs

theorem calling_or_returned (hn : n ≤ 255) (h0 : CallStart s₀) (hi : childId i = o.src)
    (hj : childId j = o.dst) (hs : Reachable (oneCall V o s₀) s) :
    Calling s.parent ∨ ∃ u r, Reachable (oneCall V o s₀) u ∧ u.parent = .returned 0 r := by
  refine invariant (I := fun s => Calling s.parent ∨
    ∃ u r, Reachable (oneCall V o s₀) u ∧ u.parent = .returned 0 r) ?_ ?_ hs
  · rintro s rfl
    rw [h0.1]
    exact Or.inl rfl
  · rintro s t hr (hc | hret) hst
    · have hI := (reachable_notOk hn V hi hj (reachable_oneCall h0 hr)).1
      have hparent : ParentMove (transferProtocol n V [o]) s t →
          Calling t.parent ∨ ∃ u r, Reachable (oneCall V o s₀) u ∧ u.parent = .returned 0 r :=
        fun hm => (calling_next hn V hi hj hI hc hm).imp_right
          fun h => ⟨t, h.choose, hr.step hst, h.choose_spec⟩
      obtain ⟨m, hm⟩ := hst
      cases m with
      | child x =>
        obtain ⟨_, _, hp, _⟩ := fire_child_cell _ hm
        rw [hp]
        exact Or.inl hc
      | childFault x =>
        obtain ⟨_, _, _, _, rfl⟩ := fire_childFault _ hm
        exact Or.inl hc
      | parent => exact hparent (parentMove_of_fire _ (Or.inl hm))
      | parentFault => exact hparent (parentMove_of_fire _ (Or.inr hm))
    · exact Or.inr hret

theorem oneCall_comes_to_rest (hn : n ≤ 255) (h0 : CallStart s₀) (hi : childId i = o.src)
    (hj : childId j = o.dst) (hs : Reachable (oneCall V o s₀) s) :
    ∃ t, Reachable (oneCall V o s₀) t ∧ Relation.ReflTransGen (oneCall V o s₀).step s t ∧
      Stuck (oneCall V o s₀) t :=
  network_reaches_stuck (callerWeight [o]) (fun x => phaseWeight x.phase) 5
    (fun x y => child_lowers V (childId x) y)
    (fun _ hr => caller_lowers (reachable_notOk hn V hi hj (reachable_oneCall h0 hr)).1) hs

end OneCall

/-- `transfer` and the children's loop fit together for no order and from no
start: a run that returns does not return Ok, and some run comes to rest. -/
theorem never_fits_together (hn : n ≤ 255) (V : Variant κ ρ) {s₀ : CallNet κ ρ n}
    (h0 : CallStart s₀) (hi : childId i = o.src) (hj : childId j = o.dst) :
    ¬ FitsTogether (oneCall V o s₀) i j := by
  intro hfit
  have hno : ∀ u r, Reachable (oneCall V o s₀) u → u.parent ≠ .returned 0 r := by
    intro u r hu hp
    obtain ⟨rfl, _⟩ := hfit.outcome u r hu hp
    exact (reachable_notOk hn V hi hj (reachable_oneCall h0 hu)).2 0 hp
  obtain ⟨t, ht, _, hstuck⟩ := oneCall_comes_to_rest hn h0 hi hj (.init rfl)
  rcases calling_or_returned hn h0 hi hj ht with hc | ⟨u, r, hu, hp⟩
  · obtain ⟨w, hw⟩ := hfit.progress t ht hc
    exact hstuck w hw
  · exact hno u r hu hp

def twoAccounts : Fin 2 → Balance := ![100, 50]

theorem never_fits_together_two :
    ¬ FitsTogether (oneCall simulateBankingChild ⟨1, 2, 30⟩
      (waitingNet simulateBankingChild twoAccounts)) 0 1 :=
  never_fits_together (by decide) simulateBankingChild (waitingNet_start _ twoAccounts) rfl rfl

def everyMove (n : ℕ) : List (Move (Fin n)) :=
  (List.finRange n).map .child ++ (List.finRange n).map .childFault ++ [.parent, .parentFault]

theorem mem_everyMove (m : Move (Fin n)) : m ∈ everyMove n := by
  cases m <;> simp [everyMove]

theorem deadlock_observed :
    (play (transferProtocol 2 simulateBankingChild [⟨1, 2, 30⟩]).fire
      [.parent, .child 0, .child 0, .child 0] (waitingNet simulateBankingChild twoAccounts)).map
        (fun s => (s.parent, (everyMove 2).all fun m =>
          ((transferProtocol 2 simulateBankingChild [⟨1, 2, 30⟩]).fire m s).isNone)) =
      some (.await 0 ⟨1, 2, 30⟩, true) := by
  decide +kernel

/-- The call waits for the destination, which waits for the caller. -/
theorem transfer_deadlocks :
    ¬ ∀ s, Reachable (oneCall simulateBankingChild ⟨1, 2, 30⟩
      (waitingNet simulateBankingChild twoAccounts)) s → Calling s.parent →
      ∃ t, (oneCall simulateBankingChild ⟨1, 2, 30⟩
        (waitingNet simulateBankingChild twoAccounts)).step s t := by
  intro hall
  obtain ⟨s, l, hl, hobs⟩ := play_reaches (· = waitingNet simulateBankingChild twoAccounts)
    _ rfl _ deadlock_observed
  obtain ⟨hp, hnone⟩ := Prod.mk.inj hobs
  obtain ⟨t, m, hm⟩ := hall s (reachable_of_run hl s (by simp)) (by rw [hp]; trivial)
  have := List.all_eq_true.mp hnone m (mem_everyMove m)
  rw [Option.isNone_iff_eq_none.mp this] at hm
  cases hm

end CrabKeeper.TransferPairing
