import CrabKeeper.TransferCall

/-!
# What an ACK stands for

Only the source of a call ever receives its order. The ledger of a child is
therefore determined by the calls it is the source of, and an ACK in its stream
was sent for a call from the account to itself. A call that takes it for its own
answer has executed exactly if it is such a call and the child has worked
through everything it was sent.
-/

set_option autoImplicit false

namespace CrabKeeper.TransferAcks
open Foundation.Machine Foundation.DoubleEntry Foundation.Transition Foundation.Network
open CrabKeeper.MessageCodec CrabKeeper.ChannelFraming CrabKeeper.BankTypes
open CrabKeeper.BankAccount CrabKeeper.BankChild CrabKeeper.ChildAccounts CrabKeeper.ChildForecast
open CrabKeeper.TransferCall CrabKeeper.Clocks

variable {κ ρ : Type} {n : ℕ} {calls : List TransferOrder} {id : AccountId}

def delivered (id : AccountId) (ko : TransferOrder × ℕ) : List (Entry ℤ) :=
  if ko.1.src = id then debits id ko.2 ko.1 ++ credits id ko.2 ko.1 else []

def deliveredUpTo (calls : List TransferOrder) (k : ℕ) (i : Fin n) : List (Entry ℤ) :=
  (calls.take k).zipIdx.flatMap (delivered (childId i))

theorem deliveredUpTo_succ {k : ℕ} {o : TransferOrder} (h : calls[k]? = some o) (i : Fin n) :
    deliveredUpTo calls (k+1) i = deliveredUpTo calls k i ++ delivered (childId i) (o,k) := by
  have hk := (List.getElem?_eq_some_iff.mp h).1
  rw [deliveredUpTo, List.take_add_one, h, Option.toList_some, List.zipIdx_append,
    List.flatMap_append, deliveredUpTo]
  simp [Nat.min_eq_left hk.le]

theorem order_of_delivered {k : ℕ} {i : Fin n} {e : Entry ℤ} (h : e ∈ deliveredUpTo calls k i) :
    e.order < k ∧ ∃ o, calls[e.order]? = some o ∧ o.src = childId i ∧
      (e.side = .credit → o.dst = childId i) := by
  obtain ⟨⟨o, m⟩, hmem, he⟩ := List.mem_flatMap.mp h
  have hget := List.mem_zipIdx_iff_getElem?.mp hmem
  rw [List.getElem?_take] at hget
  unfold delivered debits credits at he
  split_ifs at hget he with hm hsrc hdst
  · simp only [List.cons_append, List.nil_append, List.mem_cons, List.not_mem_nil, or_false] at he
    rcases he with rfl | rfl
    · exact ⟨hm, o, hget, hsrc, fun _ => hdst⟩
    · exact ⟨hm, o, hget, hsrc, fun _ => hdst⟩
  · simp only [List.append_nil, List.mem_singleton] at he
    subst he
    exact ⟨hm, o, hget, hsrc, fun hs => by cases hs⟩
  · cases he

def Active : Caller → Prop
  | .finished | .panicked => False
  | _ => True

def issued : Caller → ℕ
  | .call k => k
  | .await k _ | .returned k _ => k+1
  | .finished | .panicked => 0

def InCall (calls : List TransferOrder) : Caller → Prop
  | .await k order => calls[k]? = some order
  | .returned k _ => ∃ order, calls[k]? = some order
  | _ => True

/-- A child's ledger is what its calls make it post, as far as it has come; one
that stopped has left something unposted. -/
def Tracked (calls : List TransferOrder) (p : Caller) (i : Fin n) (c : ChildCell κ ρ) : Prop :=
  Active p → (∃ R, Foreseen (childId i) R (deliveredUpTo calls (issued p) i) c) ∧
    (hasExited c.state.phase = true →
      entriesIn c.state.ledger ≠ deliveredUpTo calls (issued p) i)

def CalledOn (calls : List TransferOrder) (id : AccountId) (e : Envelope) : Prop :=
  ∃ k o, calls[k]? = some o ∧ e = ⟨k, .transfer o.toBytes⟩ ∧ o.src = id

/-- What the phase says of the ledger, as long as no STOP arrives. -/
def Steady (x : ChildState κ ρ) : Prop :=
  match x.phase with
  | .launch | .started => x.ledger = []
  | .forward _ _ _ _ => ∃ p, x.ledger.getLast? = some p ∧ p.side = .debit
  | .done | .report => False
  | _ => True

theorem parent_calls {p : Caller} {i : Fin n} {m : Envelope} {f : Except IoError Unit → Caller}
    (h : callingParent calls p = .send i m f) : CalledOn calls (childId i) m := by
  cases p with
  | call k =>
    unfold callingParent transfer at h
    dsimp only at h
    split at h
    · cases h
    · next o ho =>
      split at h
      · cases h
      · next idx hidx =>
        split at h
        · cases h
        · next x hx =>
          cases h
          exact ⟨k, o, ho, rfl, (childId_of_index hidx (streamAt_eq_some.mp hx)).symm⟩
  | await k o =>
    unfold callingParent awaitAnswer at h
    dsimp only at h
    split at h
    · cases h
    · split at h <;> cases h
  | returned | finished | panicked => cases h

theorem queue_calls {V : Variant κ ρ} {s : CallNet κ ρ n}
    (hs : Reachable (transferSystem V calls) s) (i : Fin n) :
    ∀ e ∈ (s.cell i).down, CalledOn calls (childId i) e := by
  refine queue_invariant (transferProtocol n V calls) (fun i => CalledOn calls (childId i)) ?_ ?_
    hs i
  · intro s hs i e he
    rw [(hs.2 i).down] at he
    cases he
  · exact fun s _ i m next ha => parent_calls ha

theorem calledOn_not_stop {e : Envelope} (h : CalledOn calls id e) : e.msg ≠ .stop := by
  obtain ⟨k, o, _, rfl, _⟩ := h
  simp

theorem steady_destination {x : ChildState κ ρ} (k : ℕ) (o : TransferOrder) (now : Timestamp) :
    Steady (x.goto (destination id k o now)) := by
  unfold ChildState.goto destination Steady
  split_ifs <;> trivial

/-- The step lemma for what a phase says of the ledger. -/
theorem steady_step (V : Variant κ ρ) {x : ChildState κ ρ} (h : Steady x) :
    (bankingChild V id x).All (CalledOn calls id) Steady := by
  have hsend : ∀ e next, Steady next → (sending V x e next).All (CalledOn calls id) Steady := by
    intro e next hnext r
    cases r with
    | ok _ => exact hnext
    | error err => trivial
  unfold Steady at h
  cases hph : x.phase <;> rw [hph] at h <;> simp only [bankingChild, hph]
  case launch =>
    rcases tick_cases x V.depart .started with ⟨r, hr⟩ | ⟨h1, h2, _⟩
    · change Steady (x.tick V.depart .started)
      rw [hr]
      trivial
    · change Steady (x.tick V.depart .started)
      rw [Steady, h1]
      exact h2.trans h
  case receive =>
    refine ⟨fun e he => ?_, fun e => trivial⟩
    obtain ⟨k, o, _, rfl, hsrc⟩ := he
    unfold onMessage onTransfer
    split
    · trivial
    · dsimp only
      rw [order_fromBytes_toBytes]
      dsimp only
      split
      · trivial
      · unfold Steady
        dsimp only
        rw [if_pos hsrc]
        trivial
  case debit k payload o now =>
    change Steady (onDebit V x k payload o now)
    unfold onDebit
    split
    · trivial
    · trivial
    · next a _ =>
      rcases tick_cases (x.post k .debit o.amount a) V.depart (.forward k payload o now) with
        ⟨r, hr⟩ | ⟨h1, h2, _⟩
      · rw [hr]
        trivial
      · rw [Steady, h1]
        exact ⟨_, by rw [h2, ChildState.post, List.getLast?_concat], rfl⟩
  case credit k o now =>
    change Steady (onCredit V x k o now)
    unfold onCredit
    split
    · trivial
    · trivial
    · next a _ =>
      rcases tick_cases (x.post k .credit o.amount a) V.depart (.acknowledge k) with
        ⟨r, hr⟩ | ⟨h1, _, _⟩
      · rw [hr]
        trivial
      · rw [Steady, h1]
        trivial
  case forward k payload o now => exact hsend _ _ (steady_destination k o now)
  case started => exact hsend _ _ trivial
  case acknowledge k => exact hsend _ _ trivial
  case done => exact h.elim
  case report => exact h.elim
  case exited r => trivial

theorem reachable_steady {V : Variant κ ρ} {s : CallNet κ ρ n}
    (hs : Reachable (transferSystem V calls) s) (i : Fin n) : Steady (s.cell i).state := by
  refine state_invariant (transferProtocol n V calls) (fun i => CalledOn calls (childId i))
    (fun _ => Steady) ?_ (fun s hr => queue_calls hr) (fun i x h => steady_step V h) hs i
  intro s hs i
  unfold Steady
  rcases (hs.2 i).phase with h | h <;> rw [h]
  · exact (hs.2 i).ledger
  · trivial

theorem deliveredUpTo_src {k : ℕ} {o : TransferOrder} {i : Fin n} (h : calls[k]? = some o)
    (hi : childId i = o.src) :
    deliveredUpTo calls (k+1) i =
      deliveredUpTo calls k i ++ duesAll (childId i) [⟨k, .transfer o.toBytes⟩] := by
  rw [deliveredUpTo_succ h, delivered, if_pos hi.symm, duesAll_order]

theorem deliveredUpTo_other {k : ℕ} {o : TransferOrder} {i : Fin n} (h : calls[k]? = some o)
    (hi : childId i ≠ o.src) : deliveredUpTo calls (k+1) i = deliveredUpTo calls k i := by
  rw [deliveredUpTo_succ h, delivered, if_neg (Ne.symm hi), List.append_nil]

theorem exited_of_halted {V : Variant κ ρ} {x : ChildState κ ρ}
    (h : (bankingChild V id x).halted = true) : hasExited x.phase = true := by
  unfold bankingChild at h
  split at h
  case h_10 hph =>
    rw [hph]
    rfl
  all_goals cases h

theorem onAnswer_returned (k : ℕ) (msg : Message) : ∃ r, onAnswer k msg = .returned k r := by
  unfold onAnswer
  split
  · exact ⟨_, rfl⟩
  · exact ⟨_, rfl⟩

theorem halted_caller {p : Caller} (h : (callingParent (n := n) calls p).halted = true) :
    ¬ Active p := by
  cases p with
  | call k =>
    unfold callingParent transfer at h
    dsimp only at h
    repeat' split at h
    all_goals cases h
  | await k o =>
    unfold callingParent awaitAnswer at h
    dsimp only at h
    repeat' split at h
    all_goals cases h
  | returned => cases h
  | finished | panicked => exact fun hact => hact

theorem steady_listening {V : Variant κ ρ} {s : CallNet κ ρ n}
    (hs : Reachable (transferSystem V calls) s) (i : Fin n) : Listening (s.cell i) := by
  have hsteady := reachable_steady hs i
  refine fun hrun => ⟨?_, fun e he => calledOn_not_stop (queue_calls hs i e he)⟩
  unfold Steady at hsteady
  cases hph : (s.cell i).state.phase <;> simp_all [loops, hasExited]

theorem transfer_action {k : ℕ} {o : TransferOrder} (hk : calls[k]? = some o) :
    callingParent (n := n) calls (.call k) = .tau .panicked ∨
    ∃ i : Fin n, childId i = o.src ∧ ∃ next, callingParent calls (.call k) =
      .send i ⟨k, .transfer o.toBytes⟩ next ∧ next (.ok ()) = .await k o ∧
      ∀ e, ∃ r, next (.error e) = .returned k r := by
  unfold callingParent
  simp only [hk]
  unfold transfer
  split
  · exact Or.inl rfl
  · next idx hidx =>
    split
    · exact Or.inl rfl
    · next i hi =>
      exact Or.inr ⟨i, childId_of_index hidx (streamAt_eq_some.mp hi), _, rfl, rfl,
        fun e => ⟨_, rfl⟩⟩

theorem await_action (calls : List TransferOrder) (k : ℕ) (o : TransferOrder) :
    callingParent (n := n) calls (.await k o) = .tau .panicked ∨
    ∃ j : Fin n, childId j = o.dst ∧ ∃ next, callingParent calls (.await k o) = .recv j next ∧
      (∀ e, next (.ok e) = onAnswer k e.msg) ∧
      ∀ e, ∃ r, next (.error e) = .returned k (.error r) := by
  unfold callingParent awaitAnswer
  dsimp only
  split
  · exact Or.inl rfl
  · next idx hidx =>
    split
    · exact Or.inl rfl
    · next j hj =>
      exact Or.inr ⟨j, childId_of_index hidx (streamAt_eq_some.mp hj), _, rfl, fun e => rfl,
        fun e => ⟨_, rfl⟩⟩

section Physical

variable {success : BranchAccount → ρ} {failure : IoError → ρ}

theorem dues_of_calledOn {e : Envelope} (h : CalledOn calls id e) : duesTo id e ≠ [] := by
  obtain ⟨k, o, _, rfl, hsrc⟩ := h
  simp [duesTo, carriedOrder_transfer, debits, hsrc]

theorem physical_stops {c c' : ChildCell PhysicalClock ρ}
    (hm : childMove (bankingChild (physicalChild success failure) id c.state) c = some c')
    (hsteady : Steady c.state) (hqueue : ∀ e ∈ c.down, CalledOn calls id e)
    (hex : hasExited c'.state.phase = true) :
    entriesIn c'.state.ledger = entriesIn c.state.ledger ∧ unposted id c ≠ [] := by
  obtain ⟨sp, ⟨ph, a, clk, led⟩, down, up⟩ := c
  cases ph with
  | launch | started | acknowledge =>
    obtain rfl := Option.some.inj hm
    cases hex
  | forward k payload o now =>
    obtain rfl := Option.some.inj hm
    by_cases h : o.dst = id <;> simp [ChildState.goto, destination, h, hasExited] at hex
  | done | report => exact hsteady.elim
  | receive =>
    cases down with
    | nil => cases hm
    | cons e es =>
      obtain rfl := Option.some.inj hm
      have he := hqueue e (by simp)
      have hkeep := (onMessage_answered (physicalChild success failure) id
        ⟨.receive, a, clk, led⟩ rfl e).1
      refine ⟨congrArg entriesIn hkeep, ?_⟩
      rw [unposted_receive rfl, duesAll_cons id (calledOn_not_stop he)]
      exact fun hnil => dues_of_calledOn he (List.append_eq_nil_iff.mp hnil).1
  | debit k payload o now =>
    obtain rfl := Option.some.inj hm
    unfold onDebit at hex ⊢
    split at hex
    · exact ⟨rfl, by simp [unposted, dues]⟩
    · exact ⟨rfl, by simp [unposted, dues]⟩
    · cases hex
  | credit k o now =>
    obtain rfl := Option.some.inj hm
    unfold onCredit at hex ⊢
    split at hex
    · exact ⟨rfl, by simp [unposted, dues]⟩
    · exact ⟨rfl, by simp [unposted, dues]⟩
    · cases hex
  | exited r => cases hm

theorem Tracked.child {p : Caller} {i : Fin n} {c c' : ChildCell PhysicalClock ρ}
    (h : Tracked calls p i c) (hsteady : Steady c.state)
    (hqueue : ∀ e ∈ c.down, CalledOn calls (childId i) e)
    (hm : childMove (bankingChild (physicalChild success failure) (childId i) c.state) c =
      some c') : Tracked calls p i c' := by
  intro hact
  obtain ⟨⟨R, hf⟩, _⟩ := h hact
  refine ⟨⟨R, foreseen_child _ hf hm⟩, fun hex => ?_⟩
  obtain ⟨hkeep, hun⟩ := physical_stops hm hsteady hqueue hex
  cases hf with
  | running _ _ hL =>
    rw [hkeep, ← hL]
    exact fun heq => hun (List.self_eq_append_right.mp heq)
  | stopped _ _ hc _ _ _ =>
    unfold bankingChild at hm
    split at hm <;> simp_all [hasExited, childMove]

theorem Tracked.issue {p q : Caller} {k : ℕ} {o : TransferOrder} {i : Fin n}
    {c c' : ChildCell PhysicalClock ρ} (h : Tracked calls p i c) (ho : calls[k]? = some o)
    (hi : childId i = o.src) (hp : Active p) (hpk : issued p = k) (hqk : issued q = k+1)
    (hstate : c'.state = c.state)
    (hf : ∀ R L, Foreseen (childId i) R L c → Foreseen (childId i)
      (R ++ repliesAll (childId i) [⟨k, .transfer o.toBytes⟩])
      (L ++ duesAll (childId i) [⟨k, .transfer o.toBytes⟩]) c') : Tracked calls q i c' := by
  intro _
  obtain ⟨⟨R, hR⟩, hex⟩ := h hp
  rw [hpk] at hR hex
  rw [hqk, deliveredUpTo_src ho hi, hstate]
  refine ⟨⟨_, hf _ _ hR⟩, fun hc heq => hex hc ?_⟩
  obtain ⟨L', hL', _⟩ := hR.ledger
  rw [heq, List.append_assoc] at hL'
  rw [heq, (List.append_eq_nil_iff.mp (List.self_eq_append_right.mp hL')).1, List.append_nil]

theorem Tracked.keep {p q : Caller} {i : Fin n} {c : ChildCell PhysicalClock ρ}
    (h : Tracked calls p i c) (hp : Active p)
    (heq : deliveredUpTo calls (issued q) i = deliveredUpTo calls (issued p) i) :
    Tracked calls q i c := by
  intro _
  rw [heq]
  exact h hp

theorem Tracked.take {p q : Caller} {i : Fin n} {c : ChildCell PhysicalClock ρ} {e : Envelope}
    {rest : List Envelope} (h : Tracked calls p i c) (hp : Active p)
    (heq : issued q = issued p) (hup : c.up = e::rest) :
    Tracked calls q i { c with up := rest } := by
  intro _
  obtain ⟨⟨R, hf⟩, hex⟩ := h hp
  rw [heq]
  obtain ⟨R₀, _, hf⟩ := hf.taken_any hup
  exact ⟨⟨R₀, hf⟩, hex⟩

theorem tracked_start {s : CallNet PhysicalClock ρ n} (hs : CallStart s) :
    InCall calls s.parent ∧ ∀ i, Tracked calls s.parent i (s.cell i) := by
  obtain ⟨hp, hidle⟩ := hs
  rw [hp]
  refine ⟨trivial, fun i _ => ?_⟩
  obtain ⟨_, hph, _, hled, hdown, hup⟩ := hidle i
  have hrun : hasExited (s.cell i).state.phase = false := by
    rcases hph with h | h <;> rw [h] <;> rfl
  refine ⟨⟨_, .running hrun rfl ?_⟩, fun hex => by simp [hrun] at hex⟩
  rw [hled, unposted, hdown]
  rcases hph with h | h <;> rw [h] <;> rfl

/-- The step lemma for the caller, one case for each of its positions. -/
theorem tracked_parent (hn : n ≤ 255) {s t : CallNet PhysicalClock ρ n}
    (hs : Reachable (transferSystem (physicalChild success failure) calls) s)
    (hI : InCall calls s.parent) (hJ : ∀ i, Tracked calls s.parent i (s.cell i))
    (hm : ParentMove (transferProtocol n (physicalChild success failure) calls) s t) :
    InCall calls t.parent ∧ ∀ i, Tracked calls t.parent i (t.cell i) := by
  let P := transferProtocol n (physicalChild success failure) calls
  have hleave : ∀ q, ¬ Active q → ∀ i, Tracked calls q i (s.cell i) := fun q hq i hact =>
    absurd hact hq
  cases hp : s.parent with
  | call k =>
    cases hk : calls[k]? with
    | none =>
      have ha : P.parent s.parent = .tau .finished := by
        change callingParent calls s.parent = _
        rw [hp, callingParent, hk]
      exact tau_rule P ha trivial (hleave _ id) hm
    | some o =>
      rcases transfer_action (n := n) hk with ha | ⟨i, hi, next, ha, hok, herr⟩
      · have ha : P.parent s.parent = .tau .panicked := by rw [hp]; exact ha
        exact tau_rule P ha trivial (hleave _ id) hm
      · have hother : ∀ j, j ≠ i → ∀ q, issued q = k+1 → Tracked calls q j (s.cell j) := by
          intro j hj q hq
          refine (hJ j).keep (by rw [hp]; trivial) ?_
          rw [hq, hp]
          exact deliveredUpTo_other hk fun h => hj (childId_injective hn (h.trans hi.symm))
        refine send_rule P (by rw [hp]; exact ha) ?_ ?_ ?_ ?_ hm
        · rw [hok]
          exact hk
        · rw [hok]
          exact (hJ i).issue hk hi (by rw [hp]; trivial) (by rw [hp]; rfl) rfl rfl
            fun R L hf => hf.given (steady_listening hs i) _
        · rw [hok]
          exact fun j hj => hother j hj _ rfl
        · intro hh
          obtain ⟨r, hr⟩ := herr P.broken
          rw [hr]
          refine ⟨⟨o, hk⟩, fun j => ?_⟩
          by_cases hj : j = i
          · subst hj
            exact (hJ j).issue hk hi (by rw [hp]; trivial) (by rw [hp]; rfl) rfl rfl
              fun R L hf => hf.lost (exited_of_halted hh) _
          · exact hother j hj _ rfl
  | await k o =>
    rw [hp] at hI
    rcases await_action (n := n) calls k o with ha | ⟨j, _, next, ha, hok, herr⟩
    · have ha : P.parent s.parent = .tau .panicked := by rw [hp]; exact ha
      exact tau_rule P ha trivial (hleave _ id) hm
    · refine recv_rule P (by rw [hp]; exact ha) ?_ ?_ hm
      · intro e rest hup
        obtain ⟨r, hr⟩ := onAnswer_returned k e.msg
        rw [hok, hr]
        refine ⟨⟨o, hI⟩, (hJ j).take (by rw [hp]; trivial) (by rw [hp]; rfl) hup, fun x _ => ?_⟩
        exact (hJ x).keep (by rw [hp]; trivial) (by rw [hp]; rfl)
      · intro _ _
        obtain ⟨r, hr⟩ := herr P.eof
        rw [hr]
        exact ⟨⟨o, hI⟩, fun x => (hJ x).keep (by rw [hp]; trivial) (by rw [hp]; rfl)⟩
  | returned k r =>
    have ha : P.parent s.parent = .tau (.call (k+1)) := by
      rw [hp]
      rfl
    exact tau_rule P ha trivial (fun x => (hJ x).keep (by rw [hp]; trivial) (by rw [hp]; rfl)) hm
  | finished | panicked =>
    have ha : P.parent s.parent = .halt := by
      rw [hp]
      rfl
    exact absurd hm (halt_rule P ha)

theorem reachable_tracked (hn : n ≤ 255) {s : CallNet PhysicalClock ρ n}
    (hs : Reachable (transferSystem (physicalChild success failure) calls) s) :
    InCall calls s.parent ∧ ∀ i, Tracked calls s.parent i (s.cell i) := by
  refine cellwise_invariant _ (InCall calls) (Tracked calls) (fun s h => tracked_start h) ?_ ?_
    (fun s t hr hI hJ hm => tracked_parent hn hr hI hJ hm) hs
  · exact fun s i c hr hJ hm => hJ.child (reachable_steady hr i) (queue_calls hr i) hm
  · exact fun s i c _ _ _ hh _ hact => absurd hact (halted_caller hh)

end Physical

end CrabKeeper.TransferAcks
