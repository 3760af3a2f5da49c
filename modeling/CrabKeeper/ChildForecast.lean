import CrabKeeper.ChildAccounts

/-!
# What a child will still send and post

The messages in a child's queues and the phase it is in determine what it will
still send to the parent and post to its ledger, as long as it does not stop
early. Both forecasts are constant under every move of the child; only the
parent changes them. A child that stopped early has sent and posted a part of
what was foreseen, and has not posted less than it has left unanswered.
-/

set_option autoImplicit false

namespace CrabKeeper.ChildForecast
open Foundation.Machine Foundation.DoubleEntry Foundation.Network
open CrabKeeper.MessageCodec CrabKeeper.ChannelFraming CrabKeeper.BankTypes
open CrabKeeper.BankAccount CrabKeeper.BankChild CrabKeeper.ChildAccounts

variable {κ ρ : Type}

abbrev ChildCell (κ ρ : Type) := Cell Envelope (ChildState κ ρ)

/-- A message up to the bytes of a report, which no forecast knows. -/
def shape (e : Envelope) : Envelope :=
  match e.msg with
  | .balanceHistory _ => ⟨e.order, .balanceHistory []⟩
  | _ => e

def carriedOrder (e : Envelope) : Option (List UInt8 × TransferOrder) :=
  match e.msg with
  | .transfer payload =>
    match TransferOrder.fromBytes payload with
    | .ok (.ok order) => some (payload, order)
    | _ => none
  | _ => none

def acks (id : AccountId) (k : ℕ) (order : TransferOrder) : List Envelope :=
  if order.dst = id then [⟨k, .ack⟩] else []

def forwards (id : AccountId) (k : ℕ) (payload : List UInt8) (order : TransferOrder) :
    List Envelope :=
  if order.src = id then [⟨k, .transfer payload⟩] else []

def debits (id : AccountId) (k : ℕ) (order : TransferOrder) : List (Entry ℤ) :=
  if order.src = id then [⟨k, .debit, order.amount.toInt⟩] else []

def credits (id : AccountId) (k : ℕ) (order : TransferOrder) : List (Entry ℤ) :=
  if order.dst = id then [⟨k, .credit, order.amount.toInt⟩] else []

def closing : List Envelope := [⟨0, .done⟩, ⟨0, .balanceHistory []⟩]

def repliesTo (id : AccountId) (e : Envelope) : List Envelope :=
  match carriedOrder e with
  | some (payload, order) => forwards id e.order payload order ++ acks id e.order order
  | none => []

def duesTo (id : AccountId) (e : Envelope) : List (Entry ℤ) :=
  match carriedOrder e with
  | some (_, order) => debits id e.order order ++ credits id e.order order
  | none => []

def repliesAll (id : AccountId) : List Envelope → List Envelope
  | [] => []
  | e::es => if e.msg = .stop then closing else repliesTo id e ++ repliesAll id es

def duesAll (id : AccountId) : List Envelope → List (Entry ℤ)
  | [] => []
  | e::es => if e.msg = .stop then [] else duesTo id e ++ duesAll id es

def owed (id : AccountId) : Phase ρ → List Envelope
  | .launch | .started => [⟨0, .started⟩]
  | .debit k payload order _ | .forward k payload order _ =>
    ⟨k, .transfer payload⟩ :: acks id k order
  | .credit k _ _ | .acknowledge k => [⟨k, .ack⟩]
  | .done => closing
  | .report => [⟨0, .balanceHistory []⟩]
  | .receive | .exited _ => []

def dues (id : AccountId) : Phase ρ → List (Entry ℤ)
  | .debit k _ order _ => ⟨k, .debit, order.amount.toInt⟩ :: credits id k order
  | .forward k _ order _ => credits id k order
  | .credit k order _ => [⟨k, .credit, order.amount.toInt⟩]
  | _ => []

def hasExited : Phase ρ → Bool
  | .exited _ => true
  | _ => false

def loops : Phase ρ → Bool
  | .done | .report | .exited _ => false
  | _ => true

def upcoming (id : AccountId) (c : ChildCell κ ρ) : List Envelope :=
  owed id c.state.phase ++ if loops c.state.phase then repliesAll id c.down else []

def unposted (id : AccountId) (c : ChildCell κ ρ) : List (Entry ℤ) :=
  dues id c.state.phase ++ if loops c.state.phase then duesAll id c.down else []

def answersOrder (e : Envelope) : Bool :=
  match e.msg with
  | .transfer _ | .ack => true
  | _ => false

inductive Foreseen (id : AccountId) (R : List Envelope) (L : List (Entry ℤ))
    (c : ChildCell κ ρ) : Prop where
  | running : hasExited c.state.phase = false →
      c.up.map shape ++ upcoming id c = R →
      entriesIn c.state.ledger ++ unposted id c = L → Foreseen id R L c
  | stopped (R' : List Envelope) (L' : List (Entry ℤ)) : hasExited c.state.phase = true →
      c.up.map shape ++ R' = R → entriesIn c.state.ledger ++ L' = L →
      L'.length ≤ R'.countP answersOrder → Foreseen id R L c

variable {id : AccountId} {R : List Envelope} {L : List (Entry ℤ)} {c c' : ChildCell κ ρ}

theorem repliesAll_cons (id : AccountId) {e : Envelope} (h : e.msg ≠ .stop) (es : List Envelope) :
    repliesAll id (e::es) = repliesTo id e ++ repliesAll id es := if_neg h

theorem duesAll_cons (id : AccountId) {e : Envelope} (h : e.msg ≠ .stop) (es : List Envelope) :
    duesAll id (e::es) = duesTo id e ++ duesAll id es := if_neg h

theorem dues_le_replies (id : AccountId) (e : Envelope) :
    (duesTo id e).length ≤ (repliesTo id e).countP answersOrder := by
  unfold duesTo repliesTo
  split
  · unfold forwards acks debits credits
    split_ifs <;> simp [List.countP_cons, answersOrder]
  · rfl

theorem duesAll_le (id : AccountId) (es : List Envelope) :
    (duesAll id es).length ≤ (repliesAll id es).countP answersOrder := by
  induction es with
  | nil => rfl
  | cons e es ih =>
    rw [duesAll, repliesAll]
    split_ifs
    · simp
    · rw [List.length_append, List.countP_append]
      exact Nat.add_le_add (dues_le_replies id e) ih

theorem phase_dues_le (id : AccountId) (ph : Phase ρ) :
    (dues id ph).length ≤ (owed id ph).countP answersOrder := by
  unfold dues owed
  cases ph <;> simp [answersOrder, acks, credits] <;> split_ifs <;>
    simp [List.countP_cons, answersOrder]

theorem unposted_le (id : AccountId) (c : ChildCell κ ρ) :
    (unposted id c).length ≤ (upcoming id c).countP answersOrder := by
  rw [unposted, upcoming, List.length_append, List.countP_append]
  refine Nat.add_le_add (phase_dues_le id _) ?_
  split_ifs
  · exact duesAll_le id _
  · rfl

/-- A move that sends `sent` and posts `posted` takes them off the forecasts. -/
theorem Foreseen.advance (sent : List Envelope) (posted : List (Entry ℤ))
    (hR : c.up.map shape ++ upcoming id c = R)
    (hL : entriesIn c.state.ledger ++ unposted id c = L)
    (hc' : hasExited c'.state.phase = false)
    (hup : c'.up.map shape = c.up.map shape ++ sent)
    (hsent : sent ++ upcoming id c' = upcoming id c)
    (hledger : entriesIn c'.state.ledger = entriesIn c.state.ledger ++ posted)
    (hposted : posted ++ unposted id c' = unposted id c) : Foreseen id R L c' := by
  refine .running hc' ?_ ?_
  · rw [hup, List.append_assoc, hsent, hR]
  · rw [hledger, List.append_assoc, hposted, hL]

theorem Foreseen.stop (posted : List (Entry ℤ)) (hR : c.up.map shape ++ upcoming id c = R)
    (hL : entriesIn c.state.ledger ++ unposted id c = L)
    (hc' : hasExited c'.state.phase = true)
    (hup : c'.up = c.up) (hledger : entriesIn c'.state.ledger = entriesIn c.state.ledger ++ posted)
    (hposted : posted <+: unposted id c) : Foreseen id R L c' := by
  obtain ⟨L', hL'⟩ := hposted
  refine .stopped (upcoming id c) L' hc' (by rw [hup, hR]) ?_ ?_
  · rw [hledger, List.append_assoc, hL', hL]
  · have := unposted_le id c
    rw [← hL', List.length_append] at this
    omega

theorem tick_cases (s : ChildState κ ρ) (f : κ → Checked κ) (ph : Phase ρ) :
    (∃ r, s.tick f ph = s.exit r) ∨
    (s.tick f ph).phase = ph ∧ (s.tick f ph).ledger = s.ledger ∧
      (s.tick f ph).account = s.account := by
  unfold ChildState.tick
  split
  · exact Or.inl ⟨_, rfl⟩
  · exact Or.inr ⟨rfl, rfl, rfl⟩

/-- A message answered by stopping, or by the phase that owes what it asks for. -/
def Answered (id : AccountId) (e : Envelope) (s : ChildState κ ρ) : Prop :=
  hasExited s.phase = true ∨ (e.msg = .stop ∧ s.phase = .done) ∨
    (e.msg ≠ .stop ∧ hasExited s.phase = false ∧ loops s.phase = true ∧
      owed id s.phase = repliesTo id e ∧ dues id s.phase = duesTo id e)

theorem onTransfer_answered (V : Variant κ ρ) (id : AccountId) (s : ChildState κ ρ) {e : Envelope}
    {payload : List UInt8} (hm : e.msg = .transfer payload) :
    (onTransfer V id s e.order payload).ledger = s.ledger ∧
      Answered id e (onTransfer V id s e.order payload) := by
  unfold onTransfer
  split
  · exact ⟨rfl, Or.inl rfl⟩
  · exact ⟨rfl, Or.inl rfl⟩
  · next order ho =>
    have horder : carriedOrder e = some (payload, order) := by
      rw [carriedOrder, hm]
      simp [ho]
    split
    · exact ⟨rfl, Or.inl rfl⟩
    · refine ⟨rfl, Or.inr (Or.inr ⟨by simp [hm], ?_⟩)⟩
      simp only [repliesTo, duesTo, horder, destination]
      by_cases h1 : order.src = id <;> by_cases h2 : order.dst = id <;>
        simp [h1, h2, hasExited, loops, owed, dues, forwards, acks, debits, credits]

theorem onMessage_answered (V : Variant κ ρ) (id : AccountId) (s : ChildState κ ρ)
    (hs : s.phase = .receive) (e : Envelope) :
    (onMessage V id s e).ledger = s.ledger ∧ Answered id e (onMessage V id s e) := by
  unfold onMessage
  split
  · exact ⟨rfl, Or.inl rfl⟩
  · next c _ =>
    dsimp only
    split
    · next payload hm => exact onTransfer_answered V id { s with clock := c } hm
    · next hm =>
      rcases tick_cases { s with clock := c } V.depart .done with ⟨r, hr⟩ | ⟨h1, h2, _⟩
      · rw [hr]
        exact ⟨rfl, Or.inl rfl⟩
      · exact ⟨h2, Or.inr (Or.inl ⟨hm, h1⟩)⟩
    · next hm1 hm2 =>
      have horder : carriedOrder e = none := by
        unfold carriedOrder
        split
        · next payload hm => exact absurd hm (hm1 payload)
        · rfl
      refine ⟨rfl, Or.inr (Or.inr ⟨hm2, ?_⟩)⟩
      simp [hs, repliesTo, duesTo, horder, hasExited, loops, owed, dues]

theorem Foreseen.post (hR : c.up.map shape ++ upcoming id c = R)
    (hL : entriesIn c.state.ledger ++ unposted id c = L)
    (k : ℕ) (side : Side) (amount : Balance) (a : BranchAccount) (f : κ → Checked κ)
    {ph : Phase ρ} (hph : hasExited ph = false) (hloops : loops ph = loops c.state.phase)
    (howed : owed id ph = owed id c.state.phase)
    (hdues : dues id c.state.phase = ⟨k, side, amount.toInt⟩ :: dues id ph) :
    Foreseen id R L { c with state := (c.state.post k side amount a).tick f ph } := by
  have hpost := entriesIn_post c.state k side amount a
  rcases tick_cases (c.state.post k side amount a) f ph with ⟨r, hr⟩ | ⟨h1, h2, _⟩
  · rw [hr]
    refine .stop _ hR hL rfl rfl hpost ?_
    rw [unposted, hdues, List.cons_append]
    exact ⟨_, rfl⟩
  · refine .advance [] [⟨k, side, amount.toInt⟩] hR hL (by rw [h1, hph])
      (by simp) ?_ (by rw [h2, hpost]) ?_
    · simp [upcoming, h1, howed, hloops]
    · simp [unposted, h1, hdues, hloops]

theorem upcoming_receive (hph : c.state.phase = .receive) :
    upcoming id c = repliesAll id c.down := by
  rw [upcoming, hph]
  rfl

theorem unposted_receive (hph : c.state.phase = .receive) :
    unposted id c = duesAll id c.down := by
  rw [unposted, hph]
  rfl

theorem Foreseen.received (V : Variant κ ρ) (hR : c.up.map shape ++ upcoming id c = R)
    (hL : entriesIn c.state.ledger ++ unposted id c = L) (hph : c.state.phase = .receive)
    {e : Envelope} {es : List Envelope} (hdown : c.down = e::es) :
    Foreseen id R L { c with state := onMessage V id c.state e, down := es } := by
  obtain ⟨hl, hex | ⟨hs, hd⟩ | ⟨hs, hne, hlp, ho, hdu⟩⟩ := onMessage_answered V id c.state hph e
  · exact .stop [] hR hL hex rfl (by simp [hl]) List.nil_prefix
  · refine .advance [] [] hR hL (by simp [hd, hasExited]) (by simp) ?_
      (by simp [hl]) ?_
    · rw [upcoming_receive hph, hdown, repliesAll, if_pos hs, upcoming, hd]
      rfl
    · rw [unposted_receive hph, hdown, duesAll, if_pos hs, unposted, hd]
      rfl
  · refine .advance [] [] hR hL hne (by simp) ?_ (by simp [hl]) ?_
    · rw [upcoming_receive hph, hdown, repliesAll_cons id hs]
      simp [upcoming, hlp, ho]
    · rw [unposted_receive hph, hdown, duesAll_cons id hs]
      simp [unposted, hlp, hdu]

/-- The step lemma, one case for each phase. -/
theorem foreseen_child (V : Variant κ ρ) (h : Foreseen id R L c)
    (hm : childMove (bankingChild V id c.state) c = some c') : Foreseen id R L c' := by
  cases h with
  | stopped R' L' hc _ _ _ =>
    unfold bankingChild at hm
    split at hm <;> simp_all [hasExited, childMove]
  | running hc hR hL =>
    have hstop : ∀ r, c' = { c with state := c.state.exit r } → Foreseen id R L c' := by
      rintro r rfl
      exact .stop [] hR hL rfl rfl (by simp [ChildState.exit]) List.nil_prefix
    obtain ⟨sp, ⟨ph, a, clk, led⟩, down, up⟩ := c
    cases ph with
    | launch =>
      obtain rfl := Option.some.inj hm
      rcases tick_cases ⟨.launch, a, clk, led⟩ V.depart .started with ⟨r, hr⟩ | ⟨h1, h2, h3⟩
      · exact hstop r (by rw [hr])
      · refine .advance [] [] hR hL (by rw [h1]; rfl) (by simp) ?_
          (by simp [h2]) ?_
        · simp [upcoming, h1, owed, loops]
        · simp [unposted, h1, dues, loops]
    | started =>
      obtain rfl := Option.some.inj hm
      exact .advance [⟨0, .started⟩] [] hR hL rfl (by simp [shape])
        rfl (by simp [ChildState.goto]) rfl
    | receive =>
      cases down with
      | nil => cases hm
      | cons e es =>
        obtain rfl := Option.some.inj hm
        exact .received V hR hL rfl rfl
    | debit k payload order now =>
      obtain rfl := Option.some.inj hm
      unfold onDebit at hstop ⊢
      split at hstop
      · exact hstop _ rfl
      · exact hstop _ rfl
      · exact .post hR hL k .debit order.amount _ V.depart rfl rfl rfl rfl
    | forward k payload order now =>
      obtain rfl := Option.some.inj hm
      refine .advance [⟨k, .transfer payload⟩] [] hR hL ?_
        (by simp [shape]) ?_ (by simp [ChildState.goto]) ?_ <;>
        by_cases h : order.dst = id <;>
        simp [ChildState.goto, destination, hasExited, upcoming, unposted, owed, dues, loops,
          acks, credits, h]
    | credit k order now =>
      obtain rfl := Option.some.inj hm
      unfold onCredit at hstop ⊢
      split at hstop
      · exact hstop _ rfl
      · exact hstop _ rfl
      · exact .post hR hL k .credit order.amount _ V.depart rfl rfl rfl rfl
    | acknowledge k =>
      obtain rfl := Option.some.inj hm
      exact .advance [⟨k, .ack⟩] [] hR hL rfl (by simp [shape])
        rfl (by simp [ChildState.goto]) rfl
    | done =>
      obtain rfl := Option.some.inj hm
      exact .advance [⟨0, .done⟩] [] hR hL rfl (by simp [shape])
        rfl (by simp [ChildState.goto]) rfl
    | report =>
      obtain rfl := Option.some.inj hm
      refine .stopped [] [] rfl ?_ ?_ (by simp)
      · rw [← hR]
        simp [upcoming, owed, loops, shape]
      · rw [← hL]
        simp [unposted, dues, loops, ChildState.exit]
    | exited r => cases hc

theorem foreseen_childFault (V : Variant κ ρ) {eof broken : IoError} (h : Foreseen id R L c)
    (hm : childFault eof broken (bankingChild V id c.state) c = some c') :
    Foreseen id R L c' := by
  cases h with
  | stopped R' L' hc _ _ _ =>
    unfold bankingChild at hm
    split at hm <;> simp_all [hasExited, childFault]
  | running hc hR hL =>
    have hstop : ∀ r, c' = { c with state := c.state.exit r } → Foreseen id R L c' := by
      rintro r rfl
      exact .stop [] hR hL rfl rfl (by simp [ChildState.exit]) List.nil_prefix
    obtain ⟨sp, ⟨ph, a, clk, led⟩, down, up⟩ := c
    cases ph with
    | receive =>
      cases down with
      | nil => exact hstop _ (Option.some.inj hm).symm
      | cons e es => cases hm
    | started | forward | acknowledge | done | report =>
      exact hstop _ (Option.some.inj hm).symm
    | launch | debit | credit | exited => cases hm

theorem Foreseen.taken {e f : Envelope} {rest : List Envelope} (h : Foreseen id (f::R) L c)
    (hup : c.up = e::rest) : shape e = f ∧ Foreseen id R L { c with up := rest } := by
  cases h with
  | running hc hR hL =>
    rw [hup, List.map_cons, List.cons_append] at hR
    obtain ⟨he, hR⟩ := List.cons.inj hR
    exact ⟨he, .running hc hR hL⟩
  | stopped R' L' hc hR hL hle =>
    rw [hup, List.map_cons, List.cons_append] at hR
    obtain ⟨he, hR⟩ := List.cons.inj hR
    exact ⟨he, .stopped R' L' hc hR hL hle⟩

theorem Foreseen.taken_any {e : Envelope} {rest : List Envelope} (h : Foreseen id R L c)
    (hup : c.up = e::rest) :
    ∃ R₀, R = shape e :: R₀ ∧ Foreseen id R₀ L { c with up := rest } := by
  have hR : ∃ R₀, R = shape e :: R₀ := by
    cases h with
    | running _ hR _ => exact ⟨_, by rw [← hR, hup]; rfl⟩
    | stopped R' _ _ hR _ _ => exact ⟨_, by rw [← hR, hup]; rfl⟩
  obtain ⟨R₀, rfl⟩ := hR
  exact ⟨R₀, rfl, (h.taken hup).2⟩

theorem eq_of_shape {e f : Envelope} (h : shape e = f) (hf : ∀ b, f.msg ≠ .balanceHistory b) :
    e = f := by
  unfold shape at h
  split at h
  · exact absurd rfl (h ▸ hf [])
  · exact h

theorem repliesAll_append (id : AccountId) (es fs : List Envelope) (h : ∀ e ∈ es, e.msg ≠ .stop) :
    repliesAll id (es ++ fs) = repliesAll id es ++ repliesAll id fs := by
  induction es with
  | nil => rfl
  | cons e es ih =>
    have he := h e (by simp)
    rw [List.cons_append, repliesAll_cons id he, repliesAll_cons id he,
      ih fun x hx => h x (by simp [hx]), List.append_assoc]

theorem duesAll_append (id : AccountId) (es fs : List Envelope) (h : ∀ e ∈ es, e.msg ≠ .stop) :
    duesAll id (es ++ fs) = duesAll id es ++ duesAll id fs := by
  induction es with
  | nil => rfl
  | cons e es ih =>
    have he := h e (by simp)
    rw [List.cons_append, duesAll_cons id he, duesAll_cons id he,
      ih fun x hx => h x (by simp [hx]), List.append_assoc]

theorem carriedOrder_transfer (k : ℕ) (o : TransferOrder) :
    carriedOrder ⟨k, .transfer o.toBytes⟩ = some (o.toBytes, o) := by
  simp [carriedOrder, order_fromBytes_toBytes]

theorem repliesAll_order (id : AccountId) (k : ℕ) (o : TransferOrder) :
    repliesAll id [⟨k, .transfer o.toBytes⟩] = forwards id k o.toBytes o ++ acks id k o := by
  simp [repliesAll, repliesTo, carriedOrder_transfer]

theorem duesAll_order (id : AccountId) (k : ℕ) (o : TransferOrder) :
    duesAll id [⟨k, .transfer o.toBytes⟩] = debits id k o ++ credits id k o := by
  simp [duesAll, duesTo, carriedOrder_transfer]

/-- Nothing in the child's queue makes it leave the loop. -/
def Listening (c : ChildCell κ ρ) : Prop :=
  hasExited c.state.phase = false → loops c.state.phase = true ∧ ∀ e ∈ c.down, e.msg ≠ .stop

theorem Foreseen.lost (h : Foreseen id R L c) (hc : hasExited c.state.phase = true)
    (e : Envelope) : Foreseen id (R ++ repliesAll id [e]) (L ++ duesAll id [e]) c := by
  cases h with
  | running hrun _ _ => simp [hc] at hrun
  | stopped R' L' _ hR hL hle =>
    refine .stopped (R' ++ repliesAll id [e]) (L' ++ duesAll id [e]) hc ?_ ?_ ?_
    · rw [← hR, List.append_assoc]
    · rw [← hL, List.append_assoc]
    · have := duesAll_le id [e]
      rw [List.length_append, List.countP_append]
      omega

theorem Foreseen.unread (h : Foreseen id R L c) (hc : hasExited c.state.phase = true)
    (down : List Envelope) : Foreseen id R L { c with down := down } := by
  cases h with
  | running hrun _ _ => simp [hc] at hrun
  | stopped R' L' _ hR hL hle => exact .stopped R' L' hc hR hL hle

theorem Foreseen.given (h : Foreseen id R L c) (hl : Listening c) (e : Envelope) :
    Foreseen id (R ++ repliesAll id [e]) (L ++ duesAll id [e])
      { c with down := c.down ++ [e] } := by
  cases hc : hasExited c.state.phase with
  | true => exact (h.lost hc e).unread hc _
  | false =>
    obtain ⟨hlp, hns⟩ := hl hc
    cases h with
    | stopped R' L' hexit _ _ _ => simp [hc] at hexit
    | running _ hR hL =>
      refine .running hc ?_ ?_
      · rw [← hR]
        simp only [upcoming, hlp, if_true, repliesAll_append id _ _ hns, List.append_assoc]
      · rw [← hL]
        simp only [unposted, hlp, if_true, duesAll_append id _ _ hns, List.append_assoc]

theorem Foreseen.listening (h : Foreseen id [] L c) : Listening c := by
  intro hrun
  cases h with
  | stopped R' L' hc _ _ _ => simp [hrun] at hc
  | running hc hR hL =>
    have hup := (List.append_eq_nil_iff.mp hR).2
    obtain ⟨ho, hq⟩ := List.append_eq_nil_iff.mp hup
    have hlp : loops c.state.phase = true := by
      revert ho hrun
      cases c.state.phase <;> simp [owed, loops, hasExited, closing]
    refine ⟨hlp, ?_⟩
    rw [hlp, if_pos rfl] at hq
    revert hq
    generalize c.down = es
    intro hq
    induction es with
    | nil => simp
    | cons e es ih =>
      unfold repliesAll at hq
      split_ifs at hq with he
      · simp [closing] at hq
      · exact List.forall_mem_cons.mpr ⟨he, ih (List.append_eq_nil_iff.mp hq).2⟩

/-- The ledger lacks at most as many of the foreseen entries as answers to
orders are awaited. -/
theorem Foreseen.ledger (h : Foreseen id R L c) :
    ∃ L', L = entriesIn c.state.ledger ++ L' ∧ L'.length ≤ R.countP answersOrder := by
  cases h with
  | running hc hR hL =>
    refine ⟨_, hL.symm, ?_⟩
    have := unposted_le id c
    rw [← hR, List.countP_append]
    omega
  | stopped R' L' hc hR hL hle =>
    refine ⟨L', hL.symm, ?_⟩
    rw [← hR, List.countP_append]
    omega

theorem Foreseen.settled (h : Foreseen id R L c) (hR : R.countP answersOrder = 0) :
    entriesIn c.state.ledger = L := by
  obtain ⟨L', hL, hle⟩ := h.ledger
  rw [hR, Nat.le_zero, List.length_eq_zero_iff] at hle
  rw [hL, hle, List.append_nil]

end CrabKeeper.ChildForecast
