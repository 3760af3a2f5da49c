import CrabKeeper.BranchThread

/-!
# The relaying parent on arbitrary streams

The parent of the relay does one thing after the other, so all it can make of
its streams is settled by their bytes. It passes on whatever order the source
answers with, and it ends well exactly if each stream, taken alone, holds the
answers that the orders of its account ask for.
-/

set_option autoImplicit false

namespace CrabKeeper.RelayThread
open Foundation.Machine Foundation.Framing Foundation.Network Foundation.Termination
open Foundation.Dialogue
open CrabKeeper.MessageCodec CrabKeeper.ChannelFraming CrabKeeper.BankTypes
open CrabKeeper.BankChild CrabKeeper.RelayParent CrabKeeper.StreamTurns
open CrabKeeper.BranchThread hiding act act_tau act_send act_recv act_lowers

variable {n : ℕ}

def relayParty (n : ℕ) (orders : List TransferOrder) :
    Party (Fin n) Message IoError Panic Relay where
  program p := bare (relayParent orders p)
  abort _ := Relay.panic

section Party

variable {orders : List TransferOrder} {p none next : Relay} {i : Option (Fin n)} {e : Envelope}
  {f : Envelope → Relay}

def Proper (p : Relay) : ParentAction (Fin n) Message IoError Relay → Prop
  | .send _ _ next => ∀ e, (next (.error e)).panicked = true
  | .recv _ next => ∀ e, (next (.error e)).panicked = true
  | .tau _ => True
  | .halt => p.panicked = true ∨ p.pc = .finished
  | _ => False

theorem Proper.talks {a : ParentAction (Fin n) Message IoError Relay} (h : Proper p a) :
    Talks a := by
  cases a with
  | spawn | accept => exact h.elim
  | wait | send | recv | tau | halt => trivial

theorem proper_sendTo : Proper p (bare (sendTo p i none e next)) := by
  cases i with
  | none => trivial
  | some i => exact fun e => rfl

theorem proper_recvFrom : Proper p (bare (recvFrom p i none f)) := by
  cases i with
  | none => trivial
  | some i => exact fun e => rfl

theorem relay_proper (n : ℕ) (orders : List TransferOrder) (p : Relay) :
    Proper p ((relayParty n orders).program p) := by
  obtain ⟨pc, panicked, hs⟩ := p
  cases panicked with
  | true => exact Or.inl rfl
  | false =>
    cases pc with
    | started | forwarded | ack | done | history => exact proper_recvFrom
    | relay | stop => exact proper_sendTo
    | decode => trivial
    | finished => exact Or.inr rfl
    | order k =>
      change Proper _ (bare (relayParent orders ⟨.order k, false, hs⟩))
      cases hk : orders[k]? with
      | none =>
        rw [relayParent_none hk]
        trivial
      | some o =>
        rw [relayParent_some hk, doTransfer]
        split
        · trivial
        · split
          · trivial
          · exact proper_sendTo

theorem relay_strict (n : ℕ) (orders : List TransferOrder) :
    Strict (relayParty n orders) (·.panicked = true) where
  talks p := (relay_proper n orders p).talks
  stops p hp := by
    change bare (relayParent orders p) = .halt
    rw [relayParent, if_pos hp]
    rfl
  abort e p := rfl
  send p i m next ha := by
    have h := relay_proper n orders p
    rwa [ha] at h
  recv p i next ha := by
    have h := relay_proper n orders p
    rwa [ha] at h

def relayWeight (n : ℕ) (orders : List TransferOrder) (p : Relay) : ℕ :=
  if p.panicked then 0 else
  match p.pc with
  | .started j => (n-j)+4*orders.length+4*n+4
  | .order k => 4*(orders.length-k)+4*n+3
  | .forwarded k _ _ => 4*(orders.length-(k+1))+4*n+6
  | .relay k _ _ => 4*(orders.length-(k+1))+4*n+5
  | .ack k _ => 4*(orders.length-(k+1))+4*n+4
  | .stop j => (n-j)+3*n+2
  | .done j => 3*(n-j)+1
  | .history j => max 1 (3*(n-j))
  | .decode j _ => max 2 (3*(n-j)-1)
  | .finished => 0

theorem lowers_sendTo {W : Relay → ℕ} {b : ℕ} (hnone : i = .none → W none < b)
    (hnext : ∀ c, i = some c → W next < b) (hpanic : W p.panic < b) :
    ParentLowers W 0 b (bare (sendTo p i none e next)) := by
  cases i with
  | none => exact hnone rfl
  | some c => exact ⟨hnext c rfl, fun _ => hpanic⟩

theorem lowers_recvFrom {W : Relay → ℕ} {b : ℕ} (hnone : i = .none → W none < b)
    (hnext : ∀ c, i = some c → ∀ e, W (f e) < b) (hpanic : W p.panic < b) :
    ParentLowers W 0 b (bare (recvFrom p i none f)) := by
  cases i with
  | none => exact hnone rfl
  | some c =>
    rintro (err | m)
    · exact hpanic
    · exact hnext c rfl _

theorem weight_panic (n : ℕ) (orders : List TransferOrder) (p : Relay) :
    relayWeight n orders p.panic = 0 := if_pos rfl

theorem index_lt {j : ℕ} {c : Fin n} (h : streamAt n j = some c) : j < n := by
  have := streamAt_eq_some.mp h
  omega

theorem relay_lowers (n : ℕ) (orders : List TransferOrder) (p : Relay) :
    ParentLowers (relayWeight n orders) 0 (relayWeight n orders p)
      ((relayParty n orders).program p) := by
  obtain ⟨pc, panicked, hs⟩ := p
  cases panicked with
  | true => trivial
  | false =>
    cases pc with
    | started j =>
      refine lowers_recvFrom (fun _ => ?_) (fun c hc e => ?_) ?_
      · simp [relayWeight, Relay.goto]
      · have := index_lt hc
        split <;> simp [relayWeight, Relay.goto, Relay.panic]
        omega
      · simp [relayWeight, Relay.panic]
    | order k =>
      change ParentLowers _ 0 _ (bare (relayParent orders ⟨.order k, false, hs⟩))
      cases hk : orders[k]? with
      | none =>
        rw [relayParent_none hk]
        show relayWeight n orders _ < _
        simp [relayWeight, Relay.goto]
        omega
      | some o =>
        have hlt := (List.getElem?_eq_some_iff.mp hk).1
        have hpanic : relayWeight n orders (Relay.panic ⟨.order k, false, hs⟩) <
            relayWeight n orders ⟨.order k, false, hs⟩ := by
          simp [relayWeight, Relay.panic]
        rw [relayParent_some hk, doTransfer]
        split
        · exact hpanic
        · split
          · exact hpanic
          · refine lowers_sendTo (fun _ => hpanic) (fun c _ => ?_) hpanic
            simp [relayWeight, Relay.goto]
            omega
    | forwarded k srcIdx dstIdx =>
      refine lowers_recvFrom (fun _ => ?_) (fun c _ e => ?_) ?_
      · simp [relayWeight, Relay.panic]
      · split <;> simp [relayWeight, Relay.goto, Relay.panic]
      · simp [relayWeight, Relay.panic]
    | relay k dstIdx relayed =>
      refine lowers_sendTo (fun _ => ?_) (fun c _ => ?_) ?_
      · simp [relayWeight, Relay.panic]
      · simp [relayWeight, Relay.goto]
      · simp [relayWeight, Relay.panic]
    | ack k dstIdx =>
      refine lowers_recvFrom (fun _ => ?_) (fun c _ e => ?_) ?_
      · simp [relayWeight, Relay.panic]
      · split <;> simp [relayWeight, Relay.goto, Relay.panic]
      · simp [relayWeight, Relay.panic]
    | stop j =>
      refine lowers_sendTo (fun _ => ?_) (fun c hc => ?_) ?_
      · simp [relayWeight, Relay.goto]
      · have := index_lt hc
        simp [relayWeight, Relay.goto]
        omega
      · simp [relayWeight, Relay.panic]
    | done j =>
      refine lowers_recvFrom (fun _ => ?_) (fun c hc e => ?_) ?_
      · simp [relayWeight, Relay.goto]
      · have := index_lt hc
        split <;> simp [relayWeight, Relay.goto, Relay.panic]
        omega
      · simp [relayWeight, Relay.panic]
    | history j =>
      refine lowers_recvFrom (fun _ => ?_) (fun c hc e => ?_) ?_
      · simp [relayWeight, Relay.panic]
      · have := index_lt hc
        simp [relayWeight, Relay.goto]
        omega
      · simp [relayWeight, Relay.panic]
    | decode j report =>
      show relayWeight n orders (onReport _ j report) < _
      unfold onReport
      split
      · split <;> simp [relayWeight, Relay.panic]
        omega
      · simp [relayWeight, Relay.panic]
    | finished => trivial

/-- The parent gets from `p` to its end, with these turns and histories. -/
def Through (orders : List TransferOrder) (p : Relay) (l : Trace (Fin n) Message)
    (hs : List BalanceHistory) : Prop :=
  Path (relayParty n orders) p l ⟨.finished, false, hs⟩

variable {l : Trace (Fin n) Message} {hs hs' : List BalanceHistory}

theorem finished_halts (hs : List BalanceHistory) :
    (relayParty n orders).program ⟨.finished, false, hs⟩ = .halt := rfl

theorem not_through_panic : ¬ Through orders p.panic l hs := by
  intro h
  obtain ⟨_, hq⟩ := (path_halt_iff ((relay_strict n orders).stops _ rfl)).mp h
  cases congrArg Relay.panicked hq

theorem through_tau {q : Relay} (hp : (relayParty n orders).program p = .tau q) :
    Through orders p l hs ↔ Through orders q l hs := path_tau_iff (finished_halts hs) hp

theorem through_sendTo {c : Fin n} (hc : i = some c)
    (hp : (relayParty n orders).program p = bare (sendTo p i none e next)) :
    Through orders p l hs ↔ ∃ r, l = (c, .sent e.msg)::r ∧ Through orders next r hs := by
  subst hc
  exact path_send_iff (finished_halts hs) hp

theorem through_recvFrom {c : Fin n} (hc : i = some c)
    (hp : (relayParty n orders).program p = bare (recvFrom p i none f)) {C : Message → Prop}
    {g : Message → Relay} (hok : ∀ m, C m → f (arrived m) = g m)
    (hno : ∀ m, ¬ C m → f (arrived m) = p.panic) :
    Through orders p l hs ↔
      ∃ m r, C m ∧ l = (c, .got m)::r ∧ Through orders (g m) r hs := by
  subst hc
  have hiff := path_recv_iff (l := l) (finished_halts hs) hp
  constructor
  · intro h
    obtain ⟨m, r, rfl, hr⟩ := hiff.mp h
    change Through orders (f (arrived m)) r hs at hr
    by_cases hm : C m
    · exact ⟨m, r, hm, rfl, hok m hm ▸ hr⟩
    · rw [hno m hm] at hr
      exact absurd hr not_through_panic
  · rintro ⟨m, r, hm, rfl, hr⟩
    refine hiff.mpr ⟨m, r, rfl, ?_⟩
    change Through orders (f (arrived m)) r hs
    rwa [hok m hm]

def streamsFrom (n j : ℕ) : List (Fin n) := (List.finRange n).drop j

theorem streamsFrom_some {j : ℕ} {c : Fin n} (h : streamAt n j = some c) :
    streamsFrom n j = c :: streamsFrom n (j+1) := by
  obtain rfl := streamAt_eq_some.mp h
  rw [streamsFrom, List.drop_eq_getElem_cons (by simp), List.getElem_finRange]
  rfl

theorem streamsFrom_none {j : ℕ} (h : streamAt n j = .none) : streamsFrom n j = [] :=
  List.drop_eq_nil_of_le (by simpa using streamAt_eq_none.mp h)

/-- The step lemma of a loop over the streams is all its run needs. -/
theorem through_loop {P : ℕ → Trace (Fin n) Message → Prop} {Q : Trace (Fin n) Message → Prop}
    {x : List (Turn Message)} (hnone : ∀ j l, streamAt n j = .none → (P j l ↔ Q l))
    (hsome : ∀ j c l, streamAt n j = some c →
      (P j l ↔ ∃ r, l = x.map (c, ·) ++ r ∧ P (j+1) r)) (j : ℕ) (l : Trace (Fin n) Message) :
    P j l ↔ ∃ r, l = inTurn (fun _ => x) (streamsFrom n j) ++ r ∧ Q r := by
  induction hm : n-j generalizing j l with
  | zero =>
    have hc : streamAt n j = .none := streamAt_eq_none.mpr (by omega)
    rw [hnone j l hc, streamsFrom_none hc]
    simp [inTurn]
  | succ m ih =>
    have hc : streamAt n j = some ⟨j, by omega⟩ := streamAt_eq_some.mpr rfl
    rw [hsome j _ l hc, streamsFrom_some hc]
    simp only [inTurn_cons, List.append_assoc]
    constructor
    · rintro ⟨r, rfl, hr⟩
      obtain ⟨r', rfl, hr'⟩ := (ih (j+1) r (by omega)).mp hr
      exact ⟨r', rfl, hr'⟩
    · rintro ⟨r, rfl, hr⟩
      exact ⟨_, rfl, (ih (j+1) _ (by omega)).mpr ⟨r, rfl, hr⟩⟩

theorem through_started (j : ℕ) (l : Trace (Fin n) Message) :
    Through orders ⟨.started j, false, hs⟩ l hs' ↔
      ∃ r, l = inTurn (fun _ => [.got .started]) (streamsFrom n j) ++ r ∧
        Through orders ⟨.order 0, false, hs⟩ r hs' := by
  refine through_loop (P := fun j l => Through orders ⟨.started j, false, hs⟩ l hs')
    (fun j l hc => through_tau ?_) (fun j c l hc => ?_) j l
  · change bare (recvFrom _ (streamAt n j) _ _) = _
    rw [hc]
    rfl
  · rw [through_recvFrom (p := ⟨.started j, false, hs⟩) hc rfl
      (C := (· = .started)) (g := fun _ => ⟨.started (j+1), false, hs⟩)
      (fun m hm => if_pos hm) fun m hm => if_neg hm]
    simp

theorem through_stop (j : ℕ) (l : Trace (Fin n) Message) :
    Through orders ⟨.stop j, false, hs⟩ l hs' ↔
      ∃ r, l = inTurn (fun _ => [.sent .stop]) (streamsFrom n j) ++ r ∧
        Through orders ⟨.done 0, false, hs⟩ r hs' := by
  refine through_loop (P := fun j l => Through orders ⟨.stop j, false, hs⟩ l hs')
    (fun j l hc => through_tau ?_) (fun j c l hc => ?_) j l
  · change bare (sendTo _ (streamAt n j) _ _ _) = _
    rw [hc]
    rfl
  · exact through_sendTo (p := ⟨.stop j, false, hs⟩) hc rfl

structure Report where
  bytes : List UInt8
  history : BalanceHistory
  decodes : BalanceHistory.fromBytes bytes = .ok (.ok history)

def Report.turns (r : Report) : List (Turn Message) :=
  [.got .done, .got (.balanceHistory r.bytes)]

theorem onReport_cases (p : Relay) (j : ℕ) (m : Message) :
    (∃ x : Report, m = .balanceHistory x.bytes) ∨ onReport p j m = p.panic := by
  unfold onReport
  split
  · next bytes =>
    split
    · next h heq => exact Or.inl ⟨⟨bytes, h, heq⟩, rfl⟩
    · exact Or.inr rfl
  · exact Or.inr rfl

theorem onReport_report (p : Relay) (j : ℕ) (x : Report) :
    onReport p j (.balanceHistory x.bytes) =
      { p with pc := .done (j+1), histories := p.histories ++ [x.history] } := by
  simp only [onReport, x.decodes]

theorem through_done {j : ℕ} {c : Fin n} (hc : streamAt n j = some c) :
    Through orders ⟨.done j, false, hs⟩ l hs' ↔
      ∃ r, l = (c, .got .done)::r ∧ Through orders ⟨.history j, false, hs⟩ r hs' := by
  rw [through_recvFrom (p := ⟨.done j, false, hs⟩) hc rfl
    (C := (· = .done)) (g := fun _ => ⟨.history j, false, hs⟩)
    (fun m hm => if_pos hm) fun m hm => if_neg hm]
  simp

theorem through_history {j : ℕ} {c : Fin n} (hc : streamAt n j = some c) :
    Through orders ⟨.history j, false, hs⟩ l hs' ↔ ∃ (x : Report) (r : Trace (Fin n) Message),
      l = (c, .got (.balanceHistory x.bytes))::r ∧
        Through orders ⟨.done (j+1), false, hs ++ [x.history]⟩ r hs' := by
  have hany : Through orders ⟨.history j, false, hs⟩ l hs' ↔ ∃ m r, True ∧
      l = (c, .got m)::r ∧ Through orders ⟨.decode j m, false, hs⟩ r hs' :=
    through_recvFrom (p := ⟨.history j, false, hs⟩) hc rfl (C := fun _ => True)
      (g := fun m => ⟨.decode j m, false, hs⟩) (fun m _ => rfl) fun m hm => absurd trivial hm
  constructor
  · intro h
    obtain ⟨m, r, _, hl, hr⟩ := hany.mp h
    rw [through_tau (p := ⟨.decode j m, false, hs⟩) rfl] at hr
    rcases onReport_cases ⟨.decode j m, false, hs⟩ j m with ⟨x, rfl⟩ | hpanic
    · rw [onReport_report] at hr
      exact ⟨x, r, hl, hr⟩
    · rw [hpanic] at hr
      exact absurd hr not_through_panic
  · rintro ⟨x, r, hl, hr⟩
    refine hany.mpr ⟨.balanceHistory x.bytes, r, trivial, hl, ?_⟩
    rwa [through_tau (p := ⟨.decode j (.balanceHistory x.bytes), false, hs⟩) rfl, onReport_report]

instance : Inhabited Report where
  default :=
    { bytes := (BalanceHistory.new 0 0).toBytes
      history := BalanceHistory.new 0 0
      decodes := by decide }

theorem through_reports (j : ℕ) (l : Trace (Fin n) Message) (hs : List BalanceHistory) :
    Through orders ⟨.done j, false, hs⟩ l hs' ↔ ∃ R : Fin n → Report,
      l = inTurn (fun i => (R i).turns) (streamsFrom n j) ∧
        hs' = hs ++ (streamsFrom n j).map fun i => (R i).history := by
  induction hm : n-j generalizing j l hs with
  | zero =>
    have hc : streamAt n j = .none := streamAt_eq_none.mpr (by omega)
    have hend : (relayParty n orders).program ⟨.done j, false, hs⟩ =
        .tau ⟨.finished, false, hs⟩ := by
      change bare (recvFrom _ (streamAt n j) _ _) = _
      rw [hc]
      rfl
    rw [through_tau hend, Through, path_halt_iff (finished_halts hs), streamsFrom_none hc]
    constructor
    · rintro ⟨rfl, hq⟩
      exact ⟨fun _ => default, rfl, by simpa using congrArg Relay.histories hq⟩
    · rintro ⟨R, rfl, rfl⟩
      exact ⟨rfl, by simp⟩
  | succ m ih =>
    have hc : streamAt n j = some ⟨j, by omega⟩ := streamAt_eq_some.mpr rfl
    have hnew : (⟨j, by omega⟩ : Fin n) ∉ streamsFrom n (j+1) := by
      have hnd := (List.nodup_finRange n).sublist (List.drop_sublist j _)
      change (streamsFrom n j).Nodup at hnd
      rw [streamsFrom_some hc] at hnd
      exact (List.nodup_cons.mp hnd).1
    rw [through_done hc, streamsFrom_some hc]
    simp only [through_history hc, ih (j+1) _ _ (by omega)]
    constructor
    · rintro ⟨_, rfl, x, _, rfl, R, rfl, rfl⟩
      have hrest : ∀ i ∈ streamsFrom n (j+1),
          Function.update R ⟨j, by omega⟩ x i = R i := fun i hi => by
        rw [Function.update_of_ne]
        rintro rfl
        exact hnew hi
      refine ⟨Function.update R ⟨j, by omega⟩ x, ?_, ?_⟩
      · rw [inTurn_cons, inTurn_congr fun i hi => congrArg Report.turns (hrest i hi),
          Function.update_self]
        rfl
      · rw [List.map_cons, List.map_congr_left fun i hi => congrArg Report.history (hrest i hi),
          Function.update_self]
        simp
    · rintro ⟨R, rfl, rfl⟩
      refine ⟨_, rfl, R ⟨j, by omega⟩, _, rfl, R, rfl, ?_⟩
      simp

/-- An order on its way: the streams of its two accounts, and what the source has
answered, which is what the destination is given. -/
structure Leg (n : ℕ) where
  order : TransferOrder
  src : Fin n
  dst : Fin n
  relayed : List UInt8
  srcId : order.src.toNat = src.val+1
  dstId : order.dst.toNat = dst.val+1

def Leg.trace (g : Leg n) : Trace (Fin n) Message :=
  [(g.src, .sent (.transfer g.order.toBytes)), (g.src, .got (.transfer g.relayed)),
    (g.dst, .sent (.transfer g.relayed)), (g.dst, .got .ack)]

theorem index_some {a : AccountId} {c : Fin n} (h : a.toNat = c.val+1) :
    ∃ idx, subU8 a 1 = .ok idx ∧ streamAt n idx.toNat = some c := by
  have hle : (1 : UInt8) ≤ a := by
    rw [UInt8.le_iff_toNat_le, UInt8.toNat_one]
    omega
  have hsub : subU8 a 1 = .ok (a-1) := if_pos hle
  refine ⟨_, hsub, streamAt_eq_some.mpr ?_⟩
  have := subU8_eq_ok.mp hsub
  rw [UInt8.toNat_one] at this
  omega

theorem index_of_stream {a idx : AccountId} {c : Fin n} (h : subU8 a 1 = .ok idx)
    (hc : streamAt n idx.toNat = some c) : a.toNat = c.val+1 := by
  have := subU8_eq_ok.mp h
  have := streamAt_eq_some.mp hc
  rw [UInt8.toNat_one] at *
  omega

section Order

variable {k : ℕ} {o : TransferOrder} {srcIdx dstIdx : UInt8} {c d : Fin n}

theorem isTransfer_iff {m : Message} : isTransfer m = true ↔ ∃ payload, m = .transfer payload := by
  cases m <;> simp [isTransfer]

theorem through_given (hk : orders[k]? = some o) (hsrc : subU8 o.src 1 = .ok srcIdx)
    (hdst : subU8 o.dst 1 = .ok dstIdx) (hc : streamAt n srcIdx.toNat = some c) :
    Through orders ⟨.order k, false, hs⟩ l hs' ↔
      ∃ (payload : List UInt8) (r : Trace (Fin n) Message),
        l = (c, .sent (.transfer o.toBytes)) :: (c, .got (.transfer payload)) :: r ∧
        Through orders ⟨.relay k dstIdx (arrived (.transfer payload)), false, hs⟩ r hs' := by
  have hprog : (relayParty n orders).program ⟨.order k, false, hs⟩ =
      bare (sendTo ⟨.order k, false, hs⟩ (streamAt n srcIdx.toNat)
        (Relay.panic ⟨.order k, false, hs⟩) ⟨k, .transfer o.toBytes⟩
        ⟨.forwarded k srcIdx dstIdx, false, hs⟩) := by
    change bare (relayParent orders _) = _
    rw [relayParent_some hk, doTransfer, hsrc, hdst]
    rfl
  rw [through_sendTo hc hprog]
  simp only [through_recvFrom (p := ⟨.forwarded k srcIdx dstIdx, false, hs⟩) hc rfl
    (C := fun m => isTransfer m = true)
    (g := fun m => ⟨.relay k dstIdx (arrived m), false, hs⟩)
    (fun m hm => if_pos hm) fun m hm => if_neg hm]
  constructor
  · rintro ⟨_, rfl, m, r, hm, rfl, hr⟩
    obtain ⟨payload, rfl⟩ := isTransfer_iff.mp hm
    exact ⟨payload, r, rfl, hr⟩
  · rintro ⟨payload, r, rfl, hr⟩
    exact ⟨_, rfl, _, r, rfl, rfl, hr⟩

theorem through_relay {payload : List UInt8} (hd : streamAt n dstIdx.toNat = some d) :
    Through orders ⟨.relay k dstIdx (arrived (.transfer payload)), false, hs⟩ l hs' ↔
      ∃ r, l = (d, .sent (.transfer payload)) :: (d, .got .ack) :: r ∧
        Through orders ⟨.order (k+1), false, hs⟩ r hs' := by
  have hprog : (relayParty n orders).program
      ⟨.relay k dstIdx (arrived (.transfer payload)), false, hs⟩ =
        bare (sendTo ⟨.relay k dstIdx (arrived (.transfer payload)), false, hs⟩
          (streamAt n dstIdx.toNat)
          (Relay.panic ⟨.relay k dstIdx (arrived (.transfer payload)), false, hs⟩)
          (arrived (.transfer payload)) ⟨.ack k dstIdx, false, hs⟩) := rfl
  rw [through_sendTo hd hprog]
  simp only [through_recvFrom (p := ⟨.ack k dstIdx, false, hs⟩) hd rfl
    (C := (· = .ack)) (g := fun _ => ⟨.order (k+1), false, hs⟩)
    (fun m hm => if_pos hm) fun m hm => if_neg hm]
  constructor
  · rintro ⟨_, rfl, m, r, rfl, rfl, hr⟩
    exact ⟨r, rfl, hr⟩
  · rintro ⟨r, rfl, hr⟩
    exact ⟨_, rfl, _, r, rfl, rfl, hr⟩

theorem not_through_relay {payload : List UInt8} (hd : streamAt n dstIdx.toNat = .none) :
    ¬ Through orders ⟨.relay k dstIdx (arrived (.transfer payload)), false, hs⟩ l hs' := by
  have hprog : (relayParty n orders).program
      ⟨.relay k dstIdx (arrived (.transfer payload)), false, hs⟩ =
        .tau (Relay.panic ⟨.relay k dstIdx (arrived (.transfer payload)), false, hs⟩) := by
    change bare (sendTo _ (streamAt n dstIdx.toNat) _ _ _) = _
    rw [hd]
    rfl
  rw [through_tau hprog]
  exact not_through_panic

theorem not_through_order (hk : orders[k]? = some o)
    (h : (∃ e, subU8 o.src 1 = .error e) ∨ ∃ idx, subU8 o.src 1 = .ok idx ∧
      ((∃ e, subU8 o.dst 1 = .error e) ∨ streamAt n idx.toNat = .none)) :
    ¬ Through orders ⟨.order k, false, hs⟩ l hs' := by
  have hprog : (relayParty n orders).program ⟨.order k, false, hs⟩ =
      .tau (Relay.panic ⟨.order k, false, hs⟩) := by
    change bare (relayParent orders _) = _
    rw [relayParent_some hk, doTransfer]
    rcases h with ⟨e, he⟩ | ⟨idx, hidx, ⟨e, he⟩ | hnone⟩
    · rw [he]
      rfl
    · rw [hidx, he]
      rfl
    · rw [hidx]
      cases subU8 o.dst 1 with
      | error e => rfl
      | ok dstIdx =>
        dsimp only
        rw [hnone]
        rfl
  rw [through_tau hprog]
  exact not_through_panic

theorem through_order (hk : orders[k]? = some o) :
    Through orders ⟨.order k, false, hs⟩ l hs' ↔
      ∃ (g : Leg n) (r : Trace (Fin n) Message), g.order = o ∧ l = g.trace ++ r ∧
        Through orders ⟨.order (k+1), false, hs⟩ r hs' := by
  constructor
  · intro h
    cases hsrc : subU8 o.src 1 with
    | error e => exact absurd h (not_through_order hk (Or.inl ⟨e, hsrc⟩))
    | ok srcIdx =>
      cases hdst : subU8 o.dst 1 with
      | error e => exact absurd h (not_through_order hk (Or.inr ⟨_, hsrc, Or.inl ⟨e, hdst⟩⟩))
      | ok dstIdx =>
        cases hc : streamAt n srcIdx.toNat with
        | none => exact absurd h (not_through_order hk (Or.inr ⟨_, hsrc, Or.inr hc⟩))
        | some c =>
          obtain ⟨payload, r, rfl, hr⟩ := (through_given hk hsrc hdst hc).mp h
          cases hd : streamAt n dstIdx.toNat with
          | none => exact absurd hr (not_through_relay hd)
          | some d =>
            obtain ⟨rest, rfl, hrest⟩ := (through_relay hd).mp hr
            exact ⟨⟨o, c, d, payload, index_of_stream hsrc hc, index_of_stream hdst hd⟩,
              rest, rfl, rfl, hrest⟩
  · rintro ⟨⟨_, c, d, payload, hsrc, hdst⟩, r, rfl, rfl, hr⟩
    obtain ⟨srcIdx, hsrc, hc⟩ := index_some hsrc
    obtain ⟨dstIdx, hdst, hd⟩ := index_some hdst
    exact (through_given hk hsrc hdst hc).mpr
      ⟨payload, _, rfl, (through_relay hd).mpr ⟨r, rfl, hr⟩⟩

theorem through_orders (k : ℕ) (l : Trace (Fin n) Message) :
    Through orders ⟨.order k, false, hs⟩ l hs' ↔
      ∃ (gs : List (Leg n)) (r : Trace (Fin n) Message), gs.map Leg.order = orders.drop k ∧
        l = gs.flatMap Leg.trace ++ r ∧ Through orders ⟨.stop 0, false, hs⟩ r hs' := by
  induction hm : orders.length-k generalizing k l with
  | zero =>
    have hk : orders[k]? = .none := List.getElem?_eq_none (by omega)
    have hnil : orders.drop k = [] := List.drop_eq_nil_of_le (by omega)
    have hend : (relayParty n orders).program ⟨.order k, false, hs⟩ =
        .tau ⟨.stop 0, false, hs⟩ := congrArg bare (relayParent_none hk)
    rw [through_tau hend, hnil]
    constructor
    · intro h
      exact ⟨[], l, rfl, rfl, h⟩
    · rintro ⟨gs, r, hgs, rfl, hr⟩
      obtain rfl := List.map_eq_nil_iff.mp hgs
      exact hr
  | succ m ih =>
    have hlt : k < orders.length := by omega
    rw [through_order (List.getElem?_eq_getElem hlt), List.drop_eq_getElem_cons hlt]
    simp only [ih (k+1) _ (by omega)]
    constructor
    · rintro ⟨g, _, hg, rfl, gs, r, hgs, rfl, hr⟩
      exact ⟨g::gs, r, by rw [List.map_cons, hg, hgs], by simp, hr⟩
    · rintro ⟨gs, r, hgs, rfl, hr⟩
      obtain ⟨g, gs, rfl, hg, hgs⟩ := List.map_eq_cons_iff.mp hgs
      exact ⟨g, _, hg, by simp, gs, r, hgs, rfl, hr⟩

end Order

/-- The whole of a good run: STARTED from all, the orders, STOP to all, the reports. -/
def script (gs : List (Leg n)) (R : Fin n → Report) : Trace (Fin n) Message :=
  inTurn (fun _ => [.got .started]) (List.finRange n) ++ (gs.flatMap Leg.trace ++
    (inTurn (fun _ => [.sent .stop]) (List.finRange n) ++
      inTurn (fun i => (R i).turns) (List.finRange n)))

theorem through_iff (l : Trace (Fin n) Message) (hs : List BalanceHistory) :
    Through orders ⟨.started 0, false, []⟩ l hs ↔ ∃ (gs : List (Leg n)) (R : Fin n → Report),
      gs.map Leg.order = orders ∧ l = script gs R ∧ hs = List.ofFn fun i => (R i).history := by
  simp only [through_started, through_orders, through_stop, through_reports, List.drop_zero,
    List.nil_append, streamsFrom, ← List.ofFn_eq_map]
  constructor
  · rintro ⟨_, rfl, gs, _, hgs, rfl, _, rfl, R, rfl, rfl⟩
    exact ⟨gs, R, hgs, rfl, rfl⟩
  · rintro ⟨gs, R, hgs, rfl, rfl⟩
    exact ⟨_, rfl, gs, _, hgs, rfl, _, rfl, R, rfl, rfl⟩

end Party

def Leg.turns (i : Fin n) (g : Leg n) : List (Turn Message) :=
  (if g.src = i then [.sent (.transfer g.order.toBytes), .got (.transfer g.relayed)] else []) ++
    if g.dst = i then [.sent (.transfer g.relayed), .got .ack] else []

def laneTurns (gs : List (Leg n)) (R : Fin n → Report) (i : Fin n) : List (Turn Message) :=
  .got .started :: (gs.flatMap (Leg.turns i) ++ .sent .stop :: (R i).turns)

theorem turnsAt_leg (i : Fin n) (g : Leg n) : turnsAt i g.trace = g.turns i := by
  by_cases hs : g.src = i <;> by_cases hd : g.dst = i <;>
    simp [Leg.trace, Leg.turns, turnsAt, hs, hd]

theorem turnsAt_script (gs : List (Leg n)) (R : Fin n → Report) (i : Fin n) :
    turnsAt i (script gs R) = laneTurns gs R i := by
  have hlegs : turnsAt i (gs.flatMap Leg.trace) = gs.flatMap (Leg.turns i) := by
    induction gs with
    | nil => rfl
    | cons g gs ih => rw [List.flatMap_cons, turnsAt_append, turnsAt_leg, ih, List.flatMap_cons]
  have hall := List.mem_finRange i
  rw [script, turnsAt_append, turnsAt_append, turnsAt_append, hlegs]
  simp only [turnsAt_inTurn _ (List.nodup_finRange n), if_pos hall]
  rfl

/-- Each stream holds and takes what the orders ask of it, for some answers of the
sources and some reports that decode. -/
def Cooperative (orders : List TransferOrder) (st : Fin n → TcpStream) : Prop :=
  ∃ (gs : List (Leg n)) (R : Fin n → Report) (t : Fin n → TcpStream),
    gs.map Leg.order = orders ∧ ∀ i, Plays (st i) (laneTurns gs R i) (t i)

inductive Ended (orders : List TransferOrder) (st : Fin n → TcpStream)
    (w : Relay × (Fin n → TcpStream)) : Prop
  | finished (gs : List (Leg n)) (R : Fin n → Report) : gs.map Leg.order = orders →
      w.1 = ⟨.finished, false, List.ofFn fun i => (R i).history⟩ →
      (∀ i, Plays (st i) (laneTurns gs R i) (w.2 i)) → Ended orders st w
  | panicked : w.1.panicked = true → ¬ Cooperative orders st → Ended orders st w

theorem finished_of_halt {orders : List TransferOrder} {p : Relay}
    (h : (relayParty n orders).program p = .halt) (hp : ¬ p.panicked = true) :
    ∃ hs, p = ⟨.finished, false, hs⟩ := by
  have hproper := relay_proper n orders p
  rw [h] at hproper
  obtain ⟨pc, panicked, hs⟩ := p
  obtain rfl : panicked = false := Bool.eq_false_iff.mpr hp
  obtain rfl : pc = .finished := hproper.resolve_left hp
  exact ⟨hs, rfl⟩

def alteredOrder : Fin 2 → TcpStream
  | 0 => ⟨frames frameCode [.started, .transfer (TransferOrder.mk 1 2 99).toBytes, .done,
      .balanceHistory (BalanceHistory.new 1 70).toBytes], [], none⟩
  | 1 => ⟨frames frameCode [.started, .ack, .done,
      .balanceHistory (BalanceHistory.new 2 80).toBytes], [], none⟩

example :
    let w := (act tcp (relayParty 2 oneOrder))^[18] (⟨.started 0, false, []⟩, alteredOrder)
    w.1.pc = .finished ∧ (w.2 1).output =
      frames frameCode [.transfer (TransferOrder.mk 1 2 99).toBytes, .stop] := by
  decide +kernel

end CrabKeeper.RelayThread
