import CrabKeeper.RelayInvariant

/-!
# Orders from an account to itself

A branch that is both the source and the destination of an order handles it
twice, once for each of the parent's sends, and forwards it twice. The parent
reads one forward for each order. The one left over stands before DONE in the
stream of that branch, whatever the branches have to pay.
-/

set_option autoImplicit false

namespace CrabKeeper.SelfOrders
open Foundation.Machine Foundation.DoubleEntry Foundation.Transition Foundation.Network
open CrabKeeper.MessageCodec CrabKeeper.ChannelFraming CrabKeeper.BankTypes
open CrabKeeper.BankAccount CrabKeeper.BankChild CrabKeeper.ChildAccounts CrabKeeper.ChildForecast
open CrabKeeper.RelayParent CrabKeeper.RelayInvariant

variable {κ ρ : Type} {n : ℕ}

/-- A message that branch `id` may send before it is told to stop. It forwards
only orders of which it is the source. -/
def BeforeStop (id : AccountId) (e : Envelope) : Prop :=
  match e.msg with
  | .started | .ack => True
  | .transfer _ => ∃ payload o, carriedOrder e = some (payload,o) ∧ o.src = id
  | _ => False

def forwardsIn (R : List Envelope) : ℕ := R.countP fun e => isTransfer e.msg

def selfOrders (orders : List TransferOrder) (k : ℕ) (i : Fin n) : ℕ :=
  (orders.take k).countP fun o => o.src = childId i ∧ o.dst = childId i

theorem carried_transfer {e : Envelope} {payload : List UInt8} {o : TransferOrder}
    (h : carriedOrder e = some (payload,o)) :
    e.msg = .transfer payload ∧ ∀ k, carriedOrder ⟨k, .transfer payload⟩ = some (payload,o) := by
  unfold carriedOrder at h
  split at h
  · next payload' hm =>
    split at h <;> cases h
    next ho => exact ⟨hm, fun k => by simp [carriedOrder, ho]⟩
  · cases h

theorem beforeStop_repliesTo (id : AccountId) (e : Envelope) :
    ∀ f ∈ repliesTo id e, BeforeStop id f := by
  intro f hf
  unfold repliesTo at hf
  split at hf
  · next payload o ho =>
    unfold forwards acks at hf
    rcases List.mem_append.mp hf with hf | hf <;> split_ifs at hf with h
    · obtain rfl := List.mem_singleton.mp hf
      exact ⟨payload, o, (carried_transfer ho).2 _, h⟩
    · cases hf
    · obtain rfl := List.mem_singleton.mp hf
      trivial
    · cases hf
  · cases hf

theorem forwardsIn_own {id : AccountId} {e : Envelope} {payload : List UInt8} {o : TransferOrder}
    (h : carriedOrder e = some (payload,o)) (hsrc : o.src = id) :
    1 ≤ forwardsIn (repliesTo id e) := by
  simp [repliesTo, h, forwards, hsrc, forwardsIn, isTransfer]

theorem no_stop_of_beforeStop {id : AccountId} {es : List Envelope}
    (h : ∀ f ∈ repliesAll id es, BeforeStop id f) : ∀ e ∈ es, e.msg ≠ .stop := by
  induction es with
  | nil => simp
  | cons e es ih =>
    by_cases he : e.msg = .stop
    · have : BeforeStop id ⟨0, .done⟩ := h _ (by simp [repliesAll, he, closing])
      exact this.elim
    · rw [repliesAll_cons id he, List.forall_mem_append] at h
      exact List.forall_mem_cons.mpr ⟨he, ih h.2⟩

theorem listening_of_beforeStop {id : AccountId} {R : List Envelope} {L : List (Entry ℤ)}
    {c : ChildCell κ ρ} (h : Foreseen id R L c) (hR : ∀ f ∈ R, BeforeStop id f) :
    Listening c := by
  intro hrun
  cases h with
  | stopped R' L' hc _ _ _ => simp [hrun] at hc
  | running _ hup _ =>
    rw [← hup, List.forall_mem_append, upcoming, List.forall_mem_append] at hR
    obtain ⟨_, howed, hdown⟩ := hR
    have hloops : loops c.state.phase = true := by
      revert howed hrun
      cases c.state.phase <;> simp [owed, loops, hasExited, closing, BeforeStop]
    rw [hloops, if_pos rfl] at hdown
    exact ⟨hloops, no_stop_of_beforeStop hdown⟩

/-- Branch `i` has yet to send `m` forwards at least, and has not been told to stop. -/
def Pends (i : Fin n) (m : ℕ) (c : ChildCell κ ρ) : Prop :=
  ∃ R L, Foreseen (childId i) R L c ∧ (∀ f ∈ R, BeforeStop (childId i) f) ∧ m ≤ forwardsIn R

def Told (i : Fin n) (m : ℕ) (c : ChildCell κ ρ) : Prop :=
  ∃ R L, Foreseen (childId i) (R ++ closing) L c ∧ (∀ f ∈ R, BeforeStop (childId i) f) ∧
    m ≤ forwardsIn R

section Cells

variable {i : Fin n} {m : ℕ} {c : ChildCell κ ρ} {e : Envelope} {rest : List Envelope}

theorem Pends.given (h : Pends i m c) (he : e.msg ≠ .stop) :
    Pends i m { c with down := c.down ++ [e] } := by
  obtain ⟨R, L, hf, hR, hm⟩ := h
  have := hf.given (listening_of_beforeStop hf hR) e
  rw [repliesAll_cons _ he, repliesAll, List.append_nil] at this
  refine ⟨_, _, this, ?_, ?_⟩
  · rw [List.forall_mem_append]
    exact ⟨hR, beforeStop_repliesTo _ e⟩
  · rw [forwardsIn, List.countP_append]
    exact Nat.le_add_right_of_le hm

theorem Pends.given_own (h : Pends i m c) {payload : List UInt8} {o : TransferOrder}
    (he : carriedOrder e = some (payload,o)) (hsrc : o.src = childId i) :
    Pends i (m+1) { c with down := c.down ++ [e] } := by
  obtain ⟨R, L, hf, hR, hm⟩ := h
  have hns : e.msg ≠ .stop := by
    rw [(carried_transfer he).1]
    simp
  have := hf.given (listening_of_beforeStop hf hR) e
  rw [repliesAll_cons _ hns, repliesAll, List.append_nil] at this
  refine ⟨_, _, this, ?_, ?_⟩
  · rw [List.forall_mem_append]
    exact ⟨hR, beforeStop_repliesTo _ e⟩
  · rw [forwardsIn, List.countP_append]
    exact Nat.add_le_add hm (forwardsIn_own he hsrc)

theorem Pends.told (h : Pends i m c) : Told i m { c with down := c.down ++ [⟨0, .stop⟩] } := by
  obtain ⟨R, L, hf, hR, hm⟩ := h
  exact ⟨R, _, hf.given (listening_of_beforeStop hf hR) ⟨0, .stop⟩, hR, hm⟩

theorem Pends.mono {m' : ℕ} (h : Pends i m c) (hm : m' ≤ m) : Pends i m' c := by
  obtain ⟨R, L, hf, hR, hle⟩ := h
  exact ⟨R, L, hf, hR, hm.trans hle⟩

theorem Pends.taken (h : Pends i m c) (hup : c.up = e::rest) :
    BeforeStop (childId i) e ∧
      Pends i (m-if isTransfer e.msg then 1 else 0) { c with up := rest } := by
  obtain ⟨R, L, hf, hR, hm⟩ := h
  obtain ⟨R₀, rfl, hf₀⟩ := hf.taken_any hup
  rw [List.forall_mem_cons] at hR
  have hshape : shape e = e := by
    have := hR.1
    unfold shape at this ⊢
    split at this
    · exact this.elim
    · rfl
  rw [hshape] at hR hm
  refine ⟨hR.1, R₀, L, hf₀, hR.2, ?_⟩
  rw [forwardsIn, List.countP_cons] at hm
  exact Nat.sub_le_of_le_add hm

theorem Told.over (h : Told i m c) (hup : c.up = e::rest) (he : e.msg = .done) : m = 0 := by
  obtain ⟨R, L, hf, hR, hm⟩ := h
  obtain ⟨R₀, hhead, _⟩ := hf.taken_any hup
  cases R with
  | nil => exact Nat.le_zero.mp hm
  | cons f R =>
    have hb := hR f (by simp)
    obtain rfl : f = shape e := (List.cons.inj hhead).1
    simp [BeforeStop, shape, he] at hb

end Cells

def Steering (n : ℕ) (orders : List TransferOrder) (p : Relay) : Prop :=
  p.panicked = false →
  match p.pc with
  | .started _ => True
  | .order k => RelayedTo n orders k
  | .forwarded k srcIdx dstIdx => ∃ o, Indexed orders k srcIdx dstIdx o ∧ srcIdx.toNat < n ∧
      RelayedTo n orders k
  | .relay k dstIdx relayed => ∃ srcIdx o, Indexed orders k srcIdx dstIdx o ∧ srcIdx.toNat < n ∧
      RelayedTo n orders k ∧ ∃ payload o', carriedOrder relayed = some (payload,o') ∧ o'.src = o.src
  | .ack k dstIdx => ∃ srcIdx o, Indexed orders k srcIdx dstIdx o ∧ srcIdx.toNat < n ∧
      dstIdx.toNat < n ∧ RelayedTo n orders k
  | .stop _ | .done _ | .history _ | .decode _ _ | .finished => RelayedTo n orders orders.length

/-- The forwards left over at branch `i`, one for each order to itself. -/
def Surplus (orders : List TransferOrder) (p : Relay) (i : Fin n) (c : ChildCell κ ρ) : Prop :=
  p.panicked = false →
  match p.pc with
  | .started _ => Pends i 0 c
  | .order k | .relay k _ _ => Pends i (selfOrders orders k i) c
  | .forwarded k srcIdx _ =>
    Pends i (selfOrders orders k i+if i.val = srcIdx.toNat then 1 else 0) c
  | .ack k _ => Pends i (selfOrders orders (k+1) i) c
  | .stop j =>
    if i.val < j then Told i (selfOrders orders orders.length i) c
    else Pends i (selfOrders orders orders.length i) c
  | .done j =>
    if i.val < j then selfOrders orders orders.length i = 0
    else Told i (selfOrders orders orders.length i) c
  | .history j | .decode j _ =>
    if i.val ≤ j then selfOrders orders orders.length i = 0
    else Told i (selfOrders orders orders.length i) c
  | .finished => selfOrders orders orders.length i = 0

theorem Pends.congr {i : Fin n} {m : ℕ} {c c' : ChildCell κ ρ} (h : Pends i m c)
    (hc : ∀ R L, Foreseen (childId i) R L c → Foreseen (childId i) R L c') : Pends i m c' := by
  obtain ⟨R, L, hf, hrest⟩ := h
  exact ⟨R, L, hc R L hf, hrest⟩

theorem Told.congr {i : Fin n} {m : ℕ} {c c' : ChildCell κ ρ} (h : Told i m c)
    (hc : ∀ R L, Foreseen (childId i) R L c → Foreseen (childId i) R L c') : Told i m c' := by
  obtain ⟨R, L, hf, hrest⟩ := h
  exact ⟨R, L, hc _ L hf, hrest⟩

theorem Surplus.congr {orders : List TransferOrder} {p : Relay} {i : Fin n} {c c' : ChildCell κ ρ}
    (h : Surplus orders p i c)
    (hc : ∀ R L, Foreseen (childId i) R L c → Foreseen (childId i) R L c') :
    Surplus orders p i c' := by
  intro hp
  have := h hp
  revert this
  cases p.pc with
  | started | order | relay | forwarded | ack => exact fun h => h.congr hc
  | stop j =>
    dsimp only
    split_ifs
    · exact fun h => h.congr hc
    · exact fun h => h.congr hc
  | done j | history j | decode j =>
    dsimp only
    split_ifs
    · exact fun h => h
    · exact fun h => h.congr hc
  | finished => exact fun h => h

section Steps

variable {V : Variant κ ρ} {orders : List TransferOrder} {s t : BankNet κ ρ n}

theorem selfOrders_succ {k : ℕ} {o : TransferOrder} (h : orders[k]? = some o) (i : Fin n) :
    selfOrders orders (k+1) i =
      selfOrders orders k i+if o.src = childId i ∧ o.dst = childId i then 1 else 0 := by
  rw [selfOrders, List.take_add_one, h, List.countP_append]
  simp [selfOrders, List.countP_cons]

theorem selfOrders_all {k : ℕ} (h : orders.length ≤ k) (i : Fin n) :
    selfOrders orders k i = selfOrders orders orders.length i := by
  rw [selfOrders, selfOrders, List.take_of_length_le h, List.take_length]

theorem relayedTo_zero (n : ℕ) (orders : List TransferOrder) : RelayedTo n orders 0 := by
  simp [RelayedTo, Within]

theorem relayedTo_all {k : ℕ} (h : orders.length ≤ k) (hto : RelayedTo n orders k) :
    RelayedTo n orders orders.length := by
  have hlen : (transfersOf orders).length = orders.length := List.length_map _
  rw [RelayedTo, List.take_of_length_le (by omega)] at hto ⊢
  exact hto

def Held (n : ℕ) (orders : List TransferOrder) (p : Relay) (cell : Fin n → ChildCell κ ρ) : Prop :=
  Steering n orders p ∧ ∀ i, Surplus orders p i (cell i)

theorem held_panic (p : Relay) (cell : Fin n → ChildCell κ ρ) : Held n orders p.panic cell :=
  ⟨fun h => (by cases h), fun _ h => (by cases h)⟩

theorem held_sendTo {p : Relay} {i : Option (Fin n)} {none next : Relay} {e : Envelope}
    (ha : (relayProtocol n V orders).parent s.parent = sendTo p i none e next)
    (hmove : ParentMove (relayProtocol n V orders) s t)
    (hnone : i = .none → Held n orders none s.cell)
    (hsome : ∀ x, i = some x → Steering n orders next ∧
      Surplus orders next x { s.cell x with down := (s.cell x).down ++ [e] } ∧
      ∀ j, j ≠ x → Surplus orders next j (s.cell j)) : Held n orders t.parent t.cell :=
  sendTo_step V ha hmove (held_panic p s.cell) hnone hsome

theorem held_recvFrom {p : Relay} {i : Option (Fin n)} {none : Relay} {f : Envelope → Relay}
    {Q : Envelope → Prop} [DecidablePred Q]
    (ha : (relayProtocol n V orders).parent s.parent =
      recvFrom p i none fun e => if Q e then f e else p.panic)
    (hmove : ParentMove (relayProtocol n V orders) s t)
    (hnone : i = .none → Held n orders none s.cell)
    (hsome : ∀ x e rest, i = some x → (s.cell x).up = e::rest → Q e → Steering n orders (f e) ∧
      Surplus orders (f e) x { s.cell x with up := rest } ∧
      ∀ j, j ≠ x → Surplus orders (f e) j (s.cell j)) : Held n orders t.parent t.cell := by
  refine recvFrom_step V ha hmove (held_panic p s.cell) hnone fun x e rest hx hup => ?_
  split_ifs with hq
  · exact hsome x e rest hx hup hq
  · exact ⟨fun h => (by cases h), fun h => (by cases h), fun j _ h => (by cases h)⟩

theorem held_started {j : ℕ} {hs : List BalanceHistory} (hp : s.parent = ⟨.started j, false, hs⟩)
    (h : Held n orders s.parent s.cell) (hmove : ParentMove (relayProtocol n V orders) s t) :
    Held n orders t.parent t.cell := by
  rw [hp] at h
  have ha : (relayProtocol n V orders).parent s.parent =
      expectStartedAll ⟨.started j, false, hs⟩ j := by
    rw [hp]
    rfl
  have hcells : ∀ i, Pends i 0 (s.cell i) := fun i => h.2 i rfl
  refine held_recvFrom (f := fun _ => _) ha hmove (fun _ => ?_) fun x e rest _ hup _ => ?_
  · exact ⟨fun _ => relayedTo_zero n orders, fun i _ => hcells i⟩
  · exact ⟨fun _ => trivial, fun _ => ((hcells x).taken hup).2.mono (Nat.zero_le _),
      fun i _ _ => hcells i⟩

theorem held_order {k : ℕ} {hs : List BalanceHistory} (hp : s.parent = ⟨.order k, false, hs⟩)
    (h : Held n orders s.parent s.cell) (hmove : ParentMove (relayProtocol n V orders) s t) :
    Held n orders t.parent t.cell := by
  rw [hp] at h
  have hto : RelayedTo n orders k := h.1 rfl
  have hcells : ∀ i, Pends i (selfOrders orders k i) (s.cell i) := fun i => h.2 i rfl
  cases hk : orders[k]? with
  | none =>
    have ha : (relayProtocol n V orders).parent s.parent =
        .tau (Relay.goto ⟨.order k, false, hs⟩ (.stop 0)) := by
      rw [hp]
      exact relayParent_none hk
    have hlen : orders.length ≤ k := List.getElem?_eq_none_iff.mp hk
    refine tau_rule (I := Steering n orders) (J := Surplus orders) _ ha
      (fun _ => relayedTo_all hlen hto) (fun i _ => ?_) hmove
    show Pends i (selfOrders orders orders.length i) (s.cell i)
    rw [← selfOrders_all hlen]
    exact hcells i
  | some o =>
    have ha : (relayProtocol n V orders).parent s.parent =
        doTransfer ⟨.order k, false, hs⟩ k o := by
      rw [hp]
      exact relayParent_some hk
    unfold doTransfer at ha
    cases hsrc : subU8 o.src 1 with
    | error e =>
      rw [hsrc] at ha
      exact tau_rule _ ha (held_panic _ s.cell).1 (held_panic _ s.cell).2 hmove
    | ok srcIdx =>
      cases hdst : subU8 o.dst 1 with
      | error e =>
        rw [hsrc, hdst] at ha
        exact tau_rule _ ha (held_panic _ s.cell).1 (held_panic _ s.cell).2 hmove
      | ok dstIdx =>
        rw [hsrc, hdst] at ha
        refine held_sendTo ha hmove (fun _ => held_panic _ _) fun x hx => ?_
        have hxs := streamAt_eq_some.mp hx
        have hid : childId x = o.src := childId_of_index hsrc hxs
        refine ⟨fun _ => ⟨o, ⟨hk, hsrc, hdst⟩, by omega, hto⟩, fun _ => ?_, fun i hi _ => ?_⟩
        · have := (hcells x).given_own (carriedOrder_transfer k o) hid.symm
          simpa [Relay.goto, hxs] using this
        · have hival : i.val ≠ srcIdx.toNat := by
            rw [← hxs]
            exact Fin.val_ne_of_ne hi
          simpa [Relay.goto, hival] using hcells i

theorem held_forwarded {k : ℕ} {srcIdx dstIdx : UInt8} {hs : List BalanceHistory}
    (hp : s.parent = ⟨.forwarded k srcIdx dstIdx, false, hs⟩)
    (h : Held n orders s.parent s.cell) (hmove : ParentMove (relayProtocol n V orders) s t) :
    Held n orders t.parent t.cell := by
  rw [hp] at h
  obtain ⟨o, hix, hlt, hto⟩ := h.1 rfl
  have hcells : ∀ i : Fin n, Pends i (selfOrders orders k i+if i.val = srcIdx.toNat then 1 else 0)
      (s.cell i) := fun i => h.2 i rfl
  have ha : (relayProtocol n V orders).parent s.parent =
      awaitForward ⟨.forwarded k srcIdx dstIdx, false, hs⟩ k srcIdx dstIdx := by
    rw [hp]
    rfl
  refine held_recvFrom ha hmove (fun _ => held_panic _ _) fun x e rest hx hup he => ?_
  have hxs := streamAt_eq_some.mp hx
  have hid : childId x = o.src := childId_of_index hix.src hxs
  obtain ⟨hb, hrest⟩ := (hcells x).taken hup
  refine ⟨fun _ => ⟨srcIdx, o, hix, hlt, hto, ?_⟩, fun _ => ?_, fun i hi _ => ?_⟩
  · unfold BeforeStop at hb
    split at hb
    · next hm => simp [isTransfer, hm] at he
    · next hm => simp [isTransfer, hm] at he
    · exact hid ▸ hb
    · exact hb.elim
  · apply hrest.mono
    simp [hxs, he]
  · apply (hcells i).mono
    exact Nat.le_add_right _ _

theorem held_relay (hn : n ≤ 255) {k : ℕ} {dstIdx : UInt8} {relayed : Envelope}
    {hs : List BalanceHistory} (hp : s.parent = ⟨.relay k dstIdx relayed, false, hs⟩)
    (h : Held n orders s.parent s.cell) (hmove : ParentMove (relayProtocol n V orders) s t) :
    Held n orders t.parent t.cell := by
  rw [hp] at h
  obtain ⟨srcIdx, o, hix, hlt, hto, payload, o', hcar, hsame⟩ := h.1 rfl
  have hcells : ∀ i, Pends i (selfOrders orders k i) (s.cell i) := fun i => h.2 i rfl
  have ha : (relayProtocol n V orders).parent s.parent =
      relayOn ⟨.relay k dstIdx relayed, false, hs⟩ k dstIdx relayed := by
    rw [hp]
    rfl
  refine held_sendTo ha hmove (fun _ => held_panic _ _) fun x hx => ?_
  have hxd := streamAt_eq_some.mp hx
  have hid : childId x = o.dst := childId_of_index hix.dst hxd
  refine ⟨fun _ => ⟨srcIdx, o, hix, hlt, by omega, hto⟩, fun _ => ?_, fun i hi _ => ?_⟩
  · show Pends x (selfOrders orders (k+1) x) _
    rw [selfOrders_succ hix.order]
    split_ifs with hself
    · exact (hcells x).given_own hcar (hsame.trans hself.1)
    · apply (hcells x).given
      rw [(carried_transfer hcar).1]
      simp
  · have hother : ¬ (o.src = childId i ∧ o.dst = childId i) := by
      rintro ⟨_, hdst⟩
      exact hi (childId_injective hn (hdst.symm.trans hid.symm))
    show Pends i (selfOrders orders (k+1) i) _
    rw [selfOrders_succ hix.order, if_neg hother]
    exact hcells i

theorem held_ack {k : ℕ} {dstIdx : UInt8} {hs : List BalanceHistory}
    (hp : s.parent = ⟨.ack k dstIdx, false, hs⟩)
    (h : Held n orders s.parent s.cell) (hmove : ParentMove (relayProtocol n V orders) s t) :
    Held n orders t.parent t.cell := by
  rw [hp] at h
  obtain ⟨srcIdx, o, hix, hlts, hltd, hto⟩ := h.1 rfl
  have hcells : ∀ i, Pends i (selfOrders orders (k+1) i) (s.cell i) := fun i => h.2 i rfl
  have ha : (relayProtocol n V orders).parent s.parent =
      awaitAck ⟨.ack k dstIdx, false, hs⟩ k dstIdx := by
    rw [hp]
    rfl
  have hsucc : RelayedTo n orders (k+1) :=
    relayedTo_succ hix.order hto (childId_of_index (i := ⟨_, hlts⟩) hix.src rfl)
      (childId_of_index (i := ⟨_, hltd⟩) hix.dst rfl)
  refine held_recvFrom (f := fun _ => _) ha hmove (fun _ => held_panic _ _)
    fun x e rest _ hup he => ⟨fun _ => hsucc, fun _ => ?_, fun i _ _ => hcells i⟩
  have := ((hcells x).taken hup).2
  rwa [he] at this

theorem held_stop {j : ℕ} {hs : List BalanceHistory} (hp : s.parent = ⟨.stop j, false, hs⟩)
    (h : Held n orders s.parent s.cell) (hmove : ParentMove (relayProtocol n V orders) s t) :
    Held n orders t.parent t.cell := by
  rw [hp] at h
  have hto : RelayedTo n orders orders.length := h.1 rfl
  have hcells : ∀ i : Fin n, if i.val < j then Told i (selfOrders orders orders.length i) (s.cell i)
      else Pends i (selfOrders orders orders.length i) (s.cell i) := fun i => h.2 i rfl
  have ha : (relayProtocol n V orders).parent s.parent = sendStopAll ⟨.stop j, false, hs⟩ j := by
    rw [hp]
    rfl
  refine held_sendTo ha hmove (fun hnone => ?_) fun x hx => ?_
  · have hj := streamAt_eq_none.mp hnone
    refine ⟨fun _ => hto, fun i _ => ?_⟩
    have := hcells i
    rw [if_pos (by omega)] at this
    simpa [Relay.goto] using this
  · obtain rfl := streamAt_eq_some.mp hx
    refine ⟨fun _ => hto, fun _ => ?_, fun i hi _ => ?_⟩
    · have := hcells x
      rw [if_neg (lt_irrefl _)] at this
      simpa [Relay.goto] using this.told
    · have hlt : i.val < x.val+1 ↔ i.val < x.val := by
        have := Fin.val_ne_of_ne hi
        omega
      simpa [Relay.goto, hlt] using hcells i

theorem held_done {j : ℕ} {hs : List BalanceHistory} (hp : s.parent = ⟨.done j, false, hs⟩)
    (h : Held n orders s.parent s.cell) (hmove : ParentMove (relayProtocol n V orders) s t) :
    Held n orders t.parent t.cell := by
  rw [hp] at h
  have hto : RelayedTo n orders orders.length := h.1 rfl
  have hcells : ∀ i : Fin n, if i.val < j then selfOrders orders orders.length i = 0
      else Told i (selfOrders orders orders.length i) (s.cell i) := fun i => h.2 i rfl
  have ha : (relayProtocol n V orders).parent s.parent = awaitDone ⟨.done j, false, hs⟩ j := by
    rw [hp]
    rfl
  refine held_recvFrom (f := fun _ => _) ha hmove (fun hnone => ?_) fun x e rest hx hup he => ?_
  · have hj := streamAt_eq_none.mp hnone
    refine ⟨fun _ => hto, fun i _ => ?_⟩
    have := hcells i
    rwa [if_pos (by omega)] at this
  · obtain rfl := streamAt_eq_some.mp hx
    refine ⟨fun _ => hto, fun _ => ?_, fun i hi _ => ?_⟩
    · have := hcells x
      rw [if_neg (lt_irrefl _)] at this
      simpa [Relay.goto] using this.over hup he
    · have hle : i.val ≤ x.val ↔ i.val < x.val := by
        have := Fin.val_ne_of_ne hi
        omega
      simpa [Relay.goto, hle] using hcells i

theorem held_history {j : ℕ} {hs : List BalanceHistory} (hp : s.parent = ⟨.history j, false, hs⟩)
    (h : Held n orders s.parent s.cell) (hmove : ParentMove (relayProtocol n V orders) s t) :
    Held n orders t.parent t.cell := by
  rw [hp] at h
  have hto : RelayedTo n orders orders.length := h.1 rfl
  have hcells : ∀ i : Fin n, if i.val ≤ j then selfOrders orders orders.length i = 0
      else Told i (selfOrders orders orders.length i) (s.cell i) := fun i => h.2 i rfl
  have ha : (relayProtocol n V orders).parent s.parent =
      awaitReport ⟨.history j, false, hs⟩ j := by
    rw [hp]
    rfl
  refine recvFrom_step V ha hmove (held_panic _ s.cell) (fun _ => held_panic _ s.cell)
    fun x e rest hx hup => ?_
  obtain rfl := streamAt_eq_some.mp hx
  refine ⟨fun _ => hto, fun _ => ?_, fun i _ _ => hcells i⟩
  have := hcells x
  rw [if_pos le_rfl] at this
  simpa [Relay.goto] using this

theorem held_decode {j : ℕ} {report : Message} {hs : List BalanceHistory}
    (hp : s.parent = ⟨.decode j report, false, hs⟩)
    (h : Held n orders s.parent s.cell) (hmove : ParentMove (relayProtocol n V orders) s t) :
    Held n orders t.parent t.cell := by
  rw [hp] at h
  have hto : RelayedTo n orders orders.length := h.1 rfl
  have hcells : ∀ i : Fin n, if i.val ≤ j then selfOrders orders orders.length i = 0
      else Told i (selfOrders orders orders.length i) (s.cell i) := fun i => h.2 i rfl
  have ha : (relayProtocol n V orders).parent s.parent =
      .tau (onReport ⟨.decode j report, false, hs⟩ j report) := by
    rw [hp]
    rfl
  have hnext : Held n orders (onReport ⟨.decode j report, false, hs⟩ j report) s.cell := by
    unfold onReport
    split
    · split
      · refine ⟨fun _ => hto, fun i _ => ?_⟩
        simpa [Nat.lt_succ_iff] using hcells i
      · exact held_panic _ _
    · exact held_panic _ _
  exact tau_rule _ ha hnext.1 hnext.2 hmove

/-- The step lemma of the parent, one case for each point of its program. -/
theorem held_parent (hn : n ≤ 255) (h : Held n orders s.parent s.cell)
    (hmove : ParentMove (relayProtocol n V orders) s t) : Held n orders t.parent t.cell := by
  cases hp : s.parent with
  | mk pc panicked hs =>
    cases panicked with
    | true => exact absurd hmove (halt_rule _ (by rw [hp]; rfl))
    | false =>
      cases pc with
      | started j => exact held_started hp h hmove
      | order k => exact held_order hp h hmove
      | forwarded k srcIdx dstIdx => exact held_forwarded hp h hmove
      | relay k dstIdx relayed => exact held_relay hn hp h hmove
      | ack k dstIdx => exact held_ack hp h hmove
      | stop j => exact held_stop hp h hmove
      | done j => exact held_done hp h hmove
      | history j => exact held_history hp h hmove
      | decode j report => exact held_decode hp h hmove
      | finished => exact absurd hmove (halt_rule _ (by rw [hp]; rfl))

end Steps

/-- The run lemma: what an order to itself has left over stays where it is. -/
theorem reachable_held (V : Variant κ ρ) (hn : n ≤ 255) (b : Fin n → Balance)
    {orders : List TransferOrder} {s : BankNet κ ρ n}
    (hs : Reachable (relaySystem V b orders) s) : Held n orders s.parent s.cell := by
  refine cellwise_invariant (relayProtocol n V orders) (Steering n orders) (Surplus orders)
    ?_ ?_ ?_ ?_ hs
  · rintro s rfl
    refine ⟨fun _ => trivial, fun i _ => ⟨[⟨0, .started⟩], [], .running rfl rfl rfl, ?_, ?_⟩⟩
    · simp [BeforeStop]
    · exact Nat.zero_le _
  · exact fun s i c _ h hm => h.congr fun _ _ hf => foreseen_child V hf hm
  · exact fun s i c _ _ h _ hm => h.congr fun _ _ hf => foreseen_childFault V hf hm
  · exact fun s t _ hp hi hm => held_parent hn ⟨hp, hi⟩ hm

/-- A relay that has run to its end had no order from an account to itself, and
none from or to an account that no branch has: whatever the branches pay, at
whatever speed, one such order keeps the parent from finishing. -/
theorem finished_orders (V : Variant κ ρ) (hn : n ≤ 255) (b : Fin n → Balance)
    {orders : List TransferOrder} {s : BankNet κ ρ n}
    (hs : Reachable (relaySystem V b orders) s) (hpc : s.parent.pc = .finished)
    (hok : s.parent.panicked = false) :
    ∀ o ∈ orders, o.src ≠ o.dst ∧ ∃ i j : Fin n, childId i = o.src ∧ childId j = o.dst := by
  obtain ⟨hsteer, hcells⟩ := reachable_held V hn b hs
  have hto := hsteer hok
  have hself : ∀ i : Fin n, selfOrders orders orders.length i = 0 := fun i => by
    have := hcells i hok
    rw [hpc] at this
    exact this
  rw [hpc] at hto
  intro o ho
  obtain ⟨⟨i, hi⟩, j, hj⟩ := hto (asTransfer o) (by
    rw [List.take_of_length_le (by simp [transfersOf])]
    exact List.mem_map_of_mem ho)
  refine ⟨fun heq => ?_, i, j, hi, hj⟩
  have hnone := List.countP_eq_zero.mp (hself i) o (by rwa [List.take_length])
  simp [hi, ← heq, asTransfer] at hnone

theorem finished_orders_one_order :
    ∃ s, Reachable (relaySystem simulateBankingChild twoBalances oneOrder) s ∧
      s.parent.pc = .finished ∧ ∀ o ∈ oneOrder,
        o.src ≠ o.dst ∧ ∃ i j : Fin 2, childId i = o.src ∧ childId j = o.dst := by
  have hplay : (play (relayProtocol 2 simulateBankingChild oneOrder).fire completeRun
      (relayStart simulateBankingChild twoBalances)).map
        (fun s => (s.parent.pc, s.parent.panicked)) = some (.finished, false) := by
    decide
  obtain ⟨s, l, hrun, hend⟩ := relay_play completeRun _ hplay
  obtain ⟨hpc, hok⟩ := Prod.mk.inj hend
  have hs := reachable_of_run hrun s (by simp)
  exact ⟨s, hs, hpc, finished_orders simulateBankingChild (by decide) twoBalances hs hpc hok⟩

end CrabKeeper.SelfOrders
