import CrabKeeper.RelayParent

/-!
# The relay invariant

At every point of the parent's program each child's forecasts are known: which
messages the parent still has to hear from it, and which entries its ledger will
hold once it has sent them. A panicked parent keeps the point where it panicked,
since its children go on with what they were sent.
-/

set_option autoImplicit false

namespace CrabKeeper.RelayInvariant
open Foundation.Machine Foundation.DoubleEntry Foundation.Transition Foundation.Network
open CrabKeeper.MessageCodec CrabKeeper.ChannelFraming CrabKeeper.BankTypes
open CrabKeeper.BankAccount CrabKeeper.BankChild CrabKeeper.ChildAccounts CrabKeeper.ChildForecast
open CrabKeeper.RelayParent

variable {κ ρ : Type} {n : ℕ}

def transfersOf (orders : List TransferOrder) : List (Transfer AccountId ℤ) :=
  orders.map asTransfer

def entriesUpTo (orders : List TransferOrder) (k : ℕ) (i : Fin n) : List (Entry ℤ) :=
  entries (childId i) 0 ((transfersOf orders).take k)

def debitOf (orders : List TransferOrder) (k : ℕ) (i : Fin n) : List (Entry ℤ) :=
  match orders[k]? with
  | some o => debits (childId i) k o
  | none => []

/-- What the parent still has to hear from child `i`. -/
def awaited (orders : List TransferOrder) (pc : RelayPc) (i : Fin n) : List Envelope :=
  match pc with
  | .started j => if i.val < j then [] else [⟨0, .started⟩]
  | .forwarded k srcIdx _ =>
    match orders[k]? with
    | some o => if i.val = srcIdx.toNat then [⟨k, .transfer o.toBytes⟩] else []
    | none => []
  | .ack k dstIdx => if i.val = dstIdx.toNat then [⟨k, .ack⟩] else []
  | .stop j => if i.val < j then closing else []
  | .done j => if i.val < j then [] else closing
  | .history j =>
    if i.val < j then [] else if i.val = j then [⟨0, .balanceHistory []⟩] else closing
  | .decode j _ => if i.val ≤ j then [] else closing
  | .order _ | .relay _ _ _ | .finished => []

/-- What the ledger of child `i` will hold once it has answered. -/
def booked (orders : List TransferOrder) (pc : RelayPc) (i : Fin n) : List (Entry ℤ) :=
  match pc with
  | .started _ => []
  | .order k => entriesUpTo orders k i
  | .forwarded k _ _ | .relay k _ _ => entriesUpTo orders k i ++ debitOf orders k i
  | .ack k _ => entriesUpTo orders (k+1) i
  | .stop _ | .done _ | .history _ | .decode _ _ | .finished => entriesUpTo orders orders.length i

structure Indexed (orders : List TransferOrder) (k : ℕ) (srcIdx dstIdx : UInt8)
    (o : TransferOrder) : Prop where
  order : orders[k]? = some o
  src : subU8 o.src 1 = .ok srcIdx
  dst : subU8 o.dst 1 = .ok dstIdx

def RelayedTo (n : ℕ) (orders : List TransferOrder) (k : ℕ) : Prop :=
  Within (childId (n := n)) ((transfersOf orders).take k)

/-- What the parent's own state says of the orders it has run. -/
def Relaying (n : ℕ) (orders : List TransferOrder) (p : Relay) : Prop :=
  match p.pc with
  | .started _ => p.histories = []
  | .order k => RelayedTo n orders k ∧ p.histories = []
  | .forwarded k srcIdx dstIdx => ∃ o, Indexed orders k srcIdx dstIdx o ∧ srcIdx.toNat < n ∧
      RelayedTo n orders k ∧ p.histories = []
  | .relay k dstIdx relayed => ∃ srcIdx o, Indexed orders k srcIdx dstIdx o ∧ srcIdx.toNat < n ∧
      relayed = ⟨k, .transfer o.toBytes⟩ ∧ RelayedTo n orders k ∧ p.histories = []
  | .ack k dstIdx => ∃ srcIdx o, Indexed orders k srcIdx dstIdx o ∧ srcIdx.toNat < n ∧
      dstIdx.toNat < n ∧ RelayedTo n orders k ∧ p.histories = []
  | .stop _ => RelayedTo n orders orders.length ∧ p.histories = []
  | .done j => RelayedTo n orders orders.length ∧ p.histories.length = j ∧ j ≤ n
  | .history j | .decode j _ => RelayedTo n orders orders.length ∧ p.histories.length = j ∧ j < n
  | .finished => RelayedTo n orders orders.length ∧ p.histories.length = n

def Forecast (orders : List TransferOrder) (p : Relay) (i : Fin n) (c : ChildCell κ ρ) : Prop :=
  Foreseen (childId i) (awaited orders p.pc i) (booked orders p.pc i) c

def Good (orders : List TransferOrder) (p : Relay) (cell : Fin n → ChildCell κ ρ) : Prop :=
  Relaying n orders p ∧ ∀ i, Forecast orders p i (cell i)

variable {orders : List TransferOrder} {p : Relay} {cell : Fin n → ChildCell κ ρ}

theorem Good.panic (h : Good orders p cell) : Good orders p.panic cell := h

theorem entriesUpTo_succ {k : ℕ} {o : TransferOrder} (h : orders[k]? = some o) (i : Fin n) :
    entriesUpTo orders (k+1) i =
      entriesUpTo orders k i ++ (debits (childId i) k o ++ credits (childId i) k o) := by
  have ht : (transfersOf orders)[k]? = some (asTransfer o) := by
    simp [transfersOf, h]
  rw [entriesUpTo, entries_take_succ _ ht]
  rfl

theorem relayedTo_succ {k : ℕ} {o : TransferOrder} (h : orders[k]? = some o)
    (hk : RelayedTo n orders k) {i j : Fin n} (hi : childId i = o.src) (hj : childId j = o.dst) :
    RelayedTo n orders (k+1) := by
  have ht : (transfersOf orders)[k]? = some (asTransfer o) := by
    simp [transfersOf, h]
  intro t hmem
  rw [List.take_add_one, ht] at hmem
  rcases List.mem_append.mp hmem with hmem | hmem
  · exact hk t hmem
  · obtain rfl : t = asTransfer o := by simpa using hmem
    exact ⟨⟨i, hi⟩, ⟨j, hj⟩⟩

section Rules

variable (V : Variant κ ρ) {s t : BankNet κ ρ n} {I : Relay → Prop}
  {J : Relay → Fin n → ChildCell κ ρ → Prop}

theorem sendTo_step {i : Option (Fin n)} {none next : Relay} {e : Envelope}
    (ha : (relayProtocol n V orders).parent s.parent = sendTo p i none e next)
    (hmove : ParentMove (relayProtocol n V orders) s t)
    (hpanic : I p.panic ∧ ∀ j, J p.panic j (s.cell j))
    (hnone : i = .none → I none ∧ ∀ j, J none j (s.cell j))
    (hsome : ∀ x, i = some x → I next ∧
      J next x { s.cell x with down := (s.cell x).down ++ [e] } ∧
      ∀ j, j ≠ x → J next j (s.cell j)) : I t.parent ∧ ∀ j, J t.parent j (t.cell j) := by
  cases i with
  | none => exact tau_rule _ ha (hnone rfl).1 (hnone rfl).2 hmove
  | some x =>
    obtain ⟨h1, h2, h3⟩ := hsome x rfl
    exact send_rule _ ha h1 h2 h3 (fun _ => hpanic) hmove

theorem recvFrom_step {i : Option (Fin n)} {none : Relay} {next : Envelope → Relay}
    (ha : (relayProtocol n V orders).parent s.parent = recvFrom p i none next)
    (hmove : ParentMove (relayProtocol n V orders) s t)
    (hpanic : I p.panic ∧ ∀ j, J p.panic j (s.cell j))
    (hnone : i = .none → I none ∧ ∀ j, J none j (s.cell j))
    (hsome : ∀ x e rest, i = some x → (s.cell x).up = e::rest → I (next e) ∧
      J (next e) x { s.cell x with up := rest } ∧
      ∀ j, j ≠ x → J (next e) j (s.cell j)) : I t.parent ∧ ∀ j, J t.parent j (t.cell j) := by
  cases i with
  | none => exact tau_rule _ ha (hnone rfl).1 (hnone rfl).2 hmove
  | some x =>
    exact recv_rule _ ha (fun e rest hup => hsome x e rest rfl hup) (fun _ _ => hpanic) hmove

end Rules

section Steps

variable {V : Variant κ ρ} {s t : BankNet κ ρ n}

theorem good_sendTo {i : Option (Fin n)} {none next : Relay} {e : Envelope}
    (ha : (relayProtocol n V orders).parent s.parent = sendTo p i none e next)
    (hmove : ParentMove (relayProtocol n V orders) s t) (hgood : Good orders p s.cell)
    (hnone : i = .none → Good orders none s.cell)
    (hsome : ∀ x, i = some x → Relaying n orders next ∧
      Forecast orders next x { s.cell x with down := (s.cell x).down ++ [e] } ∧
      ∀ j, j ≠ x → Forecast orders next j (s.cell j)) : Good orders t.parent t.cell :=
  sendTo_step V ha hmove hgood.panic hnone hsome

theorem good_recvFrom {i : Option (Fin n)} {none : Relay} {next : Envelope → Relay}
    (ha : (relayProtocol n V orders).parent s.parent = recvFrom p i none next)
    (hmove : ParentMove (relayProtocol n V orders) s t) (hgood : Good orders p s.cell)
    (hnone : i = .none → Good orders none s.cell)
    (hsome : ∀ x e rest, i = some x → (s.cell x).up = e::rest → Relaying n orders (next e) ∧
      Forecast orders (next e) x { s.cell x with up := rest } ∧
      ∀ j, j ≠ x → Forecast orders (next e) j (s.cell j)) : Good orders t.parent t.cell :=
  recvFrom_step V ha hmove hgood.panic hnone hsome

theorem step_started {j : ℕ} {hs : List BalanceHistory} (hp : s.parent = ⟨.started j, false, hs⟩)
    (h : Good orders s.parent s.cell) (hmove : ParentMove (relayProtocol n V orders) s t) :
    Good orders t.parent t.cell := by
  rw [hp] at h
  obtain ⟨hrel, hcells⟩ := h
  have ha : (relayProtocol n V orders).parent s.parent =
      expectStartedAll ⟨.started j, false, hs⟩ j := by
    rw [hp]
    rfl
  refine good_recvFrom ha hmove ⟨hrel, hcells⟩ ?_ ?_
  · intro hnone
    have hj := streamAt_eq_none.mp hnone
    refine ⟨⟨by simp [RelayedTo, Within], hrel⟩, fun i => ?_⟩
    have hi : i.val < j := by omega
    simpa [Forecast, Relay.goto, awaited, booked, hi, entriesUpTo, entries] using hcells i
  · intro x e rest hx hup
    obtain rfl := streamAt_eq_some.mp hx
    have hfx := hcells x
    simp only [Forecast, awaited, booked, lt_irrefl, if_false] at hfx
    obtain ⟨hshape, hfx⟩ := hfx.taken hup
    obtain rfl := eq_of_shape hshape (by simp)
    refine ⟨hrel, by simpa [Forecast, Relay.goto, awaited, booked] using hfx, fun i hi => ?_⟩
    have hlt : i.val < x.val+1 ↔ i.val < x.val := by
      have := Fin.val_ne_of_ne hi
      omega
    simpa [Forecast, Relay.goto, awaited, booked, hlt] using hcells i

theorem debits_eq_nil {i : Fin n} {o : TransferOrder} (k : ℕ) (h : childId i ≠ o.src) :
    debits (childId i) k o = [] := if_neg (Ne.symm h)

theorem credits_eq_nil {i : Fin n} {o : TransferOrder} (k : ℕ) (h : childId i ≠ o.dst) :
    credits (childId i) k o = [] := if_neg (Ne.symm h)

theorem step_order (hn : n ≤ 255) (hne : ∀ o ∈ orders, o.src ≠ o.dst) {k : ℕ}
    {hs : List BalanceHistory} (hp : s.parent = ⟨.order k, false, hs⟩)
    (h : Good orders s.parent s.cell) (hmove : ParentMove (relayProtocol n V orders) s t) :
    Good orders t.parent t.cell := by
  rw [hp] at h
  have hgood := h
  obtain ⟨⟨hto, hhs⟩, hcells⟩ := h
  cases hk : orders[k]? with
  | none =>
    have ha : (relayProtocol n V orders).parent s.parent =
        .tau (Relay.goto ⟨.order k, false, hs⟩ (.stop 0)) := by
      rw [hp]
      exact relayParent_none hk
    have hlen : orders.length ≤ k := List.getElem?_eq_none_iff.mp hk
    have htake : (transfersOf orders).take k = (transfersOf orders).take orders.length := by
      rw [List.take_of_length_le (by simp [transfersOf]; omega),
        List.take_of_length_le (by simp [transfersOf])]
    refine tau_rule (I := Relaying n orders) (J := Forecast orders) _ ha
      ⟨by rwa [RelayedTo, ← htake], hhs⟩ (fun i => ?_) hmove
    have := hcells i
    simpa [Forecast, Relay.goto, awaited, booked, entriesUpTo, htake] using this
  | some o =>
    have ha : (relayProtocol n V orders).parent s.parent =
        doTransfer ⟨.order k, false, hs⟩ k o := by
      rw [hp]
      exact relayParent_some hk
    have hone := hne o (List.mem_of_getElem? hk)
    unfold doTransfer at ha
    cases hsrc : subU8 o.src 1 with
    | error e =>
      rw [hsrc] at ha
      exact tau_rule _ ha hgood.panic.1 hgood.panic.2 hmove
    | ok srcIdx =>
      cases hdst : subU8 o.dst 1 with
      | error e =>
        rw [hsrc, hdst] at ha
        exact tau_rule _ ha hgood.panic.1 hgood.panic.2 hmove
      | ok dstIdx =>
        rw [hsrc, hdst] at ha
        refine good_sendTo ha hmove hgood (fun _ => hgood.panic) ?_
        intro x hx
        have hxs := streamAt_eq_some.mp hx
        have hid : childId x = o.src := childId_of_index hsrc hxs
        refine ⟨⟨o, ⟨hk, hsrc, hdst⟩, by omega, hto, hhs⟩, ?_, fun i hi => ?_⟩
        · have hfx : Foreseen (childId x) [] (entriesUpTo orders k x) (s.cell x) := hcells x
          have := hfx.given hfx.listening ⟨k, .transfer o.toBytes⟩
          rw [repliesAll_order, duesAll_order, credits_eq_nil k (by rw [hid]; exact hone)] at this
          simpa [Forecast, Relay.goto, awaited, booked, hk, hxs, forwards, acks, hid, hone.symm,
            debitOf] using this
        · have hisrc : childId i ≠ o.src := by
            rw [← hid]
            exact fun heq => hi (childId_injective hn heq)
          have hival : i.val ≠ srcIdx.toNat := by
            rw [← hxs]
            exact Fin.val_ne_of_ne hi
          simpa [Forecast, Relay.goto, awaited, booked, hk, hival, debitOf,
            debits_eq_nil k hisrc] using hcells i

theorem step_forwarded {k : ℕ} {srcIdx dstIdx : UInt8} {hs : List BalanceHistory}
    (hp : s.parent = ⟨.forwarded k srcIdx dstIdx, false, hs⟩)
    (h : Good orders s.parent s.cell) (hmove : ParentMove (relayProtocol n V orders) s t) :
    Good orders t.parent t.cell := by
  rw [hp] at h
  have hgood := h
  obtain ⟨⟨o, hix, hlt, hto, hhs⟩, hcells⟩ := h
  have ha : (relayProtocol n V orders).parent s.parent =
      awaitForward ⟨.forwarded k srcIdx dstIdx, false, hs⟩ k srcIdx dstIdx := by
    rw [hp]
    rfl
  refine good_recvFrom ha hmove hgood (fun _ => hgood.panic) ?_
  intro x e rest hx hup
  have hxs := streamAt_eq_some.mp hx
  have hfx := hcells x
  simp only [Forecast, awaited, booked, hix.order, hxs, if_true] at hfx
  obtain ⟨hshape, hfx⟩ := hfx.taken hup
  obtain rfl := eq_of_shape hshape (by simp)
  refine ⟨⟨srcIdx, o, hix, hlt, rfl, hto, hhs⟩, hfx, fun i hi => ?_⟩
  have hival : i.val ≠ srcIdx.toNat := by
    rw [← hxs]
    exact Fin.val_ne_of_ne hi
  simpa [Forecast, Relay.goto, awaited, booked, hix.order, hival, isTransfer] using hcells i

theorem step_relay (hn : n ≤ 255) (hne : ∀ o ∈ orders, o.src ≠ o.dst) {k : ℕ} {dstIdx : UInt8}
    {relayed : Envelope} {hs : List BalanceHistory}
    (hp : s.parent = ⟨.relay k dstIdx relayed, false, hs⟩)
    (h : Good orders s.parent s.cell) (hmove : ParentMove (relayProtocol n V orders) s t) :
    Good orders t.parent t.cell := by
  rw [hp] at h
  have hgood := h
  obtain ⟨⟨srcIdx, o, hix, hlt, hrel, hto, hhs⟩, hcells⟩ := h
  subst hrel
  have hone := hne o (List.mem_of_getElem? hix.order)
  have ha : (relayProtocol n V orders).parent s.parent =
      relayOn ⟨.relay k dstIdx ⟨k, .transfer o.toBytes⟩, false, hs⟩ k dstIdx
        ⟨k, .transfer o.toBytes⟩ := by
    rw [hp]
    rfl
  refine good_sendTo ha hmove hgood (fun _ => hgood.panic) ?_
  intro x hx
  have hxd := streamAt_eq_some.mp hx
  have hid : childId x = o.dst := childId_of_index hix.dst hxd
  have hbook : ∀ i : Fin n, booked orders (.relay k dstIdx ⟨k, .transfer o.toBytes⟩) i =
      entriesUpTo orders k i ++ debits (childId i) k o := fun i => by
    simp [booked, debitOf, hix.order]
  refine ⟨⟨srcIdx, o, hix, hlt, by omega, hto, hhs⟩, ?_, fun i hi => ?_⟩
  · have hfx : Foreseen (childId x) [] (booked orders (.relay k dstIdx _) x) (s.cell x) := hcells x
    have := hfx.given hfx.listening ⟨k, .transfer o.toBytes⟩
    have hnone : debits o.dst k o = [] := if_neg hone
    rw [repliesAll_order, duesAll_order, hbook, hid, hnone] at this
    simpa [Forecast, Relay.goto, awaited, booked, entriesUpTo_succ hix.order, hxd, forwards, acks,
      hid, hone, hnone] using this
  · have hidst : childId i ≠ o.dst := by
      rw [← hid]
      exact fun heq => hi (childId_injective hn heq)
    have hival : i.val ≠ dstIdx.toNat := by
      rw [← hxd]
      exact Fin.val_ne_of_ne hi
    have := hcells i
    rw [Forecast, hbook] at this
    simpa [Forecast, Relay.goto, awaited, booked, entriesUpTo_succ hix.order, hival,
      credits_eq_nil k hidst] using this

theorem step_ack {k : ℕ} {dstIdx : UInt8} {hs : List BalanceHistory}
    (hp : s.parent = ⟨.ack k dstIdx, false, hs⟩)
    (h : Good orders s.parent s.cell) (hmove : ParentMove (relayProtocol n V orders) s t) :
    Good orders t.parent t.cell := by
  rw [hp] at h
  have hgood := h
  obtain ⟨⟨srcIdx, o, hix, hlts, hltd, hto, hhs⟩, hcells⟩ := h
  have ha : (relayProtocol n V orders).parent s.parent =
      awaitAck ⟨.ack k dstIdx, false, hs⟩ k dstIdx := by
    rw [hp]
    rfl
  refine good_recvFrom ha hmove hgood (fun _ => hgood.panic) ?_
  intro x e rest hx hup
  have hxd := streamAt_eq_some.mp hx
  have hfx := hcells x
  simp only [Forecast, awaited, booked, hxd, if_true] at hfx
  obtain ⟨hshape, hfx⟩ := hfx.taken hup
  obtain rfl := eq_of_shape hshape (by simp)
  have hsucc : RelayedTo n orders (k+1) :=
    relayedTo_succ hix.order hto (childId_of_index (i := ⟨_, hlts⟩) hix.src rfl)
      (childId_of_index hix.dst hxd)
  refine ⟨⟨hsucc, hhs⟩, hfx, fun i hi => ?_⟩
  have hival : i.val ≠ dstIdx.toNat := by
    rw [← hxd]
    exact Fin.val_ne_of_ne hi
  simpa [Forecast, Relay.goto, awaited, booked, hival] using hcells i

theorem step_stop {j : ℕ} {hs : List BalanceHistory} (hp : s.parent = ⟨.stop j, false, hs⟩)
    (h : Good orders s.parent s.cell) (hmove : ParentMove (relayProtocol n V orders) s t) :
    Good orders t.parent t.cell := by
  rw [hp] at h
  have hgood := h
  obtain ⟨⟨hto, hhs⟩, hcells⟩ := h
  have ha : (relayProtocol n V orders).parent s.parent = sendStopAll ⟨.stop j, false, hs⟩ j := by
    rw [hp]
    rfl
  refine good_sendTo ha hmove hgood ?_ ?_
  · intro hnone
    have hj := streamAt_eq_none.mp hnone
    refine ⟨⟨hto, List.length_eq_zero_iff.mpr hhs, Nat.zero_le n⟩, fun i => ?_⟩
    have hi : i.val < j := by omega
    simpa [Forecast, Relay.goto, awaited, booked, hi] using hcells i
  · intro x hx
    obtain rfl := streamAt_eq_some.mp hx
    refine ⟨⟨hto, hhs⟩, ?_, fun i hi => ?_⟩
    · have hfx := hcells x
      simp only [Forecast, awaited, booked, lt_irrefl, if_false] at hfx
      have := hfx.given hfx.listening ⟨0, .stop⟩
      simpa [Forecast, Relay.goto, awaited, booked, repliesAll, duesAll] using this
    · have hlt : i.val < x.val+1 ↔ i.val < x.val := by
        have := Fin.val_ne_of_ne hi
        omega
      simpa [Forecast, Relay.goto, awaited, booked, hlt] using hcells i

theorem step_done {j : ℕ} {hs : List BalanceHistory} (hp : s.parent = ⟨.done j, false, hs⟩)
    (h : Good orders s.parent s.cell) (hmove : ParentMove (relayProtocol n V orders) s t) :
    Good orders t.parent t.cell := by
  rw [hp] at h
  have hgood := h
  obtain ⟨⟨hto, hhs, hjn⟩, hcells⟩ := h
  have ha : (relayProtocol n V orders).parent s.parent =
      awaitDone ⟨.done j, false, hs⟩ j := by
    rw [hp]
    rfl
  refine good_recvFrom ha hmove hgood ?_ ?_
  · intro hnone
    have hj := streamAt_eq_none.mp hnone
    refine ⟨⟨hto, hhs.trans (by omega)⟩, fun i => ?_⟩
    have hi : i.val < j := by omega
    simpa [Forecast, Relay.goto, awaited, booked, hi] using hcells i
  · intro x e rest hx hup
    obtain rfl := streamAt_eq_some.mp hx
    have hfx := hcells x
    simp only [Forecast, awaited, booked, lt_irrefl, if_false, closing] at hfx
    obtain ⟨hshape, hfx⟩ := hfx.taken hup
    obtain rfl := eq_of_shape hshape (by simp)
    refine ⟨⟨hto, hhs, x.isLt⟩, by simpa [Forecast, Relay.goto, awaited, booked] using hfx,
      fun i hi => ?_⟩
    simpa [Forecast, Relay.goto, awaited, booked, Fin.val_ne_of_ne hi] using hcells i

theorem step_history {j : ℕ} {hs : List BalanceHistory} (hp : s.parent = ⟨.history j, false, hs⟩)
    (h : Good orders s.parent s.cell) (hmove : ParentMove (relayProtocol n V orders) s t) :
    Good orders t.parent t.cell := by
  rw [hp] at h
  have hgood := h
  obtain ⟨⟨hto, hhs, hjn⟩, hcells⟩ := h
  have ha : (relayProtocol n V orders).parent s.parent =
      awaitReport ⟨.history j, false, hs⟩ j := by
    rw [hp]
    rfl
  refine good_recvFrom ha hmove hgood (fun _ => hgood.panic) ?_
  intro x e rest hx hup
  obtain rfl := streamAt_eq_some.mp hx
  have hfx := hcells x
  simp only [Forecast, awaited, booked, lt_irrefl, if_false, if_true] at hfx
  refine ⟨⟨hto, hhs, hjn⟩, by simpa [Forecast, Relay.goto, awaited, booked] using (hfx.taken hup).2,
    fun i hi => ?_⟩
  have hne := Fin.val_ne_of_ne hi
  have hle : i.val ≤ x.val ↔ i.val < x.val := by omega
  simpa [Forecast, Relay.goto, awaited, booked, hne, hle] using hcells i

theorem step_decode {j : ℕ} {report : Message} {hs : List BalanceHistory}
    (hp : s.parent = ⟨.decode j report, false, hs⟩)
    (h : Good orders s.parent s.cell) (hmove : ParentMove (relayProtocol n V orders) s t) :
    Good orders t.parent t.cell := by
  rw [hp] at h
  have hgood := h
  obtain ⟨⟨hto, hhs, hjn⟩, hcells⟩ := h
  have ha : (relayProtocol n V orders).parent s.parent =
      .tau (onReport ⟨.decode j report, false, hs⟩ j report) := by
    rw [hp]
    rfl
  have hnext : Good orders (onReport ⟨.decode j report, false, hs⟩ j report) s.cell := by
    unfold onReport
    split
    · split
      · next h _ =>
        refine ⟨⟨hto, ?_, hjn⟩, fun i => ?_⟩
        · rw [List.length_append, hhs]
          rfl
        · simpa [Forecast, awaited, booked, Nat.lt_succ_iff] using hcells i
      · exact hgood.panic
    · exact hgood.panic
  exact tau_rule _ ha hnext.1 hnext.2 hmove

/-- The step lemma of the parent, one case for each point of its program. -/
theorem good_parent (hn : n ≤ 255) (hne : ∀ o ∈ orders, o.src ≠ o.dst)
    (h : Good orders s.parent s.cell) (hmove : ParentMove (relayProtocol n V orders) s t) :
    Good orders t.parent t.cell := by
  cases hp : s.parent with
  | mk pc panicked hs =>
    cases panicked with
    | true =>
      have ha : (relayProtocol n V orders).parent s.parent = .halt := by
        rw [hp]
        rfl
      exact absurd hmove (halt_rule _ ha)
    | false =>
      cases pc with
      | started j => exact step_started hp h hmove
      | order k => exact step_order hn hne hp h hmove
      | forwarded k srcIdx dstIdx => exact step_forwarded hp h hmove
      | relay k dstIdx relayed => exact step_relay hn hne hp h hmove
      | ack k dstIdx => exact step_ack hp h hmove
      | stop j => exact step_stop hp h hmove
      | done j => exact step_done hp h hmove
      | history j => exact step_history hp h hmove
      | decode j report => exact step_decode hp h hmove
      | finished =>
        have ha : (relayProtocol n V orders).parent s.parent = .halt := by
          rw [hp]
          rfl
        exact absurd hmove (halt_rule _ ha)

end Steps

/-- The run lemma: the forecasts hold in every reachable state. -/
theorem reachable_good (V : Variant κ ρ) (hn : n ≤ 255) (b : Fin n → Balance)
    (hne : ∀ o ∈ orders, o.src ≠ o.dst) {s : BankNet κ ρ n}
    (hs : Reachable (relaySystem V b orders) s) : Good orders s.parent s.cell := by
  refine cellwise_invariant (relayProtocol n V orders) (Relaying n orders) (Forecast orders)
    ?_ ?_ ?_ ?_ hs
  · rintro s rfl
    exact ⟨rfl, fun i => .running rfl rfl rfl⟩
  · exact fun s i c _ h hm => foreseen_child V h hm
  · exact fun s i c _ _ h _ hm => foreseen_childFault V h hm
  · exact fun s t _ hp hi hm => good_parent hn hne ⟨hp, hi⟩ hm

end CrabKeeper.RelayInvariant
