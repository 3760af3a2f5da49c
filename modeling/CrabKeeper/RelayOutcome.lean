import CrabKeeper.SerialRelay

/-!
# The relay has one outcome

Every complete run of the distributed relay ends in the state that the serial
relay computes, and every run can be completed.
-/

set_option autoImplicit false

namespace CrabKeeper.RelayOutcome
open Foundation.Machine Foundation.Transition Foundation.Network Foundation.Confluence
open Foundation.Determinacy Foundation.Schedule Foundation.Termination
open CrabKeeper.MessageCodec CrabKeeper.ChannelFraming CrabKeeper.BankTypes
open CrabKeeper.BankAccount CrabKeeper.BankChild CrabKeeper.ChildAccounts CrabKeeper.ChildForecast
open CrabKeeper.RelayParent CrabKeeper.SerialRelay

variable {κ ρ : Type} {n : ℕ} {V : Variant κ ρ} {orders : List TransferOrder}
  {xs : Fin n → ChildState κ ρ} {p p' : Relay} {i : Fin n}

theorem quietNet_setCell (p : Relay) (xs : Fin n → ChildState κ ρ) (i : Fin n)
    (y : ChildState κ ρ) :
    (quietNet p xs).setCell i ⟨true, y, [], []⟩ = quietNet p (Function.update xs i y) := by
  simp only [quietNet, Net.setCell, Net.mk.injEq, true_and, and_true]
  funext j
  by_cases hj : j = i
  · subst hj
    simp
  · simp [hj]

theorem turn_leads {e answer : Envelope} {f : Except IoError Unit → Relay}
    {next : Except IoError Envelope → Relay} (hsend : relayParent orders p = .send i e f)
    (hf : f (.ok ()) = p') (hrecv : relayParent orders p' = .recv i next)
    (hx : (xs i).phase = .receive) (ht : Turned V (childId i) (xs i) e answer) :
    hasExited (serveAt V xs i e i).phase = true ∧
      Leads (relayProtocol n V orders) (quietNet p xs)
        (quietNet (next (.error .unexpectedEof)) (serveAt V xs i e)) ∨
    (serveAt V xs i e i).phase = .receive ∧
      Leads (relayProtocol n V orders) (quietNet p xs)
        (quietNet (next (.ok answer)) (serveAt V xs i e)) := by
  subst hf
  have hself : serveAt V xs i e i = serve V (childId i) (xs i) e := Function.update_self ..
  have hgo : Leads (relayProtocol n V orders) (quietNet p xs)
      ((quietNet (f (.ok ())) xs).setCell i
        ⟨true, serve V (childId i) (xs i) e, [], replies V (childId i) (xs i) e⟩) := by
    refine (leads_send (P := relayProtocol n V orders) (s := quietNet p xs) hsend).trans ?_
    have hserved := leads_cell (relay_unconnected V orders) (i := i)
      (s := { (quietNet p xs).setCell i ⟨true, xs i, [e], []⟩ with parent := f (.ok ()) })
      (c := ⟨true, serve V (childId i) (xs i) e, [], replies V (childId i) (xs i) e⟩) (by
        simpa using sides_serve (f (.ok ())) i hx e [] [])
    simpa [Net.setCell, quietNet] using hserved
  rw [hself]
  rcases ht with ⟨hex, hr⟩ | ⟨hph, hr⟩
  · refine Or.inl ⟨hex, hgo.trans ?_⟩
    rw [hr, quietNet_setCell]
    refine leads_eof (P := relayProtocol n V orders) hrecv rfl ?_
    change (bankingChild V (childId i) (serveAt V xs i e i)).halted = true
    rw [hself]
    revert hex
    unfold bankingChild
    cases (serve V (childId i) (xs i) e).phase <;> simp [hasExited, ChildAction.halted]
  · refine Or.inr ⟨hph, hgo.trans ?_⟩
    let c : ChildCell κ ρ := ⟨true, serve V (childId i) (xs i) e, [], [answer]⟩
    have hup : (((quietNet (f (.ok ())) xs).setCell i c).cell i).up = [answer] := by
      rw [setCell_self]
    have hread := leads_recv (P := relayProtocol n V orders)
      (s := (quietNet (f (.ok ())) xs).setCell i c) hrecv hup
    rw [hr]
    convert hread using 1
    rw [serveAt, ← quietNet_setCell]
    simp [Net.setCell, quietNet, c]

theorem sendTo_some {x : Option (Fin n)} (hx : x = some i) (p none next : Relay) (e : Envelope) :
    ∃ f, sendTo p x none e next = .send i e f ∧ f (.ok ()) = next := by
  subst hx
  exact ⟨_, rfl, rfl⟩

theorem recvFrom_some {x : Option (Fin n)} (hx : x = some i) (p none : Relay)
    (next : Envelope → Relay) : ∃ f, recvFrom p x none next = .recv i f ∧
      (∀ e, f (.ok e) = next e) ∧ ∀ err, f (.error err) = p.panic := by
  subst hx
  exact ⟨_, rfl, fun _ => rfl, fun _ => rfl⟩

theorem source_leads {k : ℕ} {o : TransferOrder} {srcIdx dstIdx : UInt8}
    (hone : o.src ≠ o.dst) (hsrc : subU8 o.src 1 = .ok srcIdx)
    (hi : streamAt n srcIdx.toNat = some i)
    (ha : relayParent (n := n) orders p = sendTo p (some i) p.panic ⟨k, .transfer o.toBytes⟩
      ⟨.forwarded k srcIdx dstIdx, false, []⟩) (hx : (xs i).phase = .receive) :
    let e : Envelope := ⟨k, .transfer o.toBytes⟩
    hasExited (serveAt V xs i e i).phase = true ∧
      Leads (relayProtocol n V orders) (quietNet p xs)
        (quietNet (panickedAt (.forwarded k srcIdx dstIdx)) (serveAt V xs i e)) ∨
    (serveAt V xs i e i).phase = .receive ∧
      Leads (relayProtocol n V orders) (quietNet p xs)
        (quietNet ⟨.relay k dstIdx e, false, []⟩ (serveAt V xs i e)) := by
  have hid : childId i = o.src := childId_of_index hsrc (streamAt_eq_some.mp hi)
  obtain ⟨f, hsend, hf⟩ := sendTo_some rfl p p.panic
    (Relay.mk (.forwarded k srcIdx dstIdx) false []) ⟨k, .transfer o.toBytes⟩ (i := i)
  obtain ⟨g, hrecv, hok, herr⟩ := recvFrom_some hi ⟨.forwarded k srcIdx dstIdx, false, []⟩
    (Relay.panic ⟨.forwarded k srcIdx dstIdx, false, []⟩) fun e =>
      if isTransfer e.msg then
        Relay.goto ⟨.forwarded k srcIdx dstIdx, false, []⟩ (.relay k dstIdx e)
      else Relay.panic ⟨.forwarded k srcIdx dstIdx, false, []⟩
  have h := turn_leads (V := V) (ha.trans hsend) hf hrecv hx
    (source_turned hid.symm (by rw [hid]; exact hone.symm))
  rw [hok, herr] at h
  exact h

theorem target_leads (orders : List TransferOrder) (k : ℕ) {o : TransferOrder}
    {dstIdx : UInt8} (hone : o.src ≠ o.dst)
    (hdst : subU8 o.dst 1 = .ok dstIdx) (hi : streamAt n dstIdx.toNat = some i)
    (hx : (xs i).phase = .receive) :
    let e : Envelope := ⟨k, .transfer o.toBytes⟩
    hasExited (serveAt V xs i e i).phase = true ∧
      Leads (relayProtocol n V orders) (quietNet ⟨.relay k dstIdx e, false, []⟩ xs)
        (quietNet (panickedAt (.ack k dstIdx)) (serveAt V xs i e)) ∨
    (serveAt V xs i e i).phase = .receive ∧
      Leads (relayProtocol n V orders) (quietNet ⟨.relay k dstIdx e, false, []⟩ xs)
        (quietNet ⟨.order (k+1), false, []⟩ (serveAt V xs i e)) := by
  intro e
  have hid : childId i = o.dst := childId_of_index hdst (streamAt_eq_some.mp hi)
  obtain ⟨f, hsend, hf⟩ := sendTo_some hi ⟨.relay k dstIdx e, false, []⟩
    (Relay.panic ⟨.relay k dstIdx e, false, []⟩) ⟨.ack k dstIdx, false, []⟩ e
  obtain ⟨g, hrecv, hok, herr⟩ := recvFrom_some hi ⟨.ack k dstIdx, false, []⟩
    (Relay.panic ⟨.ack k dstIdx, false, []⟩) fun e =>
      if e.msg = .ack then Relay.goto ⟨.ack k dstIdx, false, []⟩ (.order (k+1))
      else Relay.panic ⟨.ack k dstIdx, false, []⟩
  have hsend' : relayParent orders ⟨.relay k dstIdx e, false, []⟩ = .send i e f := hsend
  have hrecv' : relayParent orders ⟨.ack k dstIdx, false, []⟩ = .recv i g := hrecv
  have h := turn_leads (V := V) hsend' hf hrecv' hx
    (target_turned (by rw [hid]; exact hone) hid.symm)
  rw [hok, herr] at h
  exact h

def Resting (ph : Phase ρ) : Prop := ph = .receive ∨ hasExited ph = true

def Waiting (xs : Fin n → ChildState κ ρ) : Prop := ∀ i, Resting (xs i).phase

theorem serveAt_phases {e : Envelope} {Q : Phase ρ → Prop} (hx : ∀ j, Q (xs j).phase)
    (hi : Q (serveAt V xs i e i).phase) (j : Fin n) : Q (serveAt V xs i e j).phase := by
  by_cases hj : j = i
  · rw [hj]
    exact hi
  · rw [serveAt, Function.update_of_ne hj]
    exact hx j

/-- What one order makes of waiting branches, serially and in the distributed
relay. -/
structure OrderRun (V : Variant κ ρ) (orders : List TransferOrder) (k : ℕ)
    (xs : Fin n → ChildState κ ρ) (r : Option RelayPc × (Fin n → ChildState κ ρ)) : Prop where
  waiting : Waiting r.2
  stopped : ∀ pc, r.1 = some pc → Leads (relayProtocol n V orders)
    (quietNet ⟨.order k, false, []⟩ xs) (quietNet (panickedAt pc) r.2)
  goes : r.1 = none → (∀ i, (r.2 i).phase = .receive) ∧ Leads (relayProtocol n V orders)
    (quietNet ⟨.order k, false, []⟩ xs) (quietNet ⟨.order (k+1), false, []⟩ r.2)

theorem OrderRun.panics {k : ℕ} {pc : RelayPc} {ys : Fin n → ChildState κ ρ} (hy : Waiting ys)
    (h : Leads (relayProtocol n V orders) (quietNet ⟨.order k, false, []⟩ xs)
      (quietNet (panickedAt pc) ys)) : OrderRun V orders k xs (some pc, ys) where
  waiting := hy
  stopped _ hpc := Option.some.inj hpc ▸ h
  goes hnone := by cases hnone

theorem order_runs {k : ℕ} {o : TransferOrder} (hk : orders[k]? = some o) (hone : o.src ≠ o.dst)
    (hx : ∀ i, (xs i).phase = .receive) : OrderRun V orders k xs (serialOrder V k o xs) := by
  have ha : relayParent (n := n) orders ⟨.order k, false, []⟩ =
      doTransfer ⟨.order k, false, []⟩ k o := relayParent_some hk
  have hwait : Waiting xs := fun i => Or.inl (hx i)
  have htau : ∀ {p : Relay} {ys : Fin n → ChildState κ ρ} {q : Relay},
      relayParent (n := n) orders p = .tau q →
      Leads (relayProtocol n V orders) (quietNet p ys) (quietNet q ys) :=
    fun h => leads_tau (P := relayProtocol n V orders) h
  unfold doTransfer at ha
  unfold serialOrder
  cases hsrc : subU8 o.src 1 with
  | error r =>
    rw [hsrc] at ha
    exact .panics hwait (htau ha)
  | ok srcIdx =>
    cases hdst : subU8 o.dst 1 with
    | error r =>
      rw [hsrc, hdst] at ha
      exact .panics hwait (htau ha)
    | ok dstIdx =>
      rw [hsrc, hdst] at ha
      dsimp only at ha ⊢
      cases hi : streamAt n srcIdx.toNat with
      | none =>
        rw [hi] at ha
        exact .panics hwait (htau ha)
      | some i =>
        rw [hi] at ha
        dsimp only
        rcases source_leads (V := V) hone hsrc hi ha (hx i) with ⟨hex, hlead⟩ | ⟨hph, hlead⟩
        · rw [if_pos hex]
          exact .panics (serveAt_phases (Q := Resting) hwait (Or.inr hex)) hlead
        · have hready := serveAt_phases (Q := (· = .receive)) hx hph
          rw [if_neg (by rw [hph]; exact Bool.false_ne_true)]
          cases hj : streamAt n dstIdx.toNat with
          | none =>
            refine .panics (fun j => Or.inl (hready j)) (hlead.trans (htau ?_))
            change sendTo _ (streamAt n dstIdx.toNat) _ _ _ = _
            rw [hj]
            rfl
          | some j =>
            dsimp only
            rcases target_leads (V := V) orders k hone hdst hj (hready j) with
              ⟨hex, hlead'⟩ | ⟨hph', hlead'⟩
            · rw [if_pos hex]
              exact .panics (serveAt_phases (Q := Resting) (fun j => Or.inl (hready j))
                (Or.inr hex)) (hlead.trans hlead')
            · rw [if_neg (by rw [hph']; exact Bool.false_ne_true)]
              have hready' := serveAt_phases (Q := (· = .receive)) hready hph'
              exact ⟨fun l => Or.inl (hready' l), fun _ h => (by cases h),
                fun _ => ⟨hready', hlead.trans hlead'⟩⟩

theorem orders_lead (V : Variant κ ρ) (hne : ∀ o ∈ orders, o.src ≠ o.dst)
    (os : List TransferOrder) {k : ℕ} (hk : orders.drop k = os) {xs : Fin n → ChildState κ ρ}
    (hx : ∀ i, (xs i).phase = .receive) :
    Leads (relayProtocol n V orders) (quietNet ⟨.order k, false, []⟩ xs)
      (quietNet (serialOrders V k os xs).1 (serialOrders V k os xs).2) ∧
    Waiting (serialOrders V k os xs).2 ∧
    ((serialOrders V k os xs).1.panicked = true ∨
      (serialOrders V k os xs).1 = ⟨.stop 0, false, []⟩ ∧
        ∀ i, ((serialOrders V k os xs).2 i).phase = .receive) := by
  induction os generalizing k xs with
  | nil =>
    have hnone : orders[k]? = none := List.getElem?_eq_none (List.drop_eq_nil_iff.mp hk)
    exact ⟨leads_tau (P := relayProtocol n V orders) (relayParent_none hnone),
      fun i => Or.inl (hx i), Or.inr ⟨rfl, hx⟩⟩
  | cons o os ih =>
    have hsome : orders[k]? = some o := by
      have := congrArg List.head? hk
      rwa [List.head?_drop] at this
    have hrest : orders.drop (k+1) = os := by
      rw [← List.tail_drop, hk]
      rfl
    have hrun := order_runs (V := V) hsome (hne o (List.mem_of_getElem? hsome)) hx
    unfold serialOrders
    revert hrun
    rcases serialOrder V k o xs with ⟨pc | _, ys⟩ <;> intro hrun
    · obtain ⟨hready, hlead⟩ := hrun.goes rfl
      obtain ⟨h1, h2⟩ := ih hrest hready
      exact ⟨hlead.trans h1, h2⟩
    · exact ⟨hrun.stopped _ rfl, hrun.waiting, Or.inl rfl⟩

theorem start_leads (orders : List TransferOrder) {c : κ} (hc : V.depart V.fresh = .ok c)
    (b : Fin n → Balance) :
    Leads (relayProtocol n V orders) (relayStart V b)
      (quietNet ⟨.order 0, false, []⟩ fun i => begun V (childId i) (b i)) := by
  have hcells := leads_cells (s := relayStart V b) (relay_unconnected V orders)
    (fun i => ⟨true, begun V (childId i) (b i), [], [⟨0, .started⟩]⟩) fun i => by
      have h : Sides (relayProtocol n V orders) ⟨.started 0, false, []⟩ i _ _ :=
        sides_advance ⟨.started 0, false, []⟩ i 2 (.start V (childId i) (b i)) [] []
      rw [(begun_eq (childId i) (b i) hc).2] at h
      exact h
  refine hcells.trans (.trans (sweep (P := relayProtocol n V orders)
    (fun j => ⟨.started j, false, []⟩)
    (fun i => ⟨true, begun V (childId i) (b i), [], []⟩) [] fun j s hs hj => ?_)
    (leads_tau ?_))
  · obtain ⟨f, hrecv, hok, _⟩ := recvFrom_some (streamAt_eq_some.mpr rfl)
      (Relay.mk (.started j) false []) (Relay.goto ⟨.started j, false, []⟩ (.order 0)) (i := j)
      fun e => if e.msg = .started then Relay.goto ⟨.started j, false, []⟩ (.started (j+1))
        else Relay.panic ⟨.started j, false, []⟩
    have ha : (relayProtocol n V orders).parent s.parent = .recv j f := by
      rw [hs]
      exact hrecv
    have hup : (s.cell j).up = [⟨0, .started⟩] := by rw [hj]
    have h := leads_recv ha hup
    rw [hok, hj] at h
    exact h
  · change recvFrom _ (streamAt n n) _ _ = _
    rw [streamAt_eq_none.mpr le_rfl]
    rfl

theorem stop_leads (xs : Fin n → ChildState κ ρ) :
    Leads (relayProtocol n V orders) (quietNet ⟨.stop 0, false, []⟩ xs)
      ⟨⟨.done 0, false, []⟩, fun i => ⟨true, xs i, [⟨0, .stop⟩], []⟩, []⟩ := by
  refine .trans (sweep (P := relayProtocol n V orders) (fun j => ⟨.stop j, false, []⟩)
    (fun i => ⟨true, xs i, [⟨0, .stop⟩], []⟩) [] fun j s hs hj => ?_) (leads_tau ?_)
  · obtain ⟨f, hsend, hf⟩ := sendTo_some (streamAt_eq_some.mpr rfl)
      (Relay.mk (.stop j) false []) (Relay.goto ⟨.stop j, false, []⟩ (.done 0))
      (Relay.goto ⟨.stop j, false, []⟩ (.stop (j+1))) ⟨0, .stop⟩ (i := j)
    have ha : (relayProtocol n V orders).parent s.parent = .send j ⟨0, .stop⟩ f := by
      rw [hs]
      exact hsend
    have h := leads_send ha
    rw [hf, hj] at h
    exact h
  · change sendTo _ (streamAt n n) _ _ _ = _
    rw [streamAt_eq_none.mpr le_rfl]
    rfl

theorem report_leads {s : BankNet κ ρ n} {j : Fin n} {y : ChildState κ ρ} {h : BalanceHistory}
    {hs : List BalanceHistory} (hp : s.parent = ⟨.done j, false, hs⟩)
    (hj : s.cell j = ⟨true, y, [], [⟨0, .done⟩, ⟨0, .balanceHistory h.toBytes⟩]⟩)
    (hlen : h.states.length ≤ 255) : Leads (relayProtocol n V orders) s
      { s.setCell j ⟨true, y, [], []⟩ with parent := ⟨.done (j+1), false, hs ++ [h]⟩ } := by
  obtain ⟨f, hdone, hok, _⟩ := recvFrom_some (streamAt_eq_some.mpr rfl)
    (Relay.mk (.done j) false hs) (Relay.goto ⟨.done j, false, hs⟩ .finished) (i := j)
    fun e => if e.msg = .done then Relay.goto ⟨.done j, false, hs⟩ (.history j)
      else Relay.panic ⟨.done j, false, hs⟩
  obtain ⟨g, hreport, hok', _⟩ := recvFrom_some (streamAt_eq_some.mpr rfl)
    (Relay.mk (.history j) false hs) (Relay.panic ⟨.history j, false, hs⟩) (i := j)
    fun e => Relay.goto ⟨.history j, false, hs⟩ (.decode j e.msg)
  let c : ChildCell κ ρ := ⟨true, y, [], [⟨0, .balanceHistory h.toBytes⟩]⟩
  have ha : (relayProtocol n V orders).parent s.parent = .recv j f := by
    rw [hp]
    exact hdone
  have hup : (s.cell j).up = [⟨0, .done⟩, ⟨0, .balanceHistory h.toBytes⟩] := by rw [hj]
  have h1 := leads_recv ha hup
  rw [hok, hj] at h1
  have hup' : ((s.setCell j c).cell j).up = [⟨0, .balanceHistory h.toBytes⟩] := by
    rw [setCell_self]
  have h2 := leads_recv (P := relayProtocol n V orders)
    (s := { s.setCell j c with parent := ⟨.history j, false, hs⟩ }) hreport hup'
  rw [hok'] at h2
  have hdecode : relayParent (n := n) orders
      ⟨.decode j (.balanceHistory h.toBytes), false, hs⟩ =
        .tau ⟨.done (j+1), false, hs ++ [h]⟩ := by
    change ParentAction.tau (onReport _ _ _) = _
    simp only [onReport, history_fromBytes_toBytes h hlen]
  have h3 := leads_tau (P := relayProtocol n V orders)
    (s := { s.setCell j ⟨true, y, [], []⟩ with
      parent := ⟨.decode j (.balanceHistory h.toBytes), false, hs⟩ }) hdecode
  refine h1.trans (.trans ?_ h3)
  simpa [Net.setCell, Relay.goto, c] using h2

theorem collect_leads (hx : ∀ i, (xs i).phase = .receive)
    (hr : ∀ i, Reports V (childId i) (xs i)) :
    Leads (relayProtocol n V orders)
      ⟨⟨.done 0, false, []⟩, fun i => ⟨true, xs i, [⟨0, .stop⟩], []⟩, []⟩
      (quietNet ⟨.finished, false, List.ofFn fun i => (xs i).account.history⟩
        fun i => serve V (childId i) (xs i) ⟨0, .stop⟩) := by
  have hcells := leads_cells (P := relayProtocol n V orders)
    (s := ⟨⟨.done 0, false, []⟩, fun i => ⟨true, xs i, [⟨0, .stop⟩], []⟩, []⟩)
    (relay_unconnected V orders) (fun i => ⟨true, serve V (childId i) (xs i) ⟨0, .stop⟩, [],
      [⟨0, .done⟩, ⟨0, .balanceHistory (xs i).account.history.toBytes⟩]⟩) fun i => by
      rw [← (stop_turned (hr i)).1]
      exact sides_serve _ i (hx i) ⟨0, .stop⟩ [] []
  let hs : List BalanceHistory := List.ofFn fun i => (xs i).account.history
  refine hcells.trans (.trans (sweep (P := relayProtocol n V orders)
    (fun j => ⟨.done j, false, hs.take j⟩)
    (fun i => ⟨true, serve V (childId i) (xs i) ⟨0, .stop⟩, [], []⟩) [] fun j s hp hj => ?_)
    (leads_tau ?_))
  · have hget : hs.take (j.val+1) = hs.take j ++ [(xs j).account.history] := by
      rw [List.take_add_one]
      simp [hs]
    rw [hget]
    exact report_leads hp hj (hr j).decodable
  · have hall : hs.take n = hs := List.take_of_length_le (by simp [hs])
    rw [hall]
    change recvFrom _ (streamAt n n) _ _ = _
    rw [streamAt_eq_none.mpr le_rfl]
    rfl

theorem hangUp_leads (hx : Waiting xs) (hp : p.panicked = true) :
    Leads (relayProtocol n V orders) (quietNet p xs)
      (quietNet p fun i => hangUp V (xs i)) := by
  have hh : ((relayProtocol n V orders).parent p).halted = true := by
    change (relayParent orders p).halted = true
    rw [relayParent, if_pos hp]
    rfl
  refine leads_cells (s := quietNet p xs) (relay_unconnected V orders)
    (fun i => ⟨true, hangUp V (xs i), [], []⟩) fun i => ?_
  unfold hangUp
  rcases hx i with hph | hex
  · rw [if_neg (by rw [hph]; exact Bool.false_ne_true)]
    refine .single ⟨true, ?_⟩
    have ha : (relayProtocol n V orders).child i (xs i) = bankingChild V (childId i) (xs i) := rfl
    simp only [cellMove, quietNet, ha, hh]
    simp [bankingChild, hph, sendsUp, childFault, relayProtocol]
  · rw [if_pos hex]
    exact .refl

theorem quiet_atRest {ys : Fin n → ChildState κ ρ}
    (hp : (relayParent (n := n) orders p).halted = true)
    (hy : ∀ i, hasExited (ys i).phase = true) :
    AtRest (relayProtocol n V orders).fire (quietNet p ys) := by
  have hhalt : ∀ i, bankingChild V (childId i) (ys i) = .halt := by
    intro i
    have := hy i
    unfold bankingChild
    cases hph : (ys i).phase <;> simp_all [hasExited]
  intro m
  cases m with
  | child i | childFault i =>
    simp [Protocol.fire, quietNet, relayProtocol, hhalt i, childMove, childFault]
  | parent => exact halted_parent_rests (Or.inl rfl) hp
  | parentFault => exact halted_parent_rests (Or.inr rfl) hp

theorem hangUp_exited (V : Variant κ ρ) (x : ChildState κ ρ) :
    hasExited (hangUp V x).phase = true := by
  unfold hangUp
  split_ifs with h
  · exact h
  · rfl

theorem serial_leads (b : Fin n → Balance) (hne : ∀ o ∈ orders, o.src ≠ o.dst)
    (hr : Reporting V b orders) :
    Leads (relayProtocol n V orders) (relayStart V b)
        (quietNet (serialRun V b orders).1 (serialRun V b orders).2) ∧
      AtRest (relayProtocol n V orders).fire
        (quietNet (serialRun V b orders).1 (serialRun V b orders).2) := by
  obtain ⟨c, hc⟩ := hr.starts
  have hbegun : ∀ i, (begun V (childId i) (b i)).phase = .receive := fun i => by
    rw [(begun_eq _ _ hc).1]
  have hrun := orders_lead V hne orders (k := 0) (by simp) hbegun
  have hreports := hr.reports
  have hstart := start_leads orders hc b
  unfold serialRun
  unfold serialBranches at hreports ⊢
  revert hrun hreports
  rcases serialOrders V 0 orders fun i => begun V (childId i) (b i) with ⟨p, ys⟩
  rintro ⟨hlead, hwait, hp | ⟨rfl, hready⟩⟩ hreports
  · dsimp only
    rw [if_pos hp]
    refine ⟨(hstart.trans hlead).trans (hangUp_leads hwait hp), quiet_atRest ?_ fun i =>
      hangUp_exited V _⟩
    rw [relayParent, if_pos hp]
    rfl
  · dsimp only
    rw [if_neg Bool.false_ne_true]
    refine ⟨((hstart.trans hlead).trans (stop_leads ys)).trans
      (collect_leads hready (hreports rfl)), quiet_atRest rfl fun i => ?_⟩
    rw [(hreports rfl i).answers]
    rfl

def serialNet (V : Variant κ ρ) (b : Fin n → Balance) (orders : List TransferOrder) :
    BankNet κ ρ n :=
  quietNet (serialRun V b orders).1 (serialRun V b orders).2

theorem goes_on (V : Variant κ ρ) (b : Fin n → Balance) (hne : ∀ o ∈ orders, o.src ≠ o.dst)
    (hr : Reporting V b orders) :
    ∃ N, ∀ moves s, play (relayProtocol n V orders).fire moves (relayStart V b) = some s →
      ∃ more, play (relayProtocol n V orders).fire more s = some (serialNet V b orders) ∧
        moves.length+more.length = N := by
  obtain ⟨⟨bs, hbs⟩, hrest⟩ := serial_leads b hne hr
  exact ⟨bs.length, fun moves s hs =>
    determined (relay_unconnected V orders) hbs hrest (fun i => ⟨rfl, rfl⟩) hs⟩

/-- The relay has one outcome. Whatever the interleaving has been, the network
goes on to the state the serial relay computes, in a number of moves that is the
same for all runs, and a run that can do nothing more is there. -/
theorem relay_outcome (V : Variant κ ρ) (b : Fin n → Balance)
    (hne : ∀ o ∈ orders, o.src ≠ o.dst) (hr : Reporting V b orders) :
    ∃ N, ∀ moves s, play (relayProtocol n V orders).fire moves (relayStart V b) = some s →
      (∃ more, play (relayProtocol n V orders).fire more s = some (serialNet V b orders) ∧
        moves.length+more.length = N) ∧
      (Stuck (relaySystem V b orders) s → s = serialNet V b orders ∧ moves.length = N) := by
  obtain ⟨N, hN⟩ := goes_on V b hne hr
  refine ⟨N, fun moves s hs => ⟨hN moves s hs, fun hstuck => ?_⟩⟩
  obtain ⟨more, hmore, hlen⟩ := hN moves s hs
  obtain ⟨rfl, hnet⟩ := play_of_atRest (atRest_of_stuck hstuck) hmore
  exact ⟨hnet.symm, hlen⟩

theorem oneOrder_reporting : Reporting simulateBankingChild twoBalances oneOrder := by
  refine ⟨⟨_, rfl⟩, fun _ i => ?_⟩
  fin_cases i
  · exact ⟨rfl, by decide⟩
  · exact ⟨rfl, by decide⟩

theorem relay_outcome_one_order :
    ∃ N, ∀ moves s, play (relayProtocol 2 simulateBankingChild oneOrder).fire moves
        (relayStart simulateBankingChild twoBalances) = some s →
      (∃ more, play (relayProtocol 2 simulateBankingChild oneOrder).fire more s =
          some (serialNet simulateBankingChild twoBalances oneOrder) ∧
        moves.length+more.length = N) ∧
      (Stuck (relaySystem simulateBankingChild twoBalances oneOrder) s →
        s = serialNet simulateBankingChild twoBalances oneOrder ∧ moves.length = N) :=
  relay_outcome simulateBankingChild twoBalances (by decide) oneOrder_reporting

end CrabKeeper.RelayOutcome
