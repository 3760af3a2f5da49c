import CrabKeeper.MoneyConservation

/-!
# The logical times of debits and credits

No message carries a timestamp, and the loop increments its own clock where it
could have updated it from the sender's. The time recorded by a posting is
therefore a function of how many postings its own account made before it, with
either clock.
-/

set_option autoImplicit false

namespace CrabKeeper.RecordedTimes
open Foundation.Machine Foundation.DoubleEntry Foundation.Transition Foundation.Network
open CrabKeeper.MessageCodec CrabKeeper.ChannelFraming CrabKeeper.BankTypes
open CrabKeeper.BankAccount CrabKeeper.BankChild CrabKeeper.ChildAccounts CrabKeeper.ChildForecast
open CrabKeeper.RelayParent CrabKeeper.RelayInvariant CrabKeeper.LedgerPosition
open CrabKeeper.MoneyConservation CrabKeeper.Clocks

variable {κ ρ : Type} {n : ℕ} {orders : List TransferOrder}

def Addressed (orders : List TransferOrder) (id : AccountId) (e : Envelope) : Prop :=
  e.msg = .stop ∨ ∃ k o, orders[k]? = some o ∧ e = ⟨k, .transfer o.toBytes⟩ ∧
    (o.src = id ∨ o.dst = id)

theorem sendTo_eq_send {p none next : Relay} {i : Option (Fin n)} {e m : Envelope} {x : Fin n}
    {f : Except IoError Unit → Relay} (h : sendTo p i none e next = .send x m f) :
    i = some x ∧ e = m := by
  cases i with
  | none => cases h
  | some y =>
    cases h
    exact ⟨rfl, rfl⟩

theorem recvFrom_ne_send {p none : Relay} {i : Option (Fin n)} {next : Envelope → Relay}
    {m : Envelope} {x : Fin n} {f : Except IoError Unit → Relay} :
    recvFrom p i none next ≠ .send x m f := by
  cases i <;> intro h <;> cases h

theorem parent_addresses {p : Relay} {x : Fin n} {m : Envelope} {f : Except IoError Unit → Relay}
    (hrel : Relaying n orders p) (h : relayParent orders p = .send x m f) :
    Addressed orders (childId x) m := by
  obtain ⟨pc, panicked, hs⟩ := p
  cases panicked with
  | true => cases h
  | false =>
    cases pc with
    | started j => exact absurd h recvFrom_ne_send
    | forwarded k srcIdx dstIdx => exact absurd h recvFrom_ne_send
    | ack k dstIdx => exact absurd h recvFrom_ne_send
    | done j => exact absurd h recvFrom_ne_send
    | history j => exact absurd h recvFrom_ne_send
    | decode j report => cases h
    | finished => cases h
    | stop j =>
      obtain ⟨_, rfl⟩ := sendTo_eq_send h
      exact Or.inl rfl
    | relay k dstIdx relayed =>
      obtain ⟨srcIdx, o, hix, _, rfl, _⟩ := hrel
      obtain ⟨hx, rfl⟩ := sendTo_eq_send h
      exact Or.inr ⟨k, o, hix.order, rfl,
        Or.inr (childId_of_index hix.dst (streamAt_eq_some.mp hx)).symm⟩
    | order k =>
      cases ho : orders[k]? with
      | none =>
        rw [relayParent_none ho] at h
        cases h
      | some o =>
        rw [relayParent_some ho, doTransfer] at h
        split at h
        · cases h
        · next srcIdx hsrc =>
          split at h
          · cases h
          · obtain ⟨hx, rfl⟩ := sendTo_eq_send h
            exact Or.inr ⟨k, o, ho, rfl,
              Or.inl (childId_of_index hsrc (streamAt_eq_some.mp hx)).symm⟩

theorem queue_addressed {V : Variant κ ρ} (hn : n ≤ 255) {b : Fin n → Balance}
    (hne : ∀ o ∈ orders, o.src ≠ o.dst) (s : BankNet κ ρ n)
    (hs : Reachable (relaySystem V b orders) s) (i : Fin n) :
    ∀ e ∈ (s.cell i).down, Addressed orders (childId i) e := by
  refine queue_invariant (relayProtocol n V orders) (fun i => Addressed orders (childId i)) ?_ ?_
    hs i
  · rintro s rfl i e he
    cases he
  · exact fun s hr i m next ha => parent_addresses (reachable_good V hn b hne hr).1 ha

/-- The metre of a child's clock: its reading before an order and while one is
executed, and the time it stamps, after so many postings. -/
structure Metre (V : Variant κ ρ) where
  reading : κ → ℕ
  stride : ℕ
  idle : ℕ
  busy : ℕ
  stamp : ℕ
  starts : ∀ c, V.depart V.fresh = .ok c → reading c = idle
  receives : ∀ k c c₀ now c', reading c = stride*k+idle → V.arrive c = .ok c₀ →
    V.stamp c₀ = .ok (now, c') → reading c' = stride*k+busy ∧ now.toNat = stride*k+stamp
  departs : ∀ k c c', reading c = stride*k+busy → V.depart c = .ok c' →
    reading c' = stride*(k+1)+idle

theorem lamport_depart {success : BranchAccount → ρ} {failure : IoError → ρ} {c c' : LamportClock}
    (h : (lamportChild success failure).depart c = .ok c') : c'.time.toNat = c.time.toNat+1 := by
  obtain ⟨⟨v, c''⟩, hinc, heq⟩ := bind_eq_ok.mp h
  obtain rfl := Except.ok.inj heq
  obtain ⟨hv, rfl⟩ := increment_eq_ok.mp hinc
  exact hv

def lamportMetre (success : BranchAccount → ρ) (failure : IoError → ρ) :
    Metre (lamportChild success failure) where
  reading c := c.time.toNat
  stride := 2
  idle := 1
  busy := 2
  stamp := 2
  starts c hc := lamport_depart hc
  receives k c c₀ now c' hc harrive hstamp := by
    obtain ⟨rfl, rfl⟩ := Prod.mk.inj (Except.ok.inj hstamp)
    change (lamportChild success failure).depart c = .ok c₀ at harrive
    have htick : c₀.time.toNat = 2*k+2 := (lamport_depart harrive).trans (congrArg (·+1) hc)
    exact ⟨htick, htick⟩
  departs k c c' hc hdepart := (lamport_depart hdepart).trans (by rw [hc]; ring)

def physicalMetre (success : BranchAccount → ρ) (failure : IoError → ρ) :
    Metre (physicalChild success failure) where
  reading c := c.current.toNat
  stride := 1
  idle := 0
  busy := 1
  stamp := 0
  starts c hc := by
    obtain rfl := Except.ok.inj hc
    rfl
  receives k c c₀ now c' hc harrive hstamp := by
    obtain rfl := Except.ok.inj harrive
    obtain ⟨t, hadd, heq⟩ := bind_eq_ok.mp hstamp
    obtain ⟨rfl, rfl⟩ := Prod.mk.inj (Except.ok.inj heq)
    exact ⟨(addU64_eq_ok.mp hadd).trans (congrArg (·+1) hc), hc⟩
  departs k c c' hc hdepart := by
    obtain rfl := Except.ok.inj hdepart
    rw [hc]
    ring

/-- Posting `j` bears the time `stride*j+stamp`. -/
structure Rhythm {V : Variant κ ρ} (M : Metre V) (id : AccountId) (x : ChildState κ ρ) :
    Prop where
  wellFormed : WellFormed x.account
  times : ∀ j p, x.ledger[j]? = some p → p.time.toNat = M.stride*j+M.stamp
  beat : match x.phase with
    | .launch => x.clock = V.fresh ∧ x.ledger = []
    | .started | .receive | .acknowledge _ =>
      M.reading x.clock = M.stride*x.ledger.length+M.idle
    | .debit _ _ order now => M.reading x.clock = M.stride*x.ledger.length+M.busy ∧
        now.toNat = M.stride*x.ledger.length+M.stamp ∧ order.dst ≠ id
    | .forward _ _ order _ =>
      M.reading x.clock = M.stride*x.ledger.length+M.idle ∧ order.dst ≠ id
    | .credit _ _ now => M.reading x.clock = M.stride*x.ledger.length+M.busy ∧
        now.toNat = M.stride*x.ledger.length+M.stamp
    | .done | .report | .exited _ => True

section Rhythm

variable {V : Variant κ ρ} {M : Metre V} {id : AccountId} {x : ChildState κ ρ}

theorem Rhythm.exit (h : Rhythm M id x) (r : Checked ρ) : Rhythm M id (x.exit r) :=
  ⟨h.wellFormed, h.times, trivial⟩

theorem Rhythm.tick (hwf : WellFormed x.account)
    (htimes : ∀ j p, x.ledger[j]? = some p → p.time.toNat = M.stride*j+M.stamp) {ph : Phase ρ}
    (hbeat : ∀ c, V.depart x.clock = .ok c → Rhythm M id { x with clock := c, phase := ph }) :
    Rhythm M id (x.tick V.depart ph) := by
  unfold ChildState.tick
  split
  · exact ⟨hwf, htimes, trivial⟩
  · next c hc => exact hbeat c hc

theorem Rhythm.posted (h : Rhythm M id x) {a : BranchAccount} {now : Timestamp}
    (htime : timeOf a = now) (hnow : now.toNat = M.stride*x.ledger.length+M.stamp) (k : ℕ)
    (side : Side) (amount : Balance) : ∀ j p, (x.post k side amount a).ledger[j]? = some p →
      p.time.toNat = M.stride*j+M.stamp := by
  intro j p hp
  rcases Nat.lt_trichotomy j x.ledger.length with hj | hj | hj
  · rw [ChildState.post, List.getElem?_append_left hj] at hp
    exact h.times j p hp
  · subst hj
    simp only [ChildState.post, List.getElem?_concat_length, Option.some.injEq] at hp
    subst hp
    rw [htime, hnow]
  · rw [ChildState.post, List.getElem?_eq_none (by simp; omega)] at hp
    cases hp

theorem Rhythm.post (h : Rhythm M id x) {k : ℕ} {side : Side} {amount : Balance}
    {a : BranchAccount} {now : Timestamp} {ph : Phase ρ} (ha : WellFormed a)
    (htime : timeOf a = now) (hclock : M.reading x.clock = M.stride*x.ledger.length+M.busy)
    (hnow : now.toNat = M.stride*x.ledger.length+M.stamp)
    (hbeat : ∀ (c : κ) (l : List Posting), M.reading c = M.stride*l.length+M.idle →
      (∀ j p, l[j]? = some p → p.time.toNat = M.stride*j+M.stamp) → Rhythm M id ⟨ph, a, c, l⟩) :
    Rhythm M id ((x.post k side amount a).tick V.depart ph) := by
  have htimes := h.posted htime hnow k side amount
  refine Rhythm.tick ha htimes fun c hc => hbeat c _ ?_ htimes
  rw [ChildState.post, List.length_append, List.length_singleton]
  exact M.departs _ _ _ hclock hc

theorem Rhythm.onTransfer (h : Rhythm M id x) (hph : x.phase = .receive) {c : κ}
    (hc : V.arrive x.clock = .ok c) {k : ℕ} {o : TransferOrder} (hne : o.src ≠ o.dst)
    (hpart : o.src = id ∨ o.dst = id) :
    Rhythm M id (onTransfer V id { x with clock := c } k o.toBytes) := by
  have hbeat := h.beat
  rw [hph] at hbeat
  unfold BankChild.onTransfer
  rw [order_fromBytes_toBytes]
  dsimp only
  split
  · exact ⟨h.wellFormed, h.times, trivial⟩
  · next now c' hstamp =>
    obtain ⟨hclock, hnow⟩ := M.receives _ _ _ _ _ hbeat hc hstamp
    refine ⟨h.wellFormed, h.times, ?_⟩
    by_cases hsrc : o.src = id
    · have hdst : o.dst ≠ id := fun hdst => hne (hsrc.trans hdst.symm)
      rw [if_pos hsrc]
      exact ⟨hclock, hnow, hdst⟩
    · rw [if_neg hsrc, destination, if_pos (hpart.resolve_left hsrc)]
      exact ⟨hclock, hnow⟩

theorem Rhythm.onMessage (h : Rhythm M id x) (hph : x.phase = .receive)
    (hne : ∀ o ∈ orders, o.src ≠ o.dst) {e : Envelope} (he : Addressed orders id e) :
    Rhythm M id (onMessage V id x e) := by
  unfold BankChild.onMessage
  split
  · exact h.exit _
  · next c hc =>
    dsimp only
    rcases he with hstop | ⟨k, o, ho, rfl, hpart⟩
    · rw [hstop]
      exact Rhythm.tick (x := { x with clock := c }) h.wellFormed h.times fun c' _ =>
        ⟨h.wellFormed, h.times, trivial⟩
    · exact h.onTransfer hph hc (hne o (List.mem_of_getElem? ho)) hpart

theorem Rhythm.onDebit (h : Rhythm M id x) {k : ℕ} {payload : List UInt8} {o : TransferOrder}
    {now : Timestamp} (hph : x.phase = .debit k payload o now) :
    Rhythm M id (onDebit V x k payload o now) := by
  have hbeat := h.beat
  rw [hph] at hbeat
  unfold BankChild.onDebit
  rcases debitAndMark_cases h.wellFormed V.marksPending o.amount now
    with ⟨e, he, _⟩ | ⟨a, ha, _, _, hm⟩
  · rw [he]
    exact h.exit _
  · rw [ha]
    exact h.post hm.wellFormed hm.time hbeat.1 hbeat.2.1 fun c l hc hl =>
      ⟨hm.wellFormed, hl, hc, hbeat.2.2⟩

theorem Rhythm.onCredit (h : Rhythm M id x) {k : ℕ} {o : TransferOrder} {now : Timestamp}
    (hph : x.phase = .credit k o now) : Rhythm M id (onCredit V x k o now) := by
  have hbeat := h.beat
  rw [hph] at hbeat
  unfold BankChild.onCredit
  rcases credit_moved h.wellFormed o.amount now with ⟨e, he, _⟩ | ⟨ho, _⟩ | ⟨a, ha, _, hm⟩
  · rw [he]
    exact h.exit _
  · rw [ho]
    exact h.exit _
  · rw [ha]
    exact h.post hm.wellFormed hm.time hbeat.1 hbeat.2 fun c l hc hl => ⟨hm.wellFormed, hl, hc⟩

/-- The step lemma, one case for each phase. -/
theorem rhythm_step (hne : ∀ o ∈ orders, o.src ≠ o.dst) (h : Rhythm M id x) :
    (bankingChild V id x).All (Addressed orders id) (Rhythm M id) := by
  have hsend : ∀ e next, Rhythm M id next →
      (sending V x e next).All (Addressed orders id) (Rhythm M id) := by
    intro e next hnext r
    cases r with
    | ok _ => exact hnext
    | error err => exact h.exit _
  have hbeat := h.beat
  cases hph : x.phase <;> rw [hph] at hbeat <;> simp only [bankingChild, hph]
  case launch =>
    refine Rhythm.tick h.wellFormed h.times fun c hc => ⟨h.wellFormed, h.times, ?_⟩
    rw [hbeat.1] at hc
    change M.reading c = M.stride*x.ledger.length+M.idle
    rw [hbeat.2, M.starts c hc]
    simp
  case receive => exact ⟨fun e he => h.onMessage hph hne he, fun e => h.exit _⟩
  case debit k payload o now => exact h.onDebit hph
  case credit k o now => exact h.onCredit hph
  case forward k payload o now =>
    refine hsend _ _ ⟨h.wellFormed, h.times, ?_⟩
    rw [ChildState.goto, destination, if_neg hbeat.2]
    exact hbeat.1
  case started => exact hsend _ _ ⟨h.wellFormed, h.times, hbeat⟩
  case acknowledge k => exact hsend _ _ ⟨h.wellFormed, h.times, hbeat⟩
  case done => exact hsend _ _ ⟨h.wellFormed, h.times, trivial⟩
  case report => exact hsend _ _ (h.exit _)
  case exited r => trivial

theorem reachable_rhythm (M : Metre V) (hn : n ≤ 255) {b : Fin n → Balance}
    (hne : ∀ o ∈ orders, o.src ≠ o.dst) {s : BankNet κ ρ n}
    (hs : Reachable (relaySystem V b orders) s) (i : Fin n) :
    Rhythm M (childId i) (s.cell i).state := by
  refine state_invariant (relayProtocol n V orders)
    (fun i => Addressed orders (childId i)) (fun i => Rhythm M (childId i)) ?_
    (fun s hr => queue_addressed hn hne s hr) (fun i x h => rhythm_step hne h) hs i
  rintro s rfl i
  exact ⟨new_wellFormed _ _, fun j p hp => (by cases hp), rfl, rfl⟩

end Rhythm

/-- How many of the first `k+1` orders account `a` takes part in. -/
def partsIn (orders : List TransferOrder) (a : AccountId) (k : ℕ) : ℕ :=
  ((transfersOf orders).take (k+1)).countP (involves a)

theorem books_initial {s : BankNet κ ρ n}
    (h : (∃ k, Settled orders s k) ∨ ∃ k o, Flying orders s k o) (i : Fin n) :
    booksOf s i <+: entries (childId i) 0 (transfersOf orders) := by
  have hinitial : ∀ k, entriesUpTo orders k i <+: entries (childId i) 0 (transfersOf orders) := by
    intro k
    have := entries_append (childId i) 0 ((transfersOf orders).take k) ((transfersOf orders).drop k)
    rw [List.take_append_drop] at this
    exact ⟨_, this.symm⟩
  rcases h with ⟨k, hset⟩ | ⟨k, o, hfly⟩
  · rw [hset.books]
    exact hinitial k
  · refine List.IsPrefix.trans ?_ (hinitial (k+1))
    rw [hfly.books, entriesUpTo_succ hfly.order, ← List.append_assoc]
    exact ⟨_, rfl⟩

theorem posting_order {V : Variant κ ρ} (hn : n ≤ 255) {b : Fin n → Balance}
    (hne : ∀ o ∈ orders, o.src ≠ o.dst) {s : BankNet κ ρ n}
    (hs : Reachable (relaySystem V b orders) s) {i : Fin n} {p : Posting}
    (hp : p ∈ (s.cell i).state.ledger) :
    ∃ o, orders[p.order]? = some o ∧ endOf p.side o = childId i := by
  have hmem : p.entry ∈ booksOf s i := List.mem_map_of_mem hp
  have hall := (books_initial (position V hn b hne hs) i).subset hmem
  have htake : (transfersOf orders).take orders.length = transfersOf orders :=
    List.take_of_length_le (by simp [transfersOf])
  rw [← htake] at hall
  exact ((mem_entriesUpTo _).mp ⟨p.entry, hall, rfl, rfl⟩).2

/-- The posting at position `j` of a ledger is the one of its account's
`j+1`-st order. -/
theorem posting_position {V : Variant κ ρ} (hn : n ≤ 255) {b : Fin n → Balance}
    (hne : ∀ o ∈ orders, o.src ≠ o.dst) {s : BankNet κ ρ n}
    (hs : Reachable (relaySystem V b orders) s) {i : Fin n} {p : Posting} {j : ℕ}
    (hj : (s.cell i).state.ledger[j]? = some p) : partsIn orders (childId i) p.order = j+1 := by
  have hbooks : (booksOf s i)[j]? = some p.entry := by
    rw [booksOf, entriesIn, List.getElem?_map, hj]
    rfl
  have hentry : (entries (childId i) 0 (transfersOf orders))[j]? = some p.entry := by
    obtain ⟨hlt, hget⟩ := List.getElem?_eq_some_iff.mp hbooks
    rw [List.prefix_iff_getElem?.mp (books_initial (position _ hn b hne hs) i) j hlt, hget]
  obtain ⟨k, t, hk, hinv, horder, hcount⟩ := entries_index (fun t ht => by
    obtain ⟨o, ho, rfl⟩ := List.mem_map.mp ht
    exact hne o ho) hentry
  have hpk : p.order = k := horder.trans (Nat.zero_add k)
  rw [hpk, partsIn, List.take_add_one, hk, List.countP_append, hcount]
  simp [hinv]

theorem posting_time {V : Variant κ ρ} (M : Metre V) (hn : n ≤ 255) {b : Fin n → Balance}
    (hne : ∀ o ∈ orders, o.src ≠ o.dst) {s : BankNet κ ρ n}
    (hs : Reachable (relaySystem V b orders) s) {i : Fin n} {p : Posting}
    (hp : p ∈ (s.cell i).state.ledger) :
    p.time.toNat+M.stride = M.stride*partsIn orders (childId i) p.order+M.stamp := by
  obtain ⟨j, hj⟩ := List.getElem?_of_mem hp
  rw [(reachable_rhythm M hn hne hs i).times j p hj, posting_position hn hne hs hj]
  ring

/-- Every debit and credit records twice the number of orders, up to its own, in
which its account takes part. So the debit of a completed order has the smaller
time exactly if the source took part in fewer of them than the destination. -/
theorem recorded_times {success : BranchAccount → ρ} {failure : IoError → ρ} (hn : n ≤ 255)
    {b : Fin n → Balance} (hne : ∀ o ∈ orders, o.src ≠ o.dst) {s : BankNet LamportClock ρ n}
    (hs : Reachable (relaySystem (lamportChild success failure) b orders) s) :
    (∀ i, ∀ p ∈ (s.cell i).state.ledger,
      p.time.toNat = 2*partsIn orders (childId i) p.order) ∧
    ∀ i j, ∀ p ∈ (s.cell i).state.ledger, ∀ q ∈ (s.cell j).state.ledger,
      p.order = q.order → p.side = .debit → q.side = .credit →
      ∃ o, orders[p.order]? = some o ∧ childId i = o.src ∧ childId j = o.dst ∧
        p.time.toNat = 2*partsIn orders o.src p.order ∧
        q.time.toNat = 2*partsIn orders o.dst p.order ∧
        (p.time < q.time ↔ partsIn orders o.src p.order < partsIn orders o.dst p.order) := by
  have htime : ∀ i, ∀ p ∈ (s.cell i).state.ledger,
      p.time.toNat = 2*partsIn orders (childId i) p.order := fun i p hp =>
    Nat.add_right_cancel (posting_time (lamportMetre success failure) hn hne hs hp)
  refine ⟨htime, fun i j p hp q hq hpq hdebit hcredit => ?_⟩
  obtain ⟨o, ho, hi⟩ := posting_order hn hne hs hp
  obtain ⟨o', ho', hj⟩ := posting_order hn hne hs hq
  rw [← hpq, ho] at ho'
  obtain rfl := Option.some.inj ho'
  rw [hdebit] at hi
  rw [hcredit] at hj
  have hsrc := htime i p hp
  have hdst := htime j q hq
  rw [← hi] at hsrc
  rw [← hj, ← hpq] at hdst
  refine ⟨o, ho, hi.symm, hj.symm, hsrc, hdst, ?_⟩
  rw [UInt64.lt_iff_toNat_lt]
  change _ ↔ partsIn orders (endOf .debit o) p.order < partsIn orders (endOf .credit o) p.order
  omega

theorem completeRun_ledgers :
    (play (relayProtocol 2 simulateBankingChildWithLamport oneOrder).fire completeRun
      (relayStart simulateBankingChildWithLamport twoBalances)).map
        (fun s => ((s.cell 0).state.ledger, (s.cell 1).state.ledger)) =
      some ([⟨0, .debit, 30, 2⟩], [⟨0, .credit, 30, 2⟩]) := by
  decide +kernel

theorem recorded_times_complete_run :
    ∃ s, Reachable (relaySystem simulateBankingChildWithLamport twoBalances oneOrder) s ∧
      ∃ o, oneOrder[0]? = some o ∧ childId (0 : Fin 2) = o.src ∧ childId (1 : Fin 2) = o.dst ∧
        (2 : UInt64).toNat = 2*partsIn oneOrder o.src 0 ∧
        (2 : UInt64).toNat = 2*partsIn oneOrder o.dst 0 ∧
        ((2 : UInt64) < 2 ↔ partsIn oneOrder o.src 0 < partsIn oneOrder o.dst 0) := by
  obtain ⟨s, l, hl, hled⟩ := relay_play completeRun _ completeRun_ledgers
  obtain ⟨h0, h1⟩ := Prod.mk.inj hled
  have hs := reachable_of_run hl s (by simp)
  exact ⟨s, hs, (recorded_times (by decide) (by decide) hs).2 0 1 ⟨0, .debit, 30, 2⟩
    (by rw [h0]; simp) ⟨0, .credit, 30, 2⟩ (by rw [h1]; simp) rfl rfl rfl⟩

/-- A single order is debited and credited at the same logical time. -/
theorem debit_not_before_credit :
    ¬ ∀ s, Reachable (relaySystem simulateBankingChildWithLamport twoBalances oneOrder) s →
      ∀ i j, ∀ p ∈ (s.cell i).state.ledger, ∀ q ∈ (s.cell j).state.ledger,
        p.order = q.order → p.side = .debit → q.side = .credit → p.time < q.time := by
  intro hall
  obtain ⟨s, l, hl, hled⟩ := relay_play completeRun _ completeRun_ledgers
  obtain ⟨h0, h1⟩ := Prod.mk.inj hled
  have := hall s (reachable_of_run hl s (by simp)) 0 1 ⟨0, .debit, 30, 2⟩ (by rw [h0]; simp)
    ⟨0, .credit, 30, 2⟩ (by rw [h1]; simp) rfl rfl rfl
  exact absurd this (by decide)

end CrabKeeper.RecordedTimes
