import CrabKeeper.CollectedReports
import CrabKeeper.LedgerPosition

/-!
# Conservation of money

The balances and the amount in flight always add up to the initial balances. No
balance is negative, no debit or credit panics, and the reports the parent
collects show for every account what it started with, paid and received.
-/

set_option autoImplicit false

namespace CrabKeeper.MoneyConservation
open Foundation.Machine Foundation.DoubleEntry Foundation.Transition Foundation.Network
open CrabKeeper.MessageCodec CrabKeeper.BankTypes CrabKeeper.BankAccount CrabKeeper.BankChild
open CrabKeeper.ChildAccounts CrabKeeper.ChildForecast CrabKeeper.RelayParent
open CrabKeeper.RelayInvariant CrabKeeper.CollectedReports CrabKeeper.LedgerPosition

variable {κ ρ : Type} {n : ℕ} {orders : List TransferOrder} {s : BankNet κ ρ n}

def Executed (s : BankNet κ ρ n) (i : Fin n) (k : ℕ) (side : Side) : Prop :=
  ∃ p ∈ (s.cell i).state.ledger, p.order = k ∧ p.side = side

/-- Order `k` is debited at its source and not credited at its destination. -/
def InTransit (orders : List TransferOrder) (s : BankNet κ ρ n) (k : ℕ) : Prop :=
  ∃ o, orders[k]? = some o ∧ (∃ i, childId i = o.src ∧ Executed s i k .debit) ∧
    ¬ ∃ j, childId j = o.dst ∧ Executed s j k .credit

def transitAmount (orders : List TransferOrder) (transit : Option ℕ) : ℤ :=
  match transit.bind (orders[·]?) with
  | some o => o.amount.toInt
  | none => 0

def holdings (s : BankNet κ ρ n) : ℤ := ∑ i, balanceOf (s.cell i).state.account

theorem executed_iff {i : Fin n} {k : ℕ} {side : Side} :
    Executed s i k side ↔ ∃ e ∈ booksOf s i, e.order = k ∧ e.side = side := by
  simp [Executed, booksOf, entriesIn, Posting.entry]

def endOf (side : Side) (o : TransferOrder) : AccountId :=
  match side with
  | .debit => o.src
  | .credit => o.dst

theorem mem_entriesUpTo {k m : ℕ} {i : Fin n} (side : Side) :
    (∃ e ∈ entriesUpTo orders k i, e.order = m ∧ e.side = side) ↔
      m < k ∧ ∃ o, orders[m]? = some o ∧ endOf side o = childId i := by
  have hlook : ∀ j t, ((transfersOf orders).take k)[j]? = some t ↔
      j < k ∧ ∃ o, orders[j]? = some o ∧ asTransfer o = t := by
    intro j t
    rw [List.getElem?_take]
    split_ifs with h <;> simp [h, transfersOf]
  constructor
  · rintro ⟨e, he, rfl, rfl⟩
    obtain ⟨j, t, ht, hmem⟩ := mem_entries.mp he
    obtain ⟨hj, o, ho, rfl⟩ := (hlook j t).mp ht
    rcases mem_entriesOf.mp hmem with ⟨hend, rfl⟩ | ⟨hend, rfl⟩
    · exact ⟨by simpa using hj, o, by simpa using ho, hend⟩
    · exact ⟨by simpa using hj, o, by simpa using ho, hend⟩
  · rintro ⟨hm, o, ho, hend⟩
    refine ⟨⟨m, side, o.amount.toInt⟩, mem_entries.mpr ⟨m, asTransfer o, (hlook _ _).mpr
      ⟨hm, o, ho, rfl⟩, ?_⟩, rfl, rfl⟩
    rw [Nat.zero_add, mem_entriesOf]
    cases side with
    | debit => exact Or.inl ⟨hend, rfl⟩
    | credit => exact Or.inr ⟨hend, rfl⟩

theorem not_inTransit {k m : ℕ} (hto : RelayedTo n orders k) (hm : m < k)
    (hbooks : ∀ i, ∀ e ∈ entriesUpTo orders k i, e ∈ booksOf s i) : ¬ InTransit orders s m := by
  rintro ⟨o, ho, _, hno⟩
  have ht : asTransfer o ∈ (transfersOf orders).take k :=
    List.mem_of_getElem? (i := m) (by rw [List.getElem?_take, if_pos hm]; simp [transfersOf, ho])
  obtain ⟨j, hj⟩ := (hto _ ht).2
  obtain ⟨e, he, hk, hs⟩ := (mem_entriesUpTo (i := j) .credit).mpr ⟨hm, o, ho, hj.symm⟩
  exact hno ⟨j, hj, executed_iff.mpr ⟨e, hbooks j e he, hk, hs⟩⟩

theorem settled_inTransit {k m : ℕ} (h : Settled orders s k) : ¬ InTransit orders s m := by
  intro hm
  have hmem := hm
  obtain ⟨o, ho, ⟨i, hi, hex⟩, _⟩ := hmem
  rw [executed_iff, h.books, mem_entriesUpTo] at hex
  exact not_inTransit h.within hex.1 (fun i e he => by rwa [h.books]) hm

theorem flying_inTransit {k m : ℕ} {o : TransferOrder} (h : Flying orders s k o) :
    InTransit orders s m ↔ m = k := by
  constructor
  · intro hm
    have hmem := hm
    obtain ⟨o', ho, ⟨i, hi, hex⟩, _⟩ := hmem
    obtain ⟨e, he, hk, hs⟩ := executed_iff.mp hex
    rw [h.books] at he
    rcases List.mem_append.mp he with he | he
    · have hlt := ((mem_entriesUpTo _).mp ⟨e, he, hk, hs⟩).1
      exact absurd hm (not_inTransit h.within hlt fun i e he => by
        rw [h.books]
        exact List.mem_append_left _ he)
    · unfold debits at he
      split_ifs at he
      · obtain rfl := List.mem_singleton.mp he
        exact hk.symm
      · cases he
  · rintro rfl
    obtain ⟨x, hx⟩ := h.src
    refine ⟨o, h.order, ⟨x, hx, executed_iff.mpr ⟨⟨m, .debit, o.amount.toInt⟩, ?_, rfl, rfl⟩⟩, ?_⟩
    · rw [h.books, debits, if_pos hx.symm]
      simp
    · rintro ⟨j, hj, hex⟩
      obtain ⟨e, he, hk, hs⟩ := executed_iff.mp hex
      rw [h.books] at he
      rcases List.mem_append.mp he with he | he
      · exact absurd ((mem_entriesUpTo _).mp ⟨e, he, hk, hs⟩).1 (lt_irrefl m)
      · unfold debits at he
        split_ifs at he
        · obtain rfl := List.mem_singleton.mp he
          cases hs
        · cases he

section Runs

variable {V : Variant κ ρ} {b : Fin n → Balance}

theorem accounted (hb : ∀ i, 0 ≤ (b i).toInt) (hs : Reachable (relaySystem V b orders) s)
    (i : Fin n) :
    Accounted V.marksPending (childId i) (b i).toInt (s.cell i).state := by
  refine state_invariant (relayProtocol n V orders) (fun _ _ => True)
    (fun i x => Accounted V.marksPending (childId i) (b i).toInt x) ?_ (fun _ _ _ _ _ => trivial)
    (fun i x h => accounted_step V _ _ _ h) hs i
  rintro s rfl i
  exact .start V _ _ (hb i)

theorem holdings_eq (hb : ∀ i, 0 ≤ (b i).toInt) (hs : Reachable (relaySystem V b orders) s) :
    holdings s = ∑ i, (b i).toInt+∑ i, effect (booksOf s i) := by
  rw [holdings, ← Finset.sum_add_distrib]
  exact Finset.sum_congr rfl fun i _ => (accounted hb hs i).balance

theorem holdings_settled (hn : n ≤ 255) (hb : ∀ i, 0 ≤ (b i).toInt)
    (hs : Reachable (relaySystem V b orders) s) {k : ℕ} (h : Settled orders s k) :
    holdings s = ∑ i, (b i).toInt := by
  rw [holdings_eq hb hs, Finset.sum_congr rfl fun i _ => congrArg effect (h.books i)]
  simp [entriesUpTo, sum_effect (childId_injective hn) 0 _ h.within]

theorem sum_debits (hn : n ≤ 255) {k : ℕ} {o : TransferOrder} {x : Fin n}
    (hx : childId x = o.src) : ∑ i : Fin n, effect (debits (childId i) k o) = -o.amount.toInt := by
  have hone : ∀ i : Fin n, effect (debits (childId i) k o) =
      if x = i then -o.amount.toInt else 0 := by
    intro i
    have : o.src = childId i ↔ x = i := by rw [← hx, (childId_injective hn).eq_iff]
    unfold debits
    split_ifs with h1 h2 h2 <;> simp_all [effect, signed]
  rw [Finset.sum_congr rfl fun i _ => hone i]
  simp

theorem holdings_flying (hn : n ≤ 255) (hb : ∀ i, 0 ≤ (b i).toInt)
    (hs : Reachable (relaySystem V b orders) s) {k : ℕ} {o : TransferOrder}
    (h : Flying orders s k o) : holdings s+o.amount.toInt = ∑ i, (b i).toInt := by
  obtain ⟨x, hx⟩ := h.src
  have hsum : ∑ i, effect (booksOf s i) = -o.amount.toInt := by
    rw [Finset.sum_congr rfl fun i _ => congrArg effect (h.books i)]
    simp only [effect_append, Finset.sum_add_distrib, sum_debits hn hx]
    simp [entriesUpTo, sum_effect (childId_injective hn) 0 _ h.within]
  rw [holdings_eq hb hs, hsum]
  ring

theorem credit_foreseen {id : AccountId} {R : List Envelope} {L : List (Entry ℤ)}
    {c : ChildCell κ ρ} (h : Foreseen id R L c) {k : ℕ} {o : TransferOrder} {now : Timestamp}
    (hph : c.state.phase = .credit k o now) :
    ∃ rest, L = entriesIn c.state.ledger ++ ⟨k, .credit, o.amount.toInt⟩ :: rest ∧
      rest.length+1 ≤ R.countP answersOrder := by
  cases h with
  | running _ hR hL =>
    have hu : unposted id c = ⟨k, .credit, o.amount.toInt⟩ :: duesAll id c.down := by
      rw [unposted, hph]
      rfl
    have hle := unposted_le id c
    refine ⟨_, by rw [← hL, hu], ?_⟩
    rw [hu, List.length_cons] at hle
    rw [← hR, List.countP_append]
    omega
  | stopped _ _ hex => simp [hph, hasExited] at hex

theorem credit_flying (hn : n ≤ 255) (hne : ∀ o ∈ orders, o.src ≠ o.dst)
    (hs : Reachable (relaySystem V b orders) s) {i : Fin n} {k : ℕ} {o : TransferOrder}
    {now : Timestamp} (hph : (s.cell i).state.phase = .credit k o now) :
    ∃ m o', Flying orders s m o' ∧ o'.amount.toInt = o.amount.toInt := by
  obtain ⟨hrel, hcells⟩ := reachable_good V hn b hne hs
  obtain ⟨rest, hL, hle⟩ := credit_foreseen (hcells i) hph
  unfold Relaying at hrel
  unfold Forecast at hcells
  cases hpc : s.parent.pc <;> rw [hpc] at hrel hcells hL hle
  case forwarded m srcIdx dstIdx =>
    obtain ⟨o', hix, _, _, _⟩ := hrel
    simp only [awaited, hix.order] at hle
    split_ifs at hle with hi
    · have hid : childId i = o'.src := childId_of_index hix.src hi
      simp [answersOrder] at hle
      subst hle
      simp only [booked, debitOf, hix.order, debits, hid, if_true] at hL
      have := (List.append_inj' hL rfl).2
      simp at this
    · simp at hle
  case ack m dstIdx =>
    obtain ⟨srcIdx, o', hix, hlts, hltd, hto, _⟩ := hrel
    simp only [awaited] at hle
    split_ifs at hle with hi
    · have hid : childId i = o'.dst := childId_of_index hix.dst hi
      simp [answersOrder] at hle
      subst hle
      have hone := hne o' (List.mem_of_getElem? hix.order)
      simp only [booked, entriesUpTo_succ hix.order, hid, debits, credits, if_neg hone, if_true,
        List.nil_append] at hL
      obtain ⟨hbooks, hentry⟩ := List.append_inj' hL rfl
      have hamount : o'.amount.toInt = o.amount.toInt := by
        simpa using congrArg (List.map Entry.amount) hentry
      rcases position_ack hn hne hix hlts hltd hto hcells with hset | hfly
      · have := hset.books i
        rw [booksOf, ← hbooks, entriesUpTo_succ hix.order, hid, credits, if_pos rfl] at this
        simp at this
      · exact ⟨m, o', hfly, hamount⟩
    · simp at hle
  all_goals
    simp only [awaited] at hle
    (try split_ifs at hle) <;> simp [answersOrder, closing] at hle

theorem credit_fits (hn : n ≤ 255) (hb : ∀ i, 0 ≤ (b i).toInt) (hsum : ∑ i, (b i).toInt < 2^63)
    (hne : ∀ o ∈ orders, o.src ≠ o.dst) (hs : Reachable (relaySystem V b orders) s) {i : Fin n}
    {k : ℕ} {o : TransferOrder} {now : Timestamp}
    (hph : (s.cell i).state.phase = .credit k o now) :
    balanceOf (s.cell i).state.account+o.amount.toInt < 2^63 := by
  obtain ⟨m, o', hfly, hamount⟩ := credit_flying hn hne hs hph
  have htotal := holdings_flying hn hb hs hfly
  have hle : balanceOf (s.cell i).state.account ≤ holdings s :=
    Finset.single_le_sum (f := fun i => balanceOf (s.cell i).state.account)
      (fun i _ => (accounted hb hs i).nonneg) (Finset.mem_univ i)
  omega

/-- What the parent has collected when it is through. -/
structure Collected (orders : List TransferOrder) (b : Fin n → Balance) (s : BankNet κ ρ n)
    (i : Fin n) (h : BalanceHistory) (last : BalanceState) : Prop where
  kept : s.parent.histories[i.val]? = some h
  sameId : h.id = childId i
  final : h.states.getLast? = some last
  balance : last.balance.toInt =
    (b i).toInt-outgoing (childId i) (transfersOf orders)+incoming (childId i) (transfersOf orders)

theorem collected_of_finished (hn : n ≤ 255) (hb : ∀ i, 0 ≤ (b i).toInt)
    (hne : ∀ o ∈ orders, o.src ≠ o.dst) (hs : Reachable (relaySystem V b orders) s)
    (hpc : s.parent.pc = .finished) :
    s.parent.histories.length = n ∧ holdings s = ∑ i, (b i).toInt ∧
      ∀ i, ∃ h last, Collected orders b s i h last ∧
        balanceOf (s.cell i).state.account = last.balance.toInt := by
  obtain ⟨hrel, hcells⟩ := reachable_good V hn b hne hs
  rw [Relaying, hpc] at hrel
  have hset : Settled orders s orders.length := by
    refine ⟨hrel.1, fun i => (hcells i).settled ?_ |>.trans ?_⟩ <;> rw [hpc] <;> rfl
  refine ⟨hrel.2, holdings_settled hn hb hs hset, fun i => ?_⟩
  have hacc := accounted hb hs i
  have hi : i.val < s.parent.histories.length := by
    rw [hrel.2]
    exact i.isLt
  have hkept := List.getElem?_eq_getElem hi
  have hsame := (reachable_reported V hn b hne hs i).kept _ hkept |>.2
  have hlast : lastOf (s.cell i).state.account = some _ :=
    List.getLast?_eq_some_getLast hacc.wellFormed.nonempty
  have hbal := balanceOf_eq hlast
  have hbooks : effect (entriesIn (s.cell i).state.ledger) =
      effect (entriesUpTo orders orders.length i) := congrArg effect (hset.books i)
  have htake : (transfersOf orders).take orders.length = transfersOf orders :=
    List.take_of_length_le (by simp [transfersOf])
  refine ⟨_, _, ⟨hkept, ?_, by rw [hsame]; exact hlast, ?_⟩, hbal⟩
  · rw [hsame, hacc.wellFormed.sameId, hacc.sameId]
  · rw [← hbal, hacc.balance, hbooks, entriesUpTo, htake, effect_entries]
    ring

end Runs

/-- Conservation of money over whole banking runs, for every variant of the
child loop: in every reachable state the balances and the amount of the one
order in transit add up to the initial balances, no balance is negative and no
debit or credit overflows; and the reports collected by a parent that is through
show for each account what it had, paid and received. -/
theorem money_conserved (V : Variant κ ρ) (hn : n ≤ 255) (b : Fin n → Balance)
    (hb : ∀ i, 0 ≤ (b i).toInt) (hsum : ∑ i, (b i).toInt < 2^63)
    (hne : ∀ o ∈ orders, o.src ≠ o.dst) (hs : Reachable (relaySystem V b orders) s) :
    (∃ transit, (∀ k, InTransit orders s k ↔ transit = some k) ∧
      holdings s+transitAmount orders transit = ∑ i, (b i).toInt) ∧
    (∀ i, 0 ≤ balanceOf (s.cell i).state.account) ∧
    (∀ i k payload o now, (s.cell i).state.phase = .debit k payload o now →
      ∃ r, (s.cell i).state.account.debit o.amount now = .ok r) ∧
    (∀ i k o now, (s.cell i).state.phase = .credit k o now →
      ∃ r, (s.cell i).state.account.credit o.amount now = .ok r) ∧
    (s.parent.pc = .finished → s.parent.histories.length = n ∧
      ∃ (h : Fin n → BalanceHistory) (last : Fin n → BalanceState),
        (∀ i, Collected orders b s i (h i) (last i)) ∧
        ∑ i, (last i).balance.toInt = ∑ i, (b i).toInt) := by
  have hacc := accounted hb hs
  refine ⟨?_, fun i => (hacc i).nonneg, ?_, ?_, ?_⟩
  · rcases position V hn b hne hs with ⟨k, hset⟩ | ⟨k, o, hfly⟩
    · refine ⟨none, fun m => ⟨fun hm => absurd hm (settled_inTransit hset),
        fun h => by cases h⟩, ?_⟩
      rw [holdings_settled hn hb hs hset]
      simp [transitAmount]
    · refine ⟨some k, fun m => ?_, ?_⟩
      · rw [flying_inTransit hfly, Option.some.injEq]
        exact eq_comm
      · rw [← holdings_flying hn hb hs hfly]
        simp [transitAmount, hfly.order]
  · intro i k payload o now _
    rcases debit_cases (hacc i).wellFormed o.amount now with ⟨e, he, _⟩ | ⟨_, a, ha, _⟩
    · exact ⟨_, he⟩
    · exact ⟨_, ha⟩
  · intro i k o now hph
    rcases credit_moved (hacc i).wellFormed o.amount now with ⟨e, he, _⟩ | ⟨_, ho⟩ | ⟨a, ha, _⟩
    · exact ⟨_, he⟩
    · have := credit_fits hn hb hsum hne hs hph
      omega
    · exact ⟨_, ha⟩
  · intro hpc
    obtain ⟨hlen, htotal, hall⟩ := collected_of_finished hn hb hne hs hpc
    choose h last hcol hbal using hall
    refine ⟨hlen, h, last, hcol, ?_⟩
    rw [← htotal]
    exact Finset.sum_congr rfl fun i _ => (hbal i).symm

theorem money_conserved_one_order :
    ∃ s : BankNet Clocks.PhysicalClock (Except ChannelFraming.IoError Unit) 2,
      s.parent.pc = .finished ∧ s.parent.histories.length = 2 ∧
      ∃ (h : Fin 2 → BalanceHistory) (last : Fin 2 → BalanceState),
        (∀ i, Collected oneOrder twoBalances s i (h i) (last i)) ∧
        ∑ i, (last i).balance.toInt = ∑ i, (twoBalances i).toInt := by
  have hplay : (play (relayProtocol 2 simulateBankingChild oneOrder).fire completeRun
      (relayStart simulateBankingChild twoBalances)).map (·.parent.pc) = some .finished := by
    decide +kernel
  obtain ⟨s, l, hl, hpc⟩ := relay_play completeRun _ hplay
  have hs := reachable_of_run hl s (by simp)
  exact ⟨s, hpc, (money_conserved simulateBankingChild (by decide) twoBalances (by decide)
    (by decide) (by decide) hs).2.2.2.2 hpc⟩

end CrabKeeper.MoneyConservation
