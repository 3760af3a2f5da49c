import CrabKeeper.MoneyConservation

/-!
# The documented pending invariant

The sum of balance and pending amount over the last snapshots is documented to
be constant at every consistent cut. The source marks a debit as pending in its
own history and nothing clears the mark when the destination credits the order,
so the sum is right up to the first credit of a run and wrong right after it.
-/

set_option autoImplicit false

namespace CrabKeeper.PendingInvariant
open Foundation.Machine Foundation.DoubleEntry Foundation.Transition Foundation.Network
open CrabKeeper.ChannelFraming CrabKeeper.BankTypes CrabKeeper.BankAccount CrabKeeper.BankChild
open CrabKeeper.ChildAccounts CrabKeeper.ChildForecast CrabKeeper.RelayParent
open CrabKeeper.RelayInvariant CrabKeeper.LedgerPosition CrabKeeper.MoneyConservation

variable {κ ρ : Type} {n : ℕ} {orders : List TransferOrder} {s t : BankNet κ ρ n}

/-- The sum of `balance + pending_in` over the last recorded snapshots. -/
def recordedTotal (s : BankNet κ ρ n) : ℤ :=
  ∑ i, (balanceOf (s.cell i).state.account+pendingOf (s.cell i).state.account)

def Uncredited (s : BankNet κ ρ n) : Prop :=
  ∀ i, ∀ p ∈ (s.cell i).state.ledger, p.side ≠ .credit

def markOf (es : List (Entry ℤ)) : ℤ :=
  match es.getLast? with
  | some e => if e.side = .debit then e.amount else 0
  | none => 0

theorem pendingDue_eq (ledger : List Posting) :
    pendingDue true ledger = markOf (entriesIn ledger) := by
  rw [pendingDue, markOf, entriesIn, List.getLast?_map]
  cases ledger.getLast? with
  | none => rfl
  | some p => simp [Posting.entry]

theorem uncredited_entries (hs : Uncredited s) {i : Fin n} {e : Entry ℤ} (he : e ∈ booksOf s i) :
    e.side = .debit := by
  obtain ⟨p, hp, rfl⟩ := List.mem_map.mp he
  have := hs i p hp
  revert this
  simp only [Posting.entry]
  cases p.side <;> simp

theorem nothing_behind {k : ℕ} (hs : Uncredited s) (hto : RelayedTo n orders k)
    (hbooks : ∀ i, ∀ e ∈ entriesUpTo orders k i, e ∈ booksOf s i) :
    (transfersOf orders).take k = [] := by
  rw [List.eq_nil_iff_forall_not_mem]
  intro u hu
  obtain ⟨m, hm⟩ := List.getElem?_of_mem hu
  obtain ⟨j, hj⟩ := (hto u hu).2
  have hmem : (⟨m, .credit, u.amount⟩ : Entry ℤ) ∈ entriesUpTo orders k j :=
    mem_entries.mpr ⟨m, u, hm, mem_entriesOf.mpr (Or.inr ⟨hj.symm, by simp⟩)⟩
  exact absurd (uncredited_entries hs (hbooks j _ hmem)) (by simp)

section Runs

variable {success : BranchAccount → ρ} {failure : IoError → ρ} {b : Fin n → Balance}

theorem recordedTotal_eq {s : BankNet Clocks.LamportClock ρ n} (hb : ∀ i, 0 ≤ (b i).toInt)
    (hs : Reachable (relaySystem (lamportChild success failure) b orders) s) :
    recordedTotal s = holdings s+∑ i, markOf (booksOf s i) := by
  rw [recordedTotal, Finset.sum_add_distrib, holdings]
  congr 1
  refine Finset.sum_congr rfl fun i _ => ?_
  rw [(accounted hb hs i).pending]
  exact pendingDue_eq _

theorem sum_marks (hn : n ≤ 255) {k : ℕ} {o : TransferOrder} {x : Fin n}
    (hx : childId x = o.src) : ∑ i : Fin n, markOf (debits (childId i) k o) = o.amount.toInt := by
  have hone : ∀ i : Fin n, markOf (debits (childId i) k o) =
      if x = i then o.amount.toInt else 0 := by
    intro i
    have : o.src = childId i ↔ x = i := by rw [← hx, (childId_injective hn).eq_iff]
    unfold debits
    split_ifs with h1 h2 h2 <;> simp_all [markOf]
  rw [Finset.sum_congr rfl fun i _ => hone i]
  simp

theorem recordedTotal_uncredited {s : BankNet Clocks.LamportClock ρ n} (hn : n ≤ 255)
    (hb : ∀ i, 0 ≤ (b i).toInt) (hne : ∀ o ∈ orders, o.src ≠ o.dst)
    (hs : Reachable (relaySystem (lamportChild success failure) b orders) s)
    (hun : Uncredited s) : recordedTotal s = ∑ i, (b i).toInt := by
  rw [recordedTotal_eq hb hs]
  rcases position _ hn b hne hs with ⟨k, hset⟩ | ⟨k, o, hfly⟩
  · have hnil := nothing_behind hun hset.within (fun i e he => by rwa [hset.books])
    have hmark : ∀ i, markOf (booksOf s i) = 0 := by
      intro i
      rw [hset.books, entriesUpTo, hnil]
      rfl
    rw [holdings_settled hn hb hs hset]
    simp [hmark]
  · have hnil := nothing_behind hun hfly.within (fun i e he => by
      rw [hfly.books]
      exact List.mem_append_left _ he)
    obtain ⟨x, hx⟩ := hfly.src
    have hmark : ∀ i, markOf (booksOf s i) = markOf (debits (childId i) k o) := by
      intro i
      rw [hfly.books, entriesUpTo, hnil]
      rfl
    rw [← holdings_flying hn hb hs hfly, Finset.sum_congr rfl fun i _ => hmark i, sum_marks hn hx]

def postingCount (s : BankNet κ ρ n) : ℕ := ∑ i, (s.cell i).state.ledger.length

theorem post_length (x : ChildState κ ρ) (k : ℕ) (side : Side) (amount : Balance)
    (a : BranchAccount) (f : κ → Checked κ) (ph : Phase ρ) :
    ((x.post k side amount a).tick f ph).ledger.length = x.ledger.length+1 := by
  rcases tick_cases (x.post k side amount a) f ph with ⟨r, hr⟩ | ⟨_, h, _⟩
  · rw [hr]
    simp [ChildState.exit, ChildState.post]
  · rw [h]
    simp [ChildState.post]

theorem child_posts_once (V : Variant κ ρ) (id : AccountId) (x : ChildState κ ρ) :
    (bankingChild V id x).All (fun _ => True)
      (fun x' => x'.ledger.length ≤ x.ledger.length+1) := by
  have hsend : ∀ e (next : ChildState κ ρ), next.ledger = x.ledger →
      (sending V x e next).All (fun _ => True)
        (fun x' => x'.ledger.length ≤ x.ledger.length+1) := by
    intro e next hnext r
    cases r with
    | ok _ => exact (congrArg List.length hnext).le.trans (Nat.le_succ _)
    | error err => exact Nat.le_succ _
  cases hph : x.phase <;> simp only [bankingChild, hph]
  case launch =>
    rcases tick_cases x V.depart .started with ⟨r, hr⟩ | ⟨_, h, _⟩
    · exact (congrArg (·.ledger.length) hr).le.trans (Nat.le_succ _)
    · exact (congrArg List.length h).le.trans (Nat.le_succ _)
  case receive =>
    refine ⟨fun m _ => ?_, fun e => Nat.le_succ _⟩
    exact (congrArg List.length (onMessage_answered V id x hph m).1).le.trans (Nat.le_succ _)
  case debit k payload order now =>
    change (onDebit V x k payload order now).ledger.length ≤ _
    unfold onDebit
    split
    · exact Nat.le_succ _
    · exact Nat.le_succ _
    · exact (post_length x k .debit order.amount _ V.depart _).le
  case credit k order now =>
    change (onCredit V x k order now).ledger.length ≤ _
    unfold onCredit
    split
    · exact Nat.le_succ _
    · exact Nat.le_succ _
    · exact (post_length x k .credit order.amount _ V.depart _).le
  case exited => trivial
  all_goals exact hsend _ _ rfl

theorem postingCount_step {V : Variant κ ρ} {s t : BankNet κ ρ n}
    (h : (relaySystem V b orders).step s t) : postingCount t ≤ postingCount s+1 := by
  have hlocal : ∀ j, (∀ i, i ≠ j → t.cell i = s.cell i) →
      (t.cell j).state.ledger.length ≤ (s.cell j).state.ledger.length+1 →
      postingCount t ≤ postingCount s+1 := by
    intro j hne hj
    have hle : ∀ i ∈ Finset.univ, (t.cell i).state.ledger.length ≤
        (s.cell i).state.ledger.length+if i = j then 1 else 0 := by
      intro i _
      by_cases hi : i = j
      · subst hi
        simpa using hj
      · simp [hne i hi, hi]
    have := Finset.sum_le_sum hle
    rw [Finset.sum_add_distrib] at this
    simpa [postingCount] using this
  have hsame : (∀ i, (t.cell i).state = (s.cell i).state) → postingCount t ≤ postingCount s+1 := by
    intro heq
    have : postingCount t = postingCount s :=
      Finset.sum_congr rfl fun i _ => congrArg (·.ledger.length) (heq i)
    omega
  obtain ⟨a, ha⟩ := h
  cases a with
  | child i =>
    obtain ⟨c, hc, _, hi, hne⟩ := fire_child_cell _ ha
    refine hlocal i hne ?_
    rw [hi]
    exact childMove_all (fun _ _ => trivial) (child_posts_once V _ _) hc
  | childFault i =>
    obtain ⟨_, _, c, hc, rfl⟩ := fire_childFault _ ha
    refine hlocal i (fun j hj => setCell_ne _ _ hj) ?_
    rw [setCell_self]
    exact childFault_all (child_posts_once V _ _) hc
  | parent => exact hsame fun i => parentMove_state _ (parentMove_of_fire _ (Or.inl ha)) i
  | parentFault => exact hsame fun i => parentMove_state _ (parentMove_of_fire _ (Or.inr ha)) i

theorem postingCount_eq (s : BankNet κ ρ n) : postingCount s = ∑ i, (booksOf s i).length := by
  simp [postingCount, booksOf, entriesIn]

theorem postingCount_settled (hn : n ≤ 255) {k : ℕ} (h : Settled orders s k) :
    postingCount s = 2*((transfersOf orders).take k).length := by
  rw [postingCount_eq, Finset.sum_congr rfl fun i _ => congrArg List.length (h.books i)]
  exact sum_length (childId_injective hn) 0 _ h.within

theorem postingCount_flying (hn : n ≤ 255) {k : ℕ} {o : TransferOrder} (h : Flying orders s k o) :
    postingCount s = 2*((transfersOf orders).take k).length+1 := by
  obtain ⟨x, hx⟩ := h.src
  have hone : ∀ i : Fin n, (debits (childId i) k o).length = if x = i then 1 else 0 := by
    intro i
    have : o.src = childId i ↔ x = i := by rw [← hx, (childId_injective hn).eq_iff]
    unfold debits
    split_ifs with h1 h2 h2 <;> simp_all
  rw [postingCount_eq, Finset.sum_congr rfl fun i _ => congrArg List.length (h.books i)]
  simp only [List.length_append, Finset.sum_add_distrib, hone]
  rw [Finset.sum_ite_eq, if_pos (Finset.mem_univ x)]
  congr 1
  exact sum_length (childId_injective hn) 0 _ h.within

theorem postingCount_uncredited (hn : n ≤ 255) {V : Variant κ ρ} (hne : ∀ o ∈ orders, o.src ≠ o.dst)
    (hs : Reachable (relaySystem V b orders) s) (hun : Uncredited s) : postingCount s ≤ 1 := by
  rcases position V hn b hne hs with ⟨k, hset⟩ | ⟨k, o, hfly⟩
  · rw [postingCount_settled hn hset,
      nothing_behind hun hset.within (fun i e he => by rwa [hset.books])]
    decide
  · rw [postingCount_flying hn hfly, nothing_behind hun hfly.within (fun i e he => by
      rw [hfly.books]
      exact List.mem_append_left _ he)]
    decide

theorem sum_marks_one (hn : n ≤ 255) {u : Transfer AccountId ℤ} (hne : u.src ≠ u.dst) {x : Fin n}
    (hx : childId x = u.src) : ∑ i : Fin n, markOf (entries (childId i) 0 [u]) = u.amount := by
  have hone : ∀ i : Fin n, markOf (entries (childId i) 0 [u]) = if x = i then u.amount else 0 := by
    intro i
    have hsrc : u.src = childId i ↔ x = i := by rw [← hx, (childId_injective hn).eq_iff]
    by_cases h1 : u.src = childId i
    · have h2 : u.dst ≠ childId i := fun h2 => hne (h1.trans h2.symm)
      rw [if_pos (hsrc.mp h1)]
      simp [entries, entriesOf, h1, h2, markOf]
    · rw [if_neg (mt hsrc.mpr h1)]
      by_cases h2 : u.dst = childId i <;> simp [entries, entriesOf, h1, h2, markOf]
  rw [Finset.sum_congr rfl fun i _ => hone i]
  simp

/-- The first credit of a run breaks the documented sum. -/
theorem recordedTotal_first_credit {s t : BankNet Clocks.LamportClock ρ n} (hn : n ≤ 255)
    (hb : ∀ i, 0 ≤ (b i).toInt) (hne : ∀ o ∈ orders, o.src ≠ o.dst)
    (hs : Reachable (relaySystem (lamportChild success failure) b orders) s)
    (hst : (relaySystem (lamportChild success failure) b orders).step s t)
    (hun : Uncredited s) (hcr : ¬ Uncredited t) : recordedTotal t ≠ ∑ i, (b i).toInt := by
  have ht := hs.step hst
  have hcount := (postingCount_step hst).trans
    (Nat.succ_le_succ (postingCount_uncredited hn hne hs hun))
  simp only [Uncredited, not_forall, not_not] at hcr
  obtain ⟨i, p, hp, hside⟩ := hcr
  have hmem : p.entry ∈ booksOf t i := List.mem_map_of_mem hp
  have hpside : p.entry.side = .credit := hside
  rcases position _ hn b hne ht with ⟨k, hset⟩ | ⟨k, o, hfly⟩
  · rw [postingCount_settled hn hset] at hcount
    have hlen : ((transfersOf orders).take k).length = 1 := by
      rcases Nat.eq_zero_or_pos ((transfersOf orders).take k).length with h0 | h0
      · rw [hset.books, entriesUpTo, List.length_eq_zero_iff.mp h0] at hmem
        cases hmem
      · omega
    obtain ⟨u, hu⟩ := List.length_eq_one_iff.mp hlen
    obtain ⟨⟨x, hx⟩, _⟩ := hset.within u (by simp [hu])
    have huo : u.src ≠ u.dst := by
      have : u ∈ transfersOf orders := List.mem_of_mem_take (i := k) (by simp [hu])
      obtain ⟨o, ho, rfl⟩ := List.mem_map.mp this
      exact hne o ho
    have hpos : 0 < u.amount := by
      have hdebit : (⟨0, .debit, u.amount⟩ : Entry ℤ) ∈ booksOf t x := by
        rw [hset.books, entriesUpTo, hu]
        exact mem_entries.mpr ⟨0, u, rfl, mem_entriesOf.mpr (Or.inl ⟨hx.symm, rfl⟩)⟩
      obtain ⟨q, hq, hqe⟩ := List.mem_map.mp hdebit
      have hamount : q.amount.toInt = u.amount := congrArg Entry.amount hqe
      rw [← hamount]
      exact (accounted hb ht x).positive q hq
    have hbooks : ∀ j, markOf (booksOf t j) = markOf (entries (childId j) 0 [u]) := by
      intro j
      rw [hset.books, entriesUpTo, hu]
    rw [recordedTotal_eq hb ht, holdings_settled hn hb ht hset,
      Finset.sum_congr rfl fun j _ => hbooks j, sum_marks_one hn huo hx]
    omega
  · rw [postingCount_flying hn hfly] at hcount
    have hnil : (transfersOf orders).take k = [] := List.length_eq_zero_iff.mp (by omega)
    rw [hfly.books, entriesUpTo, hnil] at hmem
    unfold debits at hmem
    split_ifs at hmem
    · simp only [entries, List.nil_append, List.mem_singleton] at hmem
      rw [hmem] at hpside
      cases hpside
    · cases hmem

end Runs

/-- A run keeps the documented sum in all its states exactly if none of its
steps credits an order. -/
theorem pending_invariant_iff {success : BranchAccount → ρ} {failure : IoError → ρ} (hn : n ≤ 255)
    (b : Fin n → Balance) (hb : ∀ i, 0 ≤ (b i).toInt) (hne : ∀ o ∈ orders, o.src ≠ o.dst)
    {l : List (BankNet Clocks.LamportClock ρ n)}
    (hl : Run (relaySystem (lamportChild success failure) b orders) l) :
    (∀ s ∈ l, recordedTotal s = ∑ i, (b i).toInt) ↔ ∀ s ∈ l, Uncredited s := by
  constructor
  · intro htotal
    by_contra hcr
    simp only [not_forall] at hcr
    obtain ⟨u, hu, hcu⟩ := hcr
    obtain ⟨s, t, hs, ht, hst, hun, hct⟩ := run_first (fun s => ¬ Uncredited s)
      (by rintro s rfl; exact not_not.mpr fun i p hp => by cases hp) hl ⟨u, hu, hcu⟩
    exact recordedTotal_first_credit hn hb hne hs hst (not_not.mp hun) hct (htotal t ht)
  · exact fun hun s hs => recordedTotal_uncredited hn hb hne (reachable_of_run hl s hs) (hun s hs)

theorem completeRun_total :
    (play (relayProtocol 2 simulateBankingChildWithLamport oneOrder).fire completeRun
      (relayStart simulateBankingChildWithLamport twoBalances)).map recordedTotal = some 180 := by
  decide +kernel

theorem pending_invariant_iff_complete_run :
    ∃ l, Run (relaySystem simulateBankingChildWithLamport twoBalances oneOrder) l ∧
      ¬ ∀ s ∈ l, Uncredited s := by
  obtain ⟨s, l, hl, htotal⟩ := relay_play completeRun _ completeRun_total
  refine ⟨s::l, hl, fun hun => ?_⟩
  have := (pending_invariant_iff (by decide) twoBalances (by decide) (by decide) hl).mpr hun s
    (by simp)
  rw [htotal] at this
  exact absurd this (by decide)

/-- One completed order: balances 70 and 80, and 30 still pending at the source. -/
theorem pending_invariant_fails :
    ¬ ∀ s, Reachable (relaySystem simulateBankingChildWithLamport twoBalances oneOrder) s →
      recordedTotal s = ∑ i, (twoBalances i).toInt := by
  intro hall
  obtain ⟨s, l, hl, htotal⟩ := relay_play completeRun _ completeRun_total
  have := hall s (reachable_of_run hl s (by simp))
  rw [htotal] at this
  exact absurd this (by decide)

end CrabKeeper.PendingInvariant
