import CrabKeeper.RecordedTimes

/-!
# The completion test

A transfer counts as complete when both of its timestamps are positive, zero
standing for a side that has not been executed. Logical times start above zero
and the test decides execution; a physical clock starts at zero, so the test
misses the first posting of every account.
-/

set_option autoImplicit false

namespace CrabKeeper.TransferCompletion
open Foundation.Machine Foundation.DoubleEntry Foundation.Transition Foundation.Network
open CrabKeeper.MessageCodec CrabKeeper.ChannelFraming CrabKeeper.BankTypes
open CrabKeeper.BankAccount CrabKeeper.BankChild CrabKeeper.ChildAccounts CrabKeeper.ChildForecast
open CrabKeeper.RelayParent CrabKeeper.RelayInvariant CrabKeeper.LedgerPosition
open CrabKeeper.MoneyConservation CrabKeeper.RecordedTimes CrabKeeper.Clocks

def isTransferComplete (sendTime recvTime : UInt64) : Bool :=
  if 0 < sendTime && 0 < recvTime then true else false

theorem isTransferComplete_iff {sendTime recvTime : UInt64} :
    isTransferComplete sendTime recvTime = true ↔ 0 < sendTime.toNat ∧ 0 < recvTime.toNat := by
  simp [isTransferComplete, UInt64.lt_iff_toNat_lt]

variable {κ ρ : Type} {n : ℕ} {orders : List TransferOrder}

def postings (s : BankNet κ ρ n) : List Posting :=
  (List.finRange n).flatMap fun i => (s.cell i).state.ledger

/-- The time at which one side of order `k` was executed, 0 before that. -/
def executionTime (s : BankNet κ ρ n) (k : ℕ) (side : Side) : Timestamp :=
  match (postings s).find? fun p => p.order = k && p.side = side with
  | some p => p.time
  | none => 0

def ExecutedBy (s : BankNet κ ρ n) (k : ℕ) (side : Side) : Prop := ∃ i, Executed s i k side

theorem executionTime_cases (s : BankNet κ ρ n) (k : ℕ) (side : Side) :
    (¬ ExecutedBy s k side ∧ executionTime s k side = 0) ∨
    ∃ i, ∃ p ∈ (s.cell i).state.ledger, p.order = k ∧ p.side = side ∧
      executionTime s k side = p.time := by
  unfold executionTime
  cases hf : (postings s).find? fun p => p.order = k && p.side = side with
  | none =>
    refine Or.inl ⟨?_, rfl⟩
    rintro ⟨i, p, hp, hk, hs⟩
    have hmem : p ∈ postings s := List.mem_flatMap.mpr ⟨i, List.mem_finRange i, hp⟩
    have := List.find?_eq_none.mp hf p hmem
    simp [hk, hs] at this
  | some p =>
    obtain ⟨i, _, hp⟩ := List.mem_flatMap.mp (List.mem_of_find?_eq_some hf)
    have hsel := List.find?_some hf
    simp only [Bool.and_eq_true, decide_eq_true_eq] at hsel
    exact Or.inr ⟨i, p, hp, hsel.1, hsel.2, rfl⟩

theorem executionTime_pos_iff {s : BankNet κ ρ n} {k : ℕ} {side : Side} {C : Prop}
    (hpos : ∀ i, ∀ p ∈ (s.cell i).state.ledger, p.order = k → p.side = side →
      (0 < p.time.toNat ↔ C)) :
    0 < (executionTime s k side).toNat ↔ ExecutedBy s k side ∧ C := by
  rcases executionTime_cases s k side with ⟨hno, ht⟩ | ⟨i, p, hp, hk, hs, ht⟩
  · rw [ht]
    exact iff_of_false (lt_irrefl 0) fun h => hno h.1
  · rw [ht, hpos i p hp hk hs]
    exact (and_iff_right ⟨i, p, hp, hk, hs⟩).symm

theorem finished_executed (V : Variant κ ρ) (hn : n ≤ 255) (b : Fin n → Balance)
    (hne : ∀ o ∈ orders, o.src ≠ o.dst) {s : BankNet κ ρ n}
    (hs : Reachable (relaySystem V b orders) s) (hpc : s.parent.pc = .finished) {k : ℕ}
    (hk : k < orders.length) (side : Side) : ExecutedBy s k side := by
  obtain ⟨hrel, hcells⟩ := reachable_good V hn b hne hs
  rw [Relaying, hpc] at hrel
  have ho : orders[k]? = some orders[k] := List.getElem?_eq_getElem hk
  have ht : asTransfer orders[k] ∈ (transfersOf orders).take orders.length := by
    rw [List.take_of_length_le (by simp [transfersOf])]
    exact List.mem_map_of_mem (List.getElem_mem hk)
  obtain ⟨i, hi⟩ : ∃ i : Fin n, childId i = endOf side orders[k] := by
    cases side with
    | debit => exact (hrel.1 _ ht).1
    | credit => exact (hrel.1 _ ht).2
  have hbooks : booksOf s i = entriesUpTo orders orders.length i := by
    have hfore := hcells i
    rw [Forecast, hpc] at hfore
    exact hfore.settled rfl
  refine ⟨i, executed_iff.mpr ?_⟩
  rw [hbooks]
  exact (mem_entriesUpTo side).mpr ⟨hk, _, ho, hi.symm⟩

/-- In every state of a Lamport relay the test says of every order whether both
of its sides have been executed, and after a finished one it says so of all. -/
theorem completion_by_logical_time {success : BranchAccount → ρ} {failure : IoError → ρ}
    (hn : n ≤ 255) {b : Fin n → Balance} (hne : ∀ o ∈ orders, o.src ≠ o.dst)
    {s : BankNet LamportClock ρ n}
    (hs : Reachable (relaySystem (lamportChild success failure) b orders) s) :
    (∀ k, isTransferComplete (executionTime s k .debit) (executionTime s k .credit) = true ↔
        ExecutedBy s k .debit ∧ ExecutedBy s k .credit) ∧
      (s.parent.pc = .finished → ∀ k < orders.length,
        isTransferComplete (executionTime s k .debit) (executionTime s k .credit) = true) := by
  have hside : ∀ k side, 0 < (executionTime s k side).toNat ↔ ExecutedBy s k side := by
    intro k side
    rw [executionTime_pos_iff (C := True), and_true]
    intro i p hp _ _
    obtain ⟨j, hj⟩ := List.getElem?_of_mem hp
    rw [(reachable_rhythm (lamportMetre success failure) hn hne hs i).times j p hj]
    exact iff_of_true (Nat.succ_pos _) trivial
  have hiff : ∀ k, isTransferComplete (executionTime s k .debit) (executionTime s k .credit) =
      true ↔ ExecutedBy s k .debit ∧ ExecutedBy s k .credit := by
    intro k
    rw [isTransferComplete_iff, hside, hside]
  refine ⟨hiff, fun hpc k hk => (hiff k).mpr ⟨?_, ?_⟩⟩
  · exact finished_executed _ hn b hne hs hpc hk .debit
  · exact finished_executed _ hn b hne hs hpc hk .credit

theorem completion_by_logical_time_one_order :
    ∃ s, Reachable (relaySystem simulateBankingChildWithLamport twoBalances oneOrder) s ∧
      isTransferComplete (executionTime s 0 .debit) (executionTime s 0 .credit) = true := by
  have hplay : (play (relayProtocol 2 simulateBankingChildWithLamport oneOrder).fire completeRun
      (relayStart simulateBankingChildWithLamport twoBalances)).map (·.parent.pc) =
        some .finished := by
    decide +kernel
  obtain ⟨s, l, hl, hpc⟩ := relay_play completeRun _ hplay
  have hs := reachable_of_run hl s (by simp)
  exact ⟨s, hs, (completion_by_logical_time (by decide) (by decide) hs).2 hpc 0 (by decide)⟩

/-- With physical clocks the test denies, in addition, every order that is the
first one of its source or of its destination. -/
theorem completion_by_physical_time {success : BranchAccount → ρ} {failure : IoError → ρ}
    (hn : n ≤ 255) {b : Fin n → Balance} (hne : ∀ o ∈ orders, o.src ≠ o.dst)
    {s : BankNet PhysicalClock ρ n}
    (hs : Reachable (relaySystem (physicalChild success failure) b orders) s) {k : ℕ}
    {o : TransferOrder} (ho : orders[k]? = some o) :
    isTransferComplete (executionTime s k .debit) (executionTime s k .credit) = true ↔
      (ExecutedBy s k .debit ∧ 1 < partsIn orders o.src k) ∧
        (ExecutedBy s k .credit ∧ 1 < partsIn orders o.dst k) := by
  have hside : ∀ side, 0 < (executionTime s k side).toNat ↔
      ExecutedBy s k side ∧ 1 < partsIn orders (endOf side o) k := by
    intro side
    apply executionTime_pos_iff
    intro i p hp hk hside
    obtain ⟨o', ho', hend⟩ := posting_order hn hne hs hp
    rw [hk, ho] at ho'
    obtain rfl := Option.some.inj ho'
    have htime : p.time.toNat+1 = 1*partsIn orders (childId i) p.order+0 :=
      posting_time (physicalMetre success failure) hn hne hs hp
    rw [← hside, hend, ← hk]
    omega
  rw [isTransferComplete_iff, hside, hside]
  rfl

def twoOrders : List TransferOrder := [⟨1, 2, 30⟩, ⟨1, 2, 5⟩]

def twoOrdersRun (i j : Fin n) : List (Move (Fin n)) :=
  [.child i, .child i, .child j, .child j, .parent, .parent, .parent, .parent,
    .child i, .child i, .child i, .parent, .parent, .child j, .child j, .child j, .parent, .parent,
    .child i, .child i, .child i, .parent, .parent, .child j, .child j, .child j,
    .parent, .parent, .parent, .child i, .child i, .child i, .parent, .child j, .child j, .child j,
    .parent, .parent, .parent, .parent, .parent, .parent, .parent, .parent]

theorem completion_by_physical_time_two_orders :
    ∃ s, Reachable (relaySystem simulateBankingChild twoBalances twoOrders) s ∧
      s.parent.pc = .finished ∧
      isTransferComplete (executionTime s 0 .debit) (executionTime s 0 .credit) = false ∧
      isTransferComplete (executionTime s 1 .debit) (executionTime s 1 .credit) = true := by
  have hplay : (play (relayProtocol 2 simulateBankingChild twoOrders).fire (twoOrdersRun 0 1)
      (relayStart simulateBankingChild twoBalances)).map (·.parent.pc) = some .finished := by
    decide +kernel
  obtain ⟨s, l, hl, hpc⟩ := relay_play _ _ hplay
  have hs := reachable_of_run hl s (by simp)
  have hdone := fun side => finished_executed _ (by decide) _ (by decide) hs hpc (k := 1)
    (by decide) side
  refine ⟨s, hs, hpc, ?_, ?_⟩
  · rw [Bool.eq_false_iff, ne_eq, completion_by_physical_time (k := 0) (o := ⟨1, 2, 30⟩)
      (by decide) (by decide) hs rfl]
    exact fun h => absurd h.1.2 (by decide)
  · rw [completion_by_physical_time (k := 1) (o := ⟨1, 2, 5⟩) (by decide) (by decide) hs rfl]
    exact ⟨⟨hdone .debit, by decide⟩, hdone .credit, by decide⟩

end CrabKeeper.TransferCompletion
