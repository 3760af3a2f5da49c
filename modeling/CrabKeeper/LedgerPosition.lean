import CrabKeeper.RelayInvariant

/-!
# Where the ledgers stand together

All ledgers of a reachable state agree with one position in the list of orders:
either every order before `k` is booked at both its ends and no other is, or
order `k` is booked at its source as well. This is double-entry bookkeeping
with at most one transfer in flight.
-/

set_option autoImplicit false

namespace CrabKeeper.LedgerPosition
open Foundation.Machine Foundation.DoubleEntry Foundation.Transition Foundation.Network
open CrabKeeper.MessageCodec CrabKeeper.BankTypes CrabKeeper.BankAccount CrabKeeper.BankChild
open CrabKeeper.ChildAccounts CrabKeeper.ChildForecast CrabKeeper.RelayParent
open CrabKeeper.RelayInvariant

variable {κ ρ : Type} {n : ℕ} {orders : List TransferOrder} {s : BankNet κ ρ n}

def booksOf (s : BankNet κ ρ n) (i : Fin n) : List (Entry ℤ) := entriesIn (s.cell i).state.ledger

structure Settled (orders : List TransferOrder) (s : BankNet κ ρ n) (k : ℕ) : Prop where
  within : RelayedTo n orders k
  books : ∀ i, booksOf s i = entriesUpTo orders k i

structure Flying (orders : List TransferOrder) (s : BankNet κ ρ n) (k : ℕ)
    (o : TransferOrder) : Prop where
  within : RelayedTo n orders k
  order : orders[k]? = some o
  src : ∃ x : Fin n, childId x = o.src
  books : ∀ i, booksOf s i = entriesUpTo orders k i ++ debits (childId i) k o

theorem last_outstanding {id : AccountId} {R : List Envelope} {L : List (Entry ℤ)} {e : Entry ℤ}
    {c : ChildCell κ ρ} (h : Foreseen id R (L ++ [e]) c) (hR : R.countP answersOrder ≤ 1) :
    entriesIn c.state.ledger = L ++ [e] ∨ entriesIn c.state.ledger = L := by
  obtain ⟨L', hL, hle⟩ := h.ledger
  rcases List.eq_nil_or_concat L' with rfl | ⟨L'', f, rfl⟩
  · exact Or.inl (by rw [hL, List.append_nil])
  · rw [List.concat_eq_append, List.length_append, List.length_singleton] at hle
    obtain rfl : L'' = [] := List.length_eq_zero_iff.mp (by omega)
    exact Or.inr (List.append_inj_left' hL rfl).symm

theorem position_forwarded (hn : n ≤ 255) {k : ℕ} {srcIdx dstIdx : UInt8} {o : TransferOrder}
    (hix : Indexed orders k srcIdx dstIdx o) (hlt : srcIdx.toNat < n)
    (hto : RelayedTo n orders k)
    (hcells : ∀ i, Foreseen (childId i) (awaited orders (.forwarded k srcIdx dstIdx) i)
      (booked orders (.forwarded k srcIdx dstIdx) i) (s.cell i)) :
    Settled orders s k ∨ Flying orders s k o := by
  have hid : childId (⟨srcIdx.toNat, hlt⟩ : Fin n) = o.src := childId_of_index hix.src rfl
  have hother : ∀ i : Fin n, i.val ≠ srcIdx.toNat → debits (childId i) k o = [] ∧
      booksOf s i = entriesUpTo orders k i := by
    intro i hi
    have hdebit : debits (childId i) k o = [] := debits_eq_nil k (by
      rw [← hid]
      exact fun heq => hi (congrArg Fin.val (childId_injective hn heq)))
    have hbook : booksOf s i = booked orders (.forwarded k srcIdx dstIdx) i :=
      (hcells i).settled (by simp [awaited, hix.order, hi])
    exact ⟨hdebit, by simp [hbook, booked, debitOf, hix.order, hdebit]⟩
  have hsrc : debits o.src k o = [⟨k, .debit, o.amount.toInt⟩] := if_pos rfl
  have hself := hcells ⟨srcIdx.toNat, hlt⟩
  simp only [awaited, booked, hix.order, if_true, debitOf, hid, hsrc] at hself
  rcases last_outstanding hself (by simp [answersOrder]) with hbook | hbook
  · refine Or.inr ⟨hto, hix.order, ⟨_, hid⟩, fun i => ?_⟩
    by_cases hi : i.val = srcIdx.toNat
    · obtain rfl : i = ⟨srcIdx.toNat, hlt⟩ := Fin.ext hi
      rw [hid, hsrc]
      exact hbook
    · rw [(hother i hi).1, (hother i hi).2, List.append_nil]
  · refine Or.inl ⟨hto, fun i => ?_⟩
    by_cases hi : i.val = srcIdx.toNat
    · obtain rfl : i = ⟨srcIdx.toNat, hlt⟩ := Fin.ext hi
      exact hbook
    · exact (hother i hi).2

theorem position_ack (hn : n ≤ 255) (hne : ∀ o ∈ orders, o.src ≠ o.dst) {k : ℕ}
    {srcIdx dstIdx : UInt8} {o : TransferOrder} (hix : Indexed orders k srcIdx dstIdx o)
    (hlts : srcIdx.toNat < n) (hltd : dstIdx.toNat < n) (hto : RelayedTo n orders k)
    (hcells : ∀ i, Foreseen (childId i) (awaited orders (.ack k dstIdx) i)
      (booked orders (.ack k dstIdx) i) (s.cell i)) :
    Settled orders s (k+1) ∨ Flying orders s k o := by
  have hsrcid : childId (⟨srcIdx.toNat, hlts⟩ : Fin n) = o.src := childId_of_index hix.src rfl
  have hid : childId (⟨dstIdx.toNat, hltd⟩ : Fin n) = o.dst := childId_of_index hix.dst rfl
  have hone := hne o (List.mem_of_getElem? hix.order)
  have hother : ∀ i : Fin n, i.val ≠ dstIdx.toNat → booksOf s i = entriesUpTo orders (k+1) i ∧
      booksOf s i = entriesUpTo orders k i ++ debits (childId i) k o := by
    intro i hi
    have hcredit : credits (childId i) k o = [] := credits_eq_nil k (by
      rw [← hid]
      exact fun heq => hi (congrArg Fin.val (childId_injective hn heq)))
    have : booksOf s i = entriesUpTo orders (k+1) i :=
      (hcells i).settled (by simp [awaited, hi])
    exact ⟨this, by rw [this, entriesUpTo_succ hix.order, hcredit, List.append_nil]⟩
  have hdebit : debits o.dst k o = [] := if_neg hone
  have hdst : credits o.dst k o = [⟨k, .credit, o.amount.toInt⟩] := if_pos rfl
  have hself := hcells ⟨dstIdx.toNat, hltd⟩
  simp only [awaited, booked, if_true, entriesUpTo_succ hix.order, hid, hdebit, hdst,
    List.nil_append] at hself
  rcases last_outstanding hself (by simp [answersOrder]) with hbook | hbook
  · refine Or.inl ⟨relayedTo_succ hix.order hto hsrcid hid, fun i => ?_⟩
    by_cases hi : i.val = dstIdx.toNat
    · obtain rfl : i = ⟨dstIdx.toNat, hltd⟩ := Fin.ext hi
      rw [entriesUpTo_succ hix.order, hid, hdebit, hdst]
      exact hbook
    · exact (hother i hi).1
  · refine Or.inr ⟨hto, hix.order, ⟨_, hsrcid⟩, fun i => ?_⟩
    by_cases hi : i.val = dstIdx.toNat
    · obtain rfl : i = ⟨dstIdx.toNat, hltd⟩ := Fin.ext hi
      rw [hid, hdebit, List.append_nil]
      exact hbook
    · exact (hother i hi).2

/-- Every reachable state has a position. -/
theorem position (V : Variant κ ρ) (hn : n ≤ 255) (b : Fin n → Balance)
    (hne : ∀ o ∈ orders, o.src ≠ o.dst) (hs : Reachable (relaySystem V b orders) s) :
    (∃ k, Settled orders s k) ∨ ∃ k o, Flying orders s k o := by
  obtain ⟨hrel, hcells⟩ := reachable_good V hn b hne hs
  unfold Relaying at hrel
  unfold Forecast at hcells
  cases hpc : s.parent.pc <;> rw [hpc] at hrel hcells
  case started j =>
    refine Or.inl ⟨0, by simp [RelayedTo, Within], fun i => ?_⟩
    exact (hcells i).settled (by simp only [awaited]; split_ifs <;> rfl)
  case order k => exact Or.inl ⟨k, hrel.1, fun i => (hcells i).settled rfl⟩
  case forwarded k srcIdx dstIdx =>
    obtain ⟨o, hix, hlt, hto, _⟩ := hrel
    exact (position_forwarded hn hix hlt hto hcells).imp (⟨k, ·⟩) (⟨k, o, ·⟩)
  case relay k dstIdx relayed =>
    obtain ⟨srcIdx, o, hix, hlt, _, hto, _⟩ := hrel
    refine Or.inr ⟨k, o, hto, hix.order, ⟨⟨_, hlt⟩, childId_of_index hix.src rfl⟩, fun i => ?_⟩
    have hbook : booksOf s i = booked orders (.relay k dstIdx relayed) i := (hcells i).settled rfl
    simp [hbook, booked, debitOf, hix.order]
  case ack k dstIdx =>
    obtain ⟨srcIdx, o, hix, hlts, hltd, hto, _⟩ := hrel
    exact (position_ack hn hne hix hlts hltd hto hcells).imp (⟨k+1, ·⟩) (⟨k, o, ·⟩)
  case stop j =>
    refine Or.inl ⟨_, hrel.1, fun i => (hcells i).settled ?_⟩
    simp only [awaited]
    split_ifs <;> rfl
  case done j =>
    refine Or.inl ⟨_, hrel.1, fun i => (hcells i).settled ?_⟩
    simp only [awaited]
    split_ifs <;> rfl
  case history j =>
    refine Or.inl ⟨_, hrel.1, fun i => (hcells i).settled ?_⟩
    simp only [awaited]
    split_ifs <;> rfl
  case decode j report =>
    refine Or.inl ⟨_, hrel.1, fun i => (hcells i).settled ?_⟩
    simp only [awaited]
    split_ifs <;> rfl
  case finished => exact Or.inl ⟨_, hrel.1, fun i => (hcells i).settled rfl⟩

end CrabKeeper.LedgerPosition
