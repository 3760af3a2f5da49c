import CrabKeeper.Foundation.Settlement
import CrabKeeper.RelayOutcome

/-!
# The relay settles orders like a teller

Whatever runs concurrently, the balances in the end are those of a teller who
takes the orders one after the other, and the parent gets through exactly when
the teller does. Only the clocks of the children could spoil this, after some
2^64 ticks.
-/

set_option autoImplicit false

namespace CrabKeeper.RelaySettlement
open Foundation.Machine Foundation.DoubleEntry Foundation.Settlement Foundation.Transition
open Foundation.Network Foundation.Termination Foundation.Confluence
open CrabKeeper.MessageCodec CrabKeeper.ChannelFraming CrabKeeper.BankTypes
open CrabKeeper.BankAccount CrabKeeper.Clocks CrabKeeper.BankChild CrabKeeper.ChildAccounts
open CrabKeeper.ChildForecast CrabKeeper.RelayParent CrabKeeper.RelayInvariant
open CrabKeeper.SerialRelay CrabKeeper.RelayOutcome

variable {κ ρ : Type} {n : ℕ} {V : Variant κ ρ} {age : κ → ℕ} {orders : List TransferOrder}
  {id : AccountId} {x : ChildState κ ρ}

/-- A clock ages by at most one with each step and works until it is 2^64-1. -/
structure Ages (V : Variant κ ρ) (age : κ → ℕ) : Prop where
  fresh : age V.fresh = 0
  depart : ∀ c, age c+1 < 2^64 → ∃ c', V.depart c = .ok c' ∧ age c' ≤ age c+1
  arrive : ∀ c, age c+1 < 2^64 → ∃ c', V.arrive c = .ok c' ∧ age c' ≤ age c+1
  stamp : ∀ c, age c+1 < 2^64 → ∃ now c', V.stamp c = .ok (now, c') ∧ age c' ≤ age c+1

theorem physical_ages (success : BranchAccount → ρ) (failure : IoError → ρ) :
    Ages (physicalChild success failure) (·.current.toNat) where
  fresh := rfl
  depart c _ := ⟨c, rfl, Nat.le_succ _⟩
  arrive c _ := ⟨c, rfl, Nat.le_succ _⟩
  stamp c hc := by
    obtain ⟨u, hu, hnat⟩ := addU64_one hc
    refine ⟨c.current, ⟨u⟩, ?_, hnat.le⟩
    change c.now = _
    rw [PhysicalClock.now, hu]
    rfl

theorem lamport_ages (success : BranchAccount → ρ) (failure : IoError → ρ) :
    Ages (lamportChild success failure) (·.time.toNat) := by
  have htick : ∀ c : LamportClock, c.time.toNat+1 < 2^64 →
      ∃ c' : LamportClock, (do return (← c.increment).2 : Checked LamportClock) = .ok c' ∧
        c'.time.toNat ≤ c.time.toNat+1 := by
    intro c hc
    obtain ⟨u, hu, hnat⟩ := addU64_one hc
    exact ⟨⟨u⟩, by rw [LamportClock.increment, hu]; rfl, hnat.le⟩
  exact ⟨rfl, htick, htick, fun c _ => ⟨c.get, c, rfl, Nat.le_succ _⟩⟩

structure Holds (age : κ → ℕ) (v : ℤ) (m : ℕ) (x : ChildState κ ρ) : Prop where
  wellFormed : WellFormed x.account
  balance : balanceOf x.account = v
  young : age x.clock ≤ m

theorem Ages.receives (hV : Ages V age) {m : ℕ} (hx : age x.clock ≤ m) (hm : m+3 < 2^64) :
    ∃ c₀ now c, V.arrive x.clock = .ok c₀ ∧ V.stamp c₀ = .ok (now, c) ∧ age c ≤ m+2 := by
  obtain ⟨c₀, ha, h0⟩ := hV.arrive x.clock (by omega)
  obtain ⟨now, c, hs, hc⟩ := hV.stamp c₀ (by omega)
  exact ⟨c₀, now, c, ha, hs, by omega⟩

theorem source_holds (hV : Ages V age) {v : ℤ} {m : ℕ} (h : Holds age v m x) (hm : m+3 < 2^64)
    (k : ℕ) {o : TransferOrder} (hsrc : o.src = id) (hdst : o.dst ≠ id) :
    (0 < o.amount.toInt ∧ o.amount.toInt ≤ v →
      (serve V id x ⟨k, .transfer o.toBytes⟩).phase = .receive ∧
      Holds age (v-o.amount.toInt) (m+3) (serve V id x ⟨k, .transfer o.toBytes⟩)) ∧
    (¬ (0 < o.amount.toInt ∧ o.amount.toInt ≤ v) →
      hasExited (serve V id x ⟨k, .transfer o.toBytes⟩).phase = true ∧
      balanceOf (serve V id x ⟨k, .transfer o.toBytes⟩).account = v) := by
  obtain ⟨hw, rfl, hx⟩ := h
  obtain ⟨c₀, now, c, ha, hs, hc⟩ := hV.receives hx hm
  have hserve := serve_source hsrc hdst (onMessage_clear ha hs k o)
  rcases debitAndMark_cases hw V.marksPending o.amount now with
    ⟨e, hd, hno⟩ | ⟨a, hd, hpos, hle, hmoved⟩
  · simp only [onDebit, hd] at hserve
    refine ⟨fun hyes => by omega, fun _ => ?_⟩
    rw [(hserve.1 rfl).1]
    exact ⟨rfl, rfl⟩
  · obtain ⟨c', hdep, hc'⟩ := hV.depart c (by omega)
    simp only [onDebit, hd, ChildState.tick, ChildState.post, hdep] at hserve
    refine ⟨fun _ => ?_, fun hno => absurd ⟨hpos, hle⟩ hno⟩
    rw [(hserve.2 rfl).1]
    refine ⟨rfl, hmoved.wellFormed, ?_, by change age c' ≤ m+3; omega⟩
    change balanceOf a = _
    rw [hmoved.balance]
    ring

theorem target_holds (hV : Ages V age) {v : ℤ} {m : ℕ} (h : Holds age v m x) (hm : m+3 < 2^64)
    (k : ℕ) {o : TransferOrder} (hsrc : o.src ≠ id) (hdst : o.dst = id)
    (hpos : 0 < o.amount.toInt) (hfit : v+o.amount.toInt < 2^63) :
    (serve V id x ⟨k, .transfer o.toBytes⟩).phase = .receive ∧
      Holds age (v+o.amount.toInt) (m+3) (serve V id x ⟨k, .transfer o.toBytes⟩) := by
  obtain ⟨hw, rfl, hx⟩ := h
  obtain ⟨c₀, now, c, ha, hs, hc⟩ := hV.receives hx hm
  have hserve := serve_target hsrc hdst (onMessage_clear ha hs k o)
  rcases credit_moved hw o.amount now with ⟨e, _, hno⟩ | ⟨_, hover⟩ | ⟨a, hcr, _, hmoved⟩
  · omega
  · omega
  · obtain ⟨c', hdep, hc'⟩ := hV.depart c (by omega)
    simp only [onCredit, hcr, ChildState.tick, ChildState.post, hdep] at hserve
    rw [(hserve.2 rfl).1]
    exact ⟨rfl, hmoved.wellFormed, hmoved.balance, by change age c' ≤ m+3; omega⟩

def branches (n : ℕ) : Register AccountId where
  named a := a ≠ 0
  known a := 0 < a.toNat && a.toNat ≤ n

def opening (b : Fin n → Balance) (a : AccountId) : ℤ :=
  if h : a.toNat-1 < n then (b ⟨a.toNat-1, h⟩).toInt else 0

theorem opening_childId (hn : n ≤ 255) (b : Fin n → Balance) (i : Fin n) :
    opening b (childId i) = (b i).toInt := by
  have hid := childId_toNat hn i
  have hi := i.isLt
  rw [opening, dif_pos (by omega)]
  congr 3
  omega

theorem opening_nonneg {b : Fin n → Balance} (hb : ∀ i, 0 ≤ (b i).toInt) (a : AccountId) :
    0 ≤ opening b a := by
  unfold opening
  split_ifs
  · exact hb _
  · exact le_rfl

theorem index_cases (n : ℕ) (a : AccountId) :
    (a = 0 ∧ ∃ e, subU8 a 1 = .error e) ∨ ∃ idx, subU8 a 1 = .ok idx ∧ a ≠ 0 ∧
      (((branches n).known a = false ∧ streamAt n idx.toNat = none) ∨
        ((branches n).known a = true ∧ ∃ i, streamAt n idx.toNat = some i ∧ childId i = a)) := by
  cases h : subU8 a 1 with
  | error e =>
    left
    refine ⟨?_, e, rfl⟩
    by_contra hne
    have hpos : 1 ≤ a := by
      rw [UInt8.le_iff_toNat_le, UInt8.toNat_one]
      have : a.toNat ≠ 0 := fun h0 => hne (UInt8.toNat_inj.mp h0)
      omega
    rw [subU8, if_pos hpos] at h
    cases h
  | ok idx =>
    right
    have hsub := subU8_eq_ok.mp h
    rw [UInt8.toNat_one] at hsub
    refine ⟨idx, rfl, by rintro rfl; simp at hsub, ?_⟩
    cases hi : streamAt n idx.toNat with
    | none =>
      have := streamAt_eq_none.mp hi
      exact Or.inl ⟨by simp [branches]; omega, rfl⟩
    | some i =>
      have hid := streamAt_eq_some.mp hi
      have := i.isLt
      exact Or.inr ⟨by simp [branches]; omega, i, rfl, childId_of_index h hid⟩

theorem known_childId {a : AccountId} (h : (branches n).known a = true) :
    ∃ i : Fin n, childId i = a := by
  rcases index_cases n a with ⟨rfl, _⟩ | ⟨_, _, _, ⟨hu, _⟩ | ⟨_, i, _, hi⟩⟩
  · simp [branches] at h
  · rw [hu] at h
    cases h
  · exact ⟨i, hi⟩

/-- All branches wait and hold what the teller's books say. -/
def Tally (age : κ → ℕ) (bal : AccountId → ℤ) (m : ℕ) (xs : Fin n → ChildState κ ρ) : Prop :=
  ∀ i, (xs i).phase = .receive ∧ Holds age (bal (childId i)) m (xs i)

def Stands : Verdict → RelayPc → Prop
  | .settled, _ => False
  | .refused k, pc => pc = .order k ∨ ∃ srcIdx dstIdx, pc = .forwarded k srcIdx dstIdx
  | .lost k, pc => ∃ dstIdx e, pc = .relay k dstIdx e

def Agrees (age : κ → ℕ) (v : Verdict) (bal : AccountId → ℤ) (m : ℕ)
    (r : Option RelayPc × (Fin n → ChildState κ ρ)) : Prop :=
  (v = .settled ∧ r.1 = none ∧ Tally age bal m r.2) ∨
    ∃ pc, r.1 = some pc ∧ Stands v pc ∧ ∀ i, balanceOf (r.2 i).account = bal (childId i)

theorem serveAt_self (V : Variant κ ρ) (xs : Fin n → ChildState κ ρ) (i : Fin n) (e : Envelope) :
    serveAt V xs i e i = serve V (childId i) (xs i) e := Function.update_self ..

theorem serveAt_ne (V : Variant κ ρ) (xs : Fin n → ChildState κ ρ) {i j : Fin n} (e : Envelope)
    (h : j ≠ i) : serveAt V xs i e j = xs j := Function.update_of_ne h ..

theorem Holds.later {v : ℤ} {m : ℕ} (h : Holds age v m x) (d : ℕ) : Holds age v (m+d) x :=
  ⟨h.wellFormed, h.balance, h.young.trans (Nat.le_add_right m d)⟩

section Order

variable {bal : AccountId → ℤ} {m : ℕ} {xs : Fin n → ChildState κ ρ}

theorem tally_serveAt (hn : n ≤ 255) (hx : Tally age bal m xs) {i : Fin n} {e : Envelope} {v : ℤ}
    (hi : (serve V (childId i) (xs i) e).phase = .receive ∧
      Holds age v (m+3) (serve V (childId i) (xs i) e)) :
    Tally age (Function.update bal (childId i) v) (m+3) (serveAt V xs i e) := by
  intro j
  by_cases hj : j = i
  · subst hj
    rw [serveAt_self, Function.update_self]
    exact hi
  · rw [serveAt_ne V xs e hj, Function.update_of_ne fun h => hj (childId_injective hn h)]
    exact ⟨(hx j).1, (hx j).2.later 3⟩

theorem Agrees.refused {k : ℕ} {t : Transfer AccountId ℤ} (hno : ¬ Accepts (branches n) bal t)
    {pc : RelayPc} {ys : Fin n → ChildState κ ρ} (hpc : Stands (.refused k) pc)
    (hy : ∀ i, balanceOf (ys i).account = bal (childId i)) :
    Agrees age (settle (branches n) bal k [t]).2 (settle (branches n) bal k [t]).1 m
      (some pc, ys) := by
  rw [settle, if_neg hno]
  exact Or.inr ⟨pc, rfl, hpc, hy⟩

theorem credit_room (hn : n ≤ 255) (hbal : ∀ a, 0 ≤ bal a)
    (htotal : total (childId (n := n)) bal < 2^63) {t : Transfer AccountId ℤ}
    (ha : Accepts (branches n) bal t) {i j : Fin n} (hi : childId i = t.src) :
    take bal t (childId j)+t.amount < 2^63 := by
  have hsum : total (childId (n := n)) (take bal t) = _ := total_take (childId_injective hn) hi
  have hle : take bal t (childId j) ≤ total (childId (n := n)) (take bal t) :=
    Finset.single_le_sum (f := fun j => take bal t (childId j))
      (fun j _ => take_nonneg hbal ha (childId j)) (Finset.mem_univ j)
  omega

/-- The step lemma: one order is dealt with as the teller deals with it. -/
theorem order_settles (hV : Ages V age) (hn : n ≤ 255) (hx : Tally age bal m xs)
    (hbal : ∀ a, 0 ≤ bal a) (htotal : total (childId (n := n)) bal < 2^63) (hm : m+6 < 2^64)
    (k : ℕ) {o : TransferOrder} (hone : o.src ≠ o.dst) :
    Agrees age (settle (branches n) bal k [asTransfer o]).2
      (settle (branches n) bal k [asTransfer o]).1 (m+6) (serialOrder V k o xs) := by
  have hkeep : ∀ i, balanceOf (xs i).account = bal (childId i) := fun i => (hx i).2.balance
  unfold serialOrder
  rcases index_cases n o.src with ⟨h0, e, he⟩ | ⟨srcIdx, hsrc, hne, hsrc'⟩
  · rw [he]
    exact .refused (fun h => by simpa [branches, asTransfer, h0] using h.namedSrc)
      (Or.inl rfl) hkeep
  rcases index_cases n o.dst with ⟨h0, e, he⟩ | ⟨dstIdx, hdst, hne', hdst'⟩
  · rw [hsrc, he]
    exact .refused (fun h => by simpa [branches, asTransfer, h0] using h.namedDst)
      (Or.inl rfl) hkeep
  rw [hsrc, hdst]
  dsimp only
  rcases hsrc' with ⟨hu, hi⟩ | ⟨hknown, i, hi, hid⟩
  · rw [hi]
    exact .refused (fun h => by simpa [asTransfer, hu] using h.knownSrc) (Or.inl rfl) hkeep
  rw [hi]
  dsimp only
  have hsource := source_holds hV (hx i).2 (by omega) k hid.symm (by rw [hid]; exact hone.symm)
  rw [hid] at hsource
  by_cases hpay : 0 < o.amount.toInt ∧ o.amount.toInt ≤ bal o.src
  swap
  · obtain ⟨hex, hv⟩ := hsource.2 hpay
    rw [← hid] at hex hv
    rw [if_pos (by rw [serveAt_self]; exact hex)]
    refine .refused (fun h => hpay ⟨h.positive, h.covered⟩) (Or.inr ⟨_, _, rfl⟩) fun j => ?_
    by_cases hj : j = i
    · subst hj
      rw [serveAt_self]
      exact hv
    · rw [serveAt_ne V xs _ hj]
      exact hkeep j
  have hacc : Accepts (branches n) bal (asTransfer o) :=
    ⟨by simpa [branches, asTransfer] using hne, by simpa [branches, asTransfer] using hne', hknown,
      hpay.1, hpay.2⟩
  have hserved := hsource.1 hpay
  rw [← hid] at hserved
  have htally := tally_serveAt (V := V) hn hx hserved
  have hrun : hasExited (serveAt V xs i ⟨k, .transfer o.toBytes⟩ i).phase = false := by
    rw [(htally i).1]
    rfl
  rw [if_neg (by rw [hrun]; exact Bool.false_ne_true), settle, if_pos hacc]
  have htake : Function.update bal (childId i) (bal (childId i)-o.amount.toInt) =
      take bal (asTransfer o) := by
    rw [hid]
    rfl
  rw [htake] at htally
  rcases hdst' with ⟨hu, hj⟩ | ⟨hknown', j, hj, hjd⟩
  · rw [hj, if_neg (by simp [asTransfer, hu])]
    exact Or.inr ⟨_, rfl, ⟨_, _, rfl⟩, fun l => (htally l).2.balance⟩
  · rw [hj, if_pos (by exact hknown')]
    dsimp only
    have hroom := credit_room hn hbal htotal hacc (j := j) hid
    have htarget := target_holds hV (htally j).2 (by omega) k (by rw [hjd]; exact hone)
      hjd.symm hpay.1 hroom
    have htally' := tally_serveAt (V := V) hn htally htarget
    have hrun' : hasExited (serveAt V (serveAt V xs i ⟨k, .transfer o.toBytes⟩) j
        ⟨k, .transfer o.toBytes⟩ j).phase = false := by
      rw [(htally' j).1]
      rfl
    rw [if_neg (by rw [hrun']; exact Bool.false_ne_true), settle]
    refine Or.inl ⟨rfl, rfl, ?_⟩
    have hgive : Function.update (take bal (asTransfer o)) (childId j)
        (take bal (asTransfer o) (childId j)+o.amount.toInt) =
        give (take bal (asTransfer o)) (asTransfer o) := by
      rw [hjd]
      rfl
    rw [← hgive]
    exact htally'

/-- The run lemma: a list of orders is dealt with as the teller deals with it. -/
theorem orders_settle (hV : Ages V age) (hn : n ≤ 255) (os : List TransferOrder)
    (hne : ∀ o ∈ os, o.src ≠ o.dst) (hx : Tally age bal m xs) (hbal : ∀ a, 0 ≤ bal a)
    (htotal : total (childId (n := n)) bal < 2^63) (hm : m+6*os.length < 2^64) (k : ℕ) :
    ((settle (branches n) bal k (transfersOf os)).2 = .settled ∧
      (serialOrders V k os xs).1 = ⟨.stop 0, false, []⟩ ∧
      Tally age (settle (branches n) bal k (transfersOf os)).1 (m+6*os.length)
        (serialOrders V k os xs).2) ∨
    ∃ pc, (serialOrders V k os xs).1 = panickedAt pc ∧
      Stands (settle (branches n) bal k (transfersOf os)).2 pc ∧
      ∀ i, balanceOf ((serialOrders V k os xs).2 i).account =
        (settle (branches n) bal k (transfersOf os)).1 (childId i) := by
  induction os generalizing k bal m xs with
  | nil => exact Or.inl ⟨rfl, rfl, hx⟩
  | cons o os ih =>
    rw [List.length_cons] at hm ⊢
    have hone := order_settles hV hn hx hbal htotal (by omega) k (hne o (by simp))
    have hnonneg := settle_nonneg (R := branches n) hbal k [asTransfer o]
    have hle := settle_total_le (R := branches n) (childId_injective hn)
      (fun _ => known_childId) bal k [asTransfer o]
    change _ ∨ _ at hone
    rw [show transfersOf (o::os) = asTransfer o :: transfersOf os from rfl, settle_cons]
    unfold serialOrders
    rcases hone with ⟨hset, hpc, htally⟩ | ⟨pc, hpc, hst, hy⟩
    · rw [if_pos hset]
      have hrest := ih (fun u hu => hne u (by simp [hu])) htally hnonneg (hle.trans_lt htotal)
        (by omega) (k+1)
      rw [show m+6*(os.length+1) = m+6+6*os.length by omega]
      revert hpc hrest
      rcases serialOrder V k o xs with ⟨_, ys⟩
      rintro rfl hrest
      exact hrest
    · have hset : (settle (branches n) bal k [asTransfer o]).2 ≠ .settled := by
        intro h
        rw [h] at hst
        exact hst
      rw [if_neg hset]
      revert hpc hy
      rcases serialOrder V k o xs with ⟨_, ys⟩
      rintro rfl hy
      exact Or.inr ⟨pc, rfl, hst, hy⟩

end Order

theorem stop_answers (hV : Ages V age) (hx : age x.clock+2 < 2^64) :
    (serve V id x ⟨0, .stop⟩).phase = .exited (.ok (V.success x.account)) := by
  obtain ⟨c, ha, hc⟩ := hV.arrive x.clock (by omega)
  obtain ⟨c', hd, _⟩ := hV.depart c (by omega)
  simp [serve, onMessage, ha, ChildState.tick, hd, Function.iterate_succ_apply, advance,
    bankingChild, sending, ChildState.goto, ChildState.exit]

theorem begun_tally (hV : Ages V age) (hn : n ≤ 255) (b : Fin n → Balance) :
    Tally age (opening b) 1 fun i => begun V (childId i) (b i) := by
  intro i
  obtain ⟨c, hc, hage⟩ := hV.depart V.fresh (by rw [hV.fresh]; decide)
  rw [hV.fresh] at hage
  dsimp only
  rw [(begun_eq _ _ hc).1, opening_childId hn]
  exact ⟨rfl, new_wellFormed _ _, balanceOf_new _ _, hage⟩

theorem serial_settles (hV : Ages V age) (hn : n ≤ 255) {b : Fin n → Balance}
    (hb : ∀ i, 0 ≤ (b i).toInt) (hsum : ∑ i, (b i).toInt < 2^63)
    (hne : ∀ o ∈ orders, o.src ≠ o.dst) (hlen : 6*orders.length+4 < 2^64) :
    ((settle (branches n) (opening b) 0 (transfersOf orders)).2 = .settled ∧
      (serialBranches V b orders).1 = ⟨.stop 0, false, []⟩ ∧
      Tally age (settle (branches n) (opening b) 0 (transfersOf orders)).1 (1+6*orders.length)
        (serialBranches V b orders).2) ∨
    ∃ pc, (serialBranches V b orders).1 = panickedAt pc ∧
      Stands (settle (branches n) (opening b) 0 (transfersOf orders)).2 pc ∧
      ∀ i, balanceOf ((serialBranches V b orders).2 i).account =
        (settle (branches n) (opening b) 0 (transfersOf orders)).1 (childId i) := by
  apply orders_settle hV hn orders hne (begun_tally hV hn b) (opening_nonneg hb) _ (by omega)
  rw [total, Finset.sum_congr rfl fun i _ => opening_childId hn b i]
  exact hsum

/-- No history has more snapshots than a report can count, if it comes to reports. -/
def ReportsFit (V : Variant κ ρ) (b : Fin n → Balance) (orders : List TransferOrder) : Prop :=
  (serialBranches V b orders).1.panicked = false →
    ∀ i, ((serialBranches V b orders).2 i).account.history.states.length ≤ 255

theorem reporting (hV : Ages V age) (hn : n ≤ 255) {b : Fin n → Balance}
    (hb : ∀ i, 0 ≤ (b i).toInt) (hsum : ∑ i, (b i).toInt < 2^63)
    (hne : ∀ o ∈ orders, o.src ≠ o.dst) (hlen : 6*orders.length+4 < 2^64)
    (hfit : ReportsFit V b orders) : Reporting V b orders where
  starts := by
    obtain ⟨c, hc, _⟩ := hV.depart V.fresh (by rw [hV.fresh]; decide)
    exact ⟨c, hc⟩
  reports hp i := by
    rcases serial_settles hV hn hb hsum hne hlen with ⟨_, _, htally⟩ | ⟨pc, hpc, _⟩
    · have hyoung := (htally i).2.young
      exact ⟨stop_answers hV (by omega), hfit hp i⟩
    · rw [hpc] at hp
      cases hp

structure Closed (s : BankNet κ ρ n) (w : (AccountId → ℤ) × Verdict) : Prop where
  stopped : ∀ i, hasExited (s.cell i).state.phase = true
  quiet : ∀ i, (s.cell i).down = [] ∧ (s.cell i).up = []
  balances : ∀ i, balanceOf (s.cell i).state.account = w.1 (childId i)
  verdict : (w.2 = .settled ∧ s.parent = ⟨.finished, false,
      List.ofFn fun i => (s.cell i).state.account.history⟩) ∨
    ∃ pc, s.parent = panickedAt pc ∧ Stands w.2 pc

theorem hangUp_account (V : Variant κ ρ) (x : ChildState κ ρ) :
    (hangUp V x).account = x.account := by
  unfold hangUp
  split_ifs <;> rfl

theorem serial_closed (hV : Ages V age) (hn : n ≤ 255) {b : Fin n → Balance}
    (hb : ∀ i, 0 ≤ (b i).toInt) (hsum : ∑ i, (b i).toInt < 2^63)
    (hne : ∀ o ∈ orders, o.src ≠ o.dst) (hlen : 6*orders.length+4 < 2^64)
    (hfit : ReportsFit V b orders) :
    Closed (serialNet V b orders)
      (settle (branches n) (opening b) 0 (transfersOf orders)) := by
  have hserial := serial_settles hV hn hb hsum hne hlen
  have hreports := (reporting hV hn hb hsum hne hlen hfit).reports
  unfold serialNet serialRun
  revert hserial hreports
  rcases serialBranches V b orders with ⟨p, ys⟩
  rintro (⟨hset, rfl, htally⟩ | ⟨pc, rfl, hst, hy⟩) hreports
  · have haccount : ∀ i, (serve V (childId i) (ys i) ⟨0, .stop⟩).account = (ys i).account :=
      fun i => (stop_turned (hreports rfl i)).2
    refine ⟨fun i => ?_, fun i => ⟨rfl, rfl⟩, fun i => ?_, Or.inl ⟨hset, ?_⟩⟩
    · change hasExited (serve V (childId i) (ys i) ⟨0, .stop⟩).phase = true
      rw [(hreports rfl i).answers]
      rfl
    · change balanceOf (serve V (childId i) (ys i) ⟨0, .stop⟩).account = _
      rw [haccount]
      exact (htally i).2.balance
    · change _ = Relay.mk .finished false
        (List.ofFn fun i => (serve V (childId i) (ys i) ⟨0, .stop⟩).account.history)
      simp only [haccount]
      rfl
  · refine ⟨fun i => hangUp_exited V (ys i), fun i => ⟨rfl, rfl⟩, fun i => ?_,
      Or.inr ⟨pc, rfl, hst⟩⟩
    change balanceOf (hangUp V (ys i)).account = _
    rw [hangUp_account]
    exact hy i

/-- Every run of the relay comes to rest, and wherever it does the balances are
the teller's. The parent is through, with the histories of all branches, if the
teller settles every order; otherwise it has panicked at the order the teller
refuses or loses. -/
theorem relay_settles (hV : Ages V age) (hn : n ≤ 255) (b : Fin n → Balance)
    (hb : ∀ i, 0 ≤ (b i).toInt) (hsum : ∑ i, (b i).toInt < 2^63)
    (hne : ∀ o ∈ orders, o.src ≠ o.dst) (hlen : 6*orders.length+4 < 2^64)
    (hfit : ReportsFit V b orders) {s : BankNet κ ρ n}
    (hs : Reachable (relaySystem V b orders) s) :
    (∃ t, Relation.ReflTransGen (relaySystem V b orders).step s t ∧
      Stuck (relaySystem V b orders) t) ∧
    (Stuck (relaySystem V b orders) s →
      Closed s (settle (branches n) (opening b) 0 (transfersOf orders))) := by
  have hr := reporting hV hn hb hsum hne hlen hfit
  obtain ⟨N, hN⟩ := goes_on V b hne hr
  obtain ⟨moves, hmoves⟩ := play_of_reachable hs
  obtain ⟨more, hmore, _⟩ := hN moves s hmoves
  refine ⟨⟨_, steps_of_play hmore, stuck_of_atRest (serial_leads b hne hr).2⟩, fun hstuck => ?_⟩
  obtain ⟨_, hnet⟩ := play_of_atRest (atRest_of_stuck hstuck) hmore
  rw [← hnet]
  exact serial_closed hV hn hb hsum hne hlen hfit

/-- The order of the small instance is settled; one to an account 7 would be lost. -/
example : (settle (branches 2) (opening twoBalances) 0 (transfersOf oneOrder)).2 = .settled ∧
    (settle (branches 2) (opening twoBalances) 0 (transfersOf [⟨1, 7, 30⟩])).2 = .lost 0 := by
  decide

theorem relay_settles_one_order :
    ∃ s, Reachable (relaySystem simulateBankingChild twoBalances oneOrder) s ∧
      Closed s (settle (branches 2) (opening twoBalances) 0 (transfersOf oneOrder)) := by
  have hfit : ReportsFit simulateBankingChild twoBalances oneOrder := by
    intro _ i
    fin_cases i <;> decide
  have hsettles := fun s hs => relay_settles (s := s) (physical_ages (fun _ => Except.ok ()) .error)
    (by decide) twoBalances (by decide) (by decide) (by decide) (by decide) hfit hs
  obtain ⟨t, ht, hstuck⟩ := (hsettles _ (.init rfl)).1
  have hreach := reachable_of_steps (Reachable.init rfl) ht
  exact ⟨t, hreach, (hsettles t hreach).2 hstuck⟩

end CrabKeeper.RelaySettlement
