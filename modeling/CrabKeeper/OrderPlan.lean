import CrabKeeper.AccountCalls

/-!
# What a list of orders asks of one account

The loop of a child reads its clock once for each order, so order number `k` is
handled at time `k`. It asks for a debit if the account is the source and for a
credit if it is the destination. The first request that is refused ends the
loop, and so does a clock that cannot be incremented.
-/

set_option autoImplicit false

namespace CrabKeeper.OrderPlan
open Foundation.DoubleEntry Foundation.Overdraft
open CrabKeeper.BankTypes

def creditAsked (id : AccountId) (k : ℕ) (o : TransferOrder) : List (Request ℤ) :=
  if o.dst = id then [⟨.credit, o.amount.toInt, k⟩] else []

def asked (id : AccountId) (k : ℕ) (o : TransferOrder) : List (Request ℤ) :=
  if o.src = id then ⟨.debit, o.amount.toInt, k⟩ :: creditAsked id k o else creditAsked id k o

def askedFrom (id : AccountId) : ℕ → List TransferOrder → List (Request ℤ)
  | _, [] => []
  | k, o::os => if k+1 < 2^64 then asked id k o ++ askedFrom id (k+1) os else []

def executed (id : AccountId) (b : ℤ) (orders : List TransferOrder) : List (Request ℤ) :=
  served (2^63) b (askedFrom id 0 orders)

def Executes (id : AccountId) (b : ℤ) (orders : List TransferOrder) (k : ℕ) : Prop :=
  ∃ r ∈ executed id b orders, r.time = k

instance (id : AccountId) (b : ℤ) (orders : List TransferOrder) (k : ℕ) :
    Decidable (Executes id b orders k) :=
  inferInstanceAs (Decidable (∃ r ∈ executed id b orders, r.time = k))

variable {id : AccountId} {k t : ℕ} {b : ℤ} {o : TransferOrder} {os : List TransferOrder}

theorem askedFrom_cons (h : k+1 < 2^64) (o : TransferOrder) (os : List TransferOrder) :
    askedFrom id k (o::os) = asked id k o ++ askedFrom id (k+1) os := if_pos h

theorem askedFrom_late (h : ¬ k+1 < 2^64) (os : List TransferOrder) : askedFrom id k os = [] := by
  cases os with
  | nil => rfl
  | cons o os => exact if_neg h

theorem asked_time {r : Request ℤ} (h : r ∈ asked id k o) : r.time = k := by
  unfold asked creditAsked at h
  split_ifs at h <;> simp only [List.mem_cons, List.not_mem_nil, or_false] at h
  · rcases h with rfl | rfl <;> rfl
  · exact congrArg _ h
  · exact congrArg _ h

theorem askedFrom_time {r : Request ℤ} (h : r ∈ askedFrom id k os) : k ≤ r.time := by
  induction os generalizing k with
  | nil => cases h
  | cons o os ih =>
    by_cases hk : k+1 < 2^64
    · rw [askedFrom_cons hk, List.mem_append] at h
      rcases h with h | h
      · exact (asked_time h).ge
      · exact (Nat.le_succ k).trans (ih h)
    · rw [askedFrom_late hk] at h
      cases h

theorem served_time {r : Request ℤ} (h : r ∈ served (2^63) b (askedFrom id k os)) :
    k ≤ r.time :=
  askedFrom_time ((served_initial _ _ _).subset h)

theorem forall_orders_cons {P : ℕ → TransferOrder → Prop} :
    (∀ j o', (o::os)[j]? = some o' → P j o') ↔
      P 0 o ∧ ∀ j o', os[j]? = some o' → P (j+1) o' := by
  constructor
  · exact fun h => ⟨h 0 o rfl, fun j o' ho => h (j+1) o' ho⟩
  · intro h j o' ho
    cases j with
    | zero =>
      obtain rfl := Option.some.inj ho
      exact h.1
    | succ j => exact h.2 j o' ho

def Increasing (t : ℕ) (rs : List (Request ℤ)) : Prop := (t :: rs.map (·.time)).IsChain (· < ·)

theorem increasing_nil (t : ℕ) : Increasing t [] := List.isChain_singleton t

theorem increasing_cons {r : Request ℤ} {rs : List (Request ℤ)} :
    Increasing t (r::rs) ↔ t < r.time ∧ Increasing r.time rs := List.isChain_cons_cons

/-- No request of the list comes from an order before number `t+1`, or from an
order between one and the same account, where `os` starts with number `k`. -/
def Spread (t k : ℕ) (os : List TransferOrder) (rs : List (Request ℤ)) : Prop :=
  ∀ j o, os[j]? = some o → (∃ r ∈ rs, r.time = k+j) → t < k+j ∧ o.src ≠ o.dst

theorem spread_nil (t k : ℕ) (os : List TransferOrder) : Spread t k os [] := by
  rintro j o _ ⟨r, hr, _⟩
  cases hr

theorem spread_cons_orders {rs : List (Request ℤ)} :
    Spread t k (o::os) rs ↔
      ((∃ r ∈ rs, r.time = k) → t < k ∧ o.src ≠ o.dst) ∧ Spread t (k+1) os rs := by
  rw [Spread, forall_orders_cons]
  apply and_congr Iff.rfl
  apply forall_congr'
  intro j
  rw [show k+(j+1) = k+1+j by omega]

theorem spread_skip {rs : List (Request ℤ)} (h : ∀ r ∈ rs, k+1 ≤ r.time) :
    Spread t k (o::os) rs ↔ Spread t (k+1) os rs := by
  rw [spread_cons_orders]
  apply and_iff_right
  rintro ⟨r, hr, hk⟩
  have := h r hr
  omega

theorem spread_cons {r : Request ℤ} {rs : List (Request ℤ)} (hr : r.time = k) :
    Spread t k (o::os) (r::rs) ↔ (t < k ∧ o.src ≠ o.dst) ∧ Spread k (k+1) os rs := by
  rw [spread_cons_orders]
  constructor
  · intro h
    refine ⟨h.1 ⟨r, List.mem_cons_self, hr⟩, fun j o' ho hj => ?_⟩
    obtain ⟨q, hq, hqk⟩ := hj
    have := h.2 j o' ho ⟨q, List.mem_cons_of_mem r hq, hqk⟩
    exact ⟨by omega, this.2⟩
  · intro h
    refine ⟨fun _ => h.1, fun j o' ho hj => ?_⟩
    obtain ⟨q, hq, hqk⟩ := hj
    rcases List.mem_cons.mp hq with rfl | hq
    · omega
    · have := h.2 j o' ho ⟨q, hq, hqk⟩
      exact ⟨by omega, this.2⟩

theorem served_self {amount : ℤ} (hb : b < 2^63) (k : ℕ) (rs : List (Request ℤ)) :
    served (2^63) b (⟨.debit, amount, k⟩ :: ⟨.credit, amount, k⟩ :: rs) = [] ∨
    ∃ qs, served (2^63) b (⟨.debit, amount, k⟩ :: ⟨.credit, amount, k⟩ :: rs) =
      ⟨.debit, amount, k⟩ :: ⟨.credit, amount, k⟩ :: qs := by
  by_cases hg : Grants b ⟨.debit, amount, k⟩
  · have hpos : 0 < amount := hg.1
    have hdebit : b+(⟨.debit, amount, k⟩ : Request ℤ).signed = b-amount :=
      (sub_eq_add_neg b amount).symm
    have hcredit : b-amount+(⟨.credit, amount, k⟩ : Request ℤ).signed = b :=
      sub_add_cancel b amount
    rw [served_cons hg (by omega), hdebit,
      served_cons ⟨hpos, fun h => by cases h⟩ (by omega)]
    exact Or.inr ⟨_, rfl⟩
  · exact Or.inl (served_stop (fun h => hg h.1) _)

theorem increasing_iff (ht : t ≤ k) (hb : b < 2^63) (os : List TransferOrder) :
    Increasing t (served (2^63) b (askedFrom id k os)) ↔
      Spread t k os (served (2^63) b (askedFrom id k os)) := by
  induction os generalizing t k b with
  | nil => exact iff_of_true (increasing_nil t) (spread_nil t k [])
  | cons o os ih =>
    have hnone := iff_of_true (increasing_nil t) (spread_nil t k (o::os))
    by_cases hk : k+1 < 2^64
    · -- one request, and then the other orders
      have hone : ∀ r : Request ℤ, r.time = k → o.src ≠ o.dst →
          (Increasing t (served (2^63) b (r :: askedFrom id (k+1) os)) ↔
            Spread t k (o::os) (served (2^63) b (r :: askedFrom id (k+1) os))) := by
        intro r hr hne
        by_cases hs : Grants b r ∧ b+r.signed < 2^63
        · rw [served_cons hs.1 hs.2, spread_cons hr, ← ih (Nat.le_succ k) hs.2,
            increasing_cons, hr]
          exact and_congr_left' (and_iff_left hne).symm
        · rw [served_stop hs]
          exact hnone
      rw [askedFrom_cons hk, asked, creditAsked]
      split_ifs with hsrc hdst hdst
      · rw [List.cons_append, List.singleton_append]
        rcases served_self hb k (askedFrom id (k+1) os) with hnil | ⟨qs, hqs⟩
        · rw [hnil]
          exact hnone
        · rw [hqs, increasing_cons, increasing_cons]
          apply iff_of_false
          · exact fun h => (lt_irrefl k) h.2.1
          · intro h
            have hk := h 0 o rfl ⟨_, List.mem_cons_self, rfl⟩
            exact hk.2 (hsrc.trans hdst.symm)
      · exact hone _ rfl fun heq => hdst (heq ▸ hsrc)
      · exact hone _ rfl fun heq => hsrc (heq ▸ hdst)
      · rw [List.nil_append, spread_skip fun r hr => served_time hr]
        exact ih (ht.trans (Nat.le_succ k)) hb
    · rw [askedFrom_late hk]
      exact hnone

/-- The account records at most once a tick, and never at time zero, exactly if
no order number zero and no order to itself makes it execute anything. -/
theorem executed_increasing_iff (hb : b < 2^63) (orders : List TransferOrder) :
    Increasing 0 (executed id b orders) ↔
      ∀ k o, orders[k]? = some o → Executes id b orders k → 0 < k ∧ o.src ≠ o.dst := by
  rw [executed, increasing_iff le_rfl hb]
  apply forall_congr'
  intro k
  rw [Nat.zero_add]
  rfl

end CrabKeeper.OrderPlan
