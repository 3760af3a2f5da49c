import CrabKeeper.Foundation.BigEndian

/-!
# Orders, snapshots and account histories on the wire

An order is ten bytes, a snapshot twenty-four, a history one identifier byte,
one count byte and its snapshots. The count is the number of snapshots cut to
eight bits; the decoder compares it with the length of its input.
-/

set_option autoImplicit false

namespace CrabKeeper.BankTypes
open Foundation.Machine Foundation.BigEndian

abbrev AccountId := UInt8
abbrev Balance := Int64
abbrev Timestamp := UInt64

structure TransferOrder where
  src : AccountId
  dst : AccountId
  amount : Balance
  deriving DecidableEq, Repr

structure BalanceState where
  balance : Balance
  time : Timestamp
  pendingIn : Balance
  deriving DecidableEq, Repr

structure BalanceHistory where
  id : AccountId
  states : List BalanceState
  deriving DecidableEq, Repr

def BalanceState.new (balance : Balance) (time : Timestamp) : BalanceState := ⟨balance, time, 0⟩

def BalanceHistory.new (id : AccountId) (initialBalance : Balance) : BalanceHistory :=
  ⟨id, [BalanceState.new initialBalance 0]⟩

def TransferOrder.toBytes (o : TransferOrder) : List UInt8 := o.src :: o.dst :: i64ToBe o.amount

def TransferOrder.fromBytes (bytes : List UInt8) : Checked (Except String TransferOrder) :=
  if bytes.length ≠ 10 then .ok (.error "长度不匹配") else do
    let src ← index bytes 0
    let dst ← index bytes 1
    let amountBytes ← slice bytes 2 10
    let amount ← i64OfBe amountBytes
    return .ok ⟨src, dst, amount⟩

def BalanceState.toBytes (s : BalanceState) : List UInt8 :=
  i64ToBe s.balance ++ u64ToBe s.time ++ i64ToBe s.pendingIn

def BalanceState.fromBytes (bytes : List UInt8) : Checked (Except String BalanceState) :=
  if bytes.length ≠ 24 then .ok (.error "长度不匹配") else do
    let balanceBytes ← slice bytes 0 8
    let balance ← i64OfBe balanceBytes
    let timeBytes ← slice bytes 8 16
    let time ← u64OfBe timeBytes
    let pendingBytes ← slice bytes 16 24
    let pendingIn ← i64OfBe pendingBytes
    return .ok ⟨balance, time, pendingIn⟩

def BalanceHistory.toBytes (h : BalanceHistory) : List UInt8 :=
  h.id :: UInt8.ofNat h.states.length :: h.states.flatMap BalanceState.toBytes

/-- The loop `for i in 0..len` of `BalanceHistory::from_bytes`, from index `i` on. -/
def readStates (bytes : List UInt8) : ℕ → ℕ → Checked (Except String (List BalanceState))
  | _, 0 => .ok (.ok [])
  | i, k+1 => do
    let chunk ← slice bytes (24*i+2) (24*(i+1)+2)
    match ← BalanceState.fromBytes chunk with
    | .error e => .ok (.error e)
    | .ok state =>
      match ← readStates bytes (i+1) k with
      | .error e => .ok (.error e)
      | .ok states => .ok (.ok (state::states))

def BalanceHistory.fromBytes (bytes : List UInt8) : Checked (Except String BalanceHistory) :=
  if bytes.length < 2 then .ok (.error "长度不匹配") else do
    let id ← index bytes 0
    let len ← index bytes 1
    if bytes.length ≠ 24*len.toNat+2 then return .error "长度不匹配" else
    match ← readStates bytes 0 len.toNat with
    | .error e => .ok (.error e)
    | .ok states => .ok (.ok ⟨id, states⟩)

@[simp] theorem order_toBytes_length (o : TransferOrder) : o.toBytes.length = 10 := by
  simp [TransferOrder.toBytes]

theorem order_fromBytes_toBytes (o : TransferOrder) :
    TransferOrder.fromBytes o.toBytes = .ok (.ok o) := by
  have hlen := order_toBytes_length o
  have hamount : slice o.toBytes 2 10 = .ok (i64ToBe o.amount) := by
    have := slice_append [o.src, o.dst] (i64ToBe o.amount) [] (i := 2) (j := 10) rfl (by simp)
    simpa [TransferOrder.toBytes] using this
  rw [TransferOrder.fromBytes, if_neg (by omega), index_of_lt (by omega), index_of_lt (by omega),
    hamount]
  simp only [ok_bind, i64OfBe_i64ToBe]
  rfl

@[simp] theorem state_toBytes_length (s : BalanceState) : s.toBytes.length = 24 := by
  simp [BalanceState.toBytes]

theorem state_fromBytes_toBytes (s : BalanceState) :
    BalanceState.fromBytes s.toBytes = .ok (.ok s) := by
  have h : s.toBytes = i64ToBe s.balance ++ (u64ToBe s.time ++ i64ToBe s.pendingIn) := by
    rw [BalanceState.toBytes, List.append_assoc]
  have h1 : slice s.toBytes 0 8 = .ok (i64ToBe s.balance) := by
    rw [h]
    exact slice_append [] (i64ToBe s.balance) _ rfl (by simp)
  have h2 : slice s.toBytes 8 16 = .ok (u64ToBe s.time) := by
    rw [h]
    exact slice_append (i64ToBe s.balance) (u64ToBe s.time) _ (by simp) (by simp)
  have h3 : slice s.toBytes 16 24 = .ok (i64ToBe s.pendingIn) := by
    have := slice_append (i64ToBe s.balance ++ u64ToBe s.time) (i64ToBe s.pendingIn) []
      (i := 16) (j := 24) (by simp) (by simp)
    rwa [List.append_nil, List.append_assoc, ← h] at this
  rw [BalanceState.fromBytes, if_neg (by simp), h1, h2, h3]
  simp only [ok_bind, i64OfBe_i64ToBe, u64OfBe_u64ToBe]
  rfl

theorem exists_state_toBytes (bytes : List UInt8) (h : bytes.length = 24) :
    ∃ s : BalanceState, s.toBytes = bytes := by
  obtain ⟨x, hx⟩ := exists_i64ToBe (l := bytes.take 8) (by simp [h])
  obtain ⟨y, hy⟩ := exists_u64ToBe (l := (bytes.drop 8).take 8) (by simp [h])
  obtain ⟨z, hz⟩ := exists_i64ToBe (l := (bytes.drop 8).drop 8) (by simp [h])
  refine ⟨⟨x, y, z⟩, ?_⟩
  rw [BalanceState.toBytes, ← hx, ← hy, ← hz, List.append_assoc, List.take_append_drop,
    List.take_append_drop]

theorem flatMap_states_length (l : List BalanceState) :
    (l.flatMap BalanceState.toBytes).length = 24*l.length := by
  induction l with
  | nil => rfl
  | cons s l ih =>
    rw [List.flatMap_cons, List.length_append, ih, state_toBytes_length, List.length_cons]
    ring

theorem history_toBytes_length (h : BalanceHistory) :
    h.toBytes.length = 24*h.states.length+2 := by
  rw [BalanceHistory.toBytes, List.length_cons, List.length_cons, flatMap_states_length]

theorem readStates_flatMap (states : List BalanceState) (before after : List UInt8) (i : ℕ)
    (hi : before.length = 24*i+2) :
    readStates (before ++ (states.flatMap BalanceState.toBytes ++ after)) i states.length =
      .ok (.ok states) := by
  induction states generalizing before i with
  | nil => rfl
  | cons s states ih =>
    have hs : slice (before ++ ((s::states).flatMap BalanceState.toBytes ++ after))
        (24*i+2) (24*(i+1)+2) = .ok s.toBytes := by
      rw [List.flatMap_cons, List.append_assoc]
      exact slice_append _ _ _ hi (by rw [state_toBytes_length]; ring)
    have hr := ih (before ++ s.toBytes) (i+1) (by
      rw [List.length_append, hi, state_toBytes_length]
      ring)
    rw [List.append_assoc] at hr
    rw [List.length_cons, readStates, hs]
    simp only [ok_bind, state_fromBytes_toBytes]
    rw [List.flatMap_cons, List.append_assoc, hr]
    rfl

theorem exists_states_flatMap (k : ℕ) (bytes : List UInt8) (h : bytes.length = 24*k) :
    ∃ states : List BalanceState, states.length = k ∧
      states.flatMap BalanceState.toBytes = bytes := by
  induction k generalizing bytes with
  | zero => exact ⟨[], rfl, (List.length_eq_zero_iff.mp h).symm⟩
  | succ k ih =>
    obtain ⟨s, hs⟩ := exists_state_toBytes (bytes.take 24) (by
      rw [List.length_take]
      omega)
    obtain ⟨states, hk, hb⟩ := ih (bytes.drop 24) (by
      rw [List.length_drop]
      omega)
    refine ⟨s::states, by simp [hk], ?_⟩
    rw [List.flatMap_cons, hs, hb, List.take_append_drop]

theorem history_fromBytes_parts (id len : UInt8) (states : List BalanceState)
    (h : states.length = len.toNat) :
    BalanceHistory.fromBytes (id :: len :: states.flatMap BalanceState.toBytes) =
      .ok (.ok ⟨id, states⟩) := by
  have hlen := flatMap_states_length states
  have hr := readStates_flatMap states [id, len] [] 0 rfl
  rw [List.append_nil, h] at hr
  simp only [List.cons_append, List.nil_append] at hr
  rw [BalanceHistory.fromBytes, if_neg (by simp), index_of_lt (by simp), index_of_lt (by simp)]
  simp only [ok_bind, List.getElem_cons_zero, List.getElem_cons_succ]
  rw [if_neg (by simp only [List.length_cons]; omega), hr]
  rfl

theorem history_fromBytes_toBytes (h : BalanceHistory) (hs : h.states.length ≤ 255) :
    BalanceHistory.fromBytes h.toBytes = .ok (.ok h) :=
  history_fromBytes_parts h.id _ h.states (by rw [UInt8.toNat_ofNat', Nat.mod_eq_of_lt (by omega)])

theorem history_fromBytes_cases (bytes : List UInt8) :
    BalanceHistory.fromBytes bytes = .ok (.error "长度不匹配") ∨
    ∃ (id len : UInt8) (states : List BalanceState),
      bytes = id :: len :: states.flatMap BalanceState.toBytes ∧
      states.length = len.toNat := by
  by_cases hlong : bytes.length < 2
  · exact Or.inl (if_pos hlong)
  obtain ⟨id, rest, rfl⟩ := List.exists_cons_of_length_pos (l := bytes) (by omega)
  obtain ⟨len, body, rfl⟩ := List.exists_cons_of_length_pos (l := rest) (by
    simp only [List.length_cons] at hlong
    omega)
  by_cases hb : body.length = 24*len.toNat
  · obtain ⟨states, hk, rfl⟩ := exists_states_flatMap _ _ hb
    exact Or.inr ⟨id, len, states, rfl, hk⟩
  · left
    rw [BalanceHistory.fromBytes, if_neg hlong, index_of_lt (by simp), index_of_lt (by simp)]
    simp only [ok_bind, List.getElem_cons_zero, List.getElem_cons_succ]
    rw [if_pos (by simp only [List.length_cons]; omega)]
    rfl

/-- The history decoder accepts exactly the encodings of histories whose
snapshots the count byte can count. -/
theorem history_fromBytes_eq_ok {bytes : List UInt8} {h : BalanceHistory} :
    BalanceHistory.fromBytes bytes = .ok (.ok h) ↔ h.states.length ≤ 255 ∧ bytes = h.toBytes := by
  constructor
  · intro hd
    rcases history_fromBytes_cases bytes with he | ⟨id, len, states, rfl, hk⟩
    · rw [he] at hd
      cases Except.ok.inj hd
    · have hlen := UInt8.toNat_lt len
      rw [history_fromBytes_parts id len states hk] at hd
      obtain rfl := Except.ok.inj (Except.ok.inj hd)
      refine ⟨by simp only; omega, ?_⟩
      simp only [BalanceHistory.toBytes, hk, UInt8.ofNat_toNat]
  · rintro ⟨hs, rfl⟩
    exact history_fromBytes_toBytes h hs

theorem flatMap_states_injective {l k : List BalanceState}
    (h : l.flatMap BalanceState.toBytes = k.flatMap BalanceState.toBytes) : l = k := by
  have hlen := congrArg List.length h
  rw [flatMap_states_length, flatMap_states_length] at hlen
  have hl := readStates_flatMap l [0, 0] [] 0 rfl
  have hk := readStates_flatMap k [0, 0] [] 0 rfl
  rw [h, show l.length = k.length by omega, hk] at hl
  exact (Except.ok.inj (Except.ok.inj hl)).symm

theorem history_report_faithful {h h' : BalanceHistory}
    (hd : BalanceHistory.fromBytes h.toBytes = .ok (.ok h')) : h' = h := by
  obtain ⟨_, heq⟩ := history_fromBytes_eq_ok.mp hd
  simp only [BalanceHistory.toBytes, List.cons.injEq] at heq
  cases h
  cases h'
  simp only at heq
  rw [heq.1, flatMap_states_injective heq.2.2]

end CrabKeeper.BankTypes
