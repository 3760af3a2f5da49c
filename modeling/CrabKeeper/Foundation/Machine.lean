import Mathlib.Tactic

/-!
# Checked machine operations

A computation either returns or panics. Arithmetic on fixed-width integers
panics when the exact result does not fit, an index or a slice panics when it
leaves its list, and a buffer panics when it asks for more bytes than a signed
pointer-sized integer can count. Results are related to exact integers once, in
the lemmas next to each operation; nothing later unfolds an operation.
-/

set_option autoImplicit false

namespace Foundation.Machine

inductive Panic where
  | overflow
  | outOfBounds
  | unwrap
  | capacity
  deriving DecidableEq, Repr

abbrev Checked (α : Type*) := Except Panic α

/-- The largest byte length of one allocation, `isize::MAX` on 64 bits. -/
def isizeMax : ℕ := 2^63-1

def addI64 (a b : Int64) : Checked Int64 :=
  if -2^63 ≤ a.toInt+b.toInt ∧ a.toInt+b.toInt < 2^63 then .ok (a+b) else .error .overflow

def subI64 (a b : Int64) : Checked Int64 :=
  if -2^63 ≤ a.toInt-b.toInt ∧ a.toInt-b.toInt < 2^63 then .ok (a-b) else .error .overflow

def addU64 (a b : UInt64) : Checked UInt64 :=
  if a.toNat+b.toNat < 2^64 then .ok (a+b) else .error .overflow

def addU8 (a b : UInt8) : Checked UInt8 :=
  if a.toNat+b.toNat < 2^8 then .ok (a+b) else .error .overflow

def subU8 (a b : UInt8) : Checked UInt8 :=
  if b ≤ a then .ok (a-b) else .error .overflow

def addUsize (a b : ℕ) : Checked ℕ := if a+b < 2^64 then .ok (a+b) else .error .overflow

def index {α : Type*} (l : List α) (i : ℕ) : Checked α :=
  match l[i]? with
  | some a => .ok a
  | none => .error .outOfBounds

def slice {α : Type*} (l : List α) (a b : ℕ) : Checked (List α) :=
  if a ≤ b ∧ b ≤ l.length then .ok ((l.take b).drop a) else .error .outOfBounds

def sliceFrom {α : Type*} (l : List α) (a : ℕ) : Checked (List α) :=
  if a ≤ l.length then .ok (l.drop a) else .error .outOfBounds

/-- `vec![0u8; n]`: only the failure matters, the contents are overwritten. -/
def allocate (n : ℕ) : Checked Unit :=
  if n ≤ isizeMax then .ok () else .error .capacity

@[simp] theorem ok_bind {α β : Type} (a : α) (f : α → Checked β) :
    ((.ok a : Checked α) >>= f) = f a := rfl

@[simp] theorem error_bind {α β : Type} (p : Panic) (f : α → Checked β) :
    ((.error p : Checked α) >>= f) = .error p := rfl

theorem bind_eq_ok {α β : Type} {x : Checked α} {f : α → Checked β} {b : β} :
    x >>= f = .ok b ↔ ∃ a, x = .ok a ∧ f a = .ok b := by
  cases x <;> simp

theorem bmod_of_fits {z : ℤ} (h : -2^63 ≤ z ∧ z < 2^63) : z.bmod (2^64) = z := by
  rw [Int.bmod_def]
  split_ifs <;> omega

theorem addI64_eq_ok {a b c : Int64} :
    addI64 a b = .ok c ↔ c.toInt = a.toInt+b.toInt := by
  unfold addI64
  constructor
  · intro h
    split_ifs at h with hf
    obtain rfl := Except.ok.inj h
    rw [Int64.toInt_add, bmod_of_fits hf]
  · intro h
    have hlo := Int64.le_toInt c
    have hhi := Int64.toInt_lt c
    have hf : -2^63 ≤ a.toInt+b.toInt ∧ a.toInt+b.toInt < 2^63 := by omega
    rw [if_pos hf]
    congr 1
    rw [← Int64.toInt_inj, Int64.toInt_add, bmod_of_fits hf, h]

theorem subI64_eq_ok {a b c : Int64} :
    subI64 a b = .ok c ↔ c.toInt = a.toInt-b.toInt := by
  unfold subI64
  constructor
  · intro h
    split_ifs at h with hf
    obtain rfl := Except.ok.inj h
    rw [Int64.toInt_sub, bmod_of_fits hf]
  · intro h
    have hlo := Int64.le_toInt c
    have hhi := Int64.toInt_lt c
    have hf : -2^63 ≤ a.toInt-b.toInt ∧ a.toInt-b.toInt < 2^63 := by omega
    rw [if_pos hf]
    congr 1
    rw [← Int64.toInt_inj, Int64.toInt_sub, bmod_of_fits hf, h]

theorem addI64_of_fits {a b : Int64}
    (h : -2^63 ≤ a.toInt+b.toInt ∧ a.toInt+b.toInt < 2^63) : addI64 a b = .ok (a+b) :=
  if_pos h

theorem subI64_of_fits {a b : Int64}
    (h : -2^63 ≤ a.toInt-b.toInt ∧ a.toInt-b.toInt < 2^63) : subI64 a b = .ok (a-b) :=
  if_pos h

theorem addU64_eq_ok {a b c : UInt64} :
    addU64 a b = .ok c ↔ c.toNat = a.toNat+b.toNat := by
  unfold addU64
  constructor
  · intro h
    split_ifs at h with hf
    obtain rfl := Except.ok.inj h
    rw [UInt64.toNat_add, Nat.mod_eq_of_lt hf]
  · intro h
    have hc := UInt64.toNat_lt c
    have hf : a.toNat+b.toNat < 2^64 := by omega
    rw [if_pos hf]
    congr 1
    rw [← UInt64.toNat_inj, UInt64.toNat_add, Nat.mod_eq_of_lt hf, h]

theorem addU8_eq_ok {a b c : UInt8} :
    addU8 a b = .ok c ↔ c.toNat = a.toNat+b.toNat := by
  unfold addU8
  constructor
  · intro h
    split_ifs at h with hf
    obtain rfl := Except.ok.inj h
    rw [UInt8.toNat_add, Nat.mod_eq_of_lt hf]
  · intro h
    have hc := UInt8.toNat_lt c
    have hf : a.toNat+b.toNat < 2^8 := by omega
    rw [if_pos hf]
    congr 1
    rw [← UInt8.toNat_inj, UInt8.toNat_add, Nat.mod_eq_of_lt hf, h]

theorem subU8_eq_ok {a b c : UInt8} :
    subU8 a b = .ok c ↔ c.toNat+b.toNat = a.toNat := by
  unfold subU8
  have ha := UInt8.toNat_lt a
  constructor
  · intro h
    split_ifs at h with hf
    obtain rfl := Except.ok.inj h
    have hle := UInt8.le_iff_toNat_le.mp hf
    rw [UInt8.toNat_sub_of_le _ _ hf]
    omega
  · intro h
    have hf : b ≤ a := UInt8.le_iff_toNat_le.mpr (by omega)
    rw [if_pos hf]
    congr 1
    rw [← UInt8.toNat_inj, UInt8.toNat_sub_of_le _ _ hf]
    omega

theorem addUsize_of_lt {a b : ℕ} (h : a+b < 2^64) : addUsize a b = .ok (a+b) := if_pos h

theorem addUsize_of_le {a b : ℕ} (h : 2^64 ≤ a+b) : addUsize a b = .error .overflow :=
  if_neg (Nat.not_lt.mpr h)

theorem index_eq_ok {α : Type*} {l : List α} {i : ℕ} {a : α} :
    index l i = .ok a ↔ l[i]? = some a := by
  unfold index
  cases l[i]? <;> simp

theorem index_of_lt {α : Type*} {l : List α} {i : ℕ} (h : i < l.length) :
    index l i = .ok l[i] := by
  simp [index, h]

theorem slice_of_le {α : Type*} {l : List α} {a b : ℕ} (hab : a ≤ b) (hb : b ≤ l.length) :
    slice l a b = .ok ((l.take b).drop a) :=
  if_pos ⟨hab, hb⟩

theorem slice_append {α : Type*} (a b c : List α) {i j : ℕ} (hi : a.length = i)
    (hj : i+b.length = j) : slice (a ++ (b ++ c)) i j = .ok b := by
  subst hi hj
  rw [slice_of_le (by omega) (by simp)]
  congr 1
  rw [← List.append_assoc, List.take_left' (by simp), List.drop_left]

theorem sliceFrom_of_le {α : Type*} {l : List α} {a : ℕ} (h : a ≤ l.length) :
    sliceFrom l a = .ok (l.drop a) :=
  if_pos h

theorem allocate_eq_ok {n : ℕ} : allocate n = .ok () ↔ n ≤ isizeMax := by
  unfold allocate
  split_ifs with h <;> simp [h]

end Foundation.Machine
