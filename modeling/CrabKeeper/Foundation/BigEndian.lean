import CrabKeeper.Foundation.Machine

/-!
# Fixed-width big-endian numbers

`toBe w n` writes the lowest `w` base-256 digits of `n`, most significant
first, and `ofBe` reads any list of digits back. The two are inverse to each
other up to the width, which is all that the codecs above need. The 64-bit
writers and readers are instances; the readers convert a slice to an array of
exactly eight bytes first, and panic on any other length.
-/

set_option autoImplicit false

namespace Foundation.BigEndian
open Foundation.Machine

def toBe : ℕ → ℕ → List UInt8
  | 0, _ => []
  | w+1, n => toBe w (n/256) ++ [UInt8.ofNat n]

def ofBe (l : List UInt8) : ℕ := l.foldl (fun n b => 256*n+b.toNat) 0

@[simp] theorem ofBe_nil : ofBe [] = 0 := rfl

@[simp] theorem ofBe_concat (l : List UInt8) (b : UInt8) :
    ofBe (l ++ [b]) = 256*ofBe l+b.toNat := by
  simp [ofBe, List.foldl_append]

@[simp] theorem toBe_length (w n : ℕ) : (toBe w n).length = w := by
  induction w generalizing n with
  | zero => rfl
  | succ w ih => simp [toBe, ih]

theorem ofBe_toBe (w n : ℕ) : ofBe (toBe w n) = n%256^w := by
  induction w generalizing n with
  | zero => simp [toBe, Nat.mod_one]
  | succ w ih =>
    rw [toBe, ofBe_concat, ih, pow_succ', Nat.mod_mul, UInt8.toNat_ofNat']
    omega

theorem ofBe_lt (l : List UInt8) : ofBe l < 256^l.length := by
  induction l using List.reverseRecOn with
  | nil => simp
  | append_singleton l b ih =>
    have hb := UInt8.toNat_lt b
    rw [ofBe_concat, List.length_append, List.length_singleton, pow_succ]
    omega

theorem toBe_ofBe (l : List UInt8) : toBe l.length (ofBe l) = l := by
  induction l using List.reverseRecOn with
  | nil => rfl
  | append_singleton l b ih =>
    have hb := UInt8.toNat_lt b
    have hd : (256*ofBe l+b.toNat)/256 = ofBe l := by omega
    have hm : UInt8.ofNat (256*ofBe l+b.toNat) = b := by
      rw [← UInt8.toNat_inj, UInt8.toNat_ofNat']
      omega
    rw [List.length_append, List.length_singleton, toBe, ofBe_concat, hd, hm, ih]

def u64ToBe (x : UInt64) : List UInt8 := toBe 8 x.toNat

def u64OfBe (l : List UInt8) : Checked UInt64 :=
  if l.length = 8 then .ok (UInt64.ofNat (ofBe l)) else .error .unwrap

/-- `i64::to_be_bytes`, two's complement. -/
def i64ToBe (x : Int64) : List UInt8 := toBe 8 x.toUInt64.toNat

def i64OfBe (l : List UInt8) : Checked Int64 :=
  if l.length = 8 then .ok (UInt64.ofNat (ofBe l)).toInt64 else .error .unwrap

@[simp] theorem u64ToBe_length (x : UInt64) : (u64ToBe x).length = 8 := toBe_length _ _

@[simp] theorem i64ToBe_length (x : Int64) : (i64ToBe x).length = 8 := toBe_length _ _

theorem u64_digits (l : List UInt8) (hl : l.length = 8) :
    (UInt64.ofNat (ofBe l)).toNat = ofBe l := by
  have hlt := ofBe_lt l
  rw [hl] at hlt
  rw [UInt64.toNat_ofNat', Nat.mod_eq_of_lt (by omega)]

@[simp] theorem u64OfBe_u64ToBe (x : UInt64) : u64OfBe (u64ToBe x) = .ok x := by
  have hx := UInt64.toNat_lt x
  rw [u64OfBe, if_pos (u64ToBe_length x), u64ToBe, ofBe_toBe, Nat.mod_eq_of_lt (by omega)]
  simp

theorem u64OfBe_eq_ok {l : List UInt8} {x : UInt64} : u64OfBe l = .ok x ↔ l = u64ToBe x := by
  constructor
  · intro h
    unfold u64OfBe at h
    split_ifs at h with hl
    obtain rfl := Except.ok.inj h
    rw [u64ToBe, u64_digits l hl, ← hl, toBe_ofBe]
  · rintro rfl
    exact u64OfBe_u64ToBe x

theorem u64ToBe_inj {x y : UInt64} (h : u64ToBe x = u64ToBe y) : x = y := by
  have hx := u64OfBe_u64ToBe x
  rw [h, u64OfBe_u64ToBe y] at hx
  exact (Except.ok.inj hx).symm

theorem u64OfBe_of_length {l : List UInt8} (hl : l.length = 8) :
    u64OfBe l = .ok (UInt64.ofNat (ofBe l)) := if_pos hl

@[simp] theorem i64OfBe_i64ToBe (x : Int64) : i64OfBe (i64ToBe x) = .ok x := by
  have hx := UInt64.toNat_lt x.toUInt64
  rw [i64OfBe, if_pos (i64ToBe_length x), i64ToBe, ofBe_toBe, Nat.mod_eq_of_lt (by omega)]
  simp

theorem i64OfBe_eq_ok {l : List UInt8} {x : Int64} : i64OfBe l = .ok x ↔ l = i64ToBe x := by
  constructor
  · intro h
    unfold i64OfBe at h
    split_ifs at h with hl
    obtain rfl := Except.ok.inj h
    rw [i64ToBe, UInt64.toUInt64_toInt64, u64_digits l hl, ← hl, toBe_ofBe]
  · rintro rfl
    exact i64OfBe_i64ToBe x

theorem exists_u64ToBe {l : List UInt8} (hl : l.length = 8) : ∃ x, l = u64ToBe x :=
  ⟨_, u64OfBe_eq_ok.mp (u64OfBe_of_length hl)⟩

theorem i64OfBe_of_length {l : List UInt8} (hl : l.length = 8) :
    i64OfBe l = .ok (UInt64.ofNat (ofBe l)).toInt64 := if_pos hl

theorem exists_i64ToBe {l : List UInt8} (hl : l.length = 8) : ∃ x, l = i64ToBe x :=
  ⟨_, i64OfBe_eq_ok.mp (i64OfBe_of_length hl)⟩

theorem prefixed_cases (l : List UInt8) :
    l.length < 8 ∨ (∃ n tail, l = u64ToBe n ++ tail ∧ tail.length < n.toNat) ∨
      ∃ n body rest, l = u64ToBe n ++ (body ++ rest) ∧ body.length = n.toNat := by
  by_cases h8 : l.length < 8
  · exact Or.inl h8
  obtain ⟨n, hn⟩ := exists_u64ToBe (l := l.take 8) (by rw [List.length_take]; omega)
  have hl : l = u64ToBe n ++ l.drop 8 := by rw [← hn, List.take_append_drop]
  right
  by_cases ht : (l.drop 8).length < n.toNat
  · exact Or.inl ⟨n, _, hl, ht⟩
  · refine Or.inr ⟨n, (l.drop 8).take n.toNat, (l.drop 8).drop n.toNat, ?_, ?_⟩
    · rwa [List.take_append_drop]
    · rw [List.length_take]
      omega

end Foundation.BigEndian
