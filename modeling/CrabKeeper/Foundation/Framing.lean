import Mathlib.Tactic

/-!
# Streams of self-delimiting frames

A prefix code writes each valid value as a nonempty word and reads one value
off the front of a stream. The single law says that reading succeeds exactly on
streams that begin with a written word. What holds of whole streams follows:
cutting a concatenation at an arbitrary place loses only the frames that the
cut touches.
-/

set_option autoImplicit false

namespace Foundation.Framing

structure PrefixCode (M B : Type*) where
  encode : M → List B
  Valid : M → Prop
  decode : List B → Option (M × List B)
  decode_iff : ∀ s m r, decode s = some (m,r) ↔ Valid m ∧ s = encode m ++ r
  encode_ne_nil : ∀ m, Valid m → encode m ≠ []

variable {M B : Type*} (C : PrefixCode M B)

theorem decode_encode (m : M) (hm : C.Valid m) (r : List B) :
    C.decode (C.encode m ++ r) = some (m,r) :=
  (C.decode_iff _ _ _).mpr ⟨hm, rfl⟩

/-- Reading values one after the other, down to the stream that is left. -/
inductive Decodes : List B → List M → List B → Prop
  | nil (s : List B) : Decodes s [] s
  | cons {s r t : List B} {m : M} {ms : List M} :
      C.decode s = some (m,r) → Decodes r ms t → Decodes s (m::ms) t

def frames (ms : List M) : List B := ms.flatMap C.encode

theorem decodes_iff {s t : List B} {ms : List M} :
    Decodes C s ms t ↔ (∀ m ∈ ms, C.Valid m) ∧ s = frames C ms ++ t := by
  constructor
  · intro h
    induction h with
    | nil s => exact ⟨fun m hm => absurd hm List.not_mem_nil, rfl⟩
    | cons hd _ ih =>
      obtain ⟨hm, rfl⟩ := (C.decode_iff _ _ _).mp hd
      refine ⟨List.forall_mem_cons.mpr ⟨hm, ih.1⟩, ?_⟩
      rw [ih.2, ← List.append_assoc]
      rfl
  · rintro ⟨hv, rfl⟩
    induction ms with
    | nil => exact .nil t
    | cons m ms ih =>
      rw [List.forall_mem_cons] at hv
      rw [frames, List.flatMap_cons, List.append_assoc]
      exact .cons (decode_encode C m hv.1 _) (ih hv.2)

theorem decodes_upto (k : ℕ) (s : List B) :
    ∃ ms t, Decodes C s ms t ∧ (ms.length = k ∨ ms.length < k ∧ C.decode t = none) := by
  induction k generalizing s with
  | zero => exact ⟨[], s, .nil s, Or.inl rfl⟩
  | succ k ih =>
    cases hd : C.decode s with
    | none => exact ⟨[], s, .nil s, Or.inr ⟨k.succ_pos, hd⟩⟩
    | some x =>
      obtain ⟨ms, t, hms, hend⟩ := ih x.2
      refine ⟨x.1::ms, t, .cons hd hms, ?_⟩
      rw [List.length_cons]
      exact hend.imp (congrArg (·+1)) (And.imp_left Nat.succ_lt_succ)

def frameEnd (ms : List M) (i : ℕ) : ℕ := (frames C (ms.take (i+1))).length

theorem frameEnd_zero (m : M) (ms : List M) :
    frameEnd C (m::ms) 0 = (C.encode m).length := by
  simp [frameEnd, frames]

theorem frameEnd_succ (m : M) (ms : List M) (i : ℕ) :
    frameEnd C (m::ms) (i+1) = (C.encode m).length+frameEnd C ms i := by
  simp [frameEnd, frames]

theorem encode_le_frameEnd (m : M) (ms : List M) (i : ℕ) :
    (C.encode m).length ≤ frameEnd C (m::ms) i := by
  cases i with
  | zero => rw [frameEnd_zero]
  | succ i => rw [frameEnd_succ]; omega

/-- What is left after the whole frames of a cut stream: nothing, or a proper
beginning of the next frame. -/
def Remnant (ms : List M) (t : List B) : Prop :=
  t = [] ∨ ∃ m ∈ ms, ∃ q, q ≠ [] ∧ C.encode m = t ++ q

theorem cut_cases {P q f S : List B} (h : P ++ q = f ++ S) :
    (∃ c, P = f ++ c ∧ c ++ q = S) ∨ (∃ c, c ≠ [] ∧ f = P ++ c) := by
  rcases List.append_eq_append_iff.mp h with ⟨c, hf, hq⟩ | ⟨c, hP, hS⟩
  · by_cases hc : c = []
    · subst hc
      exact Or.inl ⟨[], by simpa using hf.symm, by simpa using hq⟩
    · exact Or.inr ⟨c, hc, hf⟩
  · exact Or.inl ⟨c, hP, hS.symm⟩

theorem remnant_cons {ms : List M} {t : List B} (m : M) (h : Remnant C ms t) :
    Remnant C (m::ms) t := by
  rcases h with ht | ⟨x, hx, h⟩
  · exact Or.inl ht
  · exact Or.inr ⟨x, List.mem_cons_of_mem m hx, h⟩

/-- A stream of frames cut anywhere yields exactly the frames that end before
the cut, in order, and what is left is not a frame. -/
theorem decodes_cut (ms : List M) (hv : ∀ m ∈ ms, C.Valid m) (P : List B)
    (hP : P <+: frames C ms) :
    ∃ j t, Decodes C P (ms.take j) t ∧ Remnant C ms t ∧
      (∀ i < ms.length, i < j ↔ frameEnd C ms i ≤ P.length) ∧
      (P = frames C ms → ms.take j = ms ∧ t = []) := by
  induction ms generalizing P with
  | nil =>
    have hnil : P = [] := by simpa [frames] using hP
    subst hnil
    exact ⟨0, [], .nil _, Or.inl rfl, by simp, by simp⟩
  | cons m ms ih =>
    have hm := hv m (by simp)
    obtain ⟨q, hq⟩ := hP
    rcases cut_cases (show P ++ q = C.encode m ++ frames C ms by simpa [frames] using hq) with
      ⟨c, rfl, hc⟩ | ⟨c, hcn, hc⟩
    · obtain ⟨j, t, hd, hr, hlen, hall⟩ := ih (fun x hx => hv x (by simp [hx])) c ⟨q, hc⟩
      refine ⟨j+1, t, .cons (decode_encode C m hm c) hd, remnant_cons C m hr, ?_, ?_⟩
      · intro i hi
        cases i with
        | zero => simp [frameEnd_zero]
        | succ i =>
          have := hlen i (by simpa using hi)
          rw [frameEnd_succ, List.length_append]
          omega
      · intro h
        obtain ⟨h1, h2⟩ := hall (by simpa [frames] using h)
        exact ⟨by simp [h1], h2⟩
    · have hcl := List.length_pos_iff.mpr hcn
      have hml : (C.encode m).length = P.length+c.length := by rw [hc, List.length_append]
      refine ⟨0, P, .nil _, Or.inr ⟨m, by simp, c, hcn, hc⟩, ?_, ?_⟩
      · intro i _
        have := encode_le_frameEnd C m ms i
        omega
      · intro h
        have hl := congrArg List.length h
        simp only [frames, List.flatMap_cons, List.length_append] at hl
        omega

end Foundation.Framing
