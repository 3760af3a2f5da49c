import CrabKeeper.SummaryCodec

/-!
# What the summary decoder does outside the range of the format

A summary is made by `push` calls. Its count byte holds the number of histories
cut to eight bits, and the decoder stops behind the histories counted: it
returns a beginning of a longer summary, and takes any bytes behind an encoding.
The one thing it does not survive is a length field that its cursor cannot take.
-/

set_option autoImplicit false

namespace CrabKeeper.SummaryLimits
open Foundation.Machine Foundation.BigEndian Foundation.Framing
open CrabKeeper.BankTypes CrabKeeper.SummaryCodec

def pushed (hs : List BalanceHistory) : AllHistory := hs.foldl AllHistory.push AllHistory.new

theorem push_histories (a : AllHistory) (hs : List BalanceHistory) :
    (hs.foldl AllHistory.push a).histories = a.histories ++ hs := by
  induction hs generalizing a with
  | nil => exact (List.append_nil _).symm
  | cons h hs ih =>
    rw [List.foldl_cons, ih]
    show a.histories ++ [h] ++ hs = _
    rw [List.append_assoc, List.singleton_append]

theorem pushed_eq (hs : List BalanceHistory) : pushed hs = ⟨hs⟩ := by
  have h := push_histories AllHistory.new hs
  rw [show AllHistory.new.histories = [] from rfl, List.nil_append] at h
  exact congrArg AllHistory.mk h

theorem toBytes_eq (hs : List BalanceHistory) :
    AllHistory.toBytes ⟨hs⟩ = UInt8.ofNat hs.length :: frames recordCode hs := rfl

theorem record_inj {h h' : BalanceHistory} {s t : List UInt8} (hh : h.toBytes.length < 2^64)
    (hc : Carriable h') (heq : recordBytes h ++ s = recordBytes h' ++ t) : h' = h ∧ s = t := by
  rw [recordBytes, recordBytes, List.append_assoc, List.append_assoc] at heq
  have hfield := List.append_inj heq (by rw [u64ToBe_length, u64ToBe_length])
  have hlen : h.toBytes.length = h'.toBytes.length := by
    have hn := congrArg UInt64.toNat (u64ToBe_inj hfield.1)
    rw [(carriable_length hc).2, UInt64.toNat_ofNat', Nat.mod_eq_of_lt hh] at hn
    exact hn
  have hbody := List.append_inj hfield.2 hlen
  refine ⟨history_report_faithful ?_, hbody.2⟩
  rw [hbody.1]
  exact history_fromBytes_toBytes h' hc

theorem frames_prefix {hs hs' : List BalanceHistory} {t : List UInt8}
    (hv : ∀ h ∈ hs, h.toBytes.length < 2^64) (hc : ∀ h ∈ hs', Carriable h)
    (hle : hs'.length ≤ hs.length) (heq : frames recordCode hs = frames recordCode hs' ++ t) :
    hs' = hs.take hs'.length := by
  induction hs' generalizing hs with
  | nil => rfl
  | cons h' hs' ih =>
    cases hs with
    | nil => exact absurd hle (Nat.not_succ_le_zero _)
    | cons h hs =>
      rw [List.forall_mem_cons] at hv hc
      have hfirst : recordBytes h ++ frames recordCode hs =
          recordBytes h' ++ (frames recordCode hs' ++ t) := by
        rw [← List.append_assoc]
        exact heq
      obtain ⟨rfl, hrest⟩ := record_inj hv.1 hc.1 hfirst
      rw [List.length_cons, List.take_succ_cons, ← ih hv.2 hc.2 (Nat.le_of_succ_le_succ hle) hrest]

/-- What comes back from an encoding: the first histories, as many as the count
byte says, provided their snapshots can be counted. -/
theorem fromBytes_toBytes_iff {hs : List BalanceHistory} (hv : ∀ h ∈ hs, h.toBytes.length < 2^64)
    (a : AllHistory) :
    AllHistory.fromBytes (AllHistory.toBytes ⟨hs⟩) = .ok (.ok a) ↔
      (∀ h ∈ hs.take (hs.length%256), Carriable h) ∧ a = ⟨hs.take (hs.length%256)⟩ := by
  have hmod : hs.length%256 ≤ hs.length := Nat.mod_le _ _
  have htake : (hs.take (hs.length%256)).length = hs.length%256 := by
    rw [List.length_take, Nat.min_eq_left hmod]
  rw [fromBytes_eq_ok]
  constructor
  · rintro ⟨ha, rest, heq⟩
    rw [toBytes_eq, AllHistory.toBytes, List.cons_append, List.cons.injEq] at heq
    have hcount : a.histories.length = hs.length%256 := by
      rw [← count_byte ha.count, ← heq.1, UInt8.toNat_ofNat']
    have hfirsts := frames_prefix hv ha.carriable (hcount.trans_le hmod) heq.2
    rw [hcount] at hfirsts
    exact ⟨hfirsts ▸ ha.carriable, congrArg AllHistory.mk hfirsts⟩
  · rintro ⟨hc, rfl⟩
    refine ⟨⟨by rw [htake]; omega, hc⟩, frames recordCode (hs.drop (hs.length%256)), ?_⟩
    have hsplit : frames recordCode hs = frames recordCode (hs.take (hs.length%256)) ++
        frames recordCode (hs.drop (hs.length%256)) := by
      rw [frames, frames, frames, ← List.flatMap_append, List.take_append_drop]
    rw [toBytes_eq, toBytes_eq, htake, hsplit, List.cons_append]
    congr 1
    rw [← UInt8.toNat_inj, UInt8.toNat_ofNat', UInt8.toNat_ofNat', Nat.mod_mod]

/-- Nothing is lost in silence exactly when the count byte holds the number of
histories, or the decoder meets a history that it refuses. -/
theorem no_silent_loss_iff (hs : List BalanceHistory) (hv : ∀ h ∈ hs, h.toBytes.length < 2^64) :
    (∀ a, AllHistory.fromBytes (pushed hs).toBytes = .ok (.ok a) → a = pushed hs) ↔
      hs.length ≤ 255 ∨ ∃ h ∈ hs.take (hs.length%256), 255 < h.states.length := by
  rw [pushed_eq]
  constructor
  · intro h
    by_contra hn
    rw [not_or] at hn
    have hc : ∀ x ∈ hs.take (hs.length%256), Carriable x := by
      intro x hx
      by_contra hlong
      exact hn.2 ⟨x, hx, Nat.not_le.mp hlong⟩
    have hall := congrArg AllHistory.histories (h _ ((fromBytes_toBytes_iff hv _).mpr ⟨hc, rfl⟩))
    have hlen := congrArg List.length hall
    simp only [List.length_take] at hlen
    omega
  · intro h a ha
    obtain ⟨hc, rfl⟩ := (fromBytes_toBytes_iff hv a).mp ha
    rcases h with hle | ⟨x, hx, hlong⟩
    · rw [Nat.mod_eq_of_lt (by omega), List.take_length]
    · exact absurd (hc x hx) (Nat.not_le.mpr hlong)

def oneHistory : List BalanceHistory := [BalanceHistory.new 1 0]

theorem no_silent_loss_one :
    (∀ a, AllHistory.fromBytes (pushed oneHistory).toBytes = .ok (.ok a) → a = pushed oneHistory) ↔
      oneHistory.length ≤ 255 ∨
        ∃ h ∈ oneHistory.take (oneHistory.length%256), 255 < h.states.length :=
  no_silent_loss_iff oneHistory (by decide)

def manyHistories : List BalanceHistory := List.replicate 256 (BalanceHistory.new 1 0)

theorem many_histories_lost :
    AllHistory.fromBytes (pushed manyHistories).toBytes = .ok (.ok AllHistory.new) ∧
      AllHistory.new ≠ pushed manyHistories := by
  have hlen : manyHistories.length = 256 := List.length_replicate
  rw [pushed_eq]
  constructor
  · apply (fromBytes_toBytes_iff _ _).mpr
    · rw [hlen]
      exact ⟨fun h hh => absurd hh List.not_mem_nil, rfl⟩
    · intro h hh
      rw [List.eq_of_mem_replicate hh]
      decide
  · intro h
    have hnil := congrArg (fun a => a.histories.length) h
    simp only [hlen] at hnil
    exact absurd hnil (by decide)

/-- A length field that takes the cursor past the largest `usize`, where the
loop meets it: behind the count byte and fewer records than it counts. -/
def LengthOverflows (bytes : List UInt8) : Prop :=
  ∃ (c : UInt8) (hs : List BalanceHistory) (n : UInt64) (rest : List UInt8),
    bytes = c :: (hs.flatMap recordBytes ++ (u64ToBe n ++ rest)) ∧
    hs.length < c.toNat ∧ (∀ h ∈ hs, Carriable h) ∧
    2^64 ≤ 1+(hs.flatMap recordBytes).length+8+n.toNat

/-- The decoder returns exactly when no such length is met. -/
theorem decoder_returns_iff (bytes : List UInt8) :
    (∃ r, AllHistory.fromBytes bytes = .ok r) ↔ ¬ LengthOverflows bytes := by
  constructor
  · rintro ⟨r, hr⟩ ⟨c, hs, n, rest, rfl, hlen, hc, hn⟩
    have hpanic := fromBytes_overflow hc hlen rest hn
    cases hr.symm.trans hpanic
  · intro h
    cases bytes with
    | nil => exact ⟨_, fromBytes_nil⟩
    | cons c s =>
      rcases fromBytes_outcomes c s with ⟨hs, t, hc, hlen, rfl⟩ | ⟨hs, n, t, hc, hlen, rfl, hn⟩ |
        ⟨e, he⟩
      · exact ⟨_, fromBytes_counted hc hlen t⟩
      · exact absurd ⟨c, hs, n, t, rfl, hlen, hc, hn⟩ h
      · exact ⟨_, he⟩

theorem largest_length_panics :
    AllHistory.fromBytes (1 :: List.replicate 8 255) = .error .overflow := by
  decide

/-- Everything accepted encodes back to the input exactly when the input is not
an encoding with bytes behind it. -/
theorem accepted_is_encoding_iff (bytes : List UInt8) :
    (∀ a, AllHistory.fromBytes bytes = .ok (.ok a) → a.toBytes = bytes) ↔
      ¬ ∃ (a : AllHistory) (extra : List UInt8),
        a.InRange ∧ extra ≠ [] ∧ bytes = a.toBytes ++ extra := by
  constructor
  · rintro h ⟨a, extra, ha, hne, rfl⟩
    have heq := h a (fromBytes_eq_ok.mpr ⟨ha, extra, rfl⟩)
    exact hne (List.self_eq_append_right.mp heq)
  · intro h a hd
    obtain ⟨ha, rest, rfl⟩ := fromBytes_eq_ok.mp hd
    by_contra hne
    apply h ⟨a, rest, ha, ?_, rfl⟩
    intro hnil
    rw [hnil, List.append_nil] at hne
    exact hne rfl

theorem surplus_byte_accepted :
    AllHistory.fromBytes [0, 1] = .ok (.ok AllHistory.new) ∧ AllHistory.new.toBytes ≠ [0, 1] := by
  decide

end CrabKeeper.SummaryLimits
