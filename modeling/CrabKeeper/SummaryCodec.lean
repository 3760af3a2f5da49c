import CrabKeeper.BankTypes
import CrabKeeper.Foundation.Framing

/-!
# The summary of all histories on the wire

One count byte, then for each history a 64-bit length and the history. The
decoder walks a cursor over its input and trusts the count: it neither asks
whether bytes are left over nor whether the cursor can take the length it reads.
-/

set_option autoImplicit false

namespace CrabKeeper.SummaryCodec
open Foundation.Machine Foundation.BigEndian Foundation.Framing
open CrabKeeper.BankTypes

structure AllHistory where
  histories : List BalanceHistory
  deriving DecidableEq, Repr

def AllHistory.new : AllHistory := ⟨[]⟩

def AllHistory.push (a : AllHistory) (history : BalanceHistory) : AllHistory :=
  ⟨a.histories ++ [history]⟩

def recordBytes (h : BalanceHistory) : List UInt8 :=
  u64ToBe (UInt64.ofNat h.toBytes.length) ++ h.toBytes

def AllHistory.toBytes (a : AllHistory) : List UInt8 :=
  UInt8.ofNat a.histories.length :: a.histories.flatMap recordBytes

/-- The loop of `AllHistory::from_bytes`, with the cursor at `offset` and so many
histories still to read. -/
def readHistories (bytes : List UInt8) :
    ℕ → ℕ → Checked (Except String (List BalanceHistory))
  | _, 0 => .ok (.ok [])
  | offset, k+1 => do
    if (← addUsize offset 8) > bytes.length then return .error "长度不匹配" else
    let lenField ← slice bytes offset (← addUsize offset 8)
    let historyLen ← u64OfBe lenField
    let offset ← addUsize offset 8
    if (← addUsize offset historyLen.toNat) > bytes.length then return .error "长度不匹配" else
    let data ← slice bytes offset (← addUsize offset historyLen.toNat)
    match ← BalanceHistory.fromBytes data with
    | .error e => return .error e
    | .ok history =>
      let offset ← addUsize offset historyLen.toNat
      let rest ← readHistories bytes offset k
      return rest.map (history :: ·)

def AllHistory.fromBytes (bytes : List UInt8) : Checked (Except String AllHistory) :=
  if bytes.isEmpty then .ok (.error "长度不匹配") else do
    let count ← index bytes 0
    let histories ← readHistories bytes 1 count.toNat
    return histories.map AllHistory.mk

def Carriable (h : BalanceHistory) : Prop := h.states.length ≤ 255

variable {before rest tail body : List UInt8} {k : ℕ} {n : UInt64}

theorem read_short (hr : rest.length < 8) (hb : before.length+8 < 2^64) :
    readHistories (before ++ rest) before.length (k+1) = .ok (.error "长度不匹配") := by
  rw [readHistories, addUsize_of_lt hb, ok_bind, if_pos (by rw [List.length_append]; omega)]
  rfl

theorem read_length (hb : before.length+8 < 2^64) :
    readHistories (before ++ (u64ToBe n ++ tail)) before.length (k+1) = (do
      if (← addUsize (before.length+8) n.toNat) > before.length+8+tail.length then
        return .error "长度不匹配" else
      let data ← slice (before ++ (u64ToBe n ++ tail)) (before.length+8)
        (← addUsize (before.length+8) n.toNat)
      match ← BalanceHistory.fromBytes data with
      | .error e => return .error e
      | .ok history =>
        let offset ← addUsize (before.length+8) n.toNat
        let rest ← readHistories (before ++ (u64ToBe n ++ tail)) offset k
        return rest.map (history :: ·)) := by
  have hlen : (before ++ (u64ToBe n ++ tail)).length = before.length+8+tail.length := by
    rw [List.length_append, List.length_append, u64ToBe_length, Nat.add_assoc]
  have hfield : slice (before ++ (u64ToBe n ++ tail)) before.length (before.length+8) =
      .ok (u64ToBe n) := slice_append _ _ _ rfl (by rw [u64ToBe_length])
  rw [readHistories, addUsize_of_lt hb, ok_bind, if_neg (by omega), ok_bind, hfield, ok_bind,
    u64OfBe_u64ToBe, ok_bind, ok_bind, hlen]

theorem read_overflow (hb : before.length+8 < 2^64) (hn : 2^64 ≤ before.length+8+n.toNat) :
    readHistories (before ++ (u64ToBe n ++ tail)) before.length (k+1) = .error .overflow := by
  rw [read_length hb, addUsize_of_le hn, error_bind]

theorem read_cut (hb : before.length+8+n.toNat < 2^64) (ht : tail.length < n.toNat) :
    readHistories (before ++ (u64ToBe n ++ tail)) before.length (k+1) =
      .ok (.error "长度不匹配") := by
  rw [read_length (by omega), addUsize_of_lt hb, ok_bind, if_pos (by omega)]
  rfl

theorem read_body (hb : before.length+8+n.toNat < 2^64) (hbody : body.length = n.toNat) :
    readHistories (before ++ (u64ToBe n ++ (body ++ tail))) before.length (k+1) = (do
      match ← BalanceHistory.fromBytes body with
      | .error e => return .error e
      | .ok history =>
        let rest ← readHistories (before ++ (u64ToBe n ++ (body ++ tail)))
          (before.length+8+n.toNat) k
        return rest.map (history :: ·)) := by
  have hdata : slice (before ++ (u64ToBe n ++ (body ++ tail))) (before.length+8)
      (before.length+8+n.toNat) = .ok body := by
    rw [← List.append_assoc before]
    exact slice_append _ _ _ (by rw [List.length_append, u64ToBe_length]) (by rw [hbody])
  rw [read_length (by omega), addUsize_of_lt hb, ok_bind,
    if_neg (by rw [List.length_append]; omega), ok_bind, hdata, ok_bind]
  rfl

theorem carriable_length {h : BalanceHistory} (hc : Carriable h) :
    h.toBytes.length ≤ 6122 ∧ (UInt64.ofNat h.toBytes.length).toNat = h.toBytes.length := by
  have hle : h.toBytes.length ≤ 6122 := by
    have : h.states.length ≤ 255 := hc
    rw [history_toBytes_length]
    omega
  exact ⟨hle, by rw [UInt64.toNat_ofNat', Nat.mod_eq_of_lt (by omega)]⟩

theorem recordBytes_length (h : BalanceHistory) :
    (recordBytes h).length = 8+h.toBytes.length := by
  rw [recordBytes, List.length_append, u64ToBe_length]

theorem read_record {h : BalanceHistory} (hc : Carriable h)
    (hb : before.length+(recordBytes h).length < 2^64) :
    readHistories (before ++ (recordBytes h ++ rest)) before.length (k+1) = (do
      let hs ← readHistories ((before ++ recordBytes h) ++ rest)
        (before ++ recordBytes h).length k
      return hs.map (h :: ·)) := by
  obtain ⟨_, hlen⟩ := carriable_length hc
  rw [recordBytes_length] at hb
  have hoff : (before ++ recordBytes h).length =
      before.length+8+(UInt64.ofNat h.toBytes.length).toNat := by
    rw [List.length_append, recordBytes_length, hlen, Nat.add_assoc]
  have hbytes : before ++ (recordBytes h ++ rest) =
      before ++ (u64ToBe (UInt64.ofNat h.toBytes.length) ++ (h.toBytes ++ rest)) := by
    rw [recordBytes, List.append_assoc]
  rw [hoff, List.append_assoc, hbytes, read_body (by omega) hlen.symm,
    history_fromBytes_toBytes h hc, ok_bind]

/-- What the loop meets at its cursor: a record, a length that the cursor cannot
take, or bytes that it refuses. -/
theorem read_cases (before rest : List UInt8) (hb : before.length+8 < 2^64) :
    (∃ h tail, Carriable h ∧ rest = recordBytes h ++ tail) ∨
    (∃ n tail, rest = u64ToBe n ++ tail ∧ 2^64 ≤ before.length+8+n.toNat) ∨
    ∃ e, ∀ k, readHistories (before ++ rest) before.length (k+1) = .ok (.error e) := by
  rcases prefixed_cases rest with hr | ⟨n, tail, rfl, ht⟩ | ⟨n, body, tail, rfl, hbody⟩
  · exact Or.inr (Or.inr ⟨_, fun k => read_short hr hb⟩)
  · by_cases hn : before.length+8+n.toNat < 2^64
    · exact Or.inr (Or.inr ⟨_, fun k => read_cut hn ht⟩)
    · exact Or.inr (Or.inl ⟨n, tail, rfl, Nat.not_lt.mp hn⟩)
  · by_cases hn : before.length+8+n.toNat < 2^64
    · rcases history_fromBytes_cases body with he | ⟨id, len, states, rfl, hk⟩
      · refine Or.inr (Or.inr ⟨"长度不匹配", fun k => ?_⟩)
        rw [read_body hn hbody, he, ok_bind]
        rfl
      · have hd := history_fromBytes_eq_ok.mp (history_fromBytes_parts id len states hk)
        refine Or.inl ⟨⟨id, states⟩, tail, hd.1, ?_⟩
        rw [recordBytes, ← hd.2, hbody, UInt64.ofNat_toNat, List.append_assoc]
    · exact Or.inr (Or.inl ⟨n, _, rfl, Nat.not_lt.mp hn⟩)

def decodeRecord (b : List UInt8) : Option (BalanceHistory × List UInt8) :=
  match readHistories b 0 1 with
  | .ok (.ok [h]) => some (h, b.drop (recordBytes h).length)
  | _ => none

theorem decodeRecord_recordBytes {h : BalanceHistory} (hc : Carriable h) (rest : List UInt8) :
    decodeRecord (recordBytes h ++ rest) = some (h,rest) := by
  have hlen := (carriable_length hc).1
  have hread : readHistories (recordBytes h ++ rest) 0 1 = .ok (.ok [h]) :=
    @read_record [] rest 0 h hc (by
      rw [recordBytes_length, List.length_nil]
      omega)
  rw [decodeRecord, hread]
  show some (h, (recordBytes h ++ rest).drop (recordBytes h).length) = _
  rw [List.drop_left]

def recordCode : PrefixCode BalanceHistory UInt8 where
  encode := recordBytes
  Valid := Carriable
  decode := decodeRecord
  decode_iff b h r := by
    constructor
    · intro hd
      rcases read_cases [] b (by decide) with ⟨h', tail, hc, rfl⟩ | ⟨n, tail, rfl, hn⟩ |
        ⟨e, he⟩
      · rw [decodeRecord_recordBytes hc] at hd
        obtain ⟨rfl, rfl⟩ := Prod.mk.inj (Option.some.inj hd)
        exact ⟨hc, rfl⟩
      · have : readHistories (u64ToBe n ++ tail) 0 1 = .error .overflow :=
          @read_overflow [] tail 0 n (by decide) hn
        rw [decodeRecord, this] at hd
        cases hd
      · have : readHistories b 0 1 = .ok (.error e) := he 0
        rw [decodeRecord, this] at hd
        cases hd
    · rintro ⟨hc, rfl⟩
      exact decodeRecord_recordBytes hc r
  encode_ne_nil h _ := by
    apply List.ne_nil_of_length_pos
    rw [recordBytes_length]
    omega

theorem frames_length_le {hs : List BalanceHistory} (hc : ∀ h ∈ hs, Carriable h) :
    (frames recordCode hs).length ≤ 6130*hs.length := by
  induction hs with
  | nil => exact le_rfl
  | cons h hs ih =>
    rw [List.forall_mem_cons] at hc
    have hlen := (carriable_length hc.1).1
    have hrest := ih hc.2
    have hcons : frames recordCode (h::hs) = recordBytes h ++ frames recordCode hs := rfl
    rw [hcons, List.length_append, recordBytes_length, List.length_cons]
    omega

theorem read_frames {hs : List BalanceHistory} (hc : ∀ h ∈ hs, Carriable h)
    (before rest : List UInt8) (hb : before.length+(frames recordCode hs).length < 2^64) (k : ℕ) :
    readHistories (before ++ (frames recordCode hs ++ rest)) before.length (hs.length+k) = (do
      let r ← readHistories ((before ++ frames recordCode hs) ++ rest)
        (before ++ frames recordCode hs).length k
      return r.map (hs ++ ·)) := by
  induction hs generalizing before with
  | nil =>
    have hnil : frames recordCode [] = [] := rfl
    rw [hnil, List.nil_append, List.append_nil, List.length_nil, Nat.zero_add]
    cases readHistories (before ++ rest) before.length k with
    | error p => rfl
    | ok r => cases r <;> rfl
  | cons h hs ih =>
    rw [List.forall_mem_cons] at hc
    have hcons : frames recordCode (h::hs) = recordBytes h ++ frames recordCode hs := rfl
    rw [hcons, List.length_append] at hb
    have hrest := ih hc.2 (before ++ recordBytes h) (by rw [List.length_append]; omega)
    rw [hcons, List.append_assoc, List.length_cons, Nat.add_right_comm,
      read_record hc.1 (by omega), hrest, ← List.append_assoc before]
    cases readHistories ((before ++ recordBytes h ++ frames recordCode hs) ++ rest)
        (before ++ recordBytes h ++ frames recordCode hs).length k with
    | error p => rfl
    | ok r => cases r <;> rfl

structure AllHistory.InRange (a : AllHistory) : Prop where
  count : a.histories.length ≤ 255
  carriable : ∀ h ∈ a.histories, Carriable h

theorem fromBytes_cons (c : UInt8) (s : List UInt8) :
    AllHistory.fromBytes (c::s) = (do
      let histories ← readHistories ([c] ++ s) [c].length c.toNat
      return histories.map AllHistory.mk) := by
  rw [AllHistory.fromBytes, if_neg (by simp), index_of_lt (by simp), ok_bind]
  rfl

theorem count_byte {a : AllHistory} (h : a.histories.length ≤ 255) :
    (UInt8.ofNat a.histories.length).toNat = a.histories.length := by
  rw [UInt8.toNat_ofNat', Nat.mod_eq_of_lt (by omega)]

theorem fromBytes_frames (c : UInt8) {hs : List BalanceHistory} (hc : ∀ h ∈ hs, Carriable h)
    (hlen : hs.length ≤ c.toNat) (t : List UInt8) :
    AllHistory.fromBytes (c :: (frames recordCode hs ++ t)) = (do
      let r ← readHistories (([c] ++ frames recordCode hs) ++ t)
        ([c] ++ frames recordCode hs).length (c.toNat-hs.length)
      return r.map fun rest => ⟨hs ++ rest⟩) := by
  have hle := frames_length_le hc
  have hlt := UInt8.toNat_lt c
  have hread := read_frames hc [c] t (by rw [List.length_singleton]; omega)
    (c.toNat-hs.length)
  rw [Nat.add_sub_cancel' hlen] at hread
  rw [fromBytes_cons, hread]
  cases readHistories (([c] ++ frames recordCode hs) ++ t)
      ([c] ++ frames recordCode hs).length (c.toNat-hs.length) with
  | error p => rfl
  | ok r => cases r <;> rfl

theorem fromBytes_counted {c : UInt8} {hs : List BalanceHistory} (hc : ∀ h ∈ hs, Carriable h)
    (hlen : hs.length = c.toNat) (t : List UInt8) :
    AllHistory.fromBytes (c :: (frames recordCode hs ++ t)) = .ok (.ok ⟨hs⟩) := by
  rw [fromBytes_frames c hc hlen.le, hlen, Nat.sub_self, readHistories, ok_bind]
  show (.ok (.ok ⟨hs ++ []⟩) : Checked (Except String AllHistory)) = _
  rw [List.append_nil]

theorem cursor_small {c : UInt8} {hs : List BalanceHistory} (hc : ∀ h ∈ hs, Carriable h)
    (hlen : hs.length < c.toNat) :
    ([c] ++ frames recordCode hs).length = 1+(frames recordCode hs).length ∧
      1+(frames recordCode hs).length+8 < 2^64 ∧ ∃ k, c.toNat-hs.length = k+1 := by
  have hle := frames_length_le hc
  have hlt := UInt8.toNat_lt c
  refine ⟨?_, by omega, c.toNat-hs.length-1, by omega⟩
  rw [List.length_append, List.length_singleton]

theorem fromBytes_overflow {c : UInt8} {hs : List BalanceHistory} (hc : ∀ h ∈ hs, Carriable h)
    (hlen : hs.length < c.toNat) {n : UInt64} (t : List UInt8)
    (hn : 2^64 ≤ 1+(frames recordCode hs).length+8+n.toNat) :
    AllHistory.fromBytes (c :: (frames recordCode hs ++ (u64ToBe n ++ t))) =
      .error .overflow := by
  obtain ⟨hoff, hsmall, k, hk⟩ := cursor_small hc hlen
  rw [fromBytes_frames c hc hlen.le, hk, read_overflow (by omega) (by omega), error_bind]

/-- The three outcomes of the decoder on a stream that is not empty. -/
theorem fromBytes_outcomes (c : UInt8) (s : List UInt8) :
    (∃ hs t, (∀ h ∈ hs, Carriable h) ∧ hs.length = c.toNat ∧ s = frames recordCode hs ++ t) ∨
    (∃ hs n t, (∀ h ∈ hs, Carriable h) ∧ hs.length < c.toNat ∧
      s = frames recordCode hs ++ (u64ToBe n ++ t) ∧
      2^64 ≤ 1+(frames recordCode hs).length+8+n.toNat) ∨
    ∃ e, AllHistory.fromBytes (c::s) = .ok (.error e) := by
  obtain ⟨hs, t, hdec, hend⟩ := decodes_upto recordCode c.toNat s
  obtain ⟨hc, rfl⟩ := (decodes_iff recordCode).mp hdec
  rcases hend with hlen | ⟨hlen, hnone⟩
  · exact Or.inl ⟨hs, t, hc, hlen, rfl⟩
  obtain ⟨hoff, hsmall, k, hk⟩ := cursor_small hc hlen
  rcases read_cases ([c] ++ frames recordCode hs) t (by omega) with
    ⟨h, tail, hcar, rfl⟩ | ⟨n, tail, rfl, hn⟩ | ⟨e, he⟩
  · have hsome := decode_encode recordCode h hcar tail
    cases hsome.symm.trans hnone
  · exact Or.inr (Or.inl ⟨hs, n, tail, hc, hlen, rfl, by omega⟩)
  · refine Or.inr (Or.inr ⟨e, ?_⟩)
    rw [fromBytes_frames c hc hlen.le, hk, he, ok_bind]
    rfl

theorem fromBytes_nil : AllHistory.fromBytes [] = .ok (.error "长度不匹配") := rfl

theorem fromBytes_eq_ok {bytes : List UInt8} {a : AllHistory} :
    AllHistory.fromBytes bytes = .ok (.ok a) ↔
      a.InRange ∧ ∃ rest, bytes = a.toBytes ++ rest := by
  constructor
  · intro h
    cases bytes with
    | nil =>
      rw [fromBytes_nil] at h
      cases Except.ok.inj h
    | cons c s =>
      have hlt := UInt8.toNat_lt c
      rcases fromBytes_outcomes c s with ⟨hs, t, hc, hlen, rfl⟩ | ⟨hs, n, t, hc, hlen, rfl, hn⟩ |
        ⟨e, he⟩
      · rw [fromBytes_counted hc hlen] at h
        obtain rfl := Except.ok.inj (Except.ok.inj h)
        refine ⟨⟨by simp only; omega, hc⟩, t, ?_⟩
        simp only [AllHistory.toBytes, hlen, UInt8.ofNat_toNat]
        rfl
      · rw [fromBytes_overflow hc hlen t hn] at h
        cases h
      · rw [he] at h
        cases Except.ok.inj h
  · rintro ⟨ha, rest, rfl⟩
    exact fromBytes_counted ha.carriable (count_byte ha.count).symm rest

/-- The round trip of a summary, with its exact range. -/
theorem summary_roundtrip_iff (a : AllHistory) :
    AllHistory.fromBytes a.toBytes = .ok (.ok a) ↔
      a.histories.length ≤ 255 ∧ ∀ h ∈ a.histories, h.states.length ≤ 255 := by
  rw [fromBytes_eq_ok]
  constructor
  · exact fun h => ⟨h.1.count, h.1.carriable⟩
  · exact fun h => ⟨⟨h.1, h.2⟩, [], (List.append_nil _).symm⟩

end CrabKeeper.SummaryCodec
