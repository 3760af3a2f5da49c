import CrabKeeper.Foundation.Framing
import CrabKeeper.MessageCodec

/-!
# Length-prefixed frames on a byte stream

A stream end holds the bytes delivered to it and not yet read, the bytes it has
written, and how many more bytes the connection accepts before a write fails
(`none` on a reliable connection). An ended input makes `read_exact` fail, after
it has taken what was there. The frame header is read from the peer and used as
a buffer size unchecked, so a header beyond `isize::MAX` panics.
-/

set_option autoImplicit false

namespace CrabKeeper.ChannelFraming
open Foundation.Machine Foundation.BigEndian Foundation.Framing
open CrabKeeper.MessageCodec

inductive IoError where
  | unexpectedEof
  | brokenPipe
  | other (msg : String)
  deriving DecidableEq, Repr

structure TcpStream where
  input : List UInt8
  output : List UInt8
  room : Option ℕ
  deriving DecidableEq, Repr

def writeAll (s : TcpStream) (bytes : List UInt8) : Except IoError Unit × TcpStream :=
  match s.room with
  | none => (.ok (), { s with output := s.output ++ bytes })
  | some k =>
    if bytes.length ≤ k then
      (.ok (), { s with output := s.output ++ bytes, room := some (k-bytes.length) })
    else
      (.error .brokenPipe, { s with output := s.output ++ bytes.take k, room := some 0 })

def readExact (s : TcpStream) (n : ℕ) : Except IoError (List UInt8) × TcpStream :=
  if n ≤ s.input.length then (.ok (s.input.take n), { s with input := s.input.drop n })
  else (.error .unexpectedEof, { s with input := [] })

def sendMessage (s : TcpStream) (msg : Message) : Except IoError Unit × TcpStream :=
  let msgBytes := msg.toBytes
  let frameLen := u64ToBe (UInt64.ofNat msgBytes.length)
  match writeAll s frameLen with
  | (.error e, s) => (.error e, s)
  | (.ok _, s) =>
    match writeAll s msgBytes with
    | (.error e, s) => (.error e, s)
    | (.ok _, s) => (.ok (), s)

def recvMessage (s : TcpStream) : Checked (Except IoError Message × TcpStream) :=
  match readExact s 8 with
  | (.error e, s) => .ok (.error e, s)
  | (.ok header, s) => do
    let frameLen ← u64OfBe header
    allocate frameLen.toNat
    match readExact s frameLen.toNat with
    | (.error e, s) => .ok (.error e, s)
    | (.ok msgBody, s) => do
      match ← Message.fromBytes msgBody with
      | .ok msg => .ok (.ok msg, s)
      | .error err => .ok (.error (.other err), s)

def frame (m : Message) : List UInt8 := u64ToBe (UInt64.ofNat m.toBytes.length) ++ m.toBytes

/-- The message's encoding is a vector, which holds at most `isize::MAX` bytes. -/
def Message.Fits (m : Message) : Prop := m.toBytes.length ≤ isizeMax

theorem frame_length (m : Message) : (frame m).length = 17+m.payload.length := by
  rw [frame, List.length_append, u64ToBe_length, toBytes_length]
  omega

theorem fits_iff (m : Message) : Message.Fits m ↔ m.payload.length+10 ≤ 2^63 := by
  rw [Message.Fits, toBytes_length, isizeMax]
  omega

theorem fits_lt {m : Message} (h : Message.Fits m) : m.toBytes.length < 2^63 := by
  simp only [Message.Fits, isizeMax] at h
  omega

theorem fits_header {m : Message} (h : Message.Fits m) :
    (UInt64.ofNat m.toBytes.length).toNat = m.toBytes.length := by
  have := fits_lt h
  exact UInt64.toNat_ofNat_of_lt' (show _ < 2^64 by omega)

theorem frame_body_length (m : Message) : (frame m).length = 8+m.toBytes.length := by
  rw [frame, List.length_append, u64ToBe_length]

theorem readExact_append (s : TcpStream) (a b : List UInt8) (h : s.input = a ++ b) :
    readExact s a.length = (.ok a, { s with input := b }) := by
  simp [readExact, h]

theorem readExact_short (s : TcpStream) (n : ℕ) (h : s.input.length < n) :
    readExact s n = (.error .unexpectedEof, { s with input := [] }) :=
  if_neg (by omega)

theorem write_takes {s : TcpStream} {bytes : List UInt8}
    (h : ∀ k, s.room = some k → bytes.length ≤ k) :
    writeAll s bytes = (.ok (), { s with
      output := s.output ++ bytes, room := s.room.map (· - bytes.length) }) := by
  obtain ⟨input, output, room⟩ := s
  cases room with
  | none => rfl
  | some k => exact if_pos (h k rfl)

theorem write_breaks {s : TcpStream} {k : ℕ} {bytes : List UInt8} (hroom : s.room = some k)
    (h : k < bytes.length) :
    writeAll s bytes = (.error .brokenPipe, { s with
      output := s.output ++ bytes.take k, room := some 0 }) := by
  obtain ⟨input, output, room⟩ := s
  cases hroom
  exact if_neg (Nat.not_le.mpr h)

theorem send_takes {s : TcpStream} {m : Message}
    (h : ∀ k, s.room = some k → (frame m).length ≤ k) :
    sendMessage s m = (.ok (), { s with
      output := s.output ++ frame m, room := s.room.map (· - (frame m).length) }) := by
  have hlen := frame_body_length m
  obtain ⟨input, output, room⟩ := s
  have h1 : ∀ k, room = some k → (u64ToBe (UInt64.ofNat m.toBytes.length)).length ≤ k :=
    fun k hk => by
      have := h k hk
      rw [u64ToBe_length]
      omega
  rw [sendMessage, write_takes h1]
  dsimp only
  rw [write_takes, frame, List.append_assoc, List.length_append]
  · cases room with
    | none => rfl
    | some k => simp only [Option.map_some, Nat.sub_sub]
  · intro j hj
    obtain ⟨k, rfl, rfl⟩ := Option.map_eq_some_iff.mp hj
    have := h k rfl
    rw [u64ToBe_length]
    omega

theorem send_breaks {s : TcpStream} {m : Message} {k : ℕ} (hroom : s.room = some k)
    (h : k < (frame m).length) :
    sendMessage s m = (.error .brokenPipe, { s with
      output := s.output ++ (frame m).take k, room := some 0 }) := by
  have hlen := frame_body_length m
  obtain ⟨input, output, room⟩ := s
  cases hroom
  by_cases h8 : k < 8
  · rw [sendMessage, write_breaks rfl (by rwa [u64ToBe_length])]
    dsimp only
    rw [frame, List.take_append_of_le_length (by rw [u64ToBe_length]; omega)]
  · have h1 : ∀ j, some k = some j → (u64ToBe (UInt64.ofNat m.toBytes.length)).length ≤ j := by
      rintro j hj
      obtain rfl := Option.some.inj hj
      rw [u64ToBe_length]
      omega
    have hroom : Option.map (· - (u64ToBe (UInt64.ofNat m.toBytes.length)).length) (some k) =
        some (k-8) := by
      rw [u64ToBe_length]
      rfl
    have htake : (u64ToBe (UInt64.ofNat m.toBytes.length)).take k =
        u64ToBe (UInt64.ofNat m.toBytes.length) := by
      apply List.take_of_length_le
      rw [u64ToBe_length]
      omega
    rw [sendMessage, write_takes h1]
    dsimp only
    rw [write_breaks hroom (by omega), frame, List.take_append, htake, u64ToBe_length,
      List.append_assoc]

theorem send_frame (s : TcpStream) (m : Message) (h : s.room = none) :
    sendMessage s m = (.ok (), { s with output := s.output ++ frame m }) := by
  simp [sendMessage, writeAll, h, frame]

theorem recv_short (s : TcpStream) (h : s.input.length < 8) :
    recvMessage s = .ok (.error .unexpectedEof, { s with input := [] }) := by
  rw [recvMessage, readExact_short s 8 h]

theorem readExact_header (s : TcpStream) (n : UInt64) (tail : List UInt8)
    (h : s.input = u64ToBe n ++ tail) :
    readExact s 8 = (.ok (u64ToBe n), { s with input := tail }) := by
  have := readExact_append s _ _ h
  rwa [u64ToBe_length] at this

theorem recv_cut (s : TcpStream) (n : UInt64) (tail : List UInt8)
    (h : s.input = u64ToBe n ++ tail) (hn : n.toNat ≤ isizeMax) (ht : tail.length < n.toNat) :
    recvMessage s = .ok (.error .unexpectedEof, { s with input := [] }) := by
  rw [recvMessage, readExact_header s n tail h]
  simp only [u64OfBe_u64ToBe, ok_bind, allocate_eq_ok.mpr hn]
  rw [readExact_short _ _ ht]

theorem recv_capacity (s : TcpStream) (n : UInt64) (tail : List UInt8)
    (h : s.input = u64ToBe n ++ tail) (hn : isizeMax < n.toNat) :
    recvMessage s = .error .capacity := by
  rw [recvMessage, readExact_header s n tail h]
  simp only [u64OfBe_u64ToBe, ok_bind]
  rw [allocate, if_neg (by omega), error_bind]

theorem recv_body (s : TcpStream) (n : UInt64) (body rest : List UInt8)
    (h : s.input = u64ToBe n ++ (body ++ rest)) (hn : n.toNat ≤ isizeMax)
    (hb : body.length = n.toNat) {r : Except String Message}
    (hr : Message.fromBytes body = .ok r) :
    recvMessage s = .ok (r.mapError .other, { s with input := rest }) := by
  rw [recvMessage, readExact_header s n _ h]
  simp only [u64OfBe_u64ToBe, ok_bind, allocate_eq_ok.mpr hn]
  rw [← hb, readExact_append _ body rest rfl]
  simp only [hr, ok_bind]
  cases r <;> rfl

/-- What one call of `recv_message` does: the stream ends before the frame does,
the header asks for too large a buffer, or a whole body is read and parsed. -/
theorem recv_cases (s : TcpStream) :
    recvMessage s = .ok (.error .unexpectedEof, { s with input := [] }) ∨
    (∃ n tail, s.input = u64ToBe n ++ tail ∧ isizeMax < n.toNat ∧
      recvMessage s = .error .capacity) ∨
    ∃ n body rest r, s.input = u64ToBe n ++ (body ++ rest) ∧ n.toNat ≤ isizeMax ∧
      body.length = n.toNat ∧ Message.fromBytes body = .ok r ∧
      recvMessage s = .ok (r.mapError .other, { s with input := rest }) := by
  rcases prefixed_cases s.input with h8 | ⟨n, tail, hin, ht⟩ | ⟨n, body, rest, hin, hb⟩
  · exact Or.inl (recv_short s h8)
  · by_cases hn : n.toNat ≤ isizeMax
    · exact Or.inl (recv_cut s n tail hin hn ht)
    · have hn' := Nat.not_le.mp hn
      exact Or.inr (Or.inl ⟨n, tail, hin, hn', recv_capacity s n tail hin hn'⟩)
  · by_cases hn : n.toNat ≤ isizeMax
    · obtain ⟨r, hr⟩ := fromBytes_total body
      have hrecv := recv_body s n body rest hin hn hb hr
      exact Or.inr (Or.inr ⟨n, body, rest, r, hin, hn, hb, hr, hrecv⟩)
    · have hn' := Nat.not_le.mp hn
      exact Or.inr (Or.inl ⟨n, body ++ rest, hin, hn', recv_capacity s n _ hin hn'⟩)

theorem recv_frame (s : TcpStream) (m : Message) (rest : List UInt8) (hm : Message.Fits m)
    (h : s.input = frame m ++ rest) : recvMessage s = .ok (.ok m, { s with input := rest }) := by
  have hlt := fits_lt hm
  have hn := fits_header hm
  rw [frame, List.append_assoc] at h
  exact recv_body s _ m.toBytes rest h (by rwa [hn]) hn.symm ((fromBytes_eq_ok hlt).mpr rfl)

theorem recv_eq_ok {s t : TcpStream} {m : Message} :
    recvMessage s = .ok (.ok m, t) ↔
      Message.Fits m ∧ ∃ rest, s.input = frame m ++ rest ∧ t = { s with input := rest } := by
  constructor
  · intro h
    rcases recv_cases s with he | ⟨n, tail, _, _, he⟩ | ⟨n, body, rest, r, hin, hn, hb, hr, he⟩
    · rw [he] at h
      simp at h
    · cases he.symm.trans h
    · obtain ⟨hrm, rfl⟩ := Prod.mk.inj (Except.ok.inj (he.symm.trans h))
      have hlt : body.length < 2^63 := by
        simp only [isizeMax] at hn
        omega
      obtain rfl : r = .ok m := by cases r <;> simp_all [Except.mapError]
      obtain rfl := (fromBytes_eq_ok hlt).mp hr
      refine ⟨by rw [Message.Fits]; omega, rest, ?_, rfl⟩
      rw [hin, frame, List.append_assoc, hb, UInt64.ofNat_toNat]
  · rintro ⟨hm, rest, hin, rfl⟩
    exact recv_frame s m rest hm hin

theorem recv_suffix {s t : TcpStream} {r : Except IoError Message} (h : recvMessage s = .ok (r,t)) :
    t.input <:+ s.input ∧ t.output = s.output := by
  rcases recv_cases s with he | ⟨n, tail, _, _, he⟩ | ⟨n, body, rest, r', hin, _, _, _, he⟩
  · obtain ⟨_, rfl⟩ := Prod.mk.inj (Except.ok.inj (he.symm.trans h))
    exact ⟨List.nil_suffix, rfl⟩
  · cases he.symm.trans h
  · obtain ⟨_, rfl⟩ := Prod.mk.inj (Except.ok.inj (he.symm.trans h))
    refine ⟨?_, rfl⟩
    rw [hin, ← List.append_assoc]
    exact List.suffix_append _ _

/-- Receiving returns exactly when no header asks for more than an allocation
may have. -/
theorem recv_returns_iff (s : TcpStream) :
    (∃ r t, recvMessage s = .ok (r,t)) ↔
      ∀ n tail, s.input = u64ToBe n ++ tail → n.toNat ≤ isizeMax := by
  constructor
  · rintro ⟨r, t, h⟩ n tail hin
    by_contra hn
    have hpanic := recv_capacity s n tail hin (Nat.not_le.mp hn)
    cases hpanic.symm.trans h
  · intro h
    rcases recv_cases s with he | ⟨n, tail, hin, hn, _⟩ | ⟨n, body, rest, r, _, _, _, _, he⟩
    · exact ⟨_, _, he⟩
    · exact absurd (h n tail hin) (Nat.not_le.mpr hn)
    · exact ⟨_, _, he⟩

/-- Eight bytes from a peer, the smallest header that panics. -/
theorem large_header_panics :
    recvMessage ⟨[128, 0, 0, 0, 0, 0, 0, 0], [], none⟩ = .error .capacity := by
  decide

theorem write_ok {s t : TcpStream} {bytes : List UInt8} (h : writeAll s bytes = (.ok (), t)) :
    t.output = s.output ++ bytes := by
  unfold writeAll at h
  split at h
  · obtain ⟨_, rfl⟩ := Prod.mk.inj h
    rfl
  · split_ifs at h
    · obtain ⟨_, rfl⟩ := Prod.mk.inj h
      rfl
    · cases (Prod.mk.inj h).1

theorem write_input {s t : TcpStream} {bytes : List UInt8} {r : Except IoError Unit}
    (h : writeAll s bytes = (r,t)) : t.input = s.input := by
  unfold writeAll at h
  split at h
  · obtain ⟨_, rfl⟩ := Prod.mk.inj h
    rfl
  · split_ifs at h <;> obtain ⟨_, rfl⟩ := Prod.mk.inj h <;> rfl

theorem send_ok {s t : TcpStream} {m : Message} (h : sendMessage s m = (.ok (), t)) :
    t.output = s.output ++ frame m := by
  unfold sendMessage at h
  dsimp only at h
  split at h
  · cases (Prod.mk.inj h).1
  · next u h1 =>
    split at h
    · cases (Prod.mk.inj h).1
    · next v h2 =>
      obtain ⟨_, rfl⟩ := Prod.mk.inj h
      rw [write_ok h2, write_ok h1, frame, List.append_assoc]

theorem send_input {s t : TcpStream} {m : Message} {r : Except IoError Unit}
    (h : sendMessage s m = (r,t)) : t.input = s.input := by
  unfold sendMessage at h
  dsimp only at h
  split at h
  · next e u h1 =>
    obtain ⟨_, rfl⟩ := Prod.mk.inj h
    exact write_input h1
  · next u h1 =>
    split at h
    · next e v h2 =>
      obtain ⟨_, rfl⟩ := Prod.mk.inj h
      exact (write_input h2).trans (write_input h1)
    · next v h2 =>
      obtain ⟨_, rfl⟩ := Prod.mk.inj h
      exact (write_input h2).trans (write_input h1)

def frameCode : PrefixCode Message UInt8 where
  encode := frame
  Valid := Message.Fits
  decode b :=
    match recvMessage ⟨b, [], none⟩ with
    | .ok (.ok m, t) => some (m, t.input)
    | _ => none
  decode_iff b m r := by
    constructor
    · intro h
      split at h
      · next m' t heq =>
        obtain ⟨rfl, rfl⟩ := Prod.mk.inj (Option.some.inj h)
        obtain ⟨hm, rest, hin, rfl⟩ := recv_eq_ok.mp heq
        exact ⟨hm, hin⟩
      · cases h
    · rintro ⟨hm, rfl⟩
      rw [recv_frame _ m r hm rfl]
  encode_ne_nil m _ := by
    apply List.ne_nil_of_length_pos
    rw [frame_length]
    omega

/-- Successive calls of `recv_message` on one stream, with their results. -/
inductive Polls : TcpStream → List (Except IoError Message) → TcpStream → Prop
  | nil (s : TcpStream) : Polls s [] s
  | cons {s t u : TcpStream} {r : Except IoError Message} {rs : List (Except IoError Message)} :
      recvMessage s = .ok (r,t) → Polls t rs u → Polls s (r::rs) u

theorem polls_cons_iff {s u : TcpStream} {r : Except IoError Message}
    {rs : List (Except IoError Message)} :
    Polls s (r::rs) u ↔ ∃ t, recvMessage s = .ok (r,t) ∧ Polls t rs u := by
  constructor
  · rintro (_ | ⟨h, hs⟩)
    exact ⟨_, h, hs⟩
  · rintro ⟨t, h, hs⟩
    exact .cons h hs

theorem polls_of_decodes {b c : List UInt8} {ms : List Message}
    (h : Decodes frameCode b ms c) (s : TcpStream) (hs : s.input = b) :
    Polls s (ms.map .ok) { s with input := c } := by
  induction h generalizing s with
  | nil b =>
    subst hs
    exact .nil _
  | @cons b r c m ms hd _ ih =>
    obtain ⟨hm, hb⟩ := (frameCode.decode_iff _ _ _).mp hd
    exact .cons (recv_frame s m r hm (hs.trans hb)) (ih { s with input := r } rfl)

theorem recv_remnant {ms : List Message} {t : List UInt8} (hf : ∀ m ∈ ms, Message.Fits m)
    (h : Remnant frameCode ms t) (s : TcpStream) (hs : s.input = t) :
    recvMessage s = .ok (.error .unexpectedEof, { s with input := [] }) := by
  by_cases h8 : s.input.length < 8
  · exact recv_short s h8
  rcases h with rfl | ⟨m, hm, q, hq, he⟩
  · simp [hs] at h8
  have hfit := hf m hm
  have hq' := List.length_pos_iff.mpr hq
  have hn := fits_header hfit
  have he' : frame m = s.input ++ q := by rw [hs]; exact he
  rcases cut_cases (P := s.input) (q := q) he'.symm with ⟨c, hc, hcq⟩ | ⟨c, hcn, hc⟩
  · refine recv_cut s _ c hc (by rwa [hn]) ?_
    rw [hn, ← hcq, List.length_append]
    omega
  · have hl := congrArg List.length hc
    have hcl := List.length_pos_iff.mpr hcn
    rw [u64ToBe_length, List.length_append] at hl
    omega

def sendAll : List Message → TcpStream → Except IoError Unit × TcpStream
  | [], s => (.ok (), s)
  | m::ms, s =>
    match sendMessage s m with
    | (.error e, s) => (.error e, s)
    | (.ok _, s) => sendAll ms s

def TcpStream.fresh : TcpStream := ⟨[], [], none⟩

theorem sendAll_frames (ms : List Message) (s : TcpStream) (h : s.room = none) :
    sendAll ms s = (.ok (), { s with output := s.output ++ frames frameCode ms }) := by
  induction ms generalizing s with
  | nil => simp [sendAll, frames]
  | cons m ms ih =>
    rw [sendAll, send_frame s m h]
    simp only
    rw [ih { s with output := s.output ++ frame m } h]
    simp [frames, frameCode, List.append_assoc]

/-- Framed streams lose, duplicate and invent nothing, wherever they are cut. -/
theorem framed_stream_exact (ms : List Message) (hms : ∀ m ∈ ms, m.payload.length < 2^62)
    (s : TcpStream) (hs : s.input <+: (sendAll ms .fresh).2.output) :
    ∃ j e t u, Polls s ((ms.take j).map .ok) t ∧ recvMessage t = .ok (.error e, u) ∧
      (∀ i < ms.length,
        i < j ↔ ((sendAll (ms.take (i+1)) .fresh).2.output).length ≤ s.input.length) ∧
      (s.input = (sendAll ms .fresh).2.output → ms.take j = ms ∧ t.input = []) := by
  have hf : ∀ m ∈ ms, Message.Fits m := fun m hm => by
    rw [fits_iff]
    have := hms m hm
    omega
  have hout : ∀ l : List Message, (sendAll l .fresh).2.output = frames frameCode l := fun l => by
    rw [sendAll_frames l .fresh rfl]
    rfl
  rw [hout] at hs
  obtain ⟨j, c, hd, hr, hlen, hall⟩ := decodes_cut frameCode ms hf s.input hs
  refine ⟨j, .unexpectedEof, { s with input := c }, { s with input := [] },
    polls_of_decodes hd s rfl, recv_remnant hf hr _ rfl, ?_, ?_⟩
  · intro i hi
    rw [hout]
    exact hlen i hi
  · rw [hout]
    exact hall

theorem framed_stream_exact_cut :
    ∃ j e t u, Polls ⟨(sendAll [.ack, .data [7]] .fresh).2.output.take 18, [], none⟩
        (([Message.ack, .data [7]].take j).map .ok) t ∧ recvMessage t = .ok (.error e, u) ∧
      (∀ i < 2, i < j ↔ ((sendAll ([Message.ack, .data [7]].take (i+1)) .fresh).2.output).length ≤
        ((sendAll [.ack, .data [7]] .fresh).2.output.take 18).length) ∧
      ((sendAll [.ack, .data [7]] .fresh).2.output.take 18 =
          (sendAll [.ack, .data [7]] .fresh).2.output →
        [Message.ack, .data [7]].take j = [.ack, .data [7]] ∧ t.input = []) :=
  framed_stream_exact [.ack, .data [7]] (by decide) ⟨_, [], none⟩ (List.take_prefix _ _)

/-- The receiver accepts exactly what the sender writes. A body that is no
message's encoding costs its own frame and nothing of the next one. -/
theorem recv_language_exact (s : TcpStream) (n : UInt64) (tail : List UInt8)
    (hs : s.input = u64ToBe n ++ tail) (hn : n.toNat < 2^63) :
    (∀ m rest, recvMessage s = .ok (.ok m, { s with input := rest }) ↔
      Message.Fits m ∧ s.input = (sendMessage .fresh m).2.output ++ rest) ∧
    (∀ b m, b.length < 2^63 → (Message.fromBytes b = .ok (.ok m) ↔ b = m.toBytes)) ∧
    (∀ body rest, tail = body ++ rest → body.length = n.toNat → (∀ m, body ≠ Message.toBytes m) →
      ∃ e, recvMessage s = .ok (.error e, { s with input := rest }) ∧
        ∀ rs u, Polls s (.error e :: rs) u ↔ Polls { s with input := rest } rs u) := by
  have hn' : n.toNat ≤ isizeMax := by
    simp only [isizeMax]
    omega
  refine ⟨fun m rest => ?_, fun b m hb => fromBytes_eq_ok hb, fun body rest ht hb hbad => ?_⟩
  · have hout : (sendMessage .fresh m).2.output = frame m := by
      rw [send_frame .fresh m rfl]
      rfl
    rw [hout, recv_eq_ok]
    constructor
    · rintro ⟨hm, r, hin, hr⟩
      obtain rfl : rest = r := congrArg TcpStream.input hr
      exact ⟨hm, hin⟩
    · rintro ⟨hm, hin⟩
      exact ⟨hm, rest, hin, rfl⟩
  · subst ht
    obtain ⟨r, hr⟩ := fromBytes_total body
    cases r with
    | ok m => exact absurd ((fromBytes_eq_ok (by omega)).mp hr) (hbad m)
    | error e =>
      have hrecv := recv_body s n body rest hs hn' hb hr
      refine ⟨_, hrecv, fun rs u => ?_⟩
      rw [polls_cons_iff]
      constructor
      · rintro ⟨t, ht, hp⟩
        rw [hrecv] at ht
        obtain rfl := (Prod.mk.inj (Except.ok.inj ht)).2
        exact hp
      · exact fun hp => ⟨_, hrecv, hp⟩

theorem recv_language_exact_bad_frame :
    ∃ e, recvMessage ⟨u64ToBe 1 ++ ([9] ++ frame .ack), [], none⟩ =
        .ok (.error e, ⟨frame .ack, [], none⟩) ∧
      ∀ rs u, Polls ⟨u64ToBe 1 ++ ([9] ++ frame .ack), [], none⟩ (.error e :: rs) u ↔
        Polls ⟨frame .ack, [], none⟩ rs u :=
  (recv_language_exact ⟨_, [], none⟩ 1 ([9] ++ frame .ack) rfl (by decide)).2.2 [9] (frame .ack)
    rfl rfl (by rintro (_ | _ | _ | _ | _ | _ | _) <;> simp [Message.toBytes])

end CrabKeeper.ChannelFraming
