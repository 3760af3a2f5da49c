import CrabKeeper.Foundation.BigEndian

/-!
# Messages and their TLV encoding

One tag byte, an eight-byte big-endian payload length, the payload. The decoder
is written with the panicking operations of the source, so that its totality is
a theorem here. Error texts are those of the source.
-/

set_option autoImplicit false

namespace CrabKeeper.MessageCodec
open Foundation.Machine Foundation.BigEndian

inductive Message where
  | started
  | done
  | data (payload : List UInt8)
  | transfer (payload : List UInt8)
  | ack
  | stop
  | balanceHistory (payload : List UInt8)
  deriving DecidableEq, Repr

def lenBytes (payload : List UInt8) : List UInt8 := u64ToBe (UInt64.ofNat payload.length)

def Message.toBytes : Message → List UInt8
  | .started => 0x00 :: [0,0,0,0,0,0,0,0]
  | .done => 0x01 :: [0,0,0,0,0,0,0,0]
  | .data payload => 0x02 :: (lenBytes payload ++ payload)
  | .transfer payload => 0x03 :: (lenBytes payload ++ payload)
  | .ack => 0x04 :: [0,0,0,0,0,0,0,0]
  | .stop => 0x05 :: [0,0,0,0,0,0,0,0]
  | .balanceHistory payload => 0x06 :: (lenBytes payload ++ payload)

def hex02 (b : UInt8) : String :=
  String.ofList [(Nat.digitChar (b.toNat/16)).toUpper, (Nat.digitChar (b.toNat%16)).toUpper]

/-- The final `match tag` of `from_bytes`. -/
def ofTag (tag : UInt8) (payloadLen : UInt64) (payload : List UInt8) : Except String Message :=
  match tag with
  | 0x00 => if payloadLen ≠ 0 then .error "STARTED 消息长度必须为 0" else .ok .started
  | 0x01 => if payloadLen ≠ 0 then .error "DONE 消息长度必须为 0" else .ok .done
  | 0x02 => .ok (.data payload)
  | 0x03 => .ok (.transfer payload)
  | 0x04 => if payloadLen = 0 then .ok .ack else .error "ACK 消息长度必须为 0"
  | 0x05 => if payloadLen = 0 then .ok .stop else .error "STOP 消息长度必须为 0"
  | 0x06 => .ok (.balanceHistory payload)
  | _ => .error ("未知 tag: 0x" ++ hex02 tag)

def Message.fromBytes (bytes : List UInt8) : Checked (Except String Message) :=
  if bytes.length < 9 then .ok (.error "消息太短") else do
    let tag ← index bytes 0
    let lenField ← slice bytes 1 9
    let payloadLen ← u64OfBe lenField
    let payload ← sliceFrom bytes 9
    if UInt64.ofNat payload.length ≠ payloadLen then
      return .error "消息长度不匹配"
    else
      return ofTag tag payloadLen payload

def Message.display : Message → String
  | .started => "STARTED"
  | .done => "DONE"
  | .data payload => "DATA(" ++ toString payload.length ++ "B)"
  | .transfer payload => "TRANSFER(" ++ toString payload.length ++ "B)"
  | .ack => "ACK"
  | .stop => "STOP"
  | .balanceHistory payload => "BALANCE_HISTORY(" ++ toString payload.length ++ "B)"

def Message.tag : Message → UInt8
  | .started => 0x00
  | .done => 0x01
  | .data _ => 0x02
  | .transfer _ => 0x03
  | .ack => 0x04
  | .stop => 0x05
  | .balanceHistory _ => 0x06

def Message.payload : Message → List UInt8
  | .data payload => payload
  | .transfer payload => payload
  | .balanceHistory payload => payload
  | _ => []

theorem toBytes_parts (m : Message) :
    m.toBytes = m.tag :: (lenBytes m.payload ++ m.payload) := by
  cases m <;> rfl

@[simp] theorem lenBytes_length (p : List UInt8) : (lenBytes p).length = 8 := u64ToBe_length _

theorem toBytes_length (m : Message) : m.toBytes.length = 9+m.payload.length := by
  rw [toBytes_parts, List.length_cons, List.length_append, lenBytes_length]
  omega

theorem fromBytes_short (bytes : List UInt8) (h : bytes.length < 9) :
    Message.fromBytes bytes = .ok (.error "消息太短") :=
  if_pos h

theorem fromBytes_parts (tag : UInt8) (L p : List UInt8) (hL : L.length = 8) :
    Message.fromBytes (tag :: (L ++ p)) = .ok
      (if UInt64.ofNat p.length ≠ UInt64.ofNat (ofBe L) then .error "消息长度不匹配"
        else ofTag tag (UInt64.ofNat (ofBe L)) p) := by
  have hlen : (tag :: (L ++ p)).length = 9+p.length := by
    simp only [List.length_cons, List.length_append, hL]
    omega
  have htake : ((tag :: (L ++ p)).take 9).drop 1 = L := by simp [hL]
  have hdrop : (tag :: (L ++ p)).drop 9 = p := by simp [hL]
  rw [Message.fromBytes, if_neg (by omega), index_of_lt (by omega),
    slice_of_le (by omega) (by omega), sliceFrom_of_le (by omega), htake, hdrop]
  simp only [ok_bind, u64OfBe_of_length hL, List.getElem_cons_zero]
  split_ifs <;> rfl

theorem parts_of_long {bytes : List UInt8} (h : ¬ bytes.length < 9) :
    ∃ tag L p, L.length = 8 ∧ bytes = tag :: (L ++ p) := by
  cases bytes with
  | nil => simp at h
  | cons tag rest =>
    refine ⟨tag, rest.take 8, rest.drop 8, ?_, by rw [List.take_append_drop]⟩
    rw [List.length_take, List.length_cons] at *
    omega

theorem fromBytes_total (bytes : List UInt8) : ∃ r, Message.fromBytes bytes = .ok r := by
  by_cases h : bytes.length < 9
  · exact ⟨_, fromBytes_short bytes h⟩
  · obtain ⟨tag, L, p, hL, rfl⟩ := parts_of_long h
    exact ⟨_, fromBytes_parts tag L p hL⟩

theorem length_eq_of_ofNat {p : List UInt8} {n : UInt64} (hp : p.length < 2^64)
    (h : UInt64.ofNat p.length = n) : n.toNat = p.length := by
  rw [← h, UInt64.toNat_ofNat', Nat.mod_eq_of_lt hp]

theorem ofTag_eq_ok {tag : UInt8} {n : UInt64} {p : List UInt8} {m : Message}
    (hn : n.toNat = p.length) : ofTag tag n p = .ok m ↔ tag = m.tag ∧ p = m.payload := by
  have h0 : n = 0 ↔ p = [] := by
    rw [← UInt64.toNat_inj, hn]
    simp
  constructor
  · intro h
    unfold ofTag at h
    split at h <;> (try split_ifs at h) <;> cases h <;> simp_all [Message.tag, Message.payload]
  · rintro ⟨rfl, rfl⟩
    cases m <;> simp_all [ofTag, Message.tag, Message.payload]

/-- The decoder accepts exactly the encoder's words and inverts it there. -/
theorem fromBytes_eq_ok {bytes : List UInt8} {m : Message} (hb : bytes.length < 2^63) :
    Message.fromBytes bytes = .ok (.ok m) ↔ bytes = m.toBytes := by
  by_cases h : bytes.length < 9
  · rw [fromBytes_short bytes h]
    refine ⟨fun h' => by simp at h', ?_⟩
    rintro rfl
    rw [toBytes_length] at h
    omega
  obtain ⟨tag, L, p, hL, rfl⟩ := parts_of_long h
  have hp : p.length < 2^64 := by
    simp only [List.length_cons, List.length_append] at hb
    omega
  rw [fromBytes_parts tag L p hL, toBytes_parts, Except.ok.injEq]
  constructor
  · intro hd
    split_ifs at hd with hne
    have hlen := length_eq_of_ofNat hp (not_not.mp hne)
    obtain ⟨rfl, rfl⟩ := (ofTag_eq_ok hlen).mp hd
    have hLb : L = lenBytes m.payload := by
      rw [lenBytes, ← u64OfBe_eq_ok, u64OfBe_of_length hL, not_not.mp hne]
    rw [hLb]
  · intro heq
    obtain ⟨rfl, hrest⟩ := List.cons.inj heq
    obtain ⟨rfl, rfl⟩ := List.append_inj hrest (by rw [hL, lenBytes_length])
    have hv : UInt64.ofNat (ofBe (lenBytes m.payload)) = UInt64.ofNat m.payload.length := by
      have := u64OfBe_u64ToBe (UInt64.ofNat m.payload.length)
      rw [u64OfBe_of_length (u64ToBe_length _)] at this
      exact Except.ok.inj this
    rw [if_neg (by rw [hv]; simp)]
    exact (ofTag_eq_ok (length_eq_of_ofNat hp hv.symm)).mpr ⟨rfl, rfl⟩

end CrabKeeper.MessageCodec
