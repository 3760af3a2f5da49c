import CrabKeeper.BankTypes
import CrabKeeper.ChannelFraming

/-!
# What the bank's decoders accept

An order is any ten bytes, and its decoder inverts its encoder on all of them. A
history is accepted by its length, which its count byte must announce. An order
that is sent, received and sent on arrives as it was, over any number of
connections.
-/

set_option autoImplicit false

namespace CrabKeeper.WireLanguage
open Foundation.Machine Foundation.BigEndian
open CrabKeeper.BankTypes CrabKeeper.MessageCodec CrabKeeper.ChannelFraming

theorem exists_order_toBytes {bytes : List UInt8} (h : bytes.length = 10) :
    ∃ o : TransferOrder, o.toBytes = bytes := by
  obtain ⟨src, rest, rfl⟩ := List.exists_cons_of_length_pos (l := bytes) (by omega)
  rw [List.length_cons] at h
  obtain ⟨dst, body, rfl⟩ := List.exists_cons_of_length_pos (l := rest) (by omega)
  rw [List.length_cons] at h
  obtain ⟨amount, rfl⟩ := exists_i64ToBe (l := body) (by omega)
  exact ⟨⟨src, dst, amount⟩, rfl⟩

theorem order_fromBytes_eq_ok {bytes : List UInt8} {o : TransferOrder} :
    TransferOrder.fromBytes bytes = .ok (.ok o) ↔ bytes = o.toBytes := by
  constructor
  · intro h
    by_cases hlen : bytes.length = 10
    · obtain ⟨q, rfl⟩ := exists_order_toBytes hlen
      rw [order_fromBytes_toBytes] at h
      obtain rfl := Except.ok.inj (Except.ok.inj h)
      rfl
    · rw [TransferOrder.fromBytes, if_pos hlen] at h
      cases Except.ok.inj h
  · rintro rfl
    exact order_fromBytes_toBytes o

/-- One connection between two parties: what its sender wrote before, and what
stands behind the message when it is received. -/
structure Link where
  before : List UInt8
  behind : List UInt8

/-- The payload of the message that `recv_message` takes from a connection after
`send_message` has put this payload on it. -/
def hop (link : Link) (payload : List UInt8) : Option (List UInt8) :=
  match sendMessage ⟨[], link.before, none⟩ (.transfer payload) with
  | (.error _, _) => none
  | (.ok _, s) =>
    match recvMessage ⟨s.output.drop link.before.length ++ link.behind, [], none⟩ with
    | .ok (.ok (.transfer received), _) => some received
    | _ => none

def forward : List Link → List UInt8 → Option (List UInt8)
  | [], payload => some payload
  | link::links, payload => (hop link payload).bind (forward links)

theorem hop_eq_some (link : Link) {payload : List UInt8} (h : payload.length+10 ≤ 2^63) :
    hop link payload = some payload := by
  have hfits : Message.Fits (.transfer payload) := (fits_iff _).mpr h
  have hrecv := recv_frame ⟨frame (.transfer payload) ++ link.behind, [], none⟩ _ link.behind
    hfits rfl
  rw [hop, send_frame _ (.transfer payload) rfl]
  simp only [List.drop_left, hrecv]

theorem forward_eq_some (links : List Link) {payload : List UInt8}
    (h : payload.length+10 ≤ 2^63) : forward links payload = some payload := by
  induction links with
  | nil => rfl
  | cons link links ih =>
    rw [forward, hop_eq_some link h, Option.bind_some]
    exact ih

/-- Orders and ten-byte words are the same, and an order reaches the last of any
number of receivers as it was given to the first sender. -/
theorem order_survives_hops :
    (∀ bytes o, TransferOrder.fromBytes bytes = .ok (.ok o) ↔ bytes = TransferOrder.toBytes o) ∧
    ∀ (o : TransferOrder) (links : List Link), ∃ payload,
      forward links o.toBytes = some payload ∧ TransferOrder.fromBytes payload = .ok (.ok o) := by
  refine ⟨fun bytes o => order_fromBytes_eq_ok, fun o links => ?_⟩
  refine ⟨o.toBytes, forward_eq_some links ?_, order_fromBytes_toBytes o⟩
  rw [order_toBytes_length]
  decide

theorem history_accepts_iff (bytes : List UInt8) :
    (∃ h, BalanceHistory.fromBytes bytes = .ok (.ok h)) ↔
      ∃ _ : 2 ≤ bytes.length, bytes.length = 24*bytes[1].toNat+2 := by
  constructor
  · rintro ⟨h, hd⟩
    obtain ⟨hs, rfl⟩ := history_fromBytes_eq_ok.mp hd
    have hlen := history_toBytes_length h
    refine ⟨by omega, ?_⟩
    show h.toBytes.length = 24*(UInt8.ofNat h.states.length).toNat+2
    rw [hlen, UInt8.toNat_ofNat', Nat.mod_eq_of_lt (by omega)]
  · rintro ⟨hlong, hlen⟩
    obtain ⟨id, rest, rfl⟩ := List.exists_cons_of_length_pos (l := bytes) (by omega)
    obtain ⟨len, body, rfl⟩ := List.exists_cons_of_length_pos (l := rest) (by
      rw [List.length_cons] at hlong
      omega)
    have hbody : body.length = 24*len.toNat := by
      change body.length+2 = 24*len.toNat+2 at hlen
      omega
    obtain ⟨states, hk, rfl⟩ := exists_states_flatMap _ _ hbody
    exact ⟨⟨id, states⟩, history_fromBytes_parts id len states hk⟩

theorem history_fromBytes_total (bytes : List UInt8) :
    ∃ r, BalanceHistory.fromBytes bytes = .ok r := by
  rcases history_fromBytes_cases bytes with he | ⟨id, len, states, rfl, hk⟩
  · exact ⟨_, he⟩
  · exact ⟨_, history_fromBytes_parts id len states hk⟩

/-- The language of histories: the words of an announced length, each decoded
without leaving its bounds and reproduced by the encoder. A history is decoded
from its own word if its snapshots can be counted, and refused otherwise. -/
theorem history_language :
    (∀ bytes, ((∃ h, BalanceHistory.fromBytes bytes = .ok (.ok h)) ↔
        ∃ _ : 2 ≤ bytes.length, bytes.length = 24*bytes[1].toNat+2) ∧
      (∀ h, BalanceHistory.fromBytes bytes = .ok (.ok h) → h.toBytes = bytes) ∧
      ∃ r, BalanceHistory.fromBytes bytes = .ok r) ∧
    ∀ h : BalanceHistory,
      (h.states.length ≤ 255 → BalanceHistory.fromBytes h.toBytes = .ok (.ok h)) ∧
      (255 < h.states.length → ∃ e, BalanceHistory.fromBytes h.toBytes = .ok (.error e)) ∧
      ∀ h', BalanceHistory.fromBytes h.toBytes = .ok (.ok h') → h' = h := by
  refine ⟨fun bytes => ⟨history_accepts_iff bytes, fun h hd => ?_,
    history_fromBytes_total bytes⟩, fun h => ⟨history_fromBytes_toBytes h, fun hmany => ?_,
    fun h' hd => history_report_faithful hd⟩⟩
  · exact (history_fromBytes_eq_ok.mp hd).2.symm
  · obtain ⟨r, hr⟩ := history_fromBytes_total h.toBytes
    cases r with
    | error e => exact ⟨e, hr⟩
    | ok h' =>
      obtain rfl := history_report_faithful hr
      have := (history_fromBytes_eq_ok.mp hr).1
      omega

end CrabKeeper.WireLanguage
