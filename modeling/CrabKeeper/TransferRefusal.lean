import CrabKeeper.TransferCall

/-!
# Transfers of unknown accounts

`transfer` on the streams of the parent, with the streams as it leaves them,
also when it panics. The identifier of the source is used before the order is
written, that of the destination after it. An unknown source panics at once, an
unknown destination when the order has gone out.
-/

set_option autoImplicit false

namespace CrabKeeper.TransferRefusal
open Foundation.Machine Foundation.BigEndian Foundation.Network
open CrabKeeper.MessageCodec CrabKeeper.ChannelFraming CrabKeeper.BankTypes
open CrabKeeper.BankChild CrabKeeper.TransferCall

/-- `child_streams[(id - 1) as usize]`, with its index. -/
def accountStream (childStreams : List TcpStream) (id : AccountId) : Checked (ℕ × TcpStream) := do
  let idx ← subU8 id 1
  let stream ← index childStreams idx.toNat
  return (idx.toNat, stream)

/-- The final `match msg` of `transfer`. -/
def answer : Message → Except BankingError Unit
  | .ack => .ok ()
  | other => .error (.protocolError ("expected ACK, got " ++ other.display))

def receiveAck (childStreams : List TcpStream) (dst : AccountId) :
    Checked (Except BankingError Unit) × List TcpStream :=
  match accountStream childStreams dst with
  | .error p => (.error p, childStreams)
  | .ok (dstIdx, stream) =>
    match recvMessage stream with
    | .error p => (.error p, childStreams)
    | .ok (.error e, stream) =>
      (.ok (.error (.networkError (IoError.display e))), childStreams.set dstIdx stream)
    | .ok (.ok msg, stream) => (.ok (answer msg), childStreams.set dstIdx stream)

def transfer (childStreams : List TcpStream) (src dst : AccountId) (amount : Balance) :
    Checked (Except BankingError Unit) × List TcpStream :=
  let payload := TransferOrder.toBytes ⟨src, dst, amount⟩
  match accountStream childStreams src with
  | .error p => (.error p, childStreams)
  | .ok (srcIdx, stream) =>
    match sendMessage stream (.transfer payload) with
    | (.error e, stream) =>
      (.ok (.error (.networkError (IoError.display e))), childStreams.set srcIdx stream)
    | (.ok _, stream) => receiveAck (childStreams.set srcIdx stream) dst

def streamOf (streams : List TcpStream) (id : AccountId) : Option TcpStream :=
  if id = 0 then none else streams[id.toNat-1]?

theorem accountStream_eq_ok {streams : List TcpStream} {id : AccountId} {i : ℕ} {s : TcpStream} :
    accountStream streams id = .ok (i,s) ↔ id.toNat = i+1 ∧ streams[i]? = some s := by
  rw [accountStream, bind_eq_ok]
  constructor
  · rintro ⟨idx, hsub, h⟩
    obtain ⟨t, hat, h⟩ := bind_eq_ok.mp h
    obtain ⟨rfl, rfl⟩ := Prod.mk.inj (Except.ok.inj h)
    exact ⟨(subU8_eq_ok.mp hsub).symm, index_eq_ok.mp hat⟩
  · rintro ⟨hid, hs⟩
    have hlt := UInt8.toNat_lt id
    have hval : (UInt8.ofNat i).toNat = i := by
      rw [UInt8.toNat_ofNat', Nat.mod_eq_of_lt (by omega)]
    refine ⟨UInt8.ofNat i, subU8_eq_ok.mpr ?_, ?_⟩
    · rw [hval, UInt8.toNat_one, hid]
    · rw [hval, index_eq_ok.mpr hs]
      rfl

theorem id_eq_zero_iff (id : AccountId) : id = 0 ↔ id.toNat = 0 := by
  rw [← UInt8.toNat_inj, UInt8.toNat_zero]

theorem accountStream_cases (streams : List TcpStream) (id : AccountId) :
    (∃ p, accountStream streams id = .error p ∧ streamOf streams id = none) ∨
    ∃ i s, accountStream streams id = .ok (i,s) ∧ streams[i]? = some s ∧
      streamOf streams id = some s := by
  rcases h : accountStream streams id with p | ⟨i, s⟩
  · refine Or.inl ⟨p, rfl, ?_⟩
    unfold streamOf
    split_ifs with hid
    · rfl
    · rw [id_eq_zero_iff] at hid
      have hnext : id.toNat = id.toNat-1+1 := by omega
      rcases hat : streams[id.toNat-1]? with _ | s
      · rfl
      · cases h.symm.trans (accountStream_eq_ok.mpr ⟨hnext, hat⟩)
  · obtain ⟨hid, hs⟩ := accountStream_eq_ok.mp h
    refine Or.inr ⟨i, s, rfl, hs, ?_⟩
    rw [streamOf, if_neg (mt (id_eq_zero_iff id).mp (by omega)), hid]
    exact hs

theorem accountStream_fails_iff (streams : List TcpStream) (id : AccountId) :
    (∃ p, accountStream streams id = .error p) ↔
      ∀ idx, subU8 id 1 = .ok idx → streamAt streams.length idx.toNat = none := by
  rw [accountStream]
  rcases subU8 id 1 with p | idx
  · exact iff_of_true ⟨p, rfl⟩ fun idx h => by cases h
  · rw [ok_bind]
    by_cases hlt : idx.toNat < streams.length
    · rw [index_of_lt hlt]
      apply iff_of_false
      · exact fun h => by cases h.choose_spec
      · intro h
        cases (h idx rfl).symm.trans (dif_pos hlt)
    · rw [index, List.getElem?_eq_none (Nat.not_lt.mp hlt)]
      apply iff_of_true ⟨.outOfBounds, rfl⟩
      intro idx' h
      obtain rfl := Except.ok.inj h
      exact dif_neg hlt

/-- The call of the network model panics in the same places, and reads the same
answers. -/
theorem call_panics_iff (streams : List TcpStream) (k : ℕ) (o : TransferOrder) :
    ((TransferCall.transfer k o : CallAction streams.length) = .tau .panicked ↔
      ∃ p, accountStream streams o.src = .error p) ∧
    ((awaitAnswer k o : CallAction streams.length) = .tau .panicked ↔
      ∃ p, accountStream streams o.dst = .error p) := by
  rw [accountStream_fails_iff, accountStream_fails_iff, TransferCall.transfer, awaitAnswer]
  constructor
  · rcases subU8 o.src 1 with p | idx
    · simp
    · rcases hat : streamAt streams.length idx.toNat with _ | i <;> simp [hat]
  · rcases subU8 o.dst 1 with p | idx
    · simp
    · rcases hat : streamAt streams.length idx.toNat with _ | i <;> simp [hat]

theorem onAnswer_eq (k : ℕ) (msg : Message) : onAnswer k msg = .returned k (answer msg) := by
  cases msg <;> rfl

theorem streamOf_set_input {streams : List TcpStream} {i : ℕ} {s t : TcpStream}
    (hs : streams[i]? = some s) (ht : t.input = s.input) (id : AccountId) :
    (streamOf (streams.set i t) id).map (·.input) = (streamOf streams id).map (·.input) := by
  have hlt := (List.getElem?_eq_some_iff.mp hs).1
  unfold streamOf
  split_ifs
  · rfl
  · by_cases hi : i = id.toNat-1
    · subst hi
      rw [List.getElem?_set_self hlt, hs]
      exact congrArg some ht
    · rw [List.getElem?_set_ne hi]

theorem outputs_set_iff {streams : List TcpStream} {i : ℕ} {s t : TcpStream}
    (hs : streams[i]? = some s) :
    (streams.set i t).map (·.output) = streams.map (·.output) ↔ t.output = s.output := by
  have hlt := (List.getElem?_eq_some_iff.mp hs).1
  have hlt' : i < (streams.map (·.output)).length := by rwa [List.length_map]
  rw [List.map_set]
  constructor
  · intro h
    have hat := congrArg (·[i]?) h
    simp only [List.getElem?_set_self hlt', List.getElem?_map, hs] at hat
    exact Option.some.inj hat
  · intro h
    apply List.ext_getElem?
    intro j
    by_cases hj : i = j
    · subst hj
      rw [List.getElem?_set_self hlt', List.getElem?_map, hs, h]
      rfl
    · rw [List.getElem?_set_ne hj]

/-- The next frame announces more bytes than an allocation may have. -/
def Oversized (input : List UInt8) : Prop :=
  ∃ n tail, input = u64ToBe n ++ tail ∧ isizeMax < n.toNat

theorem recv_panics_iff (s : TcpStream) :
    (∃ p, recvMessage s = .error p) ↔ Oversized s.input := by
  have hret := recv_returns_iff s
  rcases h : recvMessage s with p | ⟨r, t⟩
  · refine iff_of_true ⟨p, rfl⟩ ?_
    by_contra hno
    simp only [Oversized, not_exists, not_and, Nat.not_lt] at hno
    obtain ⟨r, t, hr⟩ := hret.mpr hno
    cases h.symm.trans hr
  · apply iff_of_false
    · rintro ⟨p, hp⟩
      cases hp
    · rintro ⟨n, tail, hin, hn⟩
      exact absurd (hret.mp ⟨r, t, h⟩ n tail hin) (Nat.not_le.mpr hn)

theorem receiveAck_returns_iff (streams : List TcpStream) (dst : AccountId) :
    (∃ r, (receiveAck streams dst).1 = .ok r) ↔
      ∃ d, streamOf streams dst = some d ∧ ¬ Oversized d.input := by
  rcases accountStream_cases streams dst with ⟨p, hp, hnone⟩ | ⟨j, d, hd, _, hsome⟩
  · rw [receiveAck, hp, hnone]
    exact iff_of_false (fun h => by cases h.choose_spec) (fun h => by cases h.choose_spec.1)
  · rw [receiveAck, hd, hsome]
    dsimp only
    have hpanics := recv_panics_iff d
    rcases h : recvMessage d with p | ⟨r, t⟩
    · have hover := hpanics.mp ⟨p, h⟩
      apply iff_of_false
      · exact fun h => by cases h.choose_spec
      · rintro ⟨d', hd', hno⟩
        obtain rfl := Option.some.inj hd'
        exact hno hover
    · have hno : ¬ Oversized d.input := fun hover => by
        obtain ⟨p, hp⟩ := hpanics.mpr hover
        cases h.symm.trans hp
      refine iff_of_true ?_ ⟨d, rfl, hno⟩
      cases r with
      | error e => exact ⟨_, rfl⟩
      | ok msg => exact ⟨_, rfl⟩

def Known (streams : List TcpStream) (id : AccountId) : Prop :=
  1 ≤ id.toNat ∧ id.toNat ≤ streams.length

theorem known_iff (streams : List TcpStream) (id : AccountId) :
    Known streams id ↔ ∃ s, streamOf streams id = some s := by
  unfold streamOf Known
  split_ifs with hid
  · rw [id_eq_zero_iff] at hid
    simp [hid]
  · rw [id_eq_zero_iff] at hid
    constructor
    · exact fun h => ⟨_, List.getElem?_eq_getElem (by omega)⟩
    · rintro ⟨s, hs⟩
      have hlt := (List.getElem?_eq_some_iff.mp hs).1
      omega

/-- `transfer` returns, and for an unknown account it returns an error before
anything is written. -/
structure RefusesUnknown (streams : List TcpStream) (src dst : AccountId) (amount : Balance) :
    Prop where
  returns : ∃ r, (transfer streams src dst amount).1 = .ok r
  refuses : ¬ (Known streams src ∧ Known streams dst) →
    (∃ e, (transfer streams src dst amount).1 = .ok (.error e)) ∧
      (transfer streams src dst amount).2.map (·.output) = streams.map (·.output)

def TakesOrder (s : TcpStream) : Prop := ∀ k, s.room = some k → 27 ≤ k

def Served (streams : List TcpStream) (src dst : AccountId) : Prop :=
  ∃ s, streamOf streams src = some s ∧
    (s.room = some 0 ∨
      ∃ d, streamOf streams dst = some d ∧ (TakesOrder s → ¬ Oversized d.input))

theorem order_frame_length (o : TransferOrder) : (frame (.transfer o.toBytes)).length = 27 := by
  rw [frame_length]
  show 17+o.toBytes.length = 27
  rw [order_toBytes_length]

variable {streams : List TcpStream} {src dst : AccountId} {amount : Balance} {i : ℕ}
  {s t : TcpStream}

theorem transfer_sent (hsrc : accountStream streams src = .ok (i,s))
    (h : sendMessage s (.transfer (TransferOrder.toBytes ⟨src, dst, amount⟩)) = (.ok (), t)) :
    transfer streams src dst amount = receiveAck (streams.set i t) dst := by
  rw [transfer]
  simp only [hsrc, h]

theorem transfer_broken {e : IoError} (hsrc : accountStream streams src = .ok (i,s))
    (h : sendMessage s (.transfer (TransferOrder.toBytes ⟨src, dst, amount⟩)) = (.error e, t)) :
    transfer streams src dst amount =
      (.ok (.error (.networkError (IoError.display e))), streams.set i t) := by
  rw [transfer]
  simp only [hsrc, h]

theorem refuses_sent_iff (hsrc : accountStream streams src = .ok (i,s)) (hs : streams[i]? = some s)
    (hknown : Known streams src) (ht : TakesOrder s) :
    RefusesUnknown streams src dst amount ↔
      ∃ d, streamOf streams dst = some d ∧ ¬ Oversized d.input := by
  obtain ⟨t, hsend, hin⟩ : ∃ t, sendMessage s (.transfer (TransferOrder.toBytes
      ⟨src, dst, amount⟩)) = (.ok (), t) ∧ t.input = s.input :=
    ⟨_, send_takes fun k hk => (order_frame_length _).symm ▸ ht k hk, rfl⟩
  have hsame : (∃ d, streamOf (streams.set i t) dst = some d ∧ ¬ Oversized d.input) ↔
      ∃ d, streamOf streams dst = some d ∧ ¬ Oversized d.input := by
    have hmap := streamOf_set_input hs hin dst
    constructor
    · rintro ⟨d, hd, hno⟩
      rw [hd] at hmap
      obtain ⟨d', hd', heq⟩ := Option.map_eq_some_iff.mp hmap.symm
      exact ⟨d', hd', heq ▸ hno⟩
    · rintro ⟨d, hd, hno⟩
      rw [hd] at hmap
      obtain ⟨d', hd', heq⟩ := Option.map_eq_some_iff.mp hmap
      exact ⟨d', hd', heq ▸ hno⟩
  have hret := (receiveAck_returns_iff (streams.set i t) dst).trans hsame
  rw [← transfer_sent hsrc hsend] at hret
  constructor
  · exact fun h => hret.mp h.returns
  · rintro ⟨d, hd, hno⟩
    have hdst : Known streams dst := (known_iff _ _).mpr ⟨d, hd⟩
    exact ⟨hret.mpr ⟨d, hd, hno⟩, fun hunknown => absurd ⟨hknown, hdst⟩ hunknown⟩

theorem refuses_broken_iff (hsrc : accountStream streams src = .ok (i,s))
    (hs : streams[i]? = some s) (hknown : Known streams src) {k : ℕ} (hroom : s.room = some k)
    (hk : k < 27) :
    RefusesUnknown streams src dst amount ↔ k = 0 ∨ Known streams dst := by
  have hsend := send_breaks (m := .transfer (TransferOrder.toBytes ⟨src, dst, amount⟩)) hroom
    ((order_frame_length _).symm ▸ hk)
  have hrun := transfer_broken hsrc hsend
  have hwritten : (transfer streams src dst amount).2.map (·.output) =
      streams.map (·.output) ↔ k = 0 := by
    rw [hrun, outputs_set_iff hs]
    dsimp only
    rw [List.append_right_eq_self, List.take_eq_nil_iff]
    refine or_iff_left fun hnil => ?_
    have hlen := order_frame_length ⟨src, dst, amount⟩
    rw [hnil] at hlen
    cases hlen
  constructor
  · intro h
    by_cases hdst : Known streams dst
    · exact Or.inr hdst
    · exact Or.inl (hwritten.mp (h.refuses fun hboth => hdst hboth.2).2)
  · intro h
    refine ⟨⟨_, congrArg Prod.fst hrun⟩, fun hunknown => ⟨⟨_, congrArg Prod.fst hrun⟩, ?_⟩⟩
    exact hwritten.mpr (h.resolve_right fun hdst => hunknown ⟨hknown, hdst⟩)

/-- `transfer` refuses unknown accounts before it acts exactly where both have a
connection, or the source's is closed. -/
theorem transfer_refuses_iff (streams : List TcpStream) (src dst : AccountId)
    (amount : Balance) : RefusesUnknown streams src dst amount ↔ Served streams src dst := by
  rcases accountStream_cases streams src with ⟨p, hp, hnone⟩ | ⟨i, s, hsrc, hs, hsome⟩
  · have hpanic : (transfer streams src dst amount).1 = .error p := by
      rw [transfer]
      simp only [hp]
    apply iff_of_false
    · rintro ⟨⟨r, hr⟩, _⟩
      cases hpanic.symm.trans hr
    · rintro ⟨s, hs, _⟩
      cases hnone.symm.trans hs
  have hserved : Served streams src dst ↔ s.room = some 0 ∨
      ∃ d, streamOf streams dst = some d ∧ (TakesOrder s → ¬ Oversized d.input) := by
    rw [Served, hsome]
    exact ⟨fun ⟨_, h, hd⟩ => Option.some.inj h ▸ hd, fun h => ⟨s, rfl, h⟩⟩
  have hknown : Known streams src := (known_iff _ _).mpr ⟨s, hsome⟩
  rw [hserved]
  by_cases ht : TakesOrder s
  · rw [refuses_sent_iff hsrc hs hknown ht]
    have hopen : s.room ≠ some 0 := fun h => absurd (ht 0 h) (by decide)
    constructor
    · exact fun ⟨d, hd, hno⟩ => Or.inr ⟨d, hd, fun _ => hno⟩
    · rintro (h | ⟨d, hd, hno⟩)
      · exact absurd h hopen
      · exact ⟨d, hd, hno ht⟩
  · have hbreaks := ht
    simp only [TakesOrder, not_forall, Nat.not_le] at hbreaks
    obtain ⟨k, hroom, hk⟩ := hbreaks
    rw [refuses_broken_iff hsrc hs hknown hroom hk, known_iff, hroom, Option.some_inj]
    constructor
    · exact Or.imp_right fun ⟨d, hd⟩ => ⟨d, hd, fun h => absurd h ht⟩
    · exact Or.imp_right fun ⟨d, hd, _⟩ => ⟨d, hd⟩

/-- One child, and an order from it to a second one that does not exist. -/
theorem order_written_before_panic :
    transfer [.fresh] 1 2 50 = (.error .outOfBounds,
      [⟨[], frame (.transfer (TransferOrder.toBytes ⟨1, 2, 50⟩)), none⟩]) ∧
    transfer [.fresh] 0 1 50 = (.error .overflow, [.fresh]) ∧
    ¬ RefusesUnknown [.fresh] 1 2 50 ∧ ¬ RefusesUnknown [.fresh] 0 1 50 := by
  have hdst : transfer [.fresh] 1 2 50 = (.error .outOfBounds,
      [⟨[], frame (.transfer (TransferOrder.toBytes ⟨1, 2, 50⟩)), none⟩]) := by decide
  have hsrc : transfer [.fresh] 0 1 50 = (.error .overflow, [.fresh]) := by decide
  refine ⟨hdst, hsrc, ?_, ?_⟩
  · rintro ⟨⟨r, hr⟩, _⟩
    rw [hdst] at hr
    cases hr
  · rintro ⟨⟨r, hr⟩, _⟩
    rw [hsrc] at hr
    cases hr

end CrabKeeper.TransferRefusal
