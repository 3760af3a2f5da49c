import CrabKeeper.TransferRefusal

/-!
# Calls of `transfer`, lane by lane

A parent that makes many calls uses each stream in two ways: it writes the
orders of the account there, and reads an answer there for every order to the
account. The calls share nothing else, so what any sequence of them does is
known from each stream on its own, whatever bytes arrive on it.
-/

set_option autoImplicit false

namespace CrabKeeper.TransferLanes
open Foundation.Machine Foundation.Framing
open CrabKeeper.MessageCodec CrabKeeper.ChannelFraming CrabKeeper.BankTypes
open CrabKeeper.BankChild CrabKeeper.TransferRefusal
open CrabKeeper.TransferCall hiding transfer

def transferAll (childStreams : List TcpStream) :
    List TransferOrder → Checked (List (Except BankingError Unit)) × List TcpStream
  | [] => (.ok [], childStreams)
  | o::orders =>
    match transfer childStreams o.src o.dst o.amount with
    | (.error p, streams) => (.error p, streams)
    | (.ok r, streams) =>
      ((transferAll streams orders).1.map (r :: ·), (transferAll streams orders).2)

/-- What `k` receives find at the front of some bytes, and what they leave. -/
def polls : ℕ → List UInt8 → Option (List (Except IoError Message) × List UInt8)
  | 0, b => some ([], b)
  | k+1, b =>
    match recvMessage ⟨b, [], none⟩ with
    | .error _ => none
    | .ok (r, t) => (polls k t.input).map fun x => (r::x.1, x.2)

def outcome : Except IoError Message → Except BankingError Unit
  | .error e => .error (.networkError (IoError.display e))
  | .ok msg => answer msg

def sentBy (i : ℕ) (orders : List TransferOrder) : List Message :=
  (orders.filter fun o => o.src.toNat = i+1).map fun o => .transfer o.toBytes

def asked (i : ℕ) (orders : List TransferOrder) : ℕ := orders.countP fun o => o.dst.toNat = i+1

def answersTo (i : ℕ) (orders : List TransferOrder) (rs : List (Except BankingError Unit)) :
    List (Except BankingError Unit) :=
  ((orders.zip rs).filter fun x => x.1.dst.toNat = i+1).map (·.2)

theorem recv_bare (s : TcpStream) :
    recvMessage s =
      (recvMessage ⟨s.input, [], none⟩).map fun x => (x.1, { s with input := x.2.input }) := by
  rcases recv_cases ⟨s.input, [], none⟩ with h | ⟨n, tail, hin, hn, h⟩ |
    ⟨n, body, rest, r, hin, hn, hb, hr, h⟩
  · rw [h]
    rcases recv_cases s with h' | ⟨n, tail, hin, hn, _⟩ | ⟨n, body, rest, r, hin, hn, hb, hr, h'⟩
    · exact h'
    · cases (recv_capacity ⟨s.input, [], none⟩ n tail hin hn).symm.trans h
    · have := (recv_body ⟨s.input, [], none⟩ n body rest hin hn hb hr).symm.trans h
      obtain ⟨he, ht⟩ := Prod.mk.inj (Except.ok.inj this)
      obtain rfl : rest = [] := congrArg TcpStream.input ht
      rw [h', he]
      rfl
  · rw [h, recv_capacity s n tail hin hn]
    rfl
  · rw [h, recv_body s n body rest hin hn hb hr]
    rfl

section Call

variable {streams : List TcpStream} {o : TransferOrder} {i j : ℕ} {s d : TcpStream}

theorem receiveAck_of_recv (hdst : o.dst.toNat = j+1) (hd : streams[j]? = some d)
    {r : Except IoError Message} {t : TcpStream} (hr : recvMessage d = .ok (r,t)) :
    receiveAck streams o.dst = (.ok (outcome r), streams.set j t) := by
  rw [receiveAck, accountStream_eq_ok.mpr ⟨hdst, hd⟩]
  simp only [hr]
  cases r <;> rfl

theorem receiveAck_of_panic (hdst : o.dst.toNat = j+1) (hd : streams[j]? = some d) {p : Panic}
    (hr : recvMessage d = .error p) : receiveAck streams o.dst = (.error p, streams) := by
  rw [receiveAck, accountStream_eq_ok.mpr ⟨hdst, hd⟩]
  simp only [hr]

def given (s : TcpStream) (o : TransferOrder) : TcpStream :=
  { s with output := s.output ++ frame (.transfer o.toBytes) }

theorem transfer_of_src (hsrc : o.src.toNat = i+1) (hs : streams[i]? = some s)
    (hroom : s.room = none) :
    transfer streams o.src o.dst o.amount = receiveAck (streams.set i (given s o)) o.dst :=
  transfer_sent (accountStream_eq_ok.mpr ⟨hsrc, hs⟩) (send_frame s _ hroom)

def afterCall (o : TransferOrder) (i j : ℕ) (c : List UInt8) (l : ℕ) (s : TcpStream) :
    TcpStream where
  input := if l = j then c else s.input
  output := if l = i then s.output ++ frame (.transfer o.toBytes) else s.output
  room := none

theorem lookup_set {l : ℕ} {u : TcpStream} (hu : streams[l]? = some u) (i : ℕ) (a : TcpStream) :
    (streams.set i a)[l]? = some (if l = i then a else u) := by
  have hl := (List.getElem?_eq_some_iff.mp hu).1
  by_cases h : l = i
  · subst h
    rw [List.getElem?_set_self hl, if_pos rfl]
  · rw [List.getElem?_set_ne (Ne.symm h), hu, if_neg h]

theorem given_input (hs : streams[i]? = some s) (hd : streams[j]? = some d) :
    (if j = i then given s o else d).input = d.input := by
  split_ifs with h
  · subst h
    obtain rfl := Option.some.inj (hs.symm.trans hd)
    rfl
  · rfl

theorem call_lanes (hroom : ∀ s ∈ streams, s.room = none) (hsrc : o.src.toNat = i+1)
    (hs : streams[i]? = some s) (hdst : o.dst.toNat = j+1) (hd : streams[j]? = some d)
    {r : Except IoError Message} {t : TcpStream}
    (hr : recvMessage ⟨d.input, [], none⟩ = .ok (r,t)) :
    (transfer streams o.src o.dst o.amount).1 = .ok (outcome r) ∧
      (transfer streams o.src o.dst o.amount).2.length = streams.length ∧
      ∀ l u, streams[l]? = some u →
        (transfer streams o.src o.dst o.amount).2[l]? = some (afterCall o i j t.input l u) := by
  have hr' : recvMessage (if j = i then given s o else d) =
      .ok (r, { (if j = i then given s o else d) with input := t.input }) := by
    rw [recv_bare, given_input hs hd, hr]
    rfl
  rw [transfer_of_src hsrc hs (hroom s (List.mem_of_getElem? hs)),
    receiveAck_of_recv hdst (lookup_set hd i _) hr']
  refine ⟨rfl, by rw [List.length_set, List.length_set], fun l u hu => ?_⟩
  have hroomU := hroom u (List.mem_of_getElem? hu)
  rw [lookup_set (lookup_set hu i _)]
  by_cases hj : l = j
  · subst hj
    obtain rfl := Option.some.inj (hd.symm.trans hu)
    by_cases hi : l = i
    · subst hi
      obtain rfl := Option.some.inj (hs.symm.trans hu)
      simp [afterCall, given, hroomU]
    · simp [afterCall, hi, hroomU]
  · by_cases hi : l = i
    · subst hi
      obtain rfl := Option.some.inj (hs.symm.trans hu)
      simp [afterCall, hj, given, hroomU]
    · simp [afterCall, hj, hi, ← hroomU]

theorem call_panics (hroom : ∀ s ∈ streams, s.room = none) (hsrc : o.src.toNat = i+1)
    (hs : streams[i]? = some s) (hdst : o.dst.toNat = j+1) (hd : streams[j]? = some d) {p : Panic}
    (hr : recvMessage ⟨d.input, [], none⟩ = .error p) :
    (transfer streams o.src o.dst o.amount).1 = .error p := by
  have hr' : recvMessage (if j = i then given s o else d) = .error p := by
    rw [recv_bare, given_input hs hd, hr]
    rfl
  rw [transfer_of_src hsrc hs (hroom s (List.mem_of_getElem? hs)),
    receiveAck_of_panic hdst (lookup_set hd i _) hr']

end Call

def Reliable (streams : List TcpStream) : Prop := ∀ s ∈ streams, s.room = none

def AllKnown (streams : List TcpStream) (orders : List TransferOrder) : Prop :=
  ∀ o ∈ orders, Known streams o.src ∧ Known streams o.dst

def Answering (streams : List TcpStream) (orders : List TransferOrder) : Prop :=
  ∀ l u, streams[l]? = some u → (polls (asked l orders) u.input).isSome = true

structure Lane (orders : List TransferOrder) (rs : List (Except BankingError Unit)) (l : ℕ)
    (u t : TcpStream) : Prop where
  written : t.output = u.output ++ frames frameCode (sentBy l orders)
  answered : ∃ ps, polls (asked l orders) u.input = some (ps, t.input) ∧
    answersTo l orders rs = ps.map outcome

theorem polls_succ {k : ℕ} {b : List UInt8} {r : Except IoError Message} {t : TcpStream}
    (hr : recvMessage ⟨b, [], none⟩ = .ok (r,t)) :
    polls (k+1) b = (polls k t.input).map fun x => (r::x.1, x.2) := by
  rw [polls]
  simp only [hr]

theorem sentBy_cons (l : ℕ) (o : TransferOrder) (orders : List TransferOrder) :
    sentBy l (o::orders) =
      if o.src.toNat = l+1 then .transfer o.toBytes :: sentBy l orders else sentBy l orders := by
  by_cases h : o.src.toNat = l+1 <;> simp [sentBy, h]

theorem asked_cons (l : ℕ) (o : TransferOrder) (orders : List TransferOrder) :
    asked l (o::orders) = if o.dst.toNat = l+1 then asked l orders+1 else asked l orders := by
  by_cases h : o.dst.toNat = l+1 <;> simp [asked, h]

theorem answersTo_cons (l : ℕ) (o : TransferOrder) (orders : List TransferOrder)
    (r : Except BankingError Unit) (rs : List (Except BankingError Unit)) :
    answersTo l (o::orders) (r::rs) =
      if o.dst.toNat = l+1 then r :: answersTo l orders rs else answersTo l orders rs := by
  by_cases h : o.dst.toNat = l+1 <;> simp [answersTo, h]

theorem known_index {streams : List TcpStream} {id : AccountId} :
    Known streams id ↔ ∃ i s, id.toNat = i+1 ∧ streams[i]? = some s := by
  constructor
  · rintro ⟨h1, h2⟩
    exact ⟨id.toNat-1, _, by omega, List.getElem?_eq_getElem (by omega)⟩
  · rintro ⟨i, s, hid, hs⟩
    have := (List.getElem?_eq_some_iff.mp hs).1
    exact ⟨by omega, by omega⟩

theorem account_fails {streams : List TcpStream} {id : AccountId} (h : ¬ Known streams id) :
    ∃ p, accountStream streams id = .error p := by
  rcases hacc : accountStream streams id with p | ⟨i, s⟩
  · exact ⟨p, rfl⟩
  · exact absurd (known_index.mpr ⟨i, s, accountStream_eq_ok.mp hacc⟩) h

/-- What decides a call: both accounts, and the next frame of the destination. -/
inductive CallCase (streams : List TcpStream) (o : TransferOrder) : Prop
  | unknown : ¬ (Known streams o.src ∧ Known streams o.dst) → CallCase streams o
  | oversized {j : ℕ} {d : TcpStream} {p : Panic} : o.dst.toNat = j+1 → streams[j]? = some d →
      recvMessage ⟨d.input, [], none⟩ = .error p → CallCase streams o
  | returns {i j : ℕ} {s d : TcpStream} {r : Except IoError Message} {t : TcpStream} :
      o.src.toNat = i+1 → streams[i]? = some s → o.dst.toNat = j+1 → streams[j]? = some d →
      recvMessage ⟨d.input, [], none⟩ = .ok (r,t) → CallCase streams o

theorem call_cases (streams : List TcpStream) (o : TransferOrder) : CallCase streams o := by
  by_cases h : Known streams o.src ∧ Known streams o.dst
  · obtain ⟨i, s, hsrc, hs⟩ := known_index.mp h.1
    obtain ⟨j, d, hdst, hd⟩ := known_index.mp h.2
    rcases hr : recvMessage ⟨d.input, [], none⟩ with p | ⟨r, t⟩
    · exact .oversized hdst hd hr
    · exact .returns hsrc hs hdst hd hr
  · exact .unknown h

theorem unknown_panics {streams : List TcpStream} (hrel : Reliable streams) {o : TransferOrder}
    (h : ¬ (Known streams o.src ∧ Known streams o.dst)) :
    ∃ p, (transfer streams o.src o.dst o.amount).1 = .error p := by
  by_cases hsrc : Known streams o.src
  · obtain ⟨i, s, hid, hs⟩ := known_index.mp hsrc
    have hdst : ¬ Known (streams.set i (given s o)) o.dst := fun hk => h ⟨hsrc, by
      rwa [Known, List.length_set] at hk⟩
    obtain ⟨p, hp⟩ := account_fails hdst
    refine ⟨p, ?_⟩
    rw [transfer_of_src hid hs (hrel s (List.mem_of_getElem? hs)), receiveAck]
    simp only [hp]
  · obtain ⟨p, hp⟩ := account_fails hsrc
    refine ⟨p, ?_⟩
    rw [transfer]
    simp only [hp]

section Step

variable {streams : List TcpStream} {o : TransferOrder} {orders : List TransferOrder} {i j : ℕ}
  {s d t : TcpStream} {r : Except IoError Message}

theorem transferAll_panics {p : Panic} (h : (transfer streams o.src o.dst o.amount).1 = .error p)
    (orders : List TransferOrder) : (transferAll streams (o::orders)).1 = .error p := by
  rw [transferAll]
  rcases hc : transfer streams o.src o.dst o.amount with ⟨q | r, mid⟩
  · rw [hc] at h
    obtain rfl : q = p := Except.error.inj h
    rfl
  · rw [hc] at h
    cases h

theorem transferAll_goes_on {r : Except BankingError Unit}
    (h : (transfer streams o.src o.dst o.amount).1 = .ok r) (orders : List TransferOrder) :
    transferAll streams (o::orders) =
      ((transferAll (transfer streams o.src o.dst o.amount).2 orders).1.map (r :: ·),
        (transferAll (transfer streams o.src o.dst o.amount).2 orders).2) := by
  rw [transferAll]
  rcases hc : transfer streams o.src o.dst o.amount with ⟨q | r', mid⟩
  · rw [hc] at h
    cases h
  · rw [hc] at h
    obtain rfl := Except.ok.inj h
    rfl

theorem polls_afterCall (hdst : o.dst.toNat = j+1) (hd : streams[j]? = some d)
    (hr : recvMessage ⟨d.input, [], none⟩ = .ok (r,t)) {l : ℕ} {u : TcpStream}
    (hu : streams[l]? = some u) :
    polls (asked l (o::orders)) u.input =
      (polls (asked l orders) (afterCall o i j t.input l u).input).map fun x =>
        (if l = j then r::x.1 else x.1, x.2) := by
  rw [asked_cons, hdst, afterCall]
  by_cases hj : l = j
  · subst hj
    obtain rfl := Option.some.inj (hd.symm.trans hu)
    simp only [if_true]
    exact polls_succ hr
  · simp [hj, Ne.symm hj]

theorem Lane.cons (hsrc : o.src.toNat = i+1) (hdst : o.dst.toNat = j+1)
    (hd : streams[j]? = some d) (hr : recvMessage ⟨d.input, [], none⟩ = .ok (r,t)) {l : ℕ}
    {u v : TcpStream} (hu : streams[l]? = some u) {rs : List (Except BankingError Unit)}
    (h : Lane orders rs l (afterCall o i j t.input l u) v) :
    Lane (o::orders) (outcome r::rs) l u v := by
  obtain ⟨ps, hps, hans⟩ := h.answered
  constructor
  · rw [h.written, sentBy_cons, hsrc, afterCall]
    by_cases hi : l = i
    · subst hi
      simp [frames, frameCode]
    · simp [hi, Ne.symm hi]
  · refine ⟨if l = j then r::ps else ps, ?_, ?_⟩
    · rw [polls_afterCall hdst hd hr hu, hps]
      rfl
    · rw [answersTo_cons, hdst, hans]
      by_cases hj : l = j
      · subst hj
        simp
      · simp [hj, Ne.symm hj]

end Step

section Returns

variable {streams : List TcpStream} {o : TransferOrder} {orders : List TransferOrder} {i j : ℕ}
  {s d t : TcpStream} {r : Except IoError Message}

theorem reliable_next {mid : List TcpStream} {c : List UInt8}
    (hlen : mid.length = streams.length)
    (hmid : ∀ l u, streams[l]? = some u → mid[l]? = some (afterCall o i j c l u)) :
    Reliable mid := by
  intro v hv
  obtain ⟨l, hl⟩ := List.mem_iff_getElem?.mp hv
  have hlt := (List.getElem?_eq_some_iff.mp hl).1
  have hold : streams[l]? = some streams[l] := List.getElem?_eq_getElem (by omega)
  obtain rfl := Option.some.inj (hl.symm.trans (hmid l _ hold))
  rfl

theorem answering_next {mid : List TcpStream} (hlen : mid.length = streams.length)
    (hmid : ∀ l u, streams[l]? = some u → mid[l]? = some (afterCall o i j t.input l u))
    (hdst : o.dst.toNat = j+1) (hd : streams[j]? = some d)
    (hr : recvMessage ⟨d.input, [], none⟩ = .ok (r,t)) :
    Answering streams (o::orders) ↔ Answering mid orders := by
  constructor
  · intro h l v hv
    have hlt := (List.getElem?_eq_some_iff.mp hv).1
    have hold : streams[l]? = some streams[l] := List.getElem?_eq_getElem (by omega)
    have := h l _ hold
    rw [polls_afterCall (i := i) hdst hd hr hold, Option.isSome_map] at this
    obtain rfl := Option.some.inj (hv.symm.trans (hmid l _ hold))
    exact this
  · intro h l u hu
    rw [polls_afterCall (i := i) hdst hd hr hu, Option.isSome_map]
    exact h l _ (hmid l u hu)

theorem allKnown_cons : AllKnown streams (o::orders) ↔
    (Known streams o.src ∧ Known streams o.dst) ∧ AllKnown streams orders := by
  rw [AllKnown, List.forall_mem_cons]
  rfl

theorem allKnown_next {mid : List TcpStream} (hlen : mid.length = streams.length) :
    AllKnown mid orders ↔ AllKnown streams orders := by
  simp only [AllKnown, Known, hlen]

theorem not_answering (hdst : o.dst.toNat = j+1) (hd : streams[j]? = some d) {p : Panic}
    (hr : recvMessage ⟨d.input, [], none⟩ = .error p) : ¬ Answering streams (o::orders) := by
  intro h
  have := h j d hd
  rw [asked_cons, if_pos hdst, polls] at this
  simp [hr] at this

end Returns

def lateAck : List TcpStream :=
  [⟨[], [], none⟩, ⟨frame (.transfer (TransferOrder.mk 1 2 30).toBytes) ++ frame .ack, [], none⟩]

end CrabKeeper.TransferLanes
