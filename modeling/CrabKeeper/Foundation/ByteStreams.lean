import CrabKeeper.Foundation.Framing

/-!
# One direction of a byte stream

A writer hands a frame to the stream in pieces of its choice. The stream
delivers what it was given in pieces of its own, and the reader takes a value
as soon as the bytes delivered begin with one. Beside the bytes each message
leaves its label, which no byte carries. What is relevant of a stream is then a
queue of messages, and a beginning of the frame that is being written.
-/

set_option autoImplicit false

namespace Foundation.ByteStreams
open Foundation.Framing

/-- A message is a label beside a value, and only the value is written. -/
structure Wire (M L N B : Type) where
  tag : M ≃ L × N
  code : PrefixCode N B

structure Pipe (L B : Type) where
  written : ℕ
  flight : List B
  inbox : List B
  labels : List L

variable {M L N B : Type}

def Pipe.fresh : Pipe L B := ⟨0, [], [], []⟩

variable (W : Wire M L N B)

def Wire.label (m : M) : L := (W.tag m).1
def Wire.value (m : M) : N := (W.tag m).2
def Wire.bytes (m : M) : List B := W.code.encode (W.value m)

def Pipe.write (m : M) (k : ℕ) (x : Pipe L B) : Option (Bool × Pipe L B) :=
  if k = 0 then none
  else if x.written+k < (W.bytes m).length then
    some (false, { x with
      written := x.written+k, flight := x.flight ++ ((W.bytes m).drop x.written).take k })
  else if x.written+k = (W.bytes m).length then
    some (true, { x with
      written := 0, flight := x.flight ++ (W.bytes m).drop x.written,
      labels := x.labels ++ [W.label m] })
  else none

def Pipe.abandon (x : Pipe L B) : Pipe L B := { x with written := 0 }

def Pipe.deliver (k : ℕ) (x : Pipe L B) : Option (Pipe L B) :=
  if 0 < k ∧ k ≤ x.flight.length then
    some { x with flight := x.flight.drop k, inbox := x.inbox ++ x.flight.take k }
  else none

def Pipe.drain (x : Pipe L B) : Pipe L B := { x with flight := [], inbox := x.inbox ++ x.flight }

def Pipe.read (x : Pipe L B) : Option (M × Pipe L B) :=
  match W.code.decode x.inbox, x.labels with
  | some (n, rest), l::ls => some (W.tag.symm (l, n), { x with inbox := rest, labels := ls })
  | _, _ => none

def Pipe.dry (x : Pipe L B) : Bool := x.flight.isEmpty && (W.code.decode x.inbox).isNone

/-- What is still to be done before the frame that is being written has arrived:
a byte is written, and then delivered. -/
def Pipe.load (cur : Option M) (x : Pipe L B) : ℕ :=
  x.flight.length+2*cur.elim 0 fun m => (W.bytes m).length-x.written

/-- The stream stands for the queue `q`, while `cur` is being written to it. Of
a stream that is not read any more the bytes do not matter. -/
structure Carries (live : Prop) (cur : Option M) (x : Pipe L B) (q : List M) : Prop where
  valid : ∀ m ∈ cur, W.code.Valid (W.value m) ∧ x.written < (W.bytes m).length
  idle : cur = none → x.written = 0
  queued : live → ∀ m ∈ q, W.code.Valid (W.value m)
  labels : live → x.labels = q.map W.label
  bytes : live → x.inbox ++ x.flight = frames W.code (q.map W.value) ++
    cur.elim [] fun m => (W.bytes m).take x.written

variable {W} {live : Prop} {cur : Option M} {x y : Pipe L B} {q : List M} {m : M} {k : ℕ}

theorem bytes_pos (h : W.code.Valid (W.value m)) : 0 < (W.bytes m).length :=
  List.length_pos_iff.mpr (W.code.encode_ne_nil _ h)

theorem fresh_carries (h : ∀ m ∈ cur, W.code.Valid (W.value m)) :
    Carries W live cur (.fresh : Pipe L B) [] where
  valid m hm := ⟨h m hm, bytes_pos (h m hm)⟩
  idle _ := rfl
  queued _ _ hm := absurd hm List.not_mem_nil
  labels _ := rfl
  bytes _ := by cases cur <;> rfl

theorem Carries.mono (h : Carries W live cur x q) {live' : Prop} (himp : live' → live) :
    Carries W live' cur x q where
  valid := h.valid
  idle := h.idle
  queued hl := h.queued (himp hl)
  labels hl := h.labels (himp hl)
  bytes hl := h.bytes (himp hl)

theorem Carries.begins (h : Carries W live none x q)
    (hcur : ∀ m ∈ cur, W.code.Valid (W.value m)) : Carries W live cur x q where
  valid m hm := ⟨hcur m hm, by rw [h.idle rfl]; exact bytes_pos (hcur m hm)⟩
  idle _ := h.idle rfl
  queued := h.queued
  labels := h.labels
  bytes hl := by
    rw [h.bytes hl, h.idle rfl]
    cases cur <;> rfl

theorem Carries.write_part (h : Carries W live (some m) x q)
    (hw : x.write W m k = some (false, y)) : Carries W live (some m) y q := by
  unfold Pipe.write at hw
  split_ifs at hw with hk hlt
  · obtain ⟨_, rfl⟩ := Prod.mk.inj (Option.some.inj hw)
    refine ⟨?_, nofun, h.queued, h.labels, fun hl => ?_⟩
    · rintro m' hm'
      obtain rfl := Option.some.inj hm'
      exact ⟨(h.valid m rfl).1, hlt⟩
    · have hbytes := h.bytes hl
      simp only [Option.elim_some] at hbytes ⊢
      rw [← List.append_assoc, hbytes, List.append_assoc, List.take_add]
  · cases (Prod.mk.inj (Option.some.inj hw)).1

theorem Carries.write_whole (h : Carries W live (some m) x q)
    (hw : x.write W m k = some (true, y)) : Carries W live none y (q ++ [m]) := by
  unfold Pipe.write at hw
  split_ifs at hw with hk hlt heq
  · cases (Prod.mk.inj (Option.some.inj hw)).1
  · obtain ⟨_, rfl⟩ := Prod.mk.inj (Option.some.inj hw)
    refine ⟨nofun, fun _ => rfl, fun hl => ?_, fun hl => ?_, fun hl => ?_⟩
    · intro m' hm'
      rcases List.mem_append.mp hm' with hm' | hm'
      · exact h.queued hl m' hm'
      · obtain rfl := List.mem_singleton.mp hm'
        exact (h.valid m' rfl).1
    · simp [h.labels hl]
    · have hbytes := h.bytes hl
      simp only [Option.elim_some] at hbytes
      change x.inbox ++ (x.flight ++ (W.bytes m).drop x.written) = _
      rw [← List.append_assoc, hbytes, List.append_assoc, List.take_append_drop]
      simp [frames, Wire.bytes]

theorem load_write (hw : x.write W m k = some (false, y)) :
    y.load W (some m) < x.load W (some m) := by
  unfold Pipe.write at hw
  split_ifs at hw with hk hlt
  · obtain ⟨_, rfl⟩ := Prod.mk.inj (Option.some.inj hw)
    simp only [Pipe.load, Option.elim_some, List.length_append, List.length_take,
      List.length_drop]
    omega
  · cases (Prod.mk.inj (Option.some.inj hw)).1

theorem load_deliver (hd : x.deliver k = some y) : y.load W cur < x.load W cur := by
  unfold Pipe.deliver at hd
  split_ifs at hd with hk
  obtain rfl := Option.some.inj hd
  simp only [Pipe.load, List.length_drop]
  omega

theorem Carries.writes (h : Carries W live (some m) x q) :
    ∃ k y, x.write W m k = some (true, y) := by
  have hlt := (h.valid m rfl).2
  refine ⟨(W.bytes m).length-x.written, { x with
    written := 0, flight := x.flight ++ (W.bytes m).drop x.written,
    labels := x.labels ++ [W.label m] }, ?_⟩
  unfold Pipe.write
  rw [if_neg (by omega), if_neg (by omega), if_pos (by omega)]

theorem abandon_carries (hdead : ¬ live) (x : Pipe L B) (q : List M) :
    Carries W live none x.abandon q where
  valid := nofun
  idle _ := rfl
  queued hl := absurd hl hdead
  labels hl := absurd hl hdead
  bytes hl := absurd hl hdead

theorem Carries.deliver (h : Carries W live cur x q) (hd : x.deliver k = some y) :
    Carries W live cur y q := by
  unfold Pipe.deliver at hd
  split_ifs at hd
  obtain rfl := Option.some.inj hd
  refine ⟨h.valid, h.idle, h.queued, h.labels, fun hl => ?_⟩
  rw [← h.bytes hl]
  change x.inbox ++ x.flight.take k ++ x.flight.drop k = _
  rw [List.append_assoc, List.take_append_drop]

@[simp] theorem drain_drain (x : Pipe L B) : x.drain.drain = x.drain := by
  simp [Pipe.drain]

theorem drain_of_flight (h : x.flight = []) : x.drain = x := by
  obtain ⟨written, flight, inbox, labels⟩ := x
  obtain rfl : flight = [] := h
  simp [Pipe.drain]

theorem flight_of_drain (h : x.drain = x) : x.flight = [] := by
  rw [← h]
  rfl

theorem deliver_drain (h : x.flight ≠ []) : x.deliver x.flight.length = some x.drain := by
  unfold Pipe.deliver
  rw [if_pos ⟨List.length_pos_iff.mpr h, le_refl _⟩, List.take_length, List.drop_length]
  rfl

theorem deliver_of_drain (h : x.drain = x) : x.deliver k = none := by
  unfold Pipe.deliver
  rw [flight_of_drain h]
  exact if_neg fun hk => absurd hk.2 (Nat.not_le.mpr hk.1)

theorem Carries.drain (h : Carries W live cur x q) : Carries W live cur x.drain q := by
  by_cases hf : x.flight = []
  · rwa [drain_of_flight hf]
  · exact h.deliver (deliver_drain hf)

theorem decode_part (hm : W.code.Valid (W.value m)) {j : ℕ} (hj : j < (W.bytes m).length)
    {s t : List B} (h : s ++ t = (W.bytes m).take j) : W.code.decode s = none := by
  cases hd : W.code.decode s with
  | none => rfl
  | some p =>
    obtain ⟨hv, hs⟩ := (W.code.decode_iff _ p.1 p.2).mp hd
    have hsplit : W.bytes m ++ [] = W.code.encode p.1 ++ (p.2 ++ t ++ (W.bytes m).drop j) := by
      rw [List.append_nil, ← List.append_assoc, ← List.append_assoc, ← hs, h,
        List.take_append_drop]
    have hone := decode_encode W.code (W.value m) hm []
    have htwo := (W.code.decode_iff _ _ _).mpr ⟨hv, hsplit⟩
    have hnil := (Prod.mk.inj (Option.some.inj (hone.symm.trans htwo))).2
    have hlen := congrArg List.length hnil
    simp only [List.length_nil, List.length_append, List.length_drop] at hlen
    omega

theorem Carries.unread (h : Carries W live cur x []) (hl : live) :
    W.code.decode x.inbox = none := by
  have hbytes := h.bytes hl
  cases cur with
  | none =>
    obtain ⟨hin, _⟩ := List.append_eq_nil_iff.mp (hbytes.trans (by rfl))
    cases hd : W.code.decode x.inbox with
    | none => rfl
    | some p =>
      obtain ⟨hv, hs⟩ := (W.code.decode_iff _ p.1 p.2).mp hd
      rw [hin] at hs
      exact absurd (List.append_eq_nil_iff.mp hs.symm).1 (W.code.encode_ne_nil _ hv)
  | some m => exact decode_part (h.valid m rfl).1 (h.valid m rfl).2 hbytes

theorem Carries.decodes (h : Carries W live cur x q) (hl : live) {n : N} {rest : List B}
    (hd : W.code.decode x.inbox = some (n, rest)) :
    ∃ m ms, q = m::ms ∧ n = W.value m ∧ x.labels = W.label m::ms.map W.label ∧
      Carries W live cur { x with inbox := rest, labels := ms.map W.label } ms := by
  cases q with
  | nil =>
    rw [h.unread hl] at hd
    cases hd
  | cons m ms =>
    obtain ⟨hv, hin⟩ := (W.code.decode_iff _ _ _).mp hd
    have hm := h.queued hl m (by simp)
    have hbytes := h.bytes hl
    rw [List.map_cons, frames, List.flatMap_cons, List.append_assoc] at hbytes
    have hone := decode_encode W.code (W.value m) hm
      (frames W.code (ms.map W.value) ++ cur.elim [] fun m => (W.bytes m).take x.written)
    have htwo : W.code.decode (x.inbox ++ x.flight) = some (n, rest ++ x.flight) :=
      (W.code.decode_iff _ _ _).mpr ⟨hv, by rw [hin, List.append_assoc]⟩
    rw [hbytes] at htwo
    obtain ⟨hn, hrest⟩ := Prod.mk.inj (Option.some.inj (hone.symm.trans htwo))
    exact ⟨m, ms, rfl, hn.symm, h.labels hl, h.valid, h.idle,
      fun hl m' hm' => h.queued hl m' (List.mem_cons_of_mem m hm'), fun _ => rfl,
      fun _ => hrest.symm⟩

theorem Carries.remnant (h : Carries W live cur x q) (hl : live)
    (hd : W.code.decode x.inbox = none) :
    Remnant W.code ((q ++ cur.toList).map W.value) x.inbox := by
  have hbytes := h.bytes hl
  have hcut : x.inbox <+: frames W.code ((q ++ cur.toList).map W.value) := by
    cases cur with
    | none => exact ⟨x.flight, by simpa using hbytes⟩
    | some m =>
      refine ⟨x.flight ++ (W.bytes m).drop x.written, ?_⟩
      rw [← List.append_assoc, hbytes]
      simp [frames, Wire.bytes]
  have hvalid : ∀ n ∈ (q ++ cur.toList).map W.value, W.code.Valid n := by
    intro n hn
    obtain ⟨m, hm, rfl⟩ := List.mem_map.mp hn
    rcases List.mem_append.mp hm with hm | hm
    · exact h.queued hl m hm
    · exact (h.valid m (Option.mem_toList.mp hm)).1
  obtain ⟨j, t, hdec, hrem, _⟩ := decodes_cut W.code _ hvalid _ hcut
  revert hdec
  cases ((q ++ cur.toList).map W.value).take j with
  | nil =>
    intro hdec
    cases hdec
    exact hrem
  | cons n ns =>
    intro hdec
    cases hdec with
    | cons hone _ =>
      rw [hd] at hone
      cases hone

theorem Carries.read (h : Carries W live cur x q) (hl : live) (hr : x.read W = some (m, y)) :
    ∃ ms, q = m::ms ∧ Carries W live cur y ms := by
  unfold Pipe.read at hr
  split at hr
  · next n rest l ls hd hls =>
    obtain ⟨m', ms, hq, rfl, hlabels, hcarries⟩ := h.decodes hl hd
    obtain ⟨rfl, rfl⟩ := List.cons.inj (hls.symm.trans hlabels)
    obtain ⟨rfl, rfl⟩ := Prod.mk.inj (Option.some.inj hr)
    refine ⟨ms, hq.trans (congrArg (·::ms) ?_), hcarries⟩
    exact (W.tag.symm_apply_apply m').symm
  · cases hr

theorem Carries.reads (h : Carries W live cur x (m::q)) (hl : live) (hf : x.flight = []) :
    ∃ y, x.read W = some (m, y) := by
  have hbytes := h.bytes hl
  have hlabels := h.labels hl
  rw [hf, List.append_nil, List.map_cons, frames, List.flatMap_cons, List.append_assoc] at hbytes
  have hd := decode_encode W.code (W.value m) (h.queued hl m (by simp))
    (frames W.code (q.map W.value) ++ cur.elim [] fun m => (W.bytes m).take x.written)
  rw [frames, ← hbytes] at hd
  unfold Pipe.read
  rw [hd, hlabels]
  exact ⟨_, congrArg (fun m => some (m, _)) (W.tag.symm_apply_apply m)⟩

theorem Carries.dry_iff (h : Carries W live none x q) (hl : live) (hf : x.flight = []) :
    x.dry W = true ↔ q = [] := by
  unfold Pipe.dry
  rw [hf, List.isEmpty_nil, Bool.true_and, Option.isNone_iff_eq_none]
  constructor
  · intro hd
    cases q with
    | nil => rfl
    | cons m ms =>
      obtain ⟨y, hy⟩ := h.reads hl hf
      simp [Pipe.read, hd] at hy
  · rintro rfl
    exact h.unread hl

end Foundation.ByteStreams
