import CrabKeeper.ChannelFraming
import CrabKeeper.Foundation.Dialogue

/-!
# Turns on a TCP stream

What a party says on a stream and hears from it, as bytes: a stream plays its
part in some turns exactly if its input begins with the frames of what is heard
and it has room for the frames of what is said.
-/

set_option autoImplicit false

namespace CrabKeeper.StreamTurns
open Foundation.Machine Foundation.Framing Foundation.Dialogue
open CrabKeeper.MessageCodec CrabKeeper.ChannelFraming

def tcp : Port TcpStream Message IoError Panic where
  send := sendMessage
  recv := recvMessage

def said : List (Turn Message) → List Message
  | [] => []
  | .sent m::l => m :: said l
  | .got _::l => said l

def heardIn : List (Turn Message) → List Message
  | [] => []
  | .sent _::l => heardIn l
  | .got m::l => m :: heardIn l

/-- A stream before and after some turns on it: it has held the frames of what was
heard, and taken the frames of what was said. -/
structure Plays (s : TcpStream) (turns : List (Turn Message)) (t : TcpStream) : Prop where
  fits : ∀ m ∈ heardIn turns, Message.Fits m
  read : s.input = frames frameCode (heardIn turns) ++ t.input
  written : t.output = s.output ++ frames frameCode (said turns)
  room : ∀ k, s.room = some k → (frames frameCode (said turns)).length ≤ k
  left : t.room = s.room.map (· - (frames frameCode (said turns)).length)

theorem send_eq_ok {s t : TcpStream} {m : Message} :
    sendMessage s m = (.ok (), t) ↔ (∀ k, s.room = some k → (frame m).length ≤ k) ∧
      t = { s with output := s.output ++ frame m, room := s.room.map (· - (frame m).length) } := by
  constructor
  · intro h
    by_cases hroom : ∀ k, s.room = some k → (frame m).length ≤ k
    · rw [send_takes hroom] at h
      exact ⟨hroom, (Prod.mk.inj h).2.symm⟩
    · simp only [not_forall, Nat.not_le] at hroom
      obtain ⟨k, hk, hlt⟩ := hroom
      rw [send_breaks hk hlt] at h
      cases (Prod.mk.inj h).1
  · rintro ⟨hroom, rfl⟩
    exact send_takes hroom

theorem frames_cons (m : Message) (ms : List Message) :
    frames frameCode (m::ms) = frame m ++ frames frameCode ms := rfl

theorem plays_nil {s t : TcpStream} : Plays s [] t ↔ s = t := by
  constructor
  · rintro ⟨_, hread, hwritten, _, hleft⟩
    obtain ⟨input, output, room⟩ := s
    obtain ⟨input', output', room'⟩ := t
    simp_all [heardIn, said, frames]
  · rintro rfl
    exact ⟨by simp [heardIn], rfl, (List.append_nil _).symm, fun k _ => Nat.zero_le k,
      Option.map_id'.symm⟩

theorem plays_sent {s u : TcpStream} {m : Message} {l : List (Turn Message)}
    (hs : ∀ k, s.room = some k → (frame m).length ≤ k) :
    Plays s (.sent m::l) u ↔ Plays { s with
      output := s.output ++ frame m, room := s.room.map (· - (frame m).length) } l u := by
  have hcut : (∀ k, s.room = some k → (frame m ++ frames frameCode (said l)).length ≤ k) ↔
      ∀ k, s.room.map (· - (frame m).length) = some k → (frames frameCode (said l)).length ≤ k := by
    cases hr : s.room with
    | none => simp
    | some k =>
      have := hs k hr
      simp only [Option.map_some, Option.some.injEq, forall_eq', List.length_append]
      omega
  have hmap : s.room.map (· - (frame m ++ frames frameCode (said l)).length) =
      (s.room.map (· - (frame m).length)).map (· - (frames frameCode (said l)).length) := by
    rw [Option.map_map, List.length_append]
    congr 1
    funext k
    exact Nat.sub_add_eq k _ _
  constructor
  · rintro ⟨hfits, hread, hwritten, hroom, hleft⟩
    exact ⟨hfits, hread, hwritten.trans (List.append_assoc _ _ _).symm, hcut.mp hroom,
      hleft.trans hmap⟩
  · rintro ⟨hfits, hread, hwritten, hroom, hleft⟩
    exact ⟨hfits, hread, hwritten.trans (List.append_assoc _ _ _), hcut.mpr hroom,
      hleft.trans hmap.symm⟩

theorem plays_got {s u : TcpStream} {m : Message} {l : List (Turn Message)} :
    Plays s (.got m::l) u ↔ Message.Fits m ∧ ∃ rest, s.input = frame m ++ rest ∧
      Plays { s with input := rest } l u := by
  constructor
  · rintro ⟨hfits, hread, hwritten, hroom, hleft⟩
    obtain ⟨hm, hfits⟩ := List.forall_mem_cons.mp hfits
    exact ⟨hm, _, hread.trans (List.append_assoc _ _ _), hfits, rfl, hwritten, hroom, hleft⟩
  · rintro ⟨hm, rest, hin, hfits, hread, hwritten, hroom, hleft⟩
    refine ⟨List.forall_mem_cons.mpr ⟨hm, hfits⟩, ?_, hwritten, hroom, hleft⟩
    rw [hin, show rest = _ from hread]
    exact (List.append_assoc _ _ _).symm

theorem Plays.roomy {s u : TcpStream} {m : Message} {l : List (Turn Message)}
    (h : Plays s (.sent m::l) u) (k : ℕ) (hk : s.room = some k) : (frame m).length ≤ k := by
  have := h.room k hk
  rw [said, frames_cons, List.length_append] at this
  omega

theorem serves_iff {s t : TcpStream} {l : List (Turn Message)} :
    Serves tcp s l t ↔ Plays s l t := by
  induction l generalizing s with
  | nil => rw [serves_nil_iff, plays_nil]
  | cons x l ih =>
    cases x with
    | sent m =>
      constructor
      · rintro (_ | ⟨hsend, hl⟩ | _)
        obtain ⟨hroom, rfl⟩ := send_eq_ok.mp hsend
        exact (plays_sent hroom).mpr (ih.mp hl)
      · intro h
        exact .sent (send_eq_ok.mpr ⟨h.roomy, rfl⟩) (ih.mpr ((plays_sent h.roomy).mp h))
    | got m =>
      constructor
      · rintro (_ | _ | ⟨hrecv, hl⟩)
        obtain ⟨hm, rest, hin, rfl⟩ := recv_eq_ok.mp hrecv
        exact plays_got.mpr ⟨hm, rest, hin, ih.mp hl⟩
      · intro h
        obtain ⟨hm, rest, hin, hl⟩ := plays_got.mp h
        exact .got (recv_eq_ok.mpr ⟨hm, rest, hin, rfl⟩) (ih.mpr hl)

end CrabKeeper.StreamTurns
