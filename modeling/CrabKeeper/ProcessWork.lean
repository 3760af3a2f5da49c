import CrabKeeper.Foundation.Network
import CrabKeeper.ChannelFraming

/-!
# `parent_work` and `child_work`

The parent spawns its children, accepts as many connections, and then goes three
times over the connections in the order it accepted them: it reads STARTED,
writes the work, reads DONE. Last it waits for the processes. Binding the
listener and finding the executable come before the first state.
-/

set_option autoImplicit false

namespace CrabKeeper.ProcessWork
open Foundation.Machine Foundation.Network
open CrabKeeper.MessageCodec CrabKeeper.ChannelFraming

/-- The `Box<dyn Error>` of both functions: an `io::Error`, or the `anyhow!`. -/
inductive WorkError where
  | io (e : IoError)
  | other (msg : String)
  deriving DecidableEq, Repr

inductive WorkPc where
  | spawn (i : ℕ)
  | accept (i : ℕ)
  | started (i : ℕ)
  | distribute (i : ℕ)
  | done (i : ℕ)
  | wait (i : ℕ)
  | returned (result : Except WorkError Unit)
  | panicked
  deriving DecidableEq

structure ParentWork (n : ℕ) where
  pc : WorkPc
  streams : List (Fin n)
  deriving DecidableEq

variable {n : ℕ}

def ParentWork.start (n : ℕ) : ParentWork n :=
  ⟨if n = 0 then .returned (.ok ()) else .spawn 0, []⟩

def ParentWork.goto (p : ParentWork n) (pc : WorkPc) : ParentWork n := { p with pc := pc }

def ParentWork.fail (p : ParentWork n) (e : WorkError) : ParentWork n :=
  p.goto (.returned (.error e))

/-- What a stage goes on to, or the error that `?` passes on. -/
def ParentWork.after (p : ParentWork n) (pc : WorkPc) : Except IoError Unit → ParentWork n
  | .error e => p.fail (.io e)
  | .ok _ => p.goto pc

def ParentWork.expect (p : ParentWork n) (expected : Message) (name : String) (pc : WorkPc) :
    Except IoError Message → ParentWork n
  | .error e => p.fail (.io e)
  | .ok msg =>
    if msg ≠ expected then p.fail (.other ("expected " ++ name ++ ", but got " ++ msg.display))
    else p.goto pc

abbrev WorkAction (n : ℕ) := ParentAction (Fin n) Message IoError (ParentWork n)

def acceptStream (p : ParentWork n) (i : ℕ) : Except IoError (Fin n) → ParentWork n
  | .error e => p.fail (.io e)
  | .ok c => { pc := .accept (i+1), streams := p.streams ++ [c] }

/-- `Message::Data(vec![idx as u8 + 1])`. -/
def workFor (idx : ℕ) : Checked Message := do
  let label ← addU8 (UInt8.ofNat idx) 1
  return .data [label]

def parentWork (p : ParentWork n) : WorkAction n :=
  match p.pc with
  | .spawn i =>
    if h : i < n then .spawn ⟨i, h⟩ (p.after (.spawn (i+1))) else .tau (p.goto (.accept 0))
  | .accept i => if i < n then .accept (acceptStream p i) else .tau (p.goto (.started 0))
  | .started i =>
    match p.streams[i]? with
    | some c => .recv c (p.expect .started "Started" (.started (i+1)))
    | none => .tau (p.goto (.distribute 0))
  | .distribute i =>
    match p.streams[i]? with
    | some c =>
      match workFor i with
      | .error _ => .tau (p.goto .panicked)
      | .ok work => .send c work (p.after (.distribute (i+1)))
    | none => .tau (p.goto (.done 0))
  | .done i =>
    match p.streams[i]? with
    | some c => .recv c (p.expect .done "Done" (.done (i+1)))
    | none => .tau (p.goto (.wait 0))
  | .wait i =>
    if h : i < n then .wait ⟨i, h⟩ (p.after (.wait (i+1))) else .tau (p.goto (.returned (.ok ())))
  | .returned _ | .panicked => .halt

inductive WorkPhase where
  | connect
  | started
  | work
  | done
  | returned (result : Except WorkError Unit)
  deriving DecidableEq

structure ChildWork where
  phase : WorkPhase
  sent : List Message
  received : List Message
  deriving DecidableEq

def ChildWork.start : ChildWork := ⟨.connect, [], []⟩

def ChildWork.fail (s : ChildWork) (e : IoError) : ChildWork :=
  { s with phase := .returned (.error (.io e)) }

def childWork (s : ChildWork) : ChildAction Message IoError ChildWork :=
  match s.phase with
  | .connect => .connect { s with phase := .started }
  | .started => .send .started fun
    | .error e => s.fail e
    | .ok _ => { s with phase := .work, sent := s.sent ++ [.started] }
  | .work => .recv fun
    | .error e => s.fail e
    | .ok work => { s with phase := .done, received := s.received ++ [work] }
  | .done => .send .done fun
    | .error e => s.fail e
    | .ok _ => { s with phase := .returned (.ok ()), sent := s.sent ++ [.done] }
  | .returned _ => .halt

/-- How far the parent is with one connection: nothing read, STARTED read, work
written, DONE read. -/
inductive Stage where
  | fresh
  | ready
  | working
  | finished
  deriving DecidableEq, Repr

/-- Where a pass over the connections has got to: `b` behind it, `a` ahead. -/
def swept (a b : Stage) (l : List (Fin n)) (i : ℕ) (j : Fin n) : Stage :=
  if j ∈ l.take i then b else a

def stageOf (p : ParentWork n) (j : Fin n) : Stage :=
  match p.pc with
  | .spawn _ | .accept _ | .panicked | .returned (.error _) => .fresh
  | .started i => swept .fresh .ready p.streams i j
  | .distribute i => swept .ready .working p.streams i j
  | .done i => swept .working .finished p.streams i j
  | .wait _ | .returned (.ok _) => .finished

def Accepted (p : ParentWork n) : Prop :=
  match p.pc with
  | .spawn i => i ≤ n ∧ p.streams = []
  | .accept i => i ≤ n ∧ p.streams.length = i
  | .started _ | .distribute _ | .done _ => p.streams.length = n
  | _ => True

def Unfailed (p : ParentWork n) : Prop :=
  match p.pc with
  | .panicked | .returned (.error _) => False
  | _ => True

theorem mem_streams {l : List (Fin n)} (hnd : l.Nodup) (hlen : l.length = n) (j : Fin n) :
    j ∈ l := by
  have hcard : l.toFinset.card = Fintype.card (Fin n) := by
    rw [List.toFinset_card_of_nodup hnd, hlen, Fintype.card_fin]
  have huniv := Finset.eq_univ_of_card _ hcard
  exact List.mem_toFinset.mp (huniv ▸ Finset.mem_univ j)

theorem swept_zero (a b : Stage) (l : List (Fin n)) (j : Fin n) : swept a b l 0 j = a := by
  rw [swept, List.take_zero, if_neg List.not_mem_nil]

theorem swept_all (a b : Stage) {l : List (Fin n)} {i : ℕ} (h : l[i]? = none) {j : Fin n}
    (hj : j ∈ l) : swept a b l i j = b := by
  rw [swept, List.take_of_length_le (List.getElem?_eq_none_iff.mp h), if_pos hj]

theorem swept_next (a b : Stage) {l : List (Fin n)} (hnd : l.Nodup) {i : ℕ} {c : Fin n}
    (hc : l[i]? = some c) :
    swept a b l i c = a ∧ swept a b l (i+1) c = b ∧
      ∀ j, j ≠ c → swept a b l (i+1) j = swept a b l i j := by
  have htake : l.take (i+1) = l.take i ++ [c] := by
    rw [List.take_add_one, hc, Option.toList_some]
  have hnot : c ∉ l.take i := fun hmem => by
    have := hnd.sublist (List.take_sublist (i+1) l)
    rw [htake] at this
    exact (List.nodup_append.mp this).2.2 c hmem c (by simp) rfl
  refine ⟨if_neg hnot, if_pos (by simp [htake]), fun j hj => ?_⟩
  simp [swept, htake, hj]

theorem stage_barrier {p : ParentWork n} {i j : Fin n}
    (h : stageOf p i = .working ∨ stageOf p i = .finished) : stageOf p j ≠ .fresh := by
  obtain ⟨pc, l⟩ := p
  cases pc with
  | spawn | accept | panicked => simp [stageOf] at h
  | started k =>
    simp only [stageOf, swept] at h
    split_ifs at h <;> simp at h
  | distribute k | done k =>
    simp only [stageOf, swept]
    split_ifs <;> simp
  | wait => simp [stageOf]
  | returned r =>
    cases r with
    | error e => simp [stageOf] at h
    | ok u => simp [stageOf]

theorem workFor_eq_ok {idx : ℕ} {work : Message} :
    workFor idx = .ok work ↔ idx%256 < 255 ∧ work = .data [UInt8.ofNat (idx+1)] := by
  have hval : (UInt8.ofNat idx).toNat = idx%256 := UInt8.toNat_ofNat'
  have hnext : (UInt8.ofNat (idx+1)).toNat = (idx+1)%256 := UInt8.toNat_ofNat'
  rw [workFor, bind_eq_ok]
  constructor
  · rintro ⟨label, hadd, h⟩
    obtain rfl := Except.ok.inj h
    have hlt := UInt8.toNat_lt label
    rw [addU8_eq_ok, hval, UInt8.toNat_one] at hadd
    refine ⟨by omega, ?_⟩
    congr 2
    rw [← UInt8.toNat_inj, hadd, hnext]
    omega
  · rintro ⟨h, rfl⟩
    refine ⟨UInt8.ofNat (idx+1), addU8_eq_ok.mpr ?_, rfl⟩
    rw [hval, hnext, UInt8.toNat_one]
    omega

theorem workFor_eq {idx : ℕ} (h : idx < 255) : workFor idx = .ok (.data [UInt8.ofNat (idx+1)]) :=
  workFor_eq_ok.mpr ⟨by omega, rfl⟩

/-- What the parent does in each of its positions, and why it is there. -/
inductive Does (p : ParentWork n) : WorkAction n → Prop
  | spawn (i : ℕ) (hi : i < n) : p.pc = .spawn i →
      Does p (.spawn ⟨i, hi⟩ (p.after (.spawn (i+1))))
  | spawned (i : ℕ) : n ≤ i → p.pc = .spawn i → Does p (.tau (p.goto (.accept 0)))
  | accept (i : ℕ) : i < n → p.pc = .accept i → Does p (.accept (acceptStream p i))
  | accepted (i : ℕ) : n ≤ i → p.pc = .accept i → Does p (.tau (p.goto (.started 0)))
  | started (i : ℕ) (c : Fin n) : p.streams[i]? = some c → p.pc = .started i →
      Does p (.recv c (p.expect .started "Started" (.started (i+1))))
  | allStarted (i : ℕ) : p.streams[i]? = none → p.pc = .started i →
      Does p (.tau (p.goto (.distribute 0)))
  | distribute (i : ℕ) (c : Fin n) (work : Message) : p.streams[i]? = some c →
      workFor i = .ok work → p.pc = .distribute i →
      Does p (.send c work (p.after (.distribute (i+1))))
  | overflow (i : ℕ) (c : Fin n) (e : Panic) : p.streams[i]? = some c → workFor i = .error e →
      p.pc = .distribute i → Does p (.tau (p.goto .panicked))
  | distributed (i : ℕ) : p.streams[i]? = none → p.pc = .distribute i →
      Does p (.tau (p.goto (.done 0)))
  | done (i : ℕ) (c : Fin n) : p.streams[i]? = some c → p.pc = .done i →
      Does p (.recv c (p.expect .done "Done" (.done (i+1))))
  | allDone (i : ℕ) : p.streams[i]? = none → p.pc = .done i → Does p (.tau (p.goto (.wait 0)))
  | wait (i : ℕ) (hi : i < n) : p.pc = .wait i → Does p (.wait ⟨i, hi⟩ (p.after (.wait (i+1))))
  | waited (i : ℕ) : n ≤ i → p.pc = .wait i → Does p (.tau (p.goto (.returned (.ok ()))))
  | returned (r : Except WorkError Unit) : p.pc = .returned r → Does p .halt
  | panicked : p.pc = .panicked → Does p .halt

theorem parentWork_does (p : ParentWork n) : Does p (parentWork p) := by
  unfold parentWork
  split
  case h_1 i hpc =>
    split_ifs with hi
    · exact .spawn i hi hpc
    · exact .spawned i (by omega) hpc
  case h_2 i hpc =>
    split_ifs with hi
    · exact .accept i hi hpc
    · exact .accepted i (by omega) hpc
  case h_3 i hpc =>
    split
    · exact .started i _ ‹_› hpc
    · exact .allStarted i ‹_› hpc
  case h_4 i hpc =>
    split
    · split
      · exact .overflow i _ _ ‹_› ‹_› hpc
      · exact .distribute i _ _ ‹_› ‹_› hpc
    · exact .distributed i ‹_› hpc
  case h_5 i hpc =>
    split
    · exact .done i _ ‹_› hpc
    · exact .allDone i ‹_› hpc
  case h_6 i hpc =>
    split_ifs with hi
    · exact .wait i hi hpc
    · exact .waited i (by omega) hpc
  case h_7 r hpc => exact .returned r hpc
  case h_8 hpc => exact .panicked hpc

theorem Does.eq {p : ParentWork n} {a : WorkAction n} (h : parentWork p = a) : Does p a :=
  h ▸ parentWork_does p

theorem after_rule {Q : ParentWork n → Prop} {p : ParentWork n} {pc : WorkPc}
    (hfail : ∀ e, Q (p.fail e)) (hok : Q (p.goto pc)) (r : Except IoError Unit) :
    Q (p.after pc r) := by
  cases r with
  | error e => exact hfail (.io e)
  | ok u => exact hok

theorem expect_rule {Q : ParentWork n → Prop} {p : ParentWork n} {pc : WorkPc}
    (hfail : ∀ e, Q (p.fail e)) (hok : Q (p.goto pc)) (expected : Message) (name : String)
    (r : Except IoError Message) : Q (p.expect expected name pc r) := by
  cases r with
  | error e => exact hfail (.io e)
  | ok msg =>
    unfold ParentWork.expect
    dsimp only
    split_ifs
    · exact hfail _
    · exact hok

@[simp] theorem after_streams (p : ParentWork n) (pc : WorkPc) (r : Except IoError Unit) :
    (p.after pc r).streams = p.streams := by
  apply after_rule (Q := fun q => q.streams = p.streams) (fun _ => rfl)
  rfl

@[simp] theorem expect_streams (p : ParentWork n) (expected : Message) (name : String) (pc : WorkPc)
    (r : Except IoError Message) : (p.expect expected name pc r).streams = p.streams := by
  apply expect_rule (Q := fun q => q.streams = p.streams) (fun _ => rfl)
  rfl

theorem Does.streams {p : ParentWork n} {a : WorkAction n} (h : Does p a)
    (hna : ∀ next, a ≠ .accept next) : a.All fun q => q.streams = p.streams := by
  cases h with
  | accept => exact absurd rfl (hna _)
  | spawn | distribute | wait => exact fun r => after_streams p _ r
  | started | done => exact fun r => expect_streams p _ _ _ r
  | spawned | accepted | allStarted | overflow | distributed | allDone | waited => exact rfl
  | returned | panicked => trivial

theorem accepted_next {p : ParentWork n} {a : WorkAction n} (h : Does p a) (hacc : Accepted p) :
    a.All Accepted := by
  unfold Accepted at hacc
  cases h with
  | spawn i hi hpc =>
    rw [hpc] at hacc
    exact after_rule (fun _ => trivial) ⟨hi, hacc.2⟩
  | spawned i hi hpc =>
    rw [hpc] at hacc
    exact ⟨Nat.zero_le n, congrArg List.length hacc.2⟩
  | accept i hi hpc =>
    rw [hpc] at hacc
    rintro (e | c)
    · trivial
    · refine ⟨hi, ?_⟩
      rw [acceptStream, List.length_append, List.length_singleton, hacc.2]
  | accepted i hi hpc =>
    rw [hpc] at hacc
    show p.streams.length = n
    omega
  | started i c hc hpc | done i c hc hpc =>
    rw [hpc] at hacc
    exact expect_rule (fun _ => trivial) hacc _ _
  | distribute i c work hc hwork hpc =>
    rw [hpc] at hacc
    exact after_rule (fun _ => trivial) hacc
  | allStarted i hc hpc | distributed i hc hpc =>
    rw [hpc] at hacc
    exact hacc
  | wait => exact after_rule (fun _ => trivial) trivial
  | overflow | allDone | waited | returned | panicked => trivial

theorem safe_next (hn : n ≤ 255) {p : ParentWork n} {a : WorkAction n} (h : Does p a)
    (hacc : Accepted p) : a.All fun q => q.pc ≠ .panicked := by
  have hfail : ∀ e, (p.fail e).pc ≠ .panicked := fun e => by simp [ParentWork.fail, ParentWork.goto]
  cases h with
  | overflow i c e hc hwork hpc =>
    rw [Accepted, hpc] at hacc
    have hi := (List.getElem?_eq_some_iff.mp hc).1
    rw [workFor_eq (by omega)] at hwork
    cases hwork
  | spawn | distribute | wait =>
    intro r
    apply after_rule (Q := fun q => q.pc ≠ .panicked) hfail
    simp [ParentWork.goto]
  | started | done =>
    intro r
    apply expect_rule (Q := fun q => q.pc ≠ .panicked) hfail
    simp [ParentWork.goto]
  | accept => rintro (e | c) <;> simp [acceptStream, ParentWork.fail, ParentWork.goto]
  | spawned | accepted | allStarted | distributed | allDone | waited =>
    simp [ParentAction.All, ParentWork.goto]
  | returned | panicked => trivial

theorem Does.unfailed {p : ParentWork n} {a : WorkAction n} (h : Does p a)
    (ha : a.halted = false) : Unfailed p := by
  unfold Unfailed
  cases h with
  | returned | panicked => cases ha
  | spawn _ _ hpc | spawned _ _ hpc | accept _ _ hpc | accepted _ _ hpc | started _ _ _ hpc
  | allStarted _ _ hpc | distribute _ _ _ _ _ hpc | overflow _ _ _ _ _ hpc | distributed _ _ hpc
  | done _ _ _ hpc | allDone _ _ hpc | wait _ _ hpc | waited _ _ hpc =>
    rw [hpc]
    trivial

end CrabKeeper.ProcessWork
