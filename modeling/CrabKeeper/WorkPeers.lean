import CrabKeeper.Foundation.Transition
import CrabKeeper.ProcessWork

/-!
# `parent_work` against arbitrary peers

The same parent over byte streams. Whatever bytes the accepted connections
deliver, wherever they end or stop taking bytes, and whichever of the process
and listener calls fail: the parent writes nothing before it has read STARTED
from every connection, and returns Ok only after the whole exchange.
-/

set_option autoImplicit false

namespace CrabKeeper.WorkPeers
open Foundation.Machine Foundation.Transition Foundation.Network
open CrabKeeper.MessageCodec CrabKeeper.ChannelFraming CrabKeeper.ProcessWork

variable {n : ℕ}

structure Host (n : ℕ) where
  work : ParentWork n
  conn : Fin n → TcpStream

/-- What the environment decides: which connection comes next, and which calls
for a process or a connection fail. -/
inductive Choice (n : ℕ) where
  | go
  | accept (c : Fin n)
  | fail (e : IoError)

def Host.fire : Choice n → Host n → Option (Host n)
  | .go, h =>
    match parentWork h.work with
    | .spawn _ next | .wait _ next => some { h with work := next (.ok ()) }
    | .send c m next =>
      let (r, s) := sendMessage (h.conn c) m
      some ⟨next r, Function.update h.conn c s⟩
    | .recv c next =>
      match recvMessage (h.conn c) with
      | .error _ => some { h with work := h.work.goto .panicked }
      | .ok (r, s) => some ⟨next r, Function.update h.conn c s⟩
    | .tau next => some { h with work := next }
    | .accept _ | .halt => none
  | .accept c, h =>
    match parentWork h.work with
    | .accept next =>
      if h.work.streams.contains c then none else some { h with work := next (.ok c) }
    | _ => none
  | .fail e, h =>
    match parentWork h.work with
    | .spawn _ next | .wait _ next => some { h with work := next (.error e) }
    | .accept next => some { h with work := next (.error e) }
    | _ => none

def Delivering (inp : Fin n → List UInt8) (h : Host n) : Prop :=
  h.work = .start n ∧ ∀ k, (h.conn k).input = inp k ∧ (h.conn k).output = []

def hostSystem (inp : Fin n → List UInt8) : System (Host n) := ofMoves (Delivering inp) Host.fire

inductive HostMove (h : Host n) : Host n → Prop
  | process {i : Fin n} {next : Except IoError Unit → ParentWork n} (r : Except IoError Unit) :
      parentWork h.work = .spawn i next ∨ parentWork h.work = .wait i next →
      HostMove h { h with work := next r }
  | accepted {next : Except IoError (Fin n) → ParentWork n} (c : Fin n) :
      parentWork h.work = .accept next → c ∉ h.work.streams →
      HostMove h { h with work := next (.ok c) }
  | refused {next : Except IoError (Fin n) → ParentWork n} (e : IoError) :
      parentWork h.work = .accept next → HostMove h { h with work := next (.error e) }
  | send {c : Fin n} {m : Message} {next : Except IoError Unit → ParentWork n}
      (r : Except IoError Unit) (s : TcpStream) : parentWork h.work = .send c m next →
      sendMessage (h.conn c) m = (r,s) → HostMove h ⟨next r, Function.update h.conn c s⟩
  | recv {c : Fin n} {next : Except IoError Message → ParentWork n} (r : Except IoError Message)
      (s : TcpStream) : parentWork h.work = .recv c next →
      recvMessage (h.conn c) = .ok (r,s) → HostMove h ⟨next r, Function.update h.conn c s⟩
  | capacity {c : Fin n} {next : Except IoError Message → ParentWork n} (e : Panic) :
      parentWork h.work = .recv c next → recvMessage (h.conn c) = .error e →
      HostMove h { h with work := h.work.goto .panicked }
  | tau {next : ParentWork n} : parentWork h.work = .tau next → HostMove h { h with work := next }

theorem hostMove_of_fire {a : Choice n} {h k : Host n} (hf : h.fire a = some k) : HostMove h k := by
  cases a with
  | go =>
    simp only [Host.fire] at hf
    split at hf
    case h_1 i next ha =>
      cases hf
      exact .process _ (Or.inl ha)
    case h_2 i next ha =>
      cases hf
      exact .process _ (Or.inr ha)
    case h_3 c m next ha =>
      cases hf
      exact .send _ _ ha rfl
    case h_4 c next ha =>
      split at hf <;> cases hf
      · exact .capacity _ ha ‹_›
      · exact .recv _ _ ha ‹_›
    case h_5 next ha =>
      cases hf
      exact .tau ha
    case h_6 => cases hf
    case h_7 => cases hf
  | accept c =>
    simp only [Host.fire] at hf
    split at hf
    case h_1 next ha =>
      split_ifs at hf with hc
      cases hf
      exact .accepted c ha (by simpa using hc)
    case h_2 => cases hf
  | fail e =>
    simp only [Host.fire] at hf
    split at hf
    case h_1 i next ha =>
      cases hf
      exact .process _ (Or.inl ha)
    case h_2 i next ha =>
      cases hf
      exact .process _ (Or.inr ha)
    case h_3 next ha =>
      cases hf
      exact .refused e ha
    case h_4 => cases hf

/-- What each stage of a connection says of the bytes read from it and written
to it. -/
def Exchanged (st : Stage) (b : List UInt8) (s : TcpStream) : Prop :=
  match st with
  | .fresh => s.input = b ∧ s.output = []
  | .ready => b = frame .started ++ s.input ∧ s.output = []
  | .working => b = frame .started ++ s.input ∧ ∃ w, s.output = frame (.data w)
  | .finished => b = frame .started ++ (frame .done ++ s.input) ∧ ∃ w, s.output = frame (.data w)

/-- Nothing is written, or a STARTED frame has been read from every connection. -/
def Guarded (inp : Fin n → List UInt8) (conn : Fin n → TcpStream) : Prop :=
  (∀ j, (conn j).output = []) ∨
    ∀ j, ∃ c, inp j = frame .started ++ c ∧ (conn j).input <:+ c

structure Peers (inp : Fin n → List UInt8) (h : Host n) : Prop where
  nodup : h.work.streams.Nodup
  accepted : Accepted h.work
  exchanged : Unfailed h.work → ∀ j, Exchanged (stageOf h.work j) (inp j) (h.conn j)
  guarded : Guarded inp h.conn

variable {inp : Fin n → List UInt8} {b : List UInt8} {s t : TcpStream}

theorem Exchanged.take_started (h : Exchanged .fresh b s)
    (hr : recvMessage s = .ok (.ok .started, t)) : Exchanged .ready b t := by
  obtain ⟨_, rest, hin, rfl⟩ := recv_eq_ok.mp hr
  exact ⟨h.1 ▸ hin, h.2⟩

theorem Exchanged.assign {w : List UInt8} (h : Exchanged .ready b s)
    (hr : sendMessage s (.data w) = (.ok (), t)) : Exchanged .working b t := by
  refine ⟨?_, w, ?_⟩
  · rw [send_input hr]
    exact h.1
  · rw [send_ok hr, h.2, List.nil_append]

theorem Exchanged.take_done (h : Exchanged .working b s)
    (hr : recvMessage s = .ok (.ok .done, t)) : Exchanged .finished b t := by
  obtain ⟨_, rest, hin, rfl⟩ := recv_eq_ok.mp hr
  exact ⟨hin ▸ h.1, h.2⟩

theorem Exchanged.suffix {st : Stage} (h : Exchanged st b s) (hst : st ≠ .fresh) :
    ∃ c, b = frame .started ++ c ∧ s.input <:+ c := by
  cases st with
  | fresh => exact absurd rfl hst
  | ready | working => exact ⟨_, h.1, List.suffix_rfl⟩
  | finished => exact ⟨_, h.1, List.suffix_append _ _⟩

theorem Guarded.recv {conn : Fin n → TcpStream} (h : Guarded inp conn) {c : Fin n}
    {r : Except IoError Message} (hr : recvMessage (conn c) = .ok (r,t)) :
    Guarded inp (Function.update conn c t) := by
  obtain ⟨hsuf, hout⟩ := recv_suffix hr
  rcases h with h | h
  · refine Or.inl fun j => ?_
    by_cases hj : j = c
    · subst hj
      rw [Function.update_self, hout, h j]
    · rw [Function.update_of_ne hj, h j]
  · refine Or.inr fun j => ?_
    by_cases hj : j = c
    · subst hj
      obtain ⟨d, hd, hs⟩ := h j
      rw [Function.update_self]
      exact ⟨d, hd, hsuf.trans hs⟩
    · rw [Function.update_of_ne hj]
      exact h j

theorem Guarded.send {conn : Fin n → TcpStream} {st : Fin n → Stage}
    (hex : ∀ j, Exchanged (st j) (inp j) (conn j)) (hst : ∀ j, st j ≠ .fresh) {c : Fin n}
    {m : Message} {r : Except IoError Unit} (hr : sendMessage (conn c) m = (r,t)) :
    Guarded inp (Function.update conn c t) := by
  refine Or.inr fun j => ?_
  by_cases hj : j = c
  · subst hj
    rw [Function.update_self, send_input hr]
    exact (hex j).suffix (hst j)
  · rw [Function.update_of_ne hj]
    exact (hex j).suffix (hst j)

theorem Peers.failed {h : Host n} (hp : Peers inp h) {pc : WorkPc}
    (hpc : pc = .panicked ∨ ∃ e, pc = .returned (.error e)) {conn : Fin n → TcpStream}
    (hg : Guarded inp conn) : Peers inp ⟨h.work.goto pc, conn⟩ := by
  refine ⟨hp.nodup, ?_, fun hun => ?_, hg⟩
  · rcases hpc with rfl | ⟨e, rfl⟩ <;> trivial
  · rcases hpc with rfl | ⟨e, rfl⟩
    · exact hun.elim
    · exact hun.elim

theorem exchanged_next (a b : Stage) {l : List (Fin n)} (hnd : l.Nodup) {i : ℕ} {c : Fin n}
    (hc : l[i]? = some c) {conn : Fin n → TcpStream}
    (hex : ∀ j, Exchanged (swept a b l i j) (inp j) (conn j))
    (hstep : Exchanged a (inp c) (conn c) → Exchanged b (inp c) t) :
    ∀ j, Exchanged (swept a b l (i+1) j) (inp j) (Function.update conn c t j) := by
  obtain ⟨hold, hnew, hrest⟩ := swept_next a b hnd hc
  intro j
  by_cases hj : j = c
  · subst hj
    rw [hnew, Function.update_self]
    have := hex j
    rw [hold] at this
    exact hstep this
  · rw [hrest j hj, Function.update_of_ne hj]
    exact hex j

theorem exchanged_all {a b : Stage} {l : List (Fin n)} (hnd : l.Nodup) (hlen : l.length = n) {i : ℕ}
    (hnone : l[i]? = none) {conn : Fin n → TcpStream}
    (hex : ∀ j, Exchanged (swept a b l i j) (inp j) (conn j)) (j : Fin n) :
    Exchanged b (inp j) (conn j) := by
  have := hex j
  rwa [swept_all a b hnone (mem_streams hnd hlen j)] at this

theorem Peers.expect {h : Host n} (hp : Peers inp h) (pc : WorkPc) {a b : Stage} {i : ℕ} {c : Fin n}
    (hc : h.work.streams[i]? = some c) (hacc : Accepted (h.work.goto pc))
    (hex : ∀ j, Exchanged (swept a b h.work.streams i j) (inp j) (h.conn j))
    (hpc : stageOf (h.work.goto pc) = swept a b h.work.streams (i+1))
    {r : Except IoError Message} (hr : recvMessage (h.conn c) = .ok (r,t)) {expected : Message}
    (hstep : Exchanged a (inp c) (h.conn c) → r = .ok expected → Exchanged b (inp c) t)
    {name : String} :
    Peers inp ⟨h.work.expect expected name pc r, Function.update h.conn c t⟩ := by
  have hg := hp.guarded.recv hr
  cases r with
  | error e => exact hp.failed (Or.inr ⟨_, rfl⟩) hg
  | ok m =>
    unfold ParentWork.expect
    by_cases hm : m = expected
    · subst hm
      simp only [ne_eq, not_true_eq_false, if_false]
      refine ⟨hp.nodup, hacc, fun _ => ?_, hg⟩
      rw [hpc]
      exact exchanged_next a b hp.nodup hc hex fun h => hstep h rfl
    · simp only [ne_eq, hm, not_false_eq_true, if_true]
      exact hp.failed (Or.inr ⟨_, rfl⟩) hg

/-- The step lemma, one case for each kind of move and each position in which
the parent makes it. -/
theorem peers_step (hn : n ≤ 255) {h k : Host n} (hp : Peers inp h) (hm : HostMove h k) :
    Peers inp k := by
  have hnd := hp.nodup
  have hacc := hp.accepted
  have hex := hp.exchanged
  have hg := hp.guarded
  cases hm with
  | process r ha =>
    rcases ha with ha | ha
    · cases Does.eq ha with
      | spawn i hi hpc =>
        cases r with
        | error e => exact hp.failed (Or.inr ⟨_, rfl⟩) hg
        | ok u =>
          have hex := hex ((Does.eq ha).unfailed rfl)
          simp only [Accepted, stageOf, hpc] at hacc hex
          exact ⟨hnd, ⟨hi, hacc.2⟩, fun _ => hex, hg⟩
    · cases Does.eq ha with
      | wait i hi hpc =>
        cases r with
        | error e => exact hp.failed (Or.inr ⟨_, rfl⟩) hg
        | ok u =>
          have hex := hex ((Does.eq ha).unfailed rfl)
          simp only [stageOf, hpc] at hex
          exact ⟨hnd, trivial, fun _ => hex, hg⟩
  | accepted c ha hc =>
    cases Does.eq ha with
    | accept i hi hpc =>
      have hex := hex ((Does.eq ha).unfailed rfl)
      simp only [Accepted, stageOf, hpc] at hacc hex
      refine ⟨?_, ⟨hi, ?_⟩, fun _ => hex, hg⟩
      · exact List.nodup_append.mpr ⟨hnd, List.nodup_singleton c, fun x hx y hy hxy => by
          rw [List.mem_singleton.mp hy] at hxy
          exact hc (hxy ▸ hx)⟩
      · simp [acceptStream, hacc.2]
  | refused e ha =>
    cases Does.eq ha with
    | accept i hi hpc => exact hp.failed (Or.inr ⟨_, rfl⟩) hg
  | send r s ha hs =>
    cases Does.eq ha with
    | distribute i c work hc hwork hpc =>
      have hex := hex ((Does.eq ha).unfailed rfl)
      simp only [Accepted, stageOf, hpc] at hacc hex
      have hg' := Guarded.send hex (fun j => by unfold swept; split_ifs <;> decide) hs
      cases r with
      | error e => exact hp.failed (Or.inr ⟨_, rfl⟩) hg'
      | ok u =>
        have hi := (List.getElem?_eq_some_iff.mp hc).1
        rw [workFor_eq (by omega)] at hwork
        obtain rfl := Except.ok.inj hwork
        exact ⟨hnd, hacc, fun _ => exchanged_next .ready .working hnd hc hex fun h => h.assign hs,
          hg'⟩
  | recv r s ha hs =>
    have hex := hex ((Does.eq ha).unfailed rfl)
    cases Does.eq ha with
    | started i c hc hpc =>
      simp only [Accepted, stageOf, hpc] at hacc hex
      exact hp.expect (.started (i+1)) hc hacc hex rfl hs fun h heq => h.take_started (heq ▸ hs)
    | done i c hc hpc =>
      simp only [Accepted, stageOf, hpc] at hacc hex
      exact hp.expect (.done (i+1)) hc hacc hex rfl hs fun h heq => h.take_done (heq ▸ hs)
  | capacity e ha he => exact hp.failed (Or.inl rfl) hg
  | tau ha =>
    have hex := hex ((Does.eq ha).unfailed rfl)
    cases Does.eq ha with
    | spawned i hi hpc =>
      simp only [Accepted, stageOf, hpc] at hacc hex
      refine ⟨hnd, ⟨Nat.zero_le _, ?_⟩, fun _ => hex, hg⟩
      change h.work.streams.length = 0
      rw [hacc.2, List.length_nil]
    | accepted i hi hpc =>
      simp only [Accepted, stageOf, hpc] at hacc hex
      refine ⟨hnd, ?_, fun _ j => ?_, hg⟩
      · change h.work.streams.length = n
        omega
      · change Exchanged (swept _ _ h.work.streams 0 j) _ _
        rw [swept_zero]
        exact hex j
    | allStarted i hc hpc =>
      simp only [Accepted, stageOf, hpc] at hacc hex
      refine ⟨hnd, hacc, fun _ j => ?_, hg⟩
      change Exchanged (swept _ _ h.work.streams 0 j) _ _
      rw [swept_zero]
      exact exchanged_all hnd hacc hc hex j
    | overflow i c e hc hwork hpc => exact hp.failed (Or.inl rfl) hg
    | distributed i hc hpc =>
      simp only [Accepted, stageOf, hpc] at hacc hex
      refine ⟨hnd, hacc, fun _ j => ?_, hg⟩
      change Exchanged (swept _ _ h.work.streams 0 j) _ _
      rw [swept_zero]
      exact exchanged_all hnd hacc hc hex j
    | allDone i hc hpc =>
      simp only [Accepted, stageOf, hpc] at hacc hex
      exact ⟨hnd, trivial, fun _ => exchanged_all hnd hacc hc hex, hg⟩
    | waited i hi hpc =>
      simp only [stageOf, hpc] at hex
      exact ⟨hnd, trivial, fun _ => hex, hg⟩

theorem reachable_peers (hn : n ≤ 255) {h : Host n} (hs : Reachable (hostSystem inp) h) :
    Peers inp h := by
  refine invariant ?_ ?_ hs
  · rintro h ⟨hw, hconn⟩
    refine ⟨?_, ?_, fun _ j => ?_, Or.inl fun j => (hconn j).2⟩
    · rw [hw]
      exact List.nodup_nil
    · rw [hw]
      unfold Accepted ParentWork.start
      split_ifs <;> simp
    · have hpos := j.pos
      have hst : stageOf h.work j = .fresh := by
        rw [hw]
        simp [stageOf, ParentWork.start, hpos.ne']
      rw [hst]
      exact hconn j
  · rintro h k _ hp ⟨a, ha⟩
    exact peers_step hn hp (hostMove_of_fire ha)

/-- However the peers behave: a connection that does not open with STARTED makes
`parent_work` fail with nothing written to any of them, and an Ok means that
each opened with STARTED and DONE and was written one Data frame, none of them
before STARTED was read from all. -/
theorem parent_work_against_peers (hn : n ≤ 255) (inp : Fin n → List UInt8) {h : Host n}
    {l : List (Host n)} (hl : Run (hostSystem inp) (h::l)) {r : Except WorkError Unit}
    (hr : h.work.pc = .returned r) :
    ((∃ k, ¬ ∃ rest, inp k = frame .started ++ rest) →
      (∃ e, r = .error e) ∧ ∀ j, (h.conn j).output = []) ∧
    (r = .ok () →
      (∀ k, (∃ rest, inp k = frame .started ++ (frame .done ++ rest)) ∧
        ∃ w, (h.conn k).output = frame (.data w)) ∧
      ∀ u ∈ h::l, (∃ j, (u.conn j).output ≠ []) →
        ∀ k, ∃ c, inp k = frame .started ++ c ∧ (u.conn k).input <:+ c) := by
  have hp := reachable_peers hn (reachable_of_run hl h (by simp))
  have hok : r = .ok () → ∀ k, Exchanged .finished (inp k) (h.conn k) := by
    rintro rfl k
    have hun : Unfailed h.work := by
      rw [Unfailed, hr]
      trivial
    have := hp.exchanged hun k
    simpa only [stageOf, hr] using this
  refine ⟨fun hbad => ⟨?_, ?_⟩, fun h1 => ⟨fun k => ?_, fun u hu hout => ?_⟩⟩
  · obtain ⟨k, hk⟩ := hbad
    cases r with
    | error e => exact ⟨e, rfl⟩
    | ok u => exact absurd ⟨_, (hok rfl k).1⟩ hk
  · obtain ⟨k, hk⟩ := hbad
    rcases hp.guarded with hg | hg
    · exact hg
    · obtain ⟨c, hc, _⟩ := hg k
      exact absurd ⟨c, hc⟩ hk
  · exact ⟨⟨_, (hok h1 k).1⟩, (hok h1 k).2⟩
  · obtain ⟨j, hj⟩ := hout
    rcases (reachable_peers hn (reachable_of_run hl u hu)).guarded with hg | hg
    · exact absurd (hg j) hj
    · exact hg

def twoPeers (polite : Bool) : Fin 2 → List UInt8
  | 0 => frame .started ++ frame .done
  | 1 => if polite then frame .started ++ frame .done else frame .done

def twoPeersStart (polite : Bool) : Host 2 := ⟨.start 2, fun k => ⟨twoPeers polite k, [], none⟩⟩

def accepting (i j : Fin n) : List (Choice n) := [.go, .go, .go, .accept i, .accept j, .go]

theorem polite_returns :
    (play Host.fire (accepting 1 0 ++ List.replicate 12 .go) (twoPeersStart true)).map
      (fun h => h.work.pc) = some (.returned (.ok ())) := by
  decide +kernel

theorem impolite_returns :
    (play Host.fire (accepting 1 0 ++ [.go]) (twoPeersStart false)).map (fun h => h.work.pc) =
      some (.returned (.error (.other "expected Started, but got DONE"))) := by
  decide +kernel

theorem parent_work_against_two_peers :
    (∃ h : Host 2, Reachable (hostSystem (twoPeers true)) h ∧ h.work.pc = .returned (.ok ()) ∧
      ∀ k, ∃ w, (h.conn k).output = frame (.data w)) ∧
    ∃ (h : Host 2) (r : Except WorkError Unit), Reachable (hostSystem (twoPeers false)) h ∧
      h.work.pc = .returned r ∧ (∃ e, r = .error e) ∧ ∀ k, (h.conn k).output = [] := by
  have hstart : ∀ polite, Delivering (twoPeers polite) (twoPeersStart polite) := fun polite =>
    ⟨rfl, fun _ => ⟨rfl, rfl⟩⟩
  constructor
  · obtain ⟨h, l, hl, hpc⟩ := play_reaches (Delivering (twoPeers true)) _ (hstart true) _
      polite_returns
    exact ⟨h, reachable_of_run hl h (by simp), hpc,
      fun k => (((parent_work_against_peers (by decide) _ hl hpc).2 rfl).1 k).2⟩
  · obtain ⟨h, l, hl, hpc⟩ := play_reaches (Delivering (twoPeers false)) _ (hstart false) _
      impolite_returns
    refine ⟨h, _, reachable_of_run hl h (by simp), hpc,
      (parent_work_against_peers (by decide) _ hl hpc).1 ⟨1, ?_⟩⟩
    rintro ⟨rest, hrest⟩
    have := congrArg (List.take 17) hrest
    revert this
    simp only [twoPeers, Bool.false_eq_true, if_false]
    rw [List.take_append_of_le_length (by decide)]
    decide

end CrabKeeper.WorkPeers
