import CrabKeeper.Foundation.ByteNetwork
import CrabKeeper.WorkLabels

/-!
# `parent_work` and `child_work` over TCP

The handshake of the two functions on byte streams: frames are written and
delivered in pieces of any size. The barrier stands, every run comes to its end,
and there every child has done the work of its own place in the accept order.
-/

set_option autoImplicit false

namespace CrabKeeper.WireWork
open Foundation.Transition Foundation.Network Foundation.Confluence Foundation.Termination
open Foundation.ByteStreams Foundation.ByteNetwork Foundation.Simulation
open CrabKeeper.MessageCodec CrabKeeper.ChannelFraming
open CrabKeeper.ProcessWork CrabKeeper.WorkBarrier CrabKeeper.WorkLabels

variable {n : ℕ} {t : WorkNet n}

def plain : Wire Message Unit Message UInt8 where
  tag := ⟨fun m => ((), m), fun p => p.2, fun _ => rfl, fun _ => rfl⟩
  code := frameCode

abbrev WorkStreams (n : ℕ) := ByteNet (Fin n) Unit UInt8 ChildWork (ParentWork n)

def workFire (n : ℕ) : ByteMove (Fin n) → WorkStreams n → Option (WorkStreams n) :=
  byteFire plain (workProtocol n)

def wireWorkStart (n : ℕ) : WorkStreams n := ofNet (workStart n)

theorem short_fits {m : Message} (h : m.payload.length ≤ 1) : Message.Fits m := by
  rw [fits_iff]
  omega

theorem child_short {x : ChildWork} {m : Message} (hm : m ∈ sending (childWork x)) :
    m.payload.length ≤ 1 := by
  obtain ⟨ph, sent, received⟩ := x
  cases ph with
  | connect | work | returned => cases hm
  | started | done =>
    obtain rfl := Option.some.inj hm
    decide

theorem parent_short {p : ParentWork n} {i : Fin n} {m : Message}
    (hm : m ∈ sendingTo (parentWork p) i) : m.payload.length ≤ 1 := by
  obtain ⟨a, ha⟩ : ∃ a, parentWork p = a := ⟨_, rfl⟩
  rw [ha] at hm
  cases Does.eq ha with
  | distribute k c work hc hwork hpc =>
    simp only [sendingTo] at hm
    split_ifs at hm
    · obtain rfl := Option.some.inj hm
      obtain ⟨_, rfl⟩ := workFor_eq_ok.mp hwork
      exact le_refl 1
    · cases hm
  | _ => cases hm

theorem work_sound (t : WorkNet n) : Sound plain (workProtocol n) t where
  up _ _ hm := short_fits (child_short hm)
  down _ _ hm := short_fits (parent_short hm)

theorem work_simulates (n : ℕ) : Simulates (workFire n) (workProtocol n).fire
    (fun s t => Matches plain (workProtocol n) s t ∧ Reachable (workSystem n) t)
    (netLoad plain (workProtocol n)) :=
  byte_simulates fun t _ => work_sound t

theorem workStart_matches (n : ℕ) : Matches plain (workProtocol n) (wireWorkStart n) (workStart n) ∧
    Reachable (workSystem n) (workStart n) :=
  ⟨ofNet_matches (work_sound _) fun _ => ⟨rfl, rfl⟩, .init rfl⟩

theorem work_lowers (m : Move (Fin n)) (s t : WorkNet n) (hs : Reachable (workSystem n) s)
    (h : (workProtocol n).fire m s = some t) :
    weight parentWeight childWeight 1 t < weight parentWeight childWeight 1 s :=
  fire_lowers (fun _ x => childWork_lowers x) (parentWork_lowers (reachable_accepted hs)) h

/-! ## The handshake -/

/-- Nothing has gone wrong, and a child has work only if all have reported. -/
structure Barrier (s : WorkStreams n) : Prop where
  safe : s.parent.pc ≠ .panicked ∧ ∀ e, s.parent.pc ≠ .returned (.error e)
  started : (∃ i, (s.cell i).state.received ≠ []) → ∀ j, .started ∈ (s.cell j).state.sent

structure Finished (s : WorkStreams n) : Prop where
  parent : s.parent.pc = .returned (.ok ())
  child : ∀ i, ∃ k, s.parent.streams[k]? = some i ∧ (s.cell i).state =
    ⟨.returned (.ok ()), [.started, .done], [.data [UInt8.ofNat (k+1)]]⟩

theorem barrier_of_reachable (hn : n ≤ 255) (ht : Reachable (workSystem n) t) {s : WorkStreams n}
    (hm : Matches plain (workProtocol n) s t) : Barrier s := by
  have hsafe := safe_of_le hn
  obtain ⟨⟨_, hun⟩, hJ⟩ := reachable_staged hsafe ht
  refine ⟨?_, ?_⟩
  · rw [hm.parent]
    refine ⟨hsafe t ht, fun e he => ?_⟩
    rw [Unfailed, he] at hun
    exact hun
  · rintro ⟨i, hi⟩ j
    rw [(hm.cell i).state] at hi
    rw [(hm.cell j).state]
    exact (hJ j).1.announced_of (stage_barrier ((hJ i).1.given_work hi))

theorem finished_of_atRest (hn : n ≤ 255) (ht : Reachable (workSystem n) t)
    (hrest : AtRest (workProtocol n).fire t) {s : WorkStreams n}
    (hm : Matches plain (workProtocol n) s t) : Finished s := by
  have hsafe := safe_of_le hn
  have hpc : t.parent.pc = .returned (.ok ()) := by
    by_contra hnot
    rcases not_deadlocked hsafe ht hnot with h | ⟨j, h⟩
    · rw [hrest] at h
      cases h
    · rw [hrest] at h
      cases h
  refine ⟨by rw [hm.parent, hpc], fun i => ?_⟩
  have hlabel := reachable_labelled ht i
  have hfin := ((reachable_staged hsafe ht).2 i).1
  simp only [stageOf, hpc] at hfin
  rw [hm.parent, (hm.cell i).state]
  generalize t.cell i = c at hfin hlabel
  cases hfin with
  | finished sp w =>
    obtain ⟨k, hk, hwork⟩ := hlabel (.data w) (by simp [workOf])
    obtain ⟨_, hw⟩ := workFor_eq_ok.mp hwork
    exact ⟨k, hk, by rw [hw]⟩

/-- Over byte streams, whatever the interleaving and the pieces: the barrier
stands in every state, every run goes on to an end, at an end all is finished,
and no run is endless. -/
theorem work_over_bytes (hn : n ≤ 255) :
    (∀ moves s, play (workFire n) moves (wireWorkStart n) = some s →
      Barrier s ∧
      (∃ more s', play (workFire n) more s = some s' ∧ AtRest (workFire n) s') ∧
      (AtRest (workFire n) s → Finished s)) ∧
    ∀ f : ℕ → WorkStreams n, f 0 = wireWorkStart n →
      ¬ ∀ k, ∃ a, workFire n a (f k) = some (f (k+1)) := by
  have hsim := work_simulates n
  have hstart := workStart_matches n
  refine ⟨fun moves s hs => ?_, fun f h0 => ?_⟩
  · obtain ⟨ms, t, hms, hm, ht⟩ := hsim.forward_play hstart hs
    refine ⟨barrier_of_reachable hn ht hm, ?_, fun hrest =>
      finished_of_atRest hn ht (hsim.atRest ⟨hm, ht⟩ hrest) hm⟩
    obtain ⟨u, _, hreach, hstuck⟩ := reaches_stuck (T := workSystem n)
      (weight parentWeight childWeight 1) (fun s t hr ⟨m, hm⟩ => work_lowers m s t hr hm) ht
    obtain ⟨more, hmore⟩ := play_of_steps hreach
    obtain ⟨as, s', hs', hrest, _⟩ := hsim.completes ⟨hm, ht⟩ hmore (atRest_of_stuck hstuck)
    exact ⟨as, s', hs', hrest⟩
  · refine hsim.no_endless_run hstart (N := weight parentWeight childWeight 1 (workStart n)) ?_ f h0
    intro ms t hms
    have := play_lowers work_lowers (.init rfl) hms
    omega

theorem work_over_bytes_two :
    (∀ moves s, play (workFire 2) moves (wireWorkStart 2) = some s →
      Barrier s ∧
      (∃ more s', play (workFire 2) more s = some s' ∧ AtRest (workFire 2) s') ∧
      (AtRest (workFire 2) s → Finished s)) ∧
    ∀ f : ℕ → WorkStreams 2, f 0 = wireWorkStart 2 →
      ¬ ∀ k, ∃ a, workFire 2 a (f k) = some (f (k+1)) :=
  work_over_bytes (by decide)

end CrabKeeper.WireWork
