import CrabKeeper.AuditTrail
import CrabKeeper.MoneyConservation
import CrabKeeper.SummaryLimits

/-!
# The summary of a relay

The histories that a relay collects are aggregated by one `push` each and
encoded. Whoever decodes these bytes learns what every account started with,
paid and received, and that no money was made or lost.
-/

set_option autoImplicit false

namespace CrabKeeper.RelaySummary
open Foundation.Machine Foundation.DoubleEntry Foundation.Transition Foundation.Network
open CrabKeeper.MessageCodec CrabKeeper.ChannelFraming CrabKeeper.BankTypes
open CrabKeeper.BankAccount CrabKeeper.BankChild CrabKeeper.RelayParent CrabKeeper.RelayInvariant
open CrabKeeper.MoneyConservation CrabKeeper.SummaryCodec CrabKeeper.SummaryLimits
open CrabKeeper.AuditTrail

variable {κ ρ : Type} {n : ℕ} {orders : List TransferOrder}

def KeepsCarriable (p : Relay) : Prop := ∀ h ∈ p.histories, Carriable h

theorem sendTo_all {Q : Relay → Prop} {p none next : Relay} {i : Option (Fin n)} (e : Envelope)
    (hnone : Q none) (hnext : Q next) (hpanic : Q p.panic) :
    (sendTo p i none e next).All Q := by
  cases i with
  | none => exact hnone
  | some i =>
    intro r
    cases r with
    | ok u => exact hnext
    | error err => exact hpanic

theorem recvFrom_all {Q : Relay → Prop} {p none : Relay} {i : Option (Fin n)}
    {next : Envelope → Relay} (hnone : Q none) (hnext : ∀ e, Q (next e)) (hpanic : Q p.panic) :
    (recvFrom p i none next).All Q := by
  cases i with
  | none => exact hnone
  | some i =>
    intro r
    cases r with
    | ok e => exact hnext e
    | error err => exact hpanic

theorem parent_keeps {p : Relay} (h : KeepsCarriable p) :
    (relayParent (n := n) orders p).All KeepsCarriable := by
  have hite : ∀ (c : Prop) [Decidable c] (q : Relay), q.histories = p.histories →
      KeepsCarriable (if c then q else p.panic) := by
    intro c _ q hq
    split_ifs
    · unfold KeepsCarriable
      rwa [hq]
    · exact h
  unfold relayParent
  split_ifs
  · trivial
  cases p.pc with
  | started j => exact recvFrom_all h (fun e => hite _ _ rfl) h
  | order k =>
    dsimp only
    split
    · exact h
    · unfold doTransfer
      split
      · exact h
      · split
        · exact h
        · exact sendTo_all _ h h h
  | forwarded k srcIdx dstIdx => exact recvFrom_all h (fun e => hite _ _ rfl) h
  | relay k dstIdx relayed => exact sendTo_all _ h h h
  | ack k dstIdx => exact recvFrom_all h (fun e => hite _ _ rfl) h
  | stop j => exact sendTo_all _ h h h
  | done j => exact recvFrom_all h (fun e => hite _ _ rfl) h
  | history j => exact recvFrom_all h (fun e => h) h
  | decode j report =>
    change KeepsCarriable (onReport p j report)
    unfold onReport
    split
    · split
      · next k hk =>
        intro x hx
        rcases List.mem_append.mp hx with hx | hx
        · exact h x hx
        · obtain rfl := List.mem_singleton.mp hx
          exact (history_fromBytes_eq_ok.mp hk).1
      · exact h
    · exact h
  | finished => trivial

theorem reachable_carriable (V : Variant κ ρ) (b : Fin n → Balance) {s : BankNet κ ρ n}
    (hs : Reachable (relaySystem V b orders) s) : KeepsCarriable s.parent := by
  apply parent_invariant (relayProtocol n V orders) ?_ ?_ hs
  · rintro s rfl h hh
    cases hh
  · exact fun s _ h => parent_keeps h

structure Summarised (orders : List TransferOrder) (b : Fin n → Balance) (i : Fin n)
    (h : BalanceHistory) (last : BalanceState) : Prop where
  sameId : h.id = childId i
  final : h.states.getLast? = some last
  balance : last.balance.toInt =
    (b i).toInt-outgoing (childId i) (transfersOf orders)+incoming (childId i) (transfersOf orders)
  movements : (audit h).map (·.value) = (entries (childId i) 0 (transfersOf orders)).map signed

/-- The bytes of the summary of a finished relay decode to the collected
histories, which show every account's orders, and the final balances add up to
the initial ones. -/
theorem summary_of_relay (V : Variant κ ρ) (hn : n ≤ 255) (b : Fin n → Balance)
    (hb : ∀ i, 0 ≤ (b i).toInt) (hne : ∀ o ∈ orders, o.src ≠ o.dst) {s : BankNet κ ρ n}
    (hs : Reachable (relaySystem V b orders) s) (hpc : s.parent.pc = .finished) :
    ∃ summary, AllHistory.fromBytes (pushed s.parent.histories).toBytes = .ok (.ok summary) ∧
      summary.histories.length = n ∧
      ∃ (h : Fin n → BalanceHistory) (last : Fin n → BalanceState),
        (∀ i, summary.histories[i.val]? = some (h i) ∧ Summarised orders b i (h i) (last i)) ∧
        ∑ i, (last i).balance.toInt = ∑ i, (b i).toInt := by
  obtain ⟨hlen, htotal, hall⟩ := collected_of_finished hn hb hne hs hpc
  choose h last hcol hbal using hall
  refine ⟨⟨s.parent.histories⟩, ?_, hlen, h, last, fun i => ⟨(hcol i).kept, ?_⟩, ?_⟩
  · rw [pushed_eq]
    apply fromBytes_eq_ok.mpr
    exact ⟨⟨by simp only; omega, reachable_carriable V b hs⟩, [], (List.append_nil _).symm⟩
  · exact ⟨(hcol i).sameId, (hcol i).final, (hcol i).balance,
      collected_audit V hn b hne hs hpc (hcol i).kept⟩
  · rw [← htotal]
    exact Finset.sum_congr rfl fun i _ => (hbal i).symm

theorem summary_of_relay_one_order :
    ∃ (s : BankNet Clocks.LamportClock (Except IoError Unit) 2) (summary : AllHistory),
      s.parent.pc = .finished ∧
      AllHistory.fromBytes (pushed s.parent.histories).toBytes = .ok (.ok summary) ∧
      summary.histories.length = 2 := by
  have hplay : (play (relayProtocol 2 simulateBankingChildWithLamport oneOrder).fire completeRun
      (relayStart simulateBankingChildWithLamport twoBalances)).map (·.parent.pc) =
        some .finished := by
    decide +kernel
  obtain ⟨s, l, hl, hpc⟩ := relay_play completeRun _ hplay
  have hs := reachable_of_run hl s (by simp)
  obtain ⟨summary, hdec, hlen, _⟩ := summary_of_relay simulateBankingChildWithLamport (by decide)
    twoBalances (by decide) (by decide) hs hpc
  exact ⟨s, summary, hpc, hdec, hlen⟩

end CrabKeeper.RelaySummary
