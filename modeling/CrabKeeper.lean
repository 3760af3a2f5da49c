import CrabKeeper.ChannelFraming
import CrabKeeper.Foundation.Network
import CrabKeeper.BankTypes
import CrabKeeper.BankAccount
import CrabKeeper.WireLanguage
import CrabKeeper.Clocks
import CrabKeeper.Foundation.Sessions
import CrabKeeper.ClockRuns
import CrabKeeper.Foundation.Causality
import CrabKeeper.LamportExecution
import CrabKeeper.BankChild
import CrabKeeper.ChildAccounts
import CrabKeeper.ChildForecast
import CrabKeeper.RelayParent
import CrabKeeper.RelayInvariant
import CrabKeeper.LedgerPosition
import CrabKeeper.MoneyConservation
import CrabKeeper.CollectedReports
import CrabKeeper.PendingInvariant
import CrabKeeper.RecordedTimes
import CrabKeeper.TransferCall
import CrabKeeper.TransferRefusal
import CrabKeeper.TransferAcks
import CrabKeeper.TransferOk
import CrabKeeper.Foundation.Termination
import CrabKeeper.TransferPairing
import CrabKeeper.ProcessWork
import CrabKeeper.WorkBarrier
import CrabKeeper.WorkLabels
import CrabKeeper.WorkPeers
import CrabKeeper.Foundation.Timeline
import CrabKeeper.Foundation.Overdraft
import CrabKeeper.AccountCalls
import CrabKeeper.AccountRuns
import CrabKeeper.AccountHistory
import CrabKeeper.ReportCapacity
import CrabKeeper.OrderPlan
import CrabKeeper.SummaryCodec
import CrabKeeper.SummaryLimits
import CrabKeeper.IndexedStates
import CrabKeeper.RelayOutcome
import CrabKeeper.RelaySettlement
import CrabKeeper.WireRelay
import CrabKeeper.WireWork
import CrabKeeper.AuditTrail
import CrabKeeper.TransferCompletion
import CrabKeeper.BranchThread
import CrabKeeper.PhysicalTime
import CrabKeeper.RelaySummary
import CrabKeeper.ParentThread
import CrabKeeper.SelfOrders
import CrabKeeper.CommandLine
import CrabKeeper.TransferLanes
import CrabKeeper.RelayThread
