import ParaHotstuff.Proofs.Basic.NoFork
import ParaHotstuff.Proofs.Basic.HiddenLock
import ParaHotstuff.Proofs.Trusted.Certificates
import ParaHotstuff.Proofs.Trusted.Equivocation
import ParaHotstuff.Proofs.Trusted.VotePhase
import ParaHotstuff.Proofs.Trusted.Counter
import ParaHotstuff.Proofs.Trusted.Locks
import ParaHotstuff.Proofs.Trusted.LockOrder
import ParaHotstuff.Proofs.BlockTexts
import ParaHotstuff.Proofs.Wire
import ParaHotstuff.Proofs.Chained.Execution
import ParaHotstuff.Proofs.Para.Agreement
import ParaHotstuff.Proofs.Para.SlotRuns
import ParaHotstuff.Proofs.Para.LockRule
import ParaHotstuff.Proofs.Para.VerifyRuns
import ParaHotstuff.Proofs.Proposals
import ParaHotstuff.Proofs.Basic.CertificateRuns
import ParaHotstuff.Proofs.Para.RecoveryAnswers
import ParaHotstuff.Proofs.Para.ExecutedBlocks
import ParaHotstuff.Proofs.Para.ExecutionOrder
import ParaHotstuff.Proofs.Para.ViewSync
import ParaHotstuff.Proofs.Para.Rejections
import ParaHotstuff.Proofs.Counting
import ParaHotstuff.Proofs.Para.Collecting
import ParaHotstuff.Proofs.Para.DeliveryOrder
import ParaHotstuff.Proofs.Para.QuorumOnce
import ParaHotstuff.Proofs.Trusted.Refusals
import ParaHotstuff.Proofs.JustEquality
import ParaHotstuff.Proofs.Client
import ParaHotstuff.Proofs.Transactions
import ParaHotstuff.Proofs.Chained.Ancestors
import ParaHotstuff.Proofs.Chained.Marks
import ParaHotstuff.Proofs.Chained.LeaderQuorum
import ParaHotstuff.Proofs.Chained.ViewEntry
import ParaHotstuff.Proofs.Basic.InStep
import ParaHotstuff.Proofs.Para.RecoverySearch
import ParaHotstuff.Proofs.Para.SlotBounds
import ParaHotstuff.Proofs.WireBounds
import ParaHotstuff.Proofs.Sending
import ParaHotstuff.Proofs.Basic.Service
import ParaHotstuff.Proofs.Chained.Service
