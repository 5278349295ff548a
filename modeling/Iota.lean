import Iota.Lib.Weight
import Iota.Lib.Ascending
import Iota.Lib.Except
import Iota.Lib.Interleaving
import Iota.Lib.Register
import Iota.Consensus.Committee
import Iota.Consensus.Block
import Iota.Consensus.Error
import Iota.Consensus.Dag
import Iota.Consensus.BaseCommitter
import Iota.Consensus.Certification
import Iota.Consensus.BlockVerifier
import Iota.Consensus.DagState
import Iota.Consensus.BlockManager
import Iota.Core.BaseTypes
import Iota.Core.Transaction
import Iota.Core.ObjectLocks
import Iota.Core.SharedObjectVersions
import Iota.Core.InputLoader
import Iota.Execution.Gas
import Iota.Execution.TemporaryStore
import Iota.Execution.GasCharger
import Iota.Crypto.MultiSig
import Iota.Lib.Move
import Iota.System.VotingPower
import Iota.Core.AuthorityAggregator
import Iota.Consensus.BlockManagerIndex
import Iota.Lib.DependencyOrder
import Iota.Consensus.BlockManagerDelivery
import Iota.System.StakingPool
import Iota.System.StakingPoolDriver
import Iota.Core.CongestionCommit
import Iota.Core.StakeAggregatorTally
import Iota.Execution.ProgrammableContext
import Iota.Consensus.CommitSyncer
import Iota.Consensus.LeaderSchedule
import Iota.Consensus.CommitVoteMonitor
import Iota.Consensus.ThresholdClock
import Iota.Consensus.LeaderSwapTable
import Iota.Core.Effects
import Iota.Lib.MultisetHash
import Iota.Core.SplitBrain
import Iota.Lib.VecDeque
import Iota.Consensus.StoreScan
import Iota.Lib.BigEndian
import Iota.Storage.TypedStore
import Iota.Core.TransactionDeferral
import Iota.Checkpoints.CausalOrder
import Iota.Checkpoints.CausalSort
import Iota.Execution.OwnershipInvariants
import Iota.Core.ProcessTransaction
import Iota.Checkpoints.SplitChunks
import Iota.Core.TransactionQueue
import Iota.Lib.ParentWalk
import Iota.Execution.CircularOwnership
import Iota.Lib.ThresholdScan
import Iota.Consensus.RoundProber
import Iota.Consensus.AncestorsAtRound
import Iota.Lib.LeastSearch
import Iota.Core.CongestionMinSlot
import Iota.Consensus.BlockManagerGc
import Iota.Consensus.Transaction
import Iota.Consensus.TransactionPacking
import Iota.Consensus.TransactionStatus
import Iota.Core.StateAccumulator
import Iota.Consensus.ConsensusStore
import Iota.Consensus.DagStateCommit
import Iota.Lib.Consecutive
import Iota.Lib.StepRun
import Iota.Consensus.DagStateRecovery
import Iota.Consensus.DagStateInv
import Iota.Consensus.NodeRun
