import Sui.Lib.BTree
import Sui.Lib.Quorum
import Sui.Consensus.StakeAggregator
import Sui.Consensus.Commit
import Sui.Consensus.Store
import Sui.Consensus.LeaderScheduleV3.Basic
import Sui.Consensus.LeaderScheduleV3.Window
import Sui.Consensus.LeaderScheduleV3.Recovery
import Sui.Consensus.LeaderScheduleV3.FromStore
import Sui.Consensus.BlockVerifier
import Sui.Consensus.DagState.Basic
import Sui.Consensus.Committer.Base
import Sui.Consensus.Committer.Universal
import Sui.Lib.RoundDag
import Sui.Consensus.View
import Sui.Consensus.Committer.Votes
import Sui.Consensus.Committer.Decide
import Sui.Consensus.Committer.Agreement
import Sui.Consensus.DagState.Accept
import Sui.Consensus.DagState.Update
import Sui.Consensus.DagState.Cached
import Sui.Consensus.BlockManager.Basic
import Sui.Consensus.BlockManager.Unsuspend
import Sui.Consensus.BlockManager.Invariant
import Sui.Consensus.DagState.Counted
import Sui.Consensus.DagState.Reachable
import Sui.Consensus.BlockManager.Confluence
import Sui.FundsWithdraw.Basic
import Sui.Lib.Reservation
import Sui.FundsWithdraw.Account
import Sui.FundsWithdraw.Invariant
import Sui.FundsWithdraw.Schedule
import Sui.FundsWithdraw.Settle
import Sui.FundsWithdraw.Reachable
import Sui.FundsWithdraw.Agreement
import Sui.Lib.DepthFirst
import Sui.Checkpoints.CausalOrder
import Sui.Checkpoints.CausalSort
import Sui.Move.ControlFlowGraph.Basic
import Sui.Move.ControlFlowGraph.Blocks
import Sui.Move.ControlFlowGraph.Search
import Sui.Move.AbstractInterpreter.Basic
import Sui.Move.AbstractInterpreter.Fixpoint
import Sui.Lib.Writes
import Sui.Quarantine.Basic
import Sui.Quarantine.Overlay
import Sui.Quarantine.Transparent
import Sui.Lib.Condensation
import Sui.Move.InstantiationLoops.Basic
import Sui.Move.InstantiationLoops.Finite
import Sui.Move.InstantiationLoops.Graph
import Sui.Move.BorrowGraph.Graph
import Sui.Move.BorrowGraph.Regex
import Sui.Lib.Gather
import Sui.Move.BorrowGraph.WellFormed
import Sui.Move.BorrowGraph.Operations
import Sui.Move.BorrowGraph.Sound
import Sui.Lib.Checked
import Sui.SuiSystem.StakingPool
import Sui.SuiSystem.Validator
import Sui.SuiSystem.PoolSpec
import Sui.SuiSystem.Rates
import Sui.SuiSystem.Books
import Sui.SuiSystem.Tokens
import Sui.SuiSystem.VotingPower
import Sui.SuiSystem.ValidatorSet
import Sui.Lib.Roster
import Sui.SuiSystem.SystemState
import Sui.SuiSystem.Standing
import Sui.SuiSystem.Requests
import Sui.SuiSystem.Rewards
import Sui.SuiSystem.EpochChange
import Sui.SuiSystem.Consistency
import Sui.Lib.VecMap
import Sui.Lib.Bytes
import Sui.Bridge.Committee
import Sui.Indexer.Pipeline
import Sui.Indexer.Collector
import Sui.Indexer.Watermark
import Sui.Indexer.WatermarkTask
import Sui.Lib.Merkle
import Sui.LightClient.Proof
import Sui.LightClient.ObjectState
import Sui.LightClient.StreamHead
import Sui.Lib.Mmr
import Sui.LightClient.EventStream
import Sui.LightClient.EventStreamExact
import Sui.Lib.Bag
import Sui.Deferral.Basic
import Sui.Deferral.Accounts
import Sui.Deferral.Ledger
import Sui.ConsensusHandler.Basic
import Sui.ConsensusHandler.Sequence
import Sui.ConsensusHandler.Store
import Sui.ConsensusHandler.Acceptance
import Sui.Lib.WeightedMedian
import Sui.Consensus.Linearizer
import Sui.SuiSystem.Redemption
import Sui.Consensus.LeaderSwapTable
import Sui.LightClient.EventAccumulator
import Sui.Config.Setting
import Sui.MoveStdlib.Macros
