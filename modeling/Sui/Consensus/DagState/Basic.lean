import Sui.Consensus.LeaderScoring
import Sui.Consensus.Store
import Sui.Consensus.ThresholdClock

/-! The DAG of accepted blocks.

`DagState` caches recent blocks with what is known about each, buffers what has not
been persisted, and falls back to the store. Vectors indexed by authority are
functions. Wall-clock fields and metrics are left out.

This module has the state and its queries; `accept`ing, committing, linking and
flushing follow in their own modules. -/
namespace Sui.Consensus

open Sui.Lib

/-- An accepted block and what is known about it. -/
structure BlockInfo where
  block : VerifiedBlock
  children : Finset BlockRef := ∅
  childrenStake : StakeAggregator .quorum := {}
  committed : Bool := false
  included : Bool := false
deriving DecidableEq

/-- The blocks accepted at one round. -/
structure RoundInfo where
  round : Nat
  blocks : Finset BlockRef := ∅
  totalStake : StakeAggregator .quorum := {}
deriving DecidableEq

structure DagState where
  recentBlocks : BTreeMap BlockRef BlockInfo := ∅
  recentRefsByAuthority : Nat → BTreeSet BlockRef := fun _ => ∅
  roundInfo : List RoundInfo := []
  thresholdClock : ThresholdClock := { round := 1 }
  evictedRounds : Nat → Nat := fun _ => 0
  highestAcceptedRound : Nat := 0
  lastCommit : Option TrustedCommit := none
  lastCommittedRounds : Nat → Nat := fun _ => 0
  scoringSubdag : ScoringSubdag := {}
  pendingCommitVotes : List CommitRef := []
  blocksToWrite : List VerifiedBlock := []
  commitsToWrite : List TrustedCommit := []
  commitInfoToWrite : List (CommitRef × CommitInfo) := []
  finalizedCommitsToWrite : List (CommitRef × BTreeMap BlockRef (List Nat)) := []
  store : Store := {}

namespace DagState

variable (ctx : Context)

/-! ### The last commit -/

def lastCommitIndex (d : DagState) : Nat :=
  match d.lastCommit with
  | some commit => commit.index
  | none => 0

def lastCommitTimestampMs (d : DagState) : Nat :=
  match d.lastCommit with
  | some commit => commit.timestampMs
  | none => 0

def lastCommitRound (d : DagState) : Nat :=
  match d.lastCommit with
  | some commit => commit.round
  | none => 0

def gcRound (d : DagState) : Nat := ctx.calculateGcRound d.lastCommitRound

/-! ### Looking blocks up -/

/-- Looks among the genesis blocks, in the cache, then in the store. -/
def getBlock (d : DagState) (r : BlockRef) : Option VerifiedBlock :=
  if r.round = GENESIS_ROUND then ctx.genesis r
  else
    match d.recentBlocks[r]? with
    | some info => some info.block
    | none => d.store.blocks[r]?

def getBlocks (d : DagState) (refs : List BlockRef) : List (Option VerifiedBlock) :=
  refs.map (d.getBlock ctx)

/-- A ref above all cached refs of its author is not looked up in the store. -/
def containsBlock (d : DagState) (r : BlockRef) : Bool :=
  let recentRefs := d.recentRefsByAuthority r.author
  if recentRefs.contains r || (ctx.genesis r).isSome then true
  else
    match recentRefs.last? with
    | none => false
    | some last => if last.round < r.round then false else d.store.blocks.contains r

/-- The cached blocks of a slot, ascending. -/
def getUncommittedBlocksAtSlot (d : DagState) (slot : Slot) : List VerifiedBlock :=
  (d.recentBlocks.toList.filter fun p => p.1.slot = slot).map (·.2.block)

/-- The cached blocks of a round, ascending. -/
def getUncommittedBlocksAtRound (d : DagState) (round : Nat) : Exec (List VerifiedBlock) := do
  assert (d.lastCommitRound < round) .roundCommitted
  return (d.recentBlocks.toList.filter fun p => p.1.round = round).map (·.2.block)

/-! ### The history of a block at a round -/

/-- Replaces the latest linked ref by its block's ancestors, while it is above
`earlierRound`. -/
def expandLinked (d : DagState) (earlierRound : Nat) : Nat → BTreeSet BlockRef →
    Exec (BTreeSet BlockRef)
  | 0, _ => .error .outOfFuel
  | fuel + 1, linked =>
    match linked.last? with
    | none => .ok linked
    | some blockRef =>
      if blockRef.round ≤ earlierRound then .ok linked
      else do
        let block ← expect (d.getBlock ctx blockRef) .blockNotInDag
        d.expandLinked earlierRound fuel
          (block.ancestors.foldl (fun s a => s.insert a) (linked.erase blockRef))

/-- The blocks at `earlierRound` in the history of `laterBlock`. The loop takes one
turn for each known block at most. -/
def ancestorsAtRound (d : DagState) (laterBlock : VerifiedBlock) (earlierRound : Nat) :
    Exec (List VerifiedBlock) := do
  let linked ← d.expandLinked ctx earlierRound (d.recentBlocks.size + d.store.blocks.size + 1)
    (laterBlock.ancestors.foldl (fun s a => s.insert a) ∅)
  (linked.toList.filter fun r => earlierRound ≤ r.round).mapM fun r =>
    expect (d.getBlock ctx r) .blockNotInDag

/-! ### Commit and inclusion flags -/

/-- Marks a cached block as committed; tells whether it was not before. -/
def setCommitted (d : DagState) (r : BlockRef) : Exec (DagState × Bool) := do
  let info ← expect d.recentBlocks[r]? .commitStatusUnknown
  if info.committed then return (d, false)
  else return ({ d with recentBlocks := d.recentBlocks.insert r { info with committed := true } }, true)

end DagState

end Sui.Consensus
