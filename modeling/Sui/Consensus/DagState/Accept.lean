import Sui.Consensus.DagState.Basic

/-! Accepting blocks into the DAG.

A new block is cached and buffered for the store. Under the third version of the
commit rule its parents above the gc round count it as a child, and its round
counts it as a block. -/
namespace Sui.Consensus.DagState

open Sui.Lib

variable (ctx : Context)

/-- Counts the block as a child of one ancestor, if the link may be a leader vote. -/
def addChild (blockRef : BlockRef) (d : DagState) (ancestor : BlockRef) : Exec DagState := do
  if ancestor.round + 1 ≠ blockRef.round ∨ ancestor.round ≤ d.gcRound ctx then return d
  let info ← expect d.recentBlocks[ancestor]? .parentMissing
  return { d with recentBlocks := d.recentBlocks.insert ancestor { info with
    children := insert blockRef info.children
    childrenStake := (info.childrenStake.addUnique ctx.committee blockRef.author).1 } }

/-- The round after the last one that has blocks above the gc round. -/
def nextRoundOf (gcRound : Nat) (roundInfo : List RoundInfo) : Nat :=
  match roundInfo.getLast? with
  | some info => info.round + 1
  | none => gcRound + 1

def nextRound (d : DagState) : Nat := nextRoundOf (d.gcRound ctx) d.roundInfo

/-- Counts the block in its round, which is at most one after the latest. -/
def updateRoundInfo (d : DagState) (block : VerifiedBlock) : Exec DagState := do
  if block.round ≤ d.gcRound ctx then return d
  assert (block.round ≤ d.nextRound ctx) .roundGap
  let roundInfo :=
    if block.round = d.nextRound ctx then d.roundInfo ++ [{ round := block.round }] else d.roundInfo
  let front ← expect roundInfo.head? .roundInfoMissing
  assert (front.round ≤ block.round) .roundInfoMissing
  let index := block.round - front.round
  let info ← expect roundInfo[index]? .roundInfoMissing
  return { d with roundInfo := roundInfo.set index { info with
    blocks := insert block.reference info.blocks
    totalStake := (info.totalStake.addUnique ctx.committee block.author).1 } }

/-- The block in the cache, with no child, commit or inclusion. -/
def cacheBlock (d : DagState) (block : VerifiedBlock) : DagState :=
  { d with
    recentBlocks := d.recentBlocks.insert block.reference { block }
    recentRefsByAuthority := Function.update d.recentRefsByAuthority block.author
      ((d.recentRefsByAuthority block.author).insert block.reference) }

/-- Votes are only counted under the third version of the commit rule. -/
def countBlock (d : DagState) (block : VerifiedBlock) : Exec DagState :=
  if ctx.protocolConfig.enableV3 then do
    let d ← block.ancestors.foldlM (addChild ctx block.reference) d
    d.updateRoundInfo ctx block
  else .ok d

def updateBlockMetadata (d : DagState) (block : VerifiedBlock) : Exec DagState := do
  let d ← (d.cacheBlock block).countBlock ctx block
  return { d with
    thresholdClock := d.thresholdClock.addBlock ctx.committee block.reference
    highestAcceptedRound := max d.highestAcceptedRound block.round }

/-- A block that is held already is left alone; an own block must be the first in its
slot, unless that validation is off. -/
def acceptBlock (d : DagState) (block : VerifiedBlock) : Exec DagState := do
  assert (block.round ≠ GENESIS_ROUND) .genesisBlockAccepted
  if d.containsBlock ctx block.reference then return d
  assert (block.author = ctx.ownIndex → ctx.parameters.skipEquivocationValidation = true ∨
    d.getUncommittedBlocksAtSlot block.slot = []) .ownSlotTaken
  let d ← d.updateBlockMetadata ctx block
  return { d with blocksToWrite := d.blocksToWrite ++ [block] }

def acceptBlocks (d : DagState) (blocks : List VerifiedBlock) : Exec DagState :=
  blocks.foldlM (acceptBlock ctx) d

end Sui.Consensus.DagState
