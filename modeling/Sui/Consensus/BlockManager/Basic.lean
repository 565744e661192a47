import Sui.Consensus.DagState.Update

/-! The block manager.

Blocks are accepted into the DAG once their ancestors above the gc round are; until
then they are suspended. Three maps record what is missing: each suspended block's
missing ancestors, for each missing ancestor the blocks that wait for it, and the
missing ancestors that have not been received. Metrics and timestamps are left out. -/
namespace Sui.Consensus

open Sui.Lib

structure SuspendedBlock where
  block : VerifiedBlock
  missingAncestors : BTreeSet BlockRef

structure BlockManager where
  dagState : DagState
  suspendedBlocks : BTreeMap BlockRef SuspendedBlock := ∅
  missingAncestors : BTreeMap BlockRef (BTreeSet BlockRef) := ∅
  missingBlocks : BTreeSet BlockRef := ∅

inductive TryAcceptResult
  | accepted (block : VerifiedBlock)
  | suspended (ancestorsToFetch : BTreeSet BlockRef)
  | processed
  | skipped

namespace BlockManager

def new (dagState : DagState) : BlockManager := { dagState }

variable (ctx : Context)

/-! ### Unsuspending -/

/-- Takes an accepted dependency off a suspended block; the block is unsuspended when
it was the last. -/
def tryUnsuspendBlock (bm : BlockManager) (blockRef acceptedDependency : BlockRef) :
    Exec (BlockManager × Option VerifiedBlock) := do
  let suspended ← expect bm.suspendedBlocks[blockRef]? .notSuspended
  assert (acceptedDependency ∈ suspended.missingAncestors) .dependencyNotMissing
  let missingAncestors := suspended.missingAncestors.erase acceptedDependency
  if missingAncestors.isEmpty then
    return ({ bm with suspendedBlocks := bm.suspendedBlocks.erase blockRef }, some suspended.block)
  else
    return ({ bm with
      suspendedBlocks := bm.suspendedBlocks.insert blockRef { suspended with missingAncestors } }, none)

/-- The blocks that wait for one accepted dependency, in turn. -/
def unsuspendDependents (dependency : BlockRef) : BlockManager → List BlockRef →
    Exec (BlockManager × List VerifiedBlock)
  | bm, [] => .ok (bm, [])
  | bm, r :: rest => do
    let (bm, block) ← bm.tryUnsuspendBlock r dependency
    let (bm, blocks) ← unsuspendDependents dependency bm rest
    return (bm, block.toList ++ blocks)

/-- Works off a stack of accepted blocks; an unsuspended block goes on top. -/
def unsuspendLoop : Nat → BlockManager → List BlockRef → List VerifiedBlock →
    Exec (BlockManager × List VerifiedBlock)
  | _, bm, [], unsuspended => .ok (bm, unsuspended)
  | 0, _, _ :: _, _ => .error .outOfFuel
  | fuel + 1, bm, blockRef :: toProcess, unsuspended =>
    match bm.missingAncestors[blockRef]? with
    | none => unsuspendLoop fuel bm toProcess unsuspended
    | some dependents => do
      let (bm, blocks) ← unsuspendDependents blockRef
        { bm with missingAncestors := bm.missingAncestors.erase blockRef } dependents.toList
      unsuspendLoop fuel bm ((blocks.map (·.reference)).reverse ++ toProcess) (unsuspended ++ blocks)

/-- Every suspended block goes on the stack once at most. -/
def tryUnsuspendChildrenBlocks (bm : BlockManager) (acceptedBlock : BlockRef) :
    Exec (BlockManager × List VerifiedBlock) :=
  unsuspendLoop (bm.suspendedBlocks.size + 1) bm [acceptedBlock] []

/-! ### Accepting -/

/-- The ancestors that must be in the DAG before a block is accepted. -/
def requiredAncestors (gcRound : Nat) (block : VerifiedBlock) : List BlockRef :=
  block.ancestors.filter fun a => a.round = GENESIS_ROUND ∨ gcRound < a.round

/-- The required ancestors that the DAG does not have. -/
def missingOf (bm : BlockManager) (block : VerifiedBlock) : List BlockRef :=
  (requiredAncestors (bm.dagState.gcRound ctx) block).filter fun a => !bm.dagState.containsBlock ctx a

/-- Records that `blockRef` waits for the ancestor, which is fetched unless suspended. -/
def addMissingAncestor (blockRef : BlockRef) (bm : BlockManager) (ancestor : BlockRef) :
    BlockManager :=
  { bm with
    missingAncestors := bm.missingAncestors.insert ancestor
      ((bm.missingAncestors[ancestor]?.getD ∅).insert blockRef)
    missingBlocks :=
      if ancestor ∈ bm.suspendedBlocks then bm.missingBlocks else bm.missingBlocks.insert ancestor }

def tryAcceptOneBlock (bm : BlockManager) (block : VerifiedBlock) : BlockManager × TryAcceptResult :=
  let blockRef := block.reference
  if blockRef ∈ bm.suspendedBlocks ∨ bm.dagState.containsBlock ctx blockRef = true then
    (bm, .processed)
  else if block.round ≤ bm.dagState.gcRound ctx then (bm, .skipped)
  else
    let missing := bm.missingOf ctx block
    let marked := missing.foldl (addMissingAncestor blockRef) bm
    let marked := { marked with missingBlocks := marked.missingBlocks.erase blockRef }
    if missing.isEmpty then (marked, .accepted block)
    else
      let suspended : SuspendedBlock :=
        { block, missingAncestors := missing.foldl (fun s a => s.insert a) ∅ }
      ({ marked with suspendedBlocks := marked.suspendedBlocks.insert blockRef suspended },
        .suspended ((missing.filter fun a => a ∉ bm.suspendedBlocks).foldl (fun s a => s.insert a) ∅))

/-- A suspended block no longer waits for its missing ancestors. -/
def forgetSuspended (bm : BlockManager) (blockRef : BlockRef) : BlockManager :=
  match bm.suspendedBlocks[blockRef]? with
  | none => bm
  | some suspended =>
    { bm with
      suspendedBlocks := bm.suspendedBlocks.erase blockRef
      missingAncestors := suspended.missingAncestors.toList.foldl
        (fun m a => m.modify a fun refs => refs.erase blockRef) bm.missingAncestors }

/-- A committed block is accepted whatever is missing of its history. -/
def tryAcceptOneCommittedBlock (bm : BlockManager) (block : VerifiedBlock) :
    Exec (BlockManager × TryAcceptResult) := do
  if bm.dagState.containsBlock ctx block.reference then return (bm, .processed)
  let bm := { bm with missingBlocks := bm.missingBlocks.erase block.reference }
  let bm := bm.forgetSuspended block.reference
  let dagState ← bm.dagState.acceptBlocks ctx [block]
  return ({ bm with dagState }, .accepted block)

/-- Unsuspends what waited for an accepted block and accepts it, after the given blocks. -/
def acceptWithChildren (bm : BlockManager) (blockRef : BlockRef) (blocks : List VerifiedBlock) :
    Exec (BlockManager × List VerifiedBlock) := do
  let (bm, unsuspended) ← bm.tryUnsuspendChildrenBlocks blockRef
  let blocksToAccept := blocks ++ unsuspended
  let dagState ← bm.dagState.acceptBlocks ctx blocksToAccept
  return ({ bm with dagState }, blocksToAccept)

/-- One input block; returns what it makes accepted and what is to be fetched for it. -/
def acceptInput (committed : Bool) (bm : BlockManager) (block : VerifiedBlock) :
    Exec (BlockManager × List VerifiedBlock × BTreeSet BlockRef) :=
  if committed then do
    let (bm, result) ← bm.tryAcceptOneCommittedBlock ctx block
    match result with
    | .accepted block =>
      let (bm, blocks) ← bm.acceptWithChildren ctx block.reference []
      return (bm, block :: blocks, ∅)
    | .processed => return (bm, [], ∅)
    | .suspended _ => .error .committedBlockSkipped
    | .skipped => .error .committedBlockSkipped
  else
    match bm.tryAcceptOneBlock ctx block with
    | (bm, .accepted block) => do
      let (bm, blocks) ← bm.acceptWithChildren ctx block.reference [block]
      return (bm, blocks, ∅)
    | (bm, .suspended ancestorsToFetch) => .ok (bm, [], ancestorsToFetch)
    | (bm, .processed) => .ok (bm, [], ∅)
    | (bm, .skipped) => .ok (bm, [], ∅)

def acceptInputs (committed : Bool) : BlockManager → List VerifiedBlock →
    Exec (BlockManager × List VerifiedBlock × BTreeSet BlockRef)
  | bm, [] => .ok (bm, [], ∅)
  | bm, block :: rest => do
    let (bm, accepted, missing) ← bm.acceptInput ctx committed block
    let (bm, accepted', missing') ← acceptInputs committed bm rest
    return (bm, accepted ++ accepted', missing'.toList.foldl (fun s r => s.insert r) missing)

/-- The input is handled by ascending round. -/
def tryAcceptBlocksInternal (bm : BlockManager) (blocks : List VerifiedBlock) (committed : Bool) :
    Exec (BlockManager × List VerifiedBlock × BTreeSet BlockRef) :=
  acceptInputs ctx committed bm (blocks.insertionSort fun a b => a.round ≤ b.round)

def tryAcceptBlocks (bm : BlockManager) (blocks : List VerifiedBlock) :
    Exec (BlockManager × List VerifiedBlock × BTreeSet BlockRef) :=
  bm.tryAcceptBlocksInternal ctx blocks false

def tryAcceptCommittedBlocks (bm : BlockManager) (blocks : List VerifiedBlock) :
    Exec (BlockManager × List VerifiedBlock) := do
  let (bm, accepted, missing) ← bm.tryAcceptBlocksInternal ctx blocks true
  assert (missing.isEmpty = true) .committedBlockMissing
  return (bm, accepted)

/-! ### Fetching and garbage collection -/

/-- Records a ref as missing, with no block waiting for it yet. -/
def addMissingBlock (bm : BlockManager) (blockRef : BlockRef) : BlockManager :=
  if blockRef ∈ bm.missingBlocks then bm
  else
    { bm with
      missingBlocks := bm.missingBlocks.insert blockRef
      missingAncestors :=
        bm.missingAncestors.insert blockRef (bm.missingAncestors[blockRef]?.getD ∅) }

/-- The refs above the gc round that are neither in the DAG nor suspended. -/
def tryFindBlocks (bm : BlockManager) (blockRefs : List BlockRef) : BlockManager × BTreeSet BlockRef :=
  let blockRefs := (blockRefs.filter fun r => bm.dagState.gcRound ctx < r.round).insertionSort
    fun a b => a.round ≤ b.round
  let missing := blockRefs.filter fun r =>
    !bm.dagState.containsBlock ctx r && !decide (r ∈ bm.suspendedBlocks)
  (missing.foldl addMissingBlock bm, missing.foldl (fun s r => s.insert r) ∅)

/-- Gives up on missing ancestors up to the gc round, lowest first. -/
def unsuspendGcLoop (gcRound : Nat) : Nat → BlockManager → Exec BlockManager
  | 0, _ => .error .outOfFuel
  | fuel + 1, bm =>
    match bm.missingAncestors.firstKey? with
    | none => .ok bm
    | some blockRef =>
      if gcRound < blockRef.round then .ok bm
      else do
        assert (blockRef ∉ bm.suspendedBlocks) .suspendedBelowGc
        let bm := { bm with missingBlocks := bm.missingBlocks.erase blockRef }
        let (bm, _) ← bm.acceptWithChildren ctx blockRef []
        unsuspendGcLoop gcRound fuel bm

def tryUnsuspendBlocksForLatestGcRound (bm : BlockManager) : Exec BlockManager :=
  unsuspendGcLoop ctx (bm.dagState.gcRound ctx) (bm.missingAncestors.size + 1) bm

end BlockManager

end Sui.Consensus
