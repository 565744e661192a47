import Sui.Consensus.DagState.Accept

/-! Linking, committing, flushing and recovering.

`linkCausalHistory` marks what an own proposal includes, `addCommit` moves the gc
round, `flush` persists what is buffered and evicts old blocks, and `new` rebuilds
the state from the store. -/
namespace Sui.Consensus.DagState

open Sui.Lib

variable (ctx : Context)

/-! ### Linking -/

/-- Marks the targets and their histories as included, breadth first; collects the
blocks that were not before. -/
def linkTargets (gcRound : Nat) : Nat → DagState → List BlockRef → List BlockRef →
    Exec (DagState × List BlockRef)
  | _, d, [], linked => .ok (d, linked)
  | 0, _, _ :: _, _ => .error .outOfFuel
  | fuel + 1, d, blockRef :: targets, linked =>
    if blockRef.round ≤ gcRound then linkTargets gcRound fuel d targets linked
    else do
      let info ← expect d.recentBlocks[blockRef]? .blockNotInDag
      if info.included then linkTargets gcRound fuel d targets linked
      else
        linkTargets gcRound fuel
          { d with recentBlocks := d.recentBlocks.insert blockRef { info with included := true } }
          (targets ++ info.block.ancestors) (linked ++ [blockRef])

/-- Every link of a cached block is a target once at most. -/
def linkFuel (d : DagState) : Nat :=
  (d.recentBlocks.toList.map fun p => p.2.block.ancestors.length).sum + 1

def linkCausalHistory (d : DagState) (rootBlock : BlockRef) : Exec (DagState × List BlockRef) :=
  linkTargets (d.gcRound ctx) d.linkFuel d [rootBlock] []

/-! ### Commits -/

def raiseCommittedRounds (rounds : Nat → Nat) (blocks : List BlockRef) : Nat → Nat :=
  blocks.foldl (fun rounds r => Function.update rounds r.author (max (rounds r.author) r.round)) rounds

/-- Whether the commit is new, and the next one. -/
def checkCommit (d : DagState) (commit : TrustedCommit) : Exec Bool :=
  match d.lastCommit with
  | some lastCommit =>
    if commit.index ≤ lastCommit.index then .ok false
    else do
      assert (commit.index = lastCommit.index + 1) .commitIndexGap
      assert (lastCommit.timestampMs ≤ commit.timestampMs) .commitTimestampDecreases
      return true
  | none => do
    assert (commit.index = 1) .commitIndexGap
    return true

/-- An old commit is ignored; a new one becomes the last. -/
def addCommit (d : DagState) (commit : TrustedCommit) : Exec DagState := do
  if ← d.checkCommit commit then
    return { d with
      lastCommit := some commit
      lastCommittedRounds := raiseCommittedRounds d.lastCommittedRounds commit.blocks
      pendingCommitVotes := d.pendingCommitVotes ++ [commit.reference]
      commitsToWrite := d.commitsToWrite ++ [commit] }
  else return d

def addFinalizedCommit (d : DagState) (commitRef : CommitRef)
    (rejectedTransactions : BTreeMap BlockRef (List Nat)) : DagState :=
  { d with finalizedCommitsToWrite := d.finalizedCommitsToWrite ++ [(commitRef, rejectedTransactions)] }

/-! ### Flushing -/

/-- At or below this round an authority's blocks leave the cache: it is not above the
gc round, and `cachedRounds` below the authority's last block. -/
def evictionRound (lastRound gcRound cachedRounds : Nat) : Nat := min gcRound (lastRound - cachedRounds)

def lastRoundOf (refs : BTreeSet BlockRef) : Nat :=
  match refs.last? with
  | some r => r.round
  | none => GENESIS_ROUND

def calculateAuthorityEvictionRound (d : DagState) (authority : Nat) : Nat :=
  evictionRound (lastRoundOf (d.recentRefsByAuthority authority)) (d.gcRound ctx)
    ctx.parameters.dagStateCachedRounds

def evictAuthority (d : DagState) (authority : Nat) : DagState :=
  let evictionRound := d.calculateAuthorityEvictionRound ctx authority
  let refs := d.recentRefsByAuthority authority
  let evicted := refs.toList.takeWhile fun r => r.round ≤ evictionRound
  { d with
    recentBlocks := evicted.foldl (fun m r => m.erase r) d.recentBlocks
    recentRefsByAuthority := Function.update d.recentRefsByAuthority authority
      (evicted.foldl (fun s r => s.erase r) refs)
    evictedRounds := Function.update d.evictedRounds authority evictionRound }

/-- What is buffered goes to the store in one batch. -/
def writeBuffered (d : DagState) : DagState :=
  { d with
    store := d.store.write
      { blocks := d.blocksToWrite, commits := d.commitsToWrite,
        commitInfo := d.commitInfoToWrite, finalizedCommits := d.finalizedCommitsToWrite }
    blocksToWrite := []
    commitsToWrite := []
    commitInfoToWrite := []
    finalizedCommitsToWrite := [] }

/-- With nothing buffered nothing is evicted either. -/
def flush (d : DagState) : DagState :=
  if d.blocksToWrite.isEmpty ∧ d.commitsToWrite.isEmpty ∧ d.commitInfoToWrite.isEmpty ∧
      d.finalizedCommitsToWrite.isEmpty then d
  else
    let d := (List.range ctx.committee.size).foldl (evictAuthority ctx) d.writeBuffered
    { d with roundInfo := d.roundInfo.dropWhile fun info => info.round ≤ d.gcRound ctx }

/-! ### Recovery -/

/-- Rounds committed per authority and votes for leaders, from the commits after the
last stored commit info. -/
def recoverCommits (store : Store) : Exec ((Nat → Nat) × ScoringSubdag) := do
  let (rounds, startIndex) := match store.readLastCommitInfo with
    | some (commitRef, info) => ((fun a => info.committedRounds.getD a 0), commitRef.index + 1)
    | none => ((fun _ => 0), 1)
  let commits := match store.readLastCommit with
    | some lastCommit => store.scanCommits ⟨startIndex, lastCommit.index⟩
    | none => []
  let subdags ← commits.mapM (loadCommittedSubdagFromStore store)
  let scoringSubdag ← ({} : ScoringSubdag).addSubdags ctx subdags
  return (commits.foldl (fun rounds c => raiseCommittedRounds rounds c.blocks) rounds, scoringSubdag)

def storedEvictionRound (d : DagState) (authority : Nat) : Nat :=
  let lastRound := match (d.store.scanLastBlocksByAuthor authority 1).getLast? with
    | some b => b.round
    | none => GENESIS_ROUND
  evictionRound lastRound (d.gcRound ctx) ctx.parameters.dagStateCachedRounds

/-- The stored blocks above their authority's eviction round. -/
def recoveredBlocks (d : DagState) : List VerifiedBlock :=
  (List.range ctx.committee.size).flatMap fun authority =>
    d.store.scanBlocksByAuthor authority (d.storedEvictionRound ctx authority + 1)

/-- Marks the blocks of one commit above the gc round; tells whether to go on with the
commit before. -/
def recoverCommitStatus (gcRound index : Nat) (d : DagState) : Exec (DagState × Bool) :=
  match (d.store.scanCommits ⟨index, index⟩).head? with
  | none => .ok (d, false)
  | some commit =>
    if 0 < gcRound ∧ commit.leader.round ≤ gcRound then .ok (d, false)
    else do
      let d ← (commit.blocks.filter fun r => gcRound < r.round).foldlM (fun d r => do
        let (d, first) ← d.setCommitted r
        assert (first = true) .committedTwiceInRecovery
        return d) d
      return (d, true)

/-- Commits are numbered from one. -/
def recoverCommitStatuses (gcRound : Nat) : Nat → DagState → Exec DagState
  | 0, d => do
    let (d, _) ← recoverCommitStatus gcRound 0 d
    return d
  | index + 1, d => do
    let (d, more) ← recoverCommitStatus gcRound (index + 1) d
    if more = true ∧ index ≠ 0 then recoverCommitStatuses gcRound index d else return d

/-- The state before any block is recovered. -/
def recoveredCommits (store : Store) : Exec DagState := do
  let (lastCommittedRounds, scoringSubdag) ← recoverCommits ctx store
  let d : DagState := { lastCommit := store.readLastCommit, lastCommittedRounds, scoringSubdag, store }
  return { d with evictedRounds := fun authority =>
    if authority < ctx.committee.size then d.storedEvictionRound ctx authority else 0 }

def recoverCommittedFlags (d : DagState) : Exec DagState :=
  match d.lastCommit with
  | some lastCommit => recoverCommitStatuses (d.gcRound ctx) lastCommit.index d
  | none => .ok d

/-- Links the own proposals above the gc round again. -/
def recoverIncludedFlags (d : DagState) : Exec DagState :=
  (d.store.scanBlocksByAuthor ctx.ownIndex (d.gcRound ctx + 1)).foldlM (fun d b => do
    let (d, _) ← d.linkCausalHistory ctx b.reference
    return d) d

def new (store : Store) : Exec DagState := do
  let d ← recoveredCommits ctx store
  let blocks := (d.recoveredBlocks ctx).insertionSort fun a b => a.reference ≤ b.reference
  let d ← blocks.foldlM (updateBlockMetadata ctx) d
  let d ← d.recoverCommittedFlags ctx
  d.recoverIncludedFlags ctx

end Sui.Consensus.DagState
