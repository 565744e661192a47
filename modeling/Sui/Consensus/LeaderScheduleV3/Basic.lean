import Sui.Consensus.Store

/-! The leader schedule of the v3 protocol.

The schedule scores authorities over a sliding window of commits. A commit is
scored once three later commits are known, so the last three commits are pending;
the totals of the window are kept incrementally, and the set of allowed leaders is
selected anew only when a commit index crosses an interval boundary.

The pseudo-random shuffle of the authorities is a parameter, a function of its
seed. Commit indices and window sizes stay far below the bounds of their 32-bit
types and are natural numbers; scores are checked against 64 bits as in the
source. Metrics are left out. -/
namespace Sui.Consensus

open Sui.Lib

def MAX_PENDING_COMMITS : Nat := 3

/-- What seeds the shuffle: the last commit's digest, or the epoch before any commit. -/
inductive Seed
  | commit (digest : Nat)
  | epoch (startTimestampMs epoch : Nat)
deriving DecidableEq, Repr

structure NextCommitLeaderSchedule where
  nextCommitIndex : Nat := 0
  minNextLeaderRound : Nat := 0
  allowedLeaders : List Nat := []
deriving DecidableEq, Repr

/-- The score contributions of one commit, for a committee of `n` authorities. -/
structure ScoresEntry (n : Nat) where
  commitRef : CommitRef
  scoreContributions : Fin n → Nat
  numLeaders : Nat
  leaderStakes : Nat
deriving DecidableEq

structure LeaderScheduleV3 (n : Nat) where
  totalScoresPerAuthority : Fin n → Nat := 0
  totalNumLeaders : Nat := 0
  totalLeaderStakes : Nat := 0
  pendingCommits : List CommittedSubDag := []
  scoresEntries : List (ScoresEntry n) := []
  currentSchedule : NextCommitLeaderSchedule := {}
deriving DecidableEq

instance decidableLE {n : Nat} : DecidableLE (Fin n → Nat) := fun a b =>
  inferInstanceAs (Decidable (∀ i, a i ≤ b i))

/-- `checked_add(..).unwrap()`, entry by entry. -/
def checkedAdd {M : Type} [Add M] [LE M] [DecidableLE M] (max a b : M) : Exec M :=
  if a + b ≤ max then .ok (a + b) else .error .scoreOverflow

/-- `checked_sub(..).unwrap()`, entry by entry. -/
def checkedSub {M : Type} [Sub M] [LE M] [DecidableLE M] (a b : M) : Exec M :=
  if b ≤ a then .ok (a - b) else .error .scoreUnderflow

namespace LeaderScheduleV3

variable (shuffle : Seed → List (Nat × Nat) → List (Nat × Nat)) (ctx : Context)

/-! ### Selecting the leaders -/

def nextCommitIndex {n : Nat} (s : LeaderScheduleV3 n) : Nat :=
  ((s.pendingCommits.getLast?.map fun c => c.commitRef.index).getD 0) + 1

def minNextLeaderRound {n : Nat} (s : LeaderScheduleV3 n) : Nat :=
  ((s.pendingCommits.getLast?.map fun c => c.leader.round).getD 0) + 1

/-- Drops authorities from the end while their stake stays within the cutoff; the
list is reversed, so the lowest score comes first. -/
def dropBadNodes (cutoff : Nat) : Nat → List (Nat × Nat) → List (Nat × Nat)
  | _, [] => []
  | accumulated, (idx, score) :: rest =>
    if accumulated + ctx.committee.stake idx > cutoff then (idx, score) :: rest
    else dropBadNodes cutoff (accumulated + ctx.committee.stake idx) rest

/-- The authorities allowed to lead, by falling score. -/
def selectAllowedLeadersWithFixedConfig (s : LeaderScheduleV3 ctx.committee.size) : List Nat :=
  let byScore := (List.finRange ctx.committee.size).map fun i =>
    (i.val, s.totalScoresPerAuthority i)
  let seed := match s.pendingCommits.getLast? with
    | some c => .commit c.commitRef.digest
    | none => .epoch ctx.epochStartTimestampMs ctx.committee.epoch
  let byScore := (shuffle seed byScore).insertionSort (fun a b => b.2 ≤ a.2)
  let cutoff := ctx.protocolConfig.badNodesStakeThreshold * ctx.committee.totalStake / 100
  ((dropBadNodes ctx cutoff 0 byScore.reverse).reverse).map (·.1)

def computeNextCommitLeaderSchedule (s : LeaderScheduleV3 ctx.committee.size) :
    NextCommitLeaderSchedule where
  nextCommitIndex := s.nextCommitIndex
  minNextLeaderRound := s.minNextLeaderRound
  allowedLeaders := selectAllowedLeadersWithFixedConfig shuffle ctx s

/-- The schedule before any commit, over given total scores. -/
def new (totalScoresPerAuthority : Fin ctx.committee.size → Nat) :
    LeaderScheduleV3 ctx.committee.size :=
  let s : LeaderScheduleV3 ctx.committee.size := { totalScoresPerAuthority }
  { s with currentSchedule := computeNextCommitLeaderSchedule shuffle ctx s }

/-- On an interval boundary the leaders are selected anew; off it only the index
and the minimum round move. -/
def refreshCurrentSchedule (s : LeaderScheduleV3 ctx.committee.size) :
    LeaderScheduleV3 ctx.committee.size :=
  if (s.nextCommitIndex - 1) % ctx.protocolConfig.leaderScheduleUpdateInterval = 0 then
    { s with currentSchedule := computeNextCommitLeaderSchedule shuffle ctx s }
  else
    { s with currentSchedule := { s.currentSchedule with
        nextCommitIndex := s.nextCommitIndex
        minNextLeaderRound := s.minNextLeaderRound } }

/-! ### Scoring a commit -/

/-- Commits up to and including the first one with a leader round above `upper`. -/
def takeUntilLeaderRoundAbove (upper : Nat) : List CommittedSubDag → List CommittedSubDag
  | [] => []
  | c :: rest => if upper < c.leader.round then [c] else c :: takeUntilLeaderRoundAbove upper rest

def scanCommitsUntilLeaderRoundAbove (pending : List CommittedSubDag) (c : CommittedSubDag)
    (upper : Nat) : Exec (List CommittedSubDag) := do
  let out := takeUntilLeaderRoundAbove upper (pending.drop 1 ++ [c])
  assert (out.getLast?.any fun c => upper < c.leader.round) .scanIncomplete
  return out

/-- The blocks of one round in a list of commits. -/
def blocksAtRound (commits : List CommittedSubDag) (round : Nat) : List VerifiedBlock :=
  commits.flatMap fun c => c.blocks.filter fun b => b.round = round

/-- The score of authority `a`: the stake of the leaders its voting block votes for,
times the stake that certifies the voting block. Equivocation scores zero. -/
def scoreContribution (leaderRefs : Finset BlockRef)
    (votingBlocks certifyingBlocks : List VerifiedBlock) (a : Nat) : Nat :=
  match votingBlocks.filter (fun b => b.author = a) with
  | [votingBlock] =>
    let leaderAuthorities := (votingBlock.ancestors.filter (· ∈ leaderRefs)).map BlockRef.author
    let votedForStake := ctx.committee.stakeOf leaderAuthorities.toFinset
    if votedForStake = 0 then 0
    else
      let certifyingAuthorities :=
        (certifyingBlocks.filter fun b => votingBlock.reference ∈ b.ancestors).map (·.author)
      votedForStake * ctx.committee.stakeOf certifyingAuthorities.toFinset
  | _ => 0

/-- The entry of commit `c₃`, given the pending commits after it and the new one. -/
def scoreCommit (pending : List CommittedSubDag) (c₃ c₂ c₁ c : CommittedSubDag) :
    Exec (ScoresEntry ctx.committee.size) := do
  let leaderRound := c₃.leader.round
  assert (c₃.leader.round < c₂.leader.round ∧ c₂.leader.round < c₁.leader.round ∧
    c₁.leader.round < c.leader.round) .leaderRoundsNotIncreasing
  let leaderRefs := ((c₃.blocks.filter fun b => b.round = leaderRound).map (·.reference)).toFinset
  assert (leaderRefs ≠ ∅) .leaderBlockMissing
  assert (c₃.leader ∈ leaderRefs) .leaderBlockMissing
  let votingCommits ← scanCommitsUntilLeaderRoundAbove pending c (leaderRound + 1)
  let certifyingCommits ← scanCommitsUntilLeaderRoundAbove pending c (leaderRound + 2)
  let votingBlocks := blocksAtRound votingCommits (leaderRound + 1)
  let certifyingBlocks := blocksAtRound certifyingCommits (leaderRound + 2)
  let scoreContributions : Fin ctx.committee.size → Nat := fun a =>
    scoreContribution ctx leaderRefs votingBlocks certifyingBlocks a
  assert (∀ a, scoreContributions a ≤ U64_MAX) .scoreOverflow
  return {
    commitRef := c₃.commitRef, scoreContributions, numLeaders := leaderRefs.card
    leaderStakes := ∑ r ∈ leaderRefs, ctx.committee.stake r.author }

/-! ### The window -/

variable {n : Nat}

/-- Takes the oldest entry out of the window and off the totals. -/
def evictOldest (s : LeaderScheduleV3 n) : Exec (LeaderScheduleV3 n) :=
  match s.scoresEntries with
  | [] => .error .emptyWindow
  | evicted :: rest => do
    let scores ← checkedSub s.totalScoresPerAuthority evicted.scoreContributions
    let numLeaders ← checkedSub s.totalNumLeaders evicted.numLeaders
    let leaderStakes ← checkedSub s.totalLeaderStakes evicted.leaderStakes
    return { s with
      totalScoresPerAuthority := scores
      totalNumLeaders := numLeaders
      totalLeaderStakes := leaderStakes
      scoresEntries := rest }

/-- The loop that evicts while the window is full; each iteration shortens it. -/
def evictWhileFull (windowSize : Nat) : Nat → LeaderScheduleV3 n → Exec (LeaderScheduleV3 n)
  | 0, s => .ok s
  | fuel + 1, s =>
    if s.scoresEntries.length ≥ windowSize then do
      let s ← evictOldest s
      evictWhileFull windowSize fuel s
    else .ok s

def pushEntry (s : LeaderScheduleV3 n) (entry : ScoresEntry n) : Exec (LeaderScheduleV3 n) := do
  let scores ← checkedAdd (fun _ => U64_MAX) s.totalScoresPerAuthority entry.scoreContributions
  let numLeaders ← checkedAdd U64_MAX s.totalNumLeaders entry.numLeaders
  let leaderStakes ← checkedAdd U64_MAX s.totalLeaderStakes entry.leaderStakes
  return { s with
    totalScoresPerAuthority := scores
    totalNumLeaders := numLeaders
    totalLeaderStakes := leaderStakes
    scoresEntries := s.scoresEntries ++ [entry] }

/-- The new commit follows the last pending one. -/
def checkConsecutive (s : LeaderScheduleV3 n) (c : CommittedSubDag) : Exec Unit :=
  match s.pendingCommits.getLast? with
  | some last => assert (c.commitRef.index = last.commitRef.index + 1) .commitsNotConsecutive
  | none => .ok ()

def addCommit (s : LeaderScheduleV3 ctx.committee.size) (c : CommittedSubDag) :
    Exec (LeaderScheduleV3 ctx.committee.size) := do
  checkConsecutive s c
  match s.pendingCommits with
  | c₃ :: c₂ :: c₁ :: rest =>
    let entry ← scoreCommit ctx s.pendingCommits c₃ c₂ c₁ c
    let s ← evictWhileFull ctx.protocolConfig.leaderScheduleWindowSize
      (s.scoresEntries.length + 1) s
    let s ← pushEntry s entry
    return refreshCurrentSchedule shuffle ctx { s with pendingCommits := c₂ :: c₁ :: rest ++ [c] }
  | pending =>
    return refreshCurrentSchedule shuffle ctx { s with pendingCommits := pending ++ [c] }

def addCommits (s : LeaderScheduleV3 ctx.committee.size) (cs : List CommittedSubDag) :
    Exec (LeaderScheduleV3 ctx.committee.size) :=
  cs.foldlM (addCommit shuffle ctx) s

/-- The instance that processes a history from the start. -/
def live (history : List CommittedSubDag) : Exec (LeaderScheduleV3 ctx.committee.size) :=
  addCommits shuffle ctx (new shuffle ctx 0) history

/-! ### Recovery -/

/-- Enough commits to fill the window by the last boundary, or all of them. -/
def replayStart (lastCommitIndex : Nat) : Nat :=
  let windowSize := ctx.protocolConfig.leaderScheduleWindowSize
  let updateInterval := ctx.protocolConfig.leaderScheduleUpdateInterval
  let lastScheduleUpdateIndex := lastCommitIndex / updateInterval * updateInterval + 1
  max (lastScheduleUpdateIndex - (windowSize + MAX_PENDING_COMMITS)) 1

def fromStore (store : Store) (lastCommitIndex : Nat) :
    Exec (LeaderScheduleV3 ctx.committee.size) := do
  let leaderSchedule := new shuffle ctx 0
  if lastCommitIndex = 0 then return leaderSchedule
  let commits := store.scanCommits ⟨replayStart ctx lastCommitIndex, lastCommitIndex⟩
  commits.foldlM (fun s commit => do
    let subdag ← loadCommittedSubdagFromStore store commit
    addCommit shuffle ctx s subdag) leaderSchedule

end LeaderScheduleV3

end Sui.Consensus
