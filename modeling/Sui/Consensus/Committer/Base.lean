import Sui.Consensus.DagState.Basic

/-! The commit rule for one leader slot.

`BaseCommitter` decides a leader directly from the two rounds above it, or
indirectly from a later committed leader, the anchor. The leader schedule is a
function of the round and the leader offset. -/
namespace Sui.Consensus

open Sui.Lib

def DEFAULT_WAVE_LENGTH : Nat := 3

structure BaseCommitterOptions where
  waveLength : Nat := DEFAULT_WAVE_LENGTH
  leaderOffset : Nat := 0
  roundOffset : Nat := 0
deriving DecidableEq, Repr

namespace BaseCommitterOptions

def leaderRound (o : BaseCommitterOptions) (wave : Nat) : Nat := wave * o.waveLength + o.roundOffset

def decisionRound (o : BaseCommitterOptions) (wave : Nat) : Nat :=
  wave * o.waveLength + o.waveLength - 1 + o.roundOffset

def waveNumber (o : BaseCommitterOptions) (round : Nat) : Nat := (round - o.roundOffset) / o.waveLength

end BaseCommitterOptions

/-- The authority that leads a round, for each leader offset. -/
abbrev LeaderSchedule := Nat → Nat → Nat

/-- Votes seen so far for one leader block. -/
abbrev AllVotes := BTreeMap BlockRef Bool

namespace BaseCommitter

variable (ctx : Context) (d : DagState)

def electLeader (schedule : LeaderSchedule) (o : BaseCommitterOptions) (round : Nat) : Option Slot :=
  if o.leaderRound (o.waveNumber round) ≠ round then none
  else some ⟨round, schedule round o.leaderOffset⟩

/-! ### Votes and certificates -/

/-- The block of a slot that a block supports: the first one on a depth-first walk
of its history. Every step goes to a lower round, which bounds the walk. -/
def findSupportedBlock (leaderSlot : Slot) : Nat → VerifiedBlock → Exec (Option BlockRef)
  | 0, _ => .error .outOfFuel
  | fuel + 1, start =>
    if start.round < leaderSlot.round then .ok none
    else start.ancestors |> Exec.firstSome fun ancestor =>
      if ancestor.slot = leaderSlot then .ok (some ancestor)
      else if ancestor.round ≤ leaderSlot.round then .ok none
      else do
        let block ← expect (d.getBlock ctx ancestor) .voteNotInDag
        findSupportedBlock leaderSlot fuel block

def isVote (potentialVote leaderBlock : VerifiedBlock) : Exec Bool := do
  let supported ← findSupportedBlock ctx d leaderBlock.slot (potentialVote.round + 1) potentialVote
  return supported = some leaderBlock.reference

/-- Whether the reference is a vote; a block that is not in the DAG is none, and is
below the gc round. -/
def isVoteRef (leaderBlock : VerifiedBlock) (reference : BlockRef) : Exec Bool :=
  match d.getBlock ctx reference with
  | some potentialVote => isVote ctx d potentialVote leaderBlock
  | none => do
    assert (reference.round ≤ d.gcRound ctx) .voteNotInDag
    return false

/-- The same, from the map or computed into it. -/
def isVoteCached (leaderBlock : VerifiedBlock) (allVotes : AllVotes) (reference : BlockRef) :
    Exec (Bool × AllVotes) :=
  match allVotes[reference]? with
  | some vote => .ok (vote, allVotes)
  | none => do
    let vote ← isVoteRef ctx d leaderBlock reference
    return (vote, allVotes.insert reference vote)

/-- Counts votes among references until there is a quorum. -/
def countVotes (leaderBlock : VerifiedBlock) (votes : StakeAggregator .quorum) (allVotes : AllVotes) :
    List BlockRef → Exec (Bool × AllVotes)
  | [] => .ok (false, allVotes)
  | reference :: rest => do
    let (vote, allVotes) ← isVoteCached ctx d leaderBlock allVotes reference
    if vote then
      let (votes, reached) := votes.add ctx.committee reference.author
      if reached then return (true, allVotes)
      else countVotes leaderBlock votes allVotes rest
    else countVotes leaderBlock votes allVotes rest

def isCertificate (potentialCertificate leaderBlock : VerifiedBlock) (allVotes : AllVotes) :
    Exec (Bool × AllVotes) :=
  countVotes ctx d leaderBlock {} allVotes potentialCertificate.ancestors

/-! ### The direct rule -/

/-- Whether a quorum of the voting round has no link to the leader at all. -/
def enoughLeaderBlame (votingRound leader : Nat) : Exec Bool := do
  let votingBlocks ← d.getUncommittedBlocksAtRound votingRound
  let blames := votingBlocks.filter fun b => b.ancestors.all fun a => a.author ≠ leader
  return ({} : StakeAggregator .quorum).addUntil ctx.committee (blames.map (·.author))

/-- Counts certificates among the decision blocks until there is a quorum. -/
def countCertificates (leaderBlock : VerifiedBlock) (certificates : StakeAggregator .quorum)
    (allVotes : AllVotes) : List VerifiedBlock → Exec Bool
  | [] => .ok false
  | decisionBlock :: rest => do
    let (certificate, allVotes) ← isCertificate ctx d decisionBlock leaderBlock allVotes
    if certificate then
      let (certificates, reached) := certificates.add ctx.committee decisionBlock.author
      if reached then return true
      else countCertificates leaderBlock certificates allVotes rest
    else countCertificates leaderBlock certificates allVotes rest

def enoughLeaderSupport (decisionRound : Nat) (leaderBlock : VerifiedBlock) : Exec Bool := do
  let decisionBlocks ← d.getUncommittedBlocksAtRound decisionRound
  let totalStake := (decisionBlocks.map fun b => ctx.committee.stake b.author).sum
  if ctx.committee.reachedQuorum totalStake then
    countCertificates ctx d leaderBlock {} ∅ decisionBlocks
  else return false

def tryDirectDecide (o : BaseCommitterOptions) (leader : Slot) : Exec LeaderStatus := do
  let blamed ← enoughLeaderBlame ctx d (leader.round + 1) leader.authority
  if blamed then return .skip leader
  let decisionRound := o.decisionRound (o.waveNumber leader.round)
  let leaderBlocks := d.getUncommittedBlocksAtSlot leader
  let supported ← Exec.filter (enoughLeaderSupport ctx d decisionRound) leaderBlocks
  assert (supported.length ≤ 1) .moreThanOneCandidate
  match supported with
  | block :: _ => return .commit block
  | [] => return .undecided leader

/-! ### The indirect rule -/

def anyCertificate (leaderBlock : VerifiedBlock) (allVotes : AllVotes) :
    List VerifiedBlock → Exec Bool
  | [] => .ok false
  | potentialCertificate :: rest => do
    let (certificate, allVotes) ← isCertificate ctx d potentialCertificate leaderBlock allVotes
    if certificate then return true else anyCertificate leaderBlock allVotes rest

/-- Commits the block of the slot that has a certificate in the anchor's history. -/
def decideLeaderFromAnchor (o : BaseCommitterOptions) (anchor : VerifiedBlock) (leaderSlot : Slot) :
    Exec LeaderStatus := do
  let leaderBlocks := d.getUncommittedBlocksAtSlot leaderSlot
  let decisionRound := o.decisionRound (o.waveNumber leaderSlot.round)
  let potentialCertificates ← d.ancestorsAtRound ctx anchor decisionRound
  let certified ← Exec.filter
    (fun leaderBlock => anyCertificate ctx d leaderBlock ∅ potentialCertificates) leaderBlocks
  assert (certified.length ≤ 1) .moreThanOneCertified
  match certified with
  | block :: _ => return .commit block
  | [] => return .skip leaderSlot

/-- The first leader that is not skipped, if it is committed. -/
def findAnchor : List LeaderStatus → Option VerifiedBlock
  | [] => none
  | .commit anchor :: _ => some anchor
  | .skip _ :: rest => findAnchor rest
  | .undecided _ :: _ => none

/-- Decides from the first committed leader at least a wave above the slot. -/
def tryIndirectDecide (o : BaseCommitterOptions) (leaderSlot : Slot) (leaders : List LeaderStatus) :
    Exec LeaderStatus :=
  match findAnchor (leaders.filter fun x => leaderSlot.round + o.waveLength ≤ x.round) with
  | some anchor => decideLeaderFromAnchor ctx d o anchor leaderSlot
  | none => .ok (.undecided leaderSlot)

end BaseCommitter

end Sui.Consensus
