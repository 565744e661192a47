import Sui.Consensus.StakeAggregator

/-! Commits and leader decisions.

A `CommittedSubDag` is what consensus outputs; a `TrustedCommit` is its summary
for storage, with the digest of the summary. -/
namespace Sui.Consensus

open Sui.Lib

/-- A commit and its digest. -/
structure TrustedCommit where
  commit : Commit
  digest : Nat
deriving DecidableEq, Repr

namespace TrustedCommit

def index (c : TrustedCommit) : Nat := c.commit.index
def leader (c : TrustedCommit) : BlockRef := c.commit.leader
def round (c : TrustedCommit) : Nat := c.commit.leader.round
def blocks (c : TrustedCommit) : List BlockRef := c.commit.blocks
def timestampMs (c : TrustedCommit) : Nat := c.commit.timestampMs
def reference (c : TrustedCommit) : CommitRef := ⟨c.index, c.digest⟩

end TrustedCommit

structure CommittedSubDag where
  leader : BlockRef
  blocks : List VerifiedBlock
  timestampMs : Nat
  commitRef : CommitRef
  decidedWithLocalBlocks : Bool := true
  recoveredRejectedTransactions : Bool := false
  rejectedTransactionsByBlock : BTreeMap BlockRef (List Nat) := ∅
deriving DecidableEq

inductive Decision
  | direct
  | indirect
  | certified
deriving DecidableEq, Repr

inductive LeaderStatus
  | commit (block : VerifiedBlock)
  | skip (slot : Slot)
  | undecided (slot : Slot)
deriving DecidableEq, Repr

/-- The committed block with whether it was committed directly, or the skipped slot. -/
inductive DecidedLeader
  | commit (block : VerifiedBlock) (direct : Bool)
  | skip (slot : Slot)
deriving DecidableEq, Repr

namespace LeaderStatus

def round : LeaderStatus → Nat
  | .commit b => b.round
  | .skip s => s.round
  | .undecided s => s.round

def isDecided : LeaderStatus → Bool
  | .commit _ => true
  | .skip _ => true
  | .undecided _ => false

def intoDecidedLeader (status : LeaderStatus) (direct : Bool) : Option DecidedLeader :=
  match status with
  | .commit b => some (.commit b direct)
  | .skip s => some (.skip s)
  | .undecided _ => none

end LeaderStatus

/-- An inclusive range of commit indices. -/
structure CommitRange where
  start : Nat
  stop : Nat
deriving DecidableEq, Repr

/-- Moves the end of the range; it never moves back. -/
def CommitRange.extendTo (r : CommitRange) (index : Nat) : Exec CommitRange := do
  assert (r.stop ≤ index) .commitRangeShrinks
  return { r with stop := index }

structure ReputationScores where
  scoresPerAuthority : List Nat
  commitRange : CommitRange
deriving DecidableEq, Repr

/-- What is stored beside a commit for recovery. -/
structure CommitInfo where
  committedRounds : List Nat
  reputationScores : ReputationScores
deriving DecidableEq, Repr

end Sui.Consensus
