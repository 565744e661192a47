import Sui.Lib.Except

/-! Computations that may panic.

The source states its invariants as assertions, `expect`s and explicit panics; the
model keeps each of them as a `Panic`, so that a result about a run can say which
ones it excludes. -/
namespace Sui.Consensus

open Sui.Lib

/-- The assertions of the consensus crate that the model can reach, by source file. -/
inductive Panic
  /- committee.rs -/
  | emptyCommittee
  | tooManyAuthorities
  | zeroTotalStake
  | stakeOverflow
  | quorumsDoNotIntersect
  | certificateDoesNotSurvive
  /- dag_state.rs -/
  | genesisBlockAccepted
  | ownSlotTaken
  | parentMissing
  | roundGap
  | roundCommitted
  | blockNotInDag
  | slotBelowGc
  | roundInfoNotContiguous
  | roundInfoMissing
  | commitStatusUnknown
  | commitIndexGap
  | commitTimestampDecreases
  | committedTwiceInRecovery
  /- base_committer.rs, leader_slot_decider.rs -/
  | moreThanOneCandidate
  | moreThanOneCertified
  | voteNotInDag
  | committedAndSkipped
  | noDecisionSlots
  | decisionRoundsDiffer
  | anchorTooClose
  /- linearizer.rs -/
  | committedTwice
  | committedBelowGc
  | parentsMissing
  | medianTimestamp
  /- leader_scoring.rs, commit.rs -/
  | duplicateVote
  | commitRangeShrinks
  | subDagBlockMissing
  | subDagLeaderMissing
  /- leader_schedule.rs -/
  | swapThresholdOutOfRange
  | invalidAuthority
  | scoresOfOtherSize
  | multiLeaderSwap
  | noGoodNode
  /- leader_schedule_v3.rs -/
  | commitsNotConsecutive
  | leaderRoundsNotIncreasing
  | leaderBlockMissing
  | scanIncomplete
  | emptyWindow
  | scoreOverflow
  | scoreUnderflow
  /- block_manager.rs -/
  | notSuspended
  | dependencyNotMissing
  | suspendedBelowGc
  | committedBlockSkipped
  | committedBlockMissing
  /- A loop bound of the model; never reached in a well-formed state. -/
  | outOfFuel
deriving DecidableEq, Repr

abbrev Exec := Except Panic

/-- `assert!(c)`. -/
def assert (c : Prop) [Decidable c] (p : Panic) : Exec Unit := if c then .ok () else .error p

variable {p : Panic} {c : Prop} {α : Type} {x : Option α}

@[simp] theorem assert_eq_ok [Decidable c] : assert c p = .ok u ↔ c := by
  unfold assert
  split <;> simp_all

theorem assert_of [Decidable c] (h : c) : assert c p = .ok () := if_pos h

@[simp] theorem assert_eq_error [Decidable c] : assert c p = .error q ↔ ¬c ∧ p = q := by
  unfold assert
  split <;> simp_all

theorem assert_congr [Decidable c] [Decidable d] (h : c ↔ d) : assert c p = assert d p := by
  unfold assert
  split <;> split <;> simp_all

/-- `expect` and `unwrap`. -/
def expect {α : Type} (x : Option α) (p : Panic) : Exec α :=
  match x with
  | some a => .ok a
  | none => .error p

@[simp] theorem expect_eq_ok : expect x p = .ok a ↔ x = some a := by
  cases x <;> simp [expect]

/-- The largest value of the 64-bit unsigned integers. -/
def U64_MAX : Nat := 2 ^ 64 - 1

def checkedU64 (n : Nat) : Exec Nat := if n ≤ U64_MAX then .ok n else .error .stakeOverflow

theorem checkedU64_of_le (h : n ≤ U64_MAX) : checkedU64 n = .ok n := if_pos h

theorem checkedU64_eq_ok : checkedU64 n = .ok m ↔ n = m ∧ n ≤ U64_MAX := by
  unfold checkedU64
  split
  · simp [*]
  · simp [*]

theorem checkedU64_sat (hover : E .stakeOverflow) (n : Nat) :
    Exec.Sat (checkedU64 n) (fun m => m = n ∧ n ≤ U64_MAX) E := by
  unfold checkedU64
  split
  · rename_i hle
    exact ⟨rfl, hle⟩
  · exact hover

end Sui.Consensus
