import Sui.Consensus.Commit

/-! The persistent store.

Four tables, written in batches. The index of blocks by author that the source
keeps beside the block table holds the same keys in another order, so a scan by
author is a filter of the block table. -/
namespace Sui.Consensus

open Sui.Lib

structure WriteBatch where
  blocks : List VerifiedBlock := []
  commits : List TrustedCommit := []
  commitInfo : List (CommitRef × CommitInfo) := []
  finalizedCommits : List (CommitRef × BTreeMap BlockRef (List Nat)) := []

structure Store where
  blocks : BTreeMap BlockRef VerifiedBlock := ∅
  commits : BTreeMap CommitRef TrustedCommit := ∅
  commitInfo : BTreeMap CommitRef CommitInfo := ∅
  finalizedCommits : BTreeMap CommitRef (BTreeMap BlockRef (List Nat)) := ∅

namespace Store

def write (s : Store) (batch : WriteBatch) : Store where
  blocks := batch.blocks.foldl (fun m b => m.insert b.reference b) s.blocks
  commits := batch.commits.foldl (fun m c => m.insert c.reference c) s.commits
  commitInfo := batch.commitInfo.foldl (fun m c => m.insert c.1 c.2) s.commitInfo
  finalizedCommits := batch.finalizedCommits.foldl (fun m c => m.insert c.1 c.2) s.finalizedCommits

def readBlocks (s : Store) (refs : List BlockRef) : List (Option VerifiedBlock) :=
  refs.map fun r => s.blocks[r]?

/-- The blocks of `author` at `startRound` and above, ascending. -/
def scanBlocksByAuthor (s : Store) (author startRound : Nat) : List VerifiedBlock :=
  (s.blocks.toList.filter fun p => p.1.author = author ∧ startRound ≤ p.1.round).map (·.2)

/-- The last `numOfRounds` blocks of `author`, ascending. -/
def scanLastBlocksByAuthor (s : Store) (author numOfRounds : Nat) : List VerifiedBlock :=
  let blocks := (s.blocks.toList.filter fun p => p.1.author = author).map (·.2)
  blocks.drop (blocks.length - numOfRounds)

def readLastCommit (s : Store) : Option TrustedCommit :=
  s.commits.toList.getLast?.map (·.2)

/-- The commits with an index in the range, ascending. -/
def scanCommits (s : Store) (range : CommitRange) : List TrustedCommit :=
  (s.commits.toList.filter fun p => range.start ≤ p.1.index ∧ p.1.index ≤ range.stop).map (·.2)

def readLastCommitInfo (s : Store) : Option (CommitRef × CommitInfo) :=
  s.commitInfo.toList.getLast?

def readRejectedTransactions (s : Store) (r : CommitRef) :
    Option (BTreeMap BlockRef (List Nat)) :=
  s.finalizedCommits[r]?

end Store

/-- Rebuilds a sub-dag from its commit and the stored blocks. -/
def loadCommittedSubdagFromStore (store : Store) (commit : TrustedCommit) :
    Exec CommittedSubDag := do
  let blocks ← (store.readBlocks commit.blocks).mapM fun b => expect b .subDagBlockMissing
  let leader ← expect (blocks.find? fun b => b.reference = commit.leader) .subDagLeaderMissing
  let subdag : CommittedSubDag :=
    { leader := leader.reference, blocks, timestampMs := commit.timestampMs,
      commitRef := commit.reference }
  match store.readRejectedTransactions commit.reference with
  | some rejectVotes =>
    return { subdag with
      decidedWithLocalBlocks := true
      recoveredRejectedTransactions := true
      rejectedTransactionsByBlock := rejectVotes }
  | none =>
    return { subdag with
      decidedWithLocalBlocks := false
      recoveredRejectedTransactions := false }

/-- What a rebuilt sub-dag takes from its commit. -/
theorem loadCommittedSubdagFromStore_spec (h : loadCommittedSubdagFromStore store commit = .ok d) :
    d.commitRef = commit.reference ∧ d.leader = commit.leader ∧
      d.leader ∈ d.blocks.map (·.reference) ∧ d.timestampMs = commit.timestampMs ∧
      (store.readBlocks commit.blocks).mapM (fun b => expect b .subDagBlockMissing) = .ok d.blocks := by
  simp only [loadCommittedSubdagFromStore, Exec.bind_eq_ok, expect_eq_ok] at h
  obtain ⟨blocks, hb, leader, hl, h⟩ := h
  have hlead : leader.reference = commit.leader := by simpa using List.find?_some hl
  have hmem : leader.reference ∈ blocks.map (·.reference) := List.mem_map_of_mem (List.mem_of_find?_eq_some hl)
  split at h
  · cases h
    exact ⟨rfl, hlead, hmem, rfl, hb⟩
  · cases h
    exact ⟨rfl, hlead, hmem, rfl, hb⟩

end Sui.Consensus
