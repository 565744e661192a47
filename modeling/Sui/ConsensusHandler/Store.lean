import Sui.ConsensusHandler.Basic
import Sui.Quarantine.Transparent

/-! What the handler reads and writes, in terms of the outputs pushed so far.

The locks and the processed messages that the handler sees are those of all outputs, whether
they wait in the quarantine or have been written (`lockOf`, `processed_iff`). A push adds an
output, a flush changes nothing that is seen, and after a restart what is seen are the first
outputs, up to the last one written (`restart_ok`). -/
namespace Sui.ConsensusHandler

open Sui.Lib Exec Sui.Quarantine List
open ConsensusCommitOutput ConsensusOutputQuarantine EpochTables

section
variable {pushed : List ConsensusCommitOutput} {system : System} {next : System}

/-! ### Outputs -/

/-- The round of the last output. -/
def lastRound (pushed : List ConsensusCommitOutput) : Round :=
  (((({} : EpochTables).applyOutputs pushed).lastConsensusStats).map (·.lastCommittedRound)).getD 0

theorem lastRound_append (pushed : List ConsensusCommitOutput)
    (stats : ExecutionIndicesWithStats) (h : output.consensusCommitStats = some stats) :
    lastRound (pushed ++ [output]) = stats.lastCommittedRound := by
  unfold lastRound applyOutputs
  rw [foldl_append, foldl_cons, foldl_nil, applyOutput, addTo, h]
  rfl

/-! ### Reads -/

theorem mem_keys_iff {outputs : List ConsensusCommitOutput} (a : α) {key : SequencedConsensusTransactionKey} :
    key ∈ (outputs.flatMap fun o => o.consensusMessagesProcessed.toList.map (·, a)).map Prod.fst ↔
      ∃ o ∈ outputs, key ∈ o.consensusMessagesProcessed := by
  simp only [map_flatMap, map_map, mem_flatMap]
  refine exists_congr fun o => and_congr_right fun _ => ?_
  rw [← Std.ExtTreeSet.mem_toList]
  simp

theorem isSome_last_iff [LinearOrder κ] {ws : List (κ × ν)} {k : κ} :
    (Writes.last ws k).isSome = true ↔ k ∈ ws.map Prod.fst := by
  rw [← not_iff_not, ← Writes.last_eq_none_iff]
  simp

section
variable (h : System.Ok {} pushed system)
include h

/-- A message is seen as processed from the push of its output on. -/
theorem processed_iff (key : SequencedConsensusTransactionKey) :
    isConsensusMessageProcessed system key = true ↔ ∃ o ∈ pushed, key ∈ o.consensusMessagesProcessed := by
  obtain ⟨written, hpushed, htables, -⟩ := h.split
  have hqueue : system.consensusQuarantine.processedConsensusMessages.containsKey key = true ↔
      ∃ o ∈ system.consensusQuarantine.outputQueue, key ∈ o.consensusMessagesProcessed := by
    rw [RefCountedHashMap.containsKey, h.represents.processed key, Option.isSome_map, isSome_last_iff]
    exact mem_keys_iff ()
  have hwritten : system.tables.consensusMessageProcessed.contains key = true ↔
      ∃ o ∈ written, key ∈ o.consensusMessagesProcessed := by
    have happlied : (({} : EpochTables).applyOutputs written).consensusMessageProcessed = Writes.apply ∅
        (written.flatMap fun o => o.consensusMessagesProcessed.toList.map (·, true)) :=
      applyOutputs_writes (fun _ _ => rfl) ..
    have hprocessed : system.tables.consensusMessageProcessed = _ :=
      (congrArg (·.consensusMessageProcessed) htables).trans happlied
    rw [hprocessed, Std.ExtTreeMap.contains_iff_mem, ← mem_keys_iff true, ← isSome_last_iff,
      Std.ExtTreeMap.mem_iff_isSome_getElem?, Writes.get_apply]
    simp
  rw [isConsensusMessageProcessed, Bool.or_eq_true, hqueue, hwritten, hpushed]
  simp only [mem_append, or_and_right, exists_or]
  exact or_comm

/-! ### Writes -/

theorem push_ok (hpush : system.step (.push output) = .ok (pushedOutput, next)) :
    System.Ok {} (pushed ++ [system.lockedOutput output]) next ∧ next.ownedObjectLocks = ∅ := by
  have hok := (System.step_ok h (.push output)).ok hpush
  obtain ⟨_, houtput, hpush⟩ := bind_eq_ok.mp hpush
  rw [System.commitOutput_eq] at houtput
  cases houtput
  obtain ⟨⟨quarantine, tables⟩, -, hpush⟩ := bind_eq_ok.mp hpush
  cases hpush
  exact ⟨hok, rfl⟩

theorem flush_ok (flush : Flush) (hflush : system.step flush.action = .ok (none', next)) :
    System.Ok {} pushed next ∧ next.ownedObjectLocks = system.ownedObjectLocks := by
  have hok := (System.step_ok h flush.action).ok hflush
  have hframe : none' = none ∧ next.ownedObjectLocks = system.ownedObjectLocks := by
    cases flush with
    | insertBuilderSummary sequenceNumber summary contents =>
      cases hflush
      exact ⟨rfl, rfl⟩
    | commit =>
      obtain ⟨⟨quarantine, tables⟩, -, hflush⟩ := bind_eq_ok.mp hflush
      cases hflush
      exact ⟨rfl, rfl⟩
    | updateHighestExecutedCheckpoint checkpoint =>
      obtain ⟨⟨quarantine, batch⟩, -, hflush⟩ := bind_eq_ok.mp hflush
      cases hflush
      exact ⟨rfl, rfl⟩
  obtain ⟨rfl, hlocks⟩ := hframe
  refine ⟨?_, hlocks⟩
  rwa [Option.toList_none, append_nil] at hok

/-- What is left after a restart: the outputs that have been written. -/
theorem restart_ok (highest : CheckpointSequenceNumber) :
    ∃ written, written <+: pushed ∧ System.Ok {} written ⟨.new highest, system.tables, ∅⟩ ∧
      (system.tables.lastConsensusStats.map (·.lastCommittedRound)).getD 0 = lastRound written := by
  obtain ⟨written, hpushed, htables, hlocks⟩ := h.split
  refine ⟨written, ⟨_, hpushed.symm⟩, ⟨new_represents highest, ⟨written, ?_, htables, ?_⟩, by simp⟩, ?_⟩
  · simp [new]
  · refine ⟨?_, by simp [new], by simp [new]⟩
    -- The written outputs agree with each other, as they agree with all of them.
    show Agree (written ++ [])
    rw [append_nil]
    exact hlocks.agree.of_append
  · have hstats : system.tables.lastConsensusStats =
        (({} : EpochTables).applyOutputs written).lastConsensusStats :=
      congrArg (·.lastConsensusStats) htables
    rw [hstats]
    rfl

end

end

end Sui.ConsensusHandler
