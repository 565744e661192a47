import Sui.Quarantine.Overlay

/-! The quarantine is transparent.

A reader of next versions or locks sees what the tables would hold if each output had been
written when it was pushed (`run_transparent`). The tables hold the outputs that have left
the queue, in the order they were pushed; the overlays make up for the ones that wait.

For locks this needs that the outputs agree: the overlay forgets a lock when the first output
that has it leaves, and the tables show that output's (`conflicting_locks_seen`). The handler
acquires locks against what it reads, so its outputs do agree.

Nothing stays in the overlays when the outputs have left (`run_overlays`). -/
namespace Sui.Quarantine

open Sui.Lib BTreeMap List
open Writes (last Counted)
open ConsensusCommitOutput ConsensusOutputQuarantine

/-! ### The tables -/

namespace EpochTables

/-- The tables with the output written to them. -/
def applyOutput (tables : EpochTables) (output : ConsensusCommitOutput) : EpochTables :=
  (output.addTo {}).write tables

def applyOutputs (tables : EpochTables) (outputs : List ConsensusCommitOutput) : EpochTables :=
  outputs.foldl applyOutput tables

/-- The tables that outputs are written to. -/
def outputTables (tables : EpochTables) : EpochTables :=
  { tables with builderDigestToCheckpoint := ∅, builderCheckpointSummary := ∅ }

/-- A table that each output extends by its writes. -/
theorem applyOutputs_writes [LinearOrder κ] {table : EpochTables → BTreeMap κ ν}
    {writes : ConsensusCommitOutput → List (κ × ν)}
    (h : ∀ tables o, table (applyOutput tables o) = Writes.apply (table tables) (writes o))
    (tables : EpochTables) (outputs : List ConsensusCommitOutput) :
    table (tables.applyOutputs outputs) = Writes.apply (table tables) (outputs.flatMap writes) := by
  induction outputs generalizing tables with
  | nil => rfl
  | cons output outputs ih =>
    rw [flatMap_cons, Writes.apply_append, ← h]
    exact ih _

theorem nextSharedObjectVersions_applyOutputs (tables : EpochTables) (outputs : List ConsensusCommitOutput) :
    (tables.applyOutputs outputs).nextSharedObjectVersions =
      Writes.apply tables.nextSharedObjectVersions (outputs.flatMap nextVersionWrites) :=
  applyOutputs_writes (fun _ _ => rfl) ..

theorem outputTables_applyOutputs {tables tables' : EpochTables}
    (h : tables.outputTables = tables'.outputTables) (outputs : List ConsensusCommitOutput) :
    (tables.applyOutputs outputs).outputTables = (tables'.applyOutputs outputs).outputTables := by
  induction outputs generalizing tables tables' with
  | nil => exact h
  | cons output outputs ih =>
    refine ih ?_
    obtain ⟨⟩ := tables
    obtain ⟨⟩ := tables'
    obtain ⟨rfl, rfl, rfl, rfl, rfl, rfl, rfl, -⟩ := h
    rfl

end EpochTables

open EpochTables

theorem write_addTo (output : ConsensusCommitOutput) (batch : DBBatch) (tables : EpochTables) :
    (output.addTo batch).write tables = (batch.write tables).applyOutput output := by
  simp only [addTo, DBBatch.write, applyOutput, Writes.apply_append, foldl_append]
  rfl

/-! ### A commit -/

namespace ConsensusOutputQuarantine

/-- The locks of the outputs leave the overlay. -/
def eraseLocks (locks : HashMap ObjectRef LockDetails) (outputs : List ConsensusCommitOutput) :
    HashMap ObjectRef LockDetails :=
  outputs.foldl (fun m o => o.ownedObjectLocks.keys.foldl (fun m objRef => m.erase objRef) m) locks

/-- The first outputs have left, and are what the batch gains for their tables. -/
structure Committed (q : ConsensusOutputQuarantine) (batch : DBBatch) (q' : ConsensusOutputQuarantine)
    (batch' : DBBatch) (outputs : List ConsensusCommitOutput) : Prop where
  queue : q.outputQueue = outputs ++ q'.outputQueue
  written : ∀ tables : EpochTables,
    (batch'.write tables).outputTables = ((batch.write tables).applyOutputs outputs).outputTables
  locks : q'.ownedObjectLocks = eraseLocks q.ownedObjectLocks outputs
  represents : q'.Represents

theorem Committed.trans (h : Committed q batch q' batch' outputs)
    (h' : Committed q' batch' q'' batch'' outputs') : Committed q batch q'' batch'' (outputs ++ outputs') := by
  refine ⟨?_, fun tables => ?_, ?_, h'.represents⟩
  · rw [h.queue, h'.queue, append_assoc]
  · rw [applyOutputs, foldl_append]
    exact (h'.written tables).trans (outputTables_applyOutputs (h.written tables) outputs')
  · rw [h'.locks, h.locks, eraseLocks, eraseLocks, eraseLocks, foldl_append]

variable {q : ConsensusOutputQuarantine} {batch : DBBatch}

/-- The builder's maps and the watermark do not concern the outputs. -/
theorem Represents.aside (h : q.Represents) :
    Represents { q with
      highestExecutedCheckpoint := highest
      builderCheckpointSummary := summaries
      builderDigestToCheckpoint := digests } :=
  ⟨h.versions, h.debts, h.randomnessDebts, h.processed⟩

theorem foldlM_removeDigest_found (seq : CheckpointSequenceNumber) (contents : CheckpointContents)
    (m : HashMap TransactionDigest CheckpointSequenceNumber) :
    Exec.Sat (contents.foldlM (removeDigest seq) m) (fun _ => True) Found := by
  induction contents generalizing m with
  | nil => trivial
  | cons digest contents ih =>
    rw [foldlM_cons]
    have hdigest : Exec.Sat (removeDigest seq m digest) (fun _ => True) Found :=
      (unwrap_found (by simp [Found])).bind fun _ _ =>
        (require_found (by simp [Found])).bind fun _ _ => trivial
    exact hdigest.bind fun m _ => ih m

theorem popSummary_spec (h : q.Represents) (highest : Option CheckpointHeight)
    (seq : CheckpointSequenceNumber) (summary : BuilderCheckpointSummary) (contents : CheckpointContents) :
    Exec.Sat (q.popSummary batch highest seq summary contents)
      (fun p => Committed q batch p.1 p.2.1 []) Found := by
  refine (foldlM_removeDigest_found seq contents _).bind fun digests _ => ?_
  refine (unwrap_found (by simp [Found])).bind fun height _ => ?_
  refine (require_found (by simp [Found])).bind fun _ _ => ?_
  exact ⟨rfl, fun _ => rfl, rfl, h.aside⟩

theorem commitSummaries_spec (h : q.Represents) (highest : Option CheckpointHeight)
    (entries : List (CheckpointSequenceNumber × BuilderCheckpointSummary × CheckpointContents)) :
    Exec.Sat (q.commitSummaries batch highest entries) (fun p => Committed q batch p.1 p.2.1 []) Found := by
  induction entries generalizing q batch highest with
  | nil => exact ⟨rfl, fun _ => rfl, rfl, h⟩
  | cons entry entries ih =>
    obtain ⟨seq, summary, contents⟩ := entry
    unfold commitSummaries
    split
    · refine (popSummary_spec h highest seq summary contents).bind ?_
      intro ⟨q₁, batch₁, highest₁⟩ hpop
      exact (ih hpop.represents highest₁).mono fun _ h => hpop.trans h
    · exact ⟨rfl, fun _ => rfl, rfl, h⟩

theorem lastDrainIdx_found (height : CheckpointHeight) (i : Nat) (last : Option Nat)
    (outputs : List ConsensusCommitOutput) :
    Exec.Sat (lastDrainIdx height i last outputs) (fun _ => True) Found := by
  induction outputs generalizing i last with
  | nil => trivial
  | cons output outputs ih =>
    refine (unwrap_found (by simp [Found])).bind fun stats _ => ?_
    split
    · trivial
    · exact ih ..

theorem drain_spec (n : Nat) (h : q.Represents) (batch : DBBatch) :
    Exec.Sat (drain batch n q) (fun p => ∃ outputs, Committed q batch p.1 p.2 outputs) Found := by
  induction n generalizing q batch with
  | zero => exact ⟨[], rfl, fun _ => rfl, rfl, h⟩
  | succ n ih =>
    unfold drain
    cases hqueue : q.outputQueue with
    | nil => exact ⟨[], rfl, fun _ => rfl, rfl, h⟩
    | cons output rest =>
      obtain ⟨hversions, hdebts, hrandomness, hprocessed⟩ := h
      rw [hqueue, flatMap_cons] at hversions hdebts hrandomness hprocessed
      obtain ⟨versions, hremove, hversions⟩ :=
        removeSharedObjectNextVersions_spec (q := { q with outputQueue := rest }) hversions
      show Exec.Sat (removeSharedObjectNextVersions { q with outputQueue := rest } output >>= _) _ _
      rw [hremove]
      refine (writeToBatch_spec output batch).bind fun batch₁ hbatch => ?_
      have hnext : Represents (((({ q with outputQueue := rest, sharedObjectNextVersions := versions
          } : ConsensusOutputQuarantine).removeProcessedConsensusMessages
          output).removeCongestionControlDebts output).removeOwnedObjectLocks output) := by
        refine ⟨hversions, ?_, ?_, ?_⟩
        · have hd := RefCountedHashMap.foldl_remove_counted _ hdebts
          rwa [map_fst_debtWrites, foldl_map] at hd
        · have hd := RefCountedHashMap.foldl_remove_counted _ hrandomness
          rwa [map_fst_debtWrites, foldl_map] at hd
        · have hd := RefCountedHashMap.foldl_remove_counted _ hprocessed
          rwa [processedWrites, map_map, foldl_map] at hd
      refine (ih hnext batch₁).mono fun p hp => ?_
      obtain ⟨outputs, hd⟩ := hp
      refine ⟨[output] ++ outputs, Committed.trans ?_ hd⟩
      refine ⟨hqueue, fun tables => ?_, rfl, hnext⟩
      rw [hbatch, write_addTo]
      rfl

theorem commitWithBatch_spec (h : q.Represents) :
    Exec.Sat (q.commitWithBatch batch) (fun p => ∃ outputs, Committed q batch p.1 p.2 outputs) Found := by
  refine (commitSummaries_spec h none _).bind ?_
  intro ⟨q₁, batch₁, highest⟩ hsummaries
  cases highest with
  | none => exact ⟨[], hsummaries⟩
  | some height =>
    refine (lastDrainIdx_found height 0 none q₁.outputQueue).bind fun idx _ => ?_
    cases idx with
    | none => exact ⟨[], hsummaries⟩
    | some idx =>
      exact (drain_spec (idx + 1) hsummaries.represents batch₁).mono fun p ⟨_, hd⟩ => ⟨_, hsummaries.trans hd⟩

theorem get_eraseLocks_iff : (eraseLocks locks outputs)[r]? = some v ↔
    locks[r]? = some v ∧ ∀ o ∈ outputs, r ∉ o.ownedObjectLocks := by
  induction outputs generalizing locks with
  | nil => simp [eraseLocks]
  | cons output outputs ih =>
    refine ih.trans ?_
    rw [get_foldl_erase, forall_mem_cons]
    by_cases hr : r ∈ output.ownedObjectLocks
    · simp [hr]
    · simp [hr]

end ConsensusOutputQuarantine

/-! ### The locks -/

/-- The lock of the last output that has it. -/
def lockOf (outputs : List ConsensusCommitOutput) (r : ObjectRef) : Option LockDetails :=
  outputs.reverse.findSome? fun o => o.ownedObjectLocks[r]?

theorem lockOf_append (outputs outputs' : List ConsensusCommitOutput) (r : ObjectRef) :
    lockOf (outputs ++ outputs') r = (lockOf outputs' r).or (lockOf outputs r) := by
  rw [lockOf, reverse_append, List.findSome?_append]
  rfl

theorem lockOf_singleton (output : ConsensusCommitOutput) (r : ObjectRef) :
    lockOf [output] r = output.ownedObjectLocks[r]? := by
  simp [lockOf]

theorem exists_of_lockOf (h : lockOf outputs r = some v) : ∃ o ∈ outputs, o.ownedObjectLocks[r]? = some v := by
  obtain ⟨o, ho, hv⟩ := exists_of_findSome?_eq_some h
  exact ⟨o, mem_reverse.mp ho, hv⟩

theorem get_locks_applyOutputs (start : EpochTables) (outputs : List ConsensusCommitOutput) (r : ObjectRef) :
    (start.applyOutputs outputs).ownedObjectLockedTransactions[r]? =
      (lockOf outputs r).or start.ownedObjectLockedTransactions[r]? := by
  have hlocks : (start.applyOutputs outputs).ownedObjectLockedTransactions =
      Writes.apply start.ownedObjectLockedTransactions (outputs.flatMap fun o => o.ownedObjectLocks.toList) :=
    applyOutputs_writes (fun _ _ => rfl) ..
  rw [hlocks, Writes.get_apply, Writes.last_flatMap]
  simp only [Writes.last_toList]
  rfl

/-- All outputs with a lock have it for the same transaction. -/
def Agree (outputs : List ConsensusCommitOutput) : Prop :=
  ∀ o ∈ outputs, ∀ (r : ObjectRef) (v : LockDetails), o.ownedObjectLocks[r]? = some v →
    lockOf outputs r = some v

theorem Agree.of_append (h : Agree (outputs ++ outputs')) : Agree outputs := by
  intro o ho r v hv
  cases hr : lockOf outputs r with
  | none =>
    have hnone := List.findSome?_eq_none_iff.mp hr o (mem_reverse.mpr ho)
    cases hv.symm.trans hnone
  | some v' =>
    obtain ⟨o', ho', hv'⟩ := exists_of_lockOf hr
    exact (h o' (mem_append_left _ ho') r v' hv').symm.trans (h o (mem_append_left _ ho) r v hv)

/-- The outputs agree on their locks, and the overlay has each lock that waits unless an output
with it has left. -/
structure LocksOk (written queue : List ConsensusCommitOutput)
    (overlay : HashMap ObjectRef LockDetails) : Prop where
  agree : Agree (written ++ queue)
  shown : ∀ (r : ObjectRef) (v : LockDetails), overlay[r]? = some v →
    ∃ o ∈ queue, o.ownedObjectLocks[r]? = some v
  covered : ∀ o ∈ queue, ∀ r ∈ o.ownedObjectLocks,
    r ∈ overlay ∨ ∃ o' ∈ written, r ∈ o'.ownedObjectLocks

namespace LocksOk
variable {written queue : List ConsensusCommitOutput} {overlay : HashMap ObjectRef LockDetails}

section
variable (h : LocksOk written queue overlay)
include h

/-- The overlay and the written outputs show what all outputs together set. -/
theorem read (r : ObjectRef) : overlay[r]?.or (lockOf written r) = lockOf (written ++ queue) r := by
  cases hr : overlay[r]? with
  | some v =>
    obtain ⟨o, ho, hv⟩ := h.shown r v hr
    rw [h.agree o (mem_append_right _ ho) r v hv]
    rfl
  | none =>
    rw [Option.none_or]
    by_cases hwritten : ∃ o ∈ written, r ∈ o.ownedObjectLocks
    · obtain ⟨o, ho, hro⟩ := hwritten
      obtain ⟨v, hv⟩ := BTreeMap.mem_iff_get.mp hro
      rw [h.agree o (mem_append_left _ ho) r v hv, h.agree.of_append o ho r v hv]
    · have hqueue : lockOf queue r = none := by
        refine Option.eq_none_iff_forall_ne_some.mpr fun v hv => ?_
        obtain ⟨o, ho, hv⟩ := exists_of_lockOf hv
        rcases h.covered o ho r (mem_of_get hv) with hmem | hmem
        · exact not_mem_iff_get.mpr hr hmem
        · exact hwritten hmem
      rw [lockOf_append, hqueue, Option.none_or]

theorem commit (hqueue : queue = outputs ++ rest) :
    LocksOk (written ++ outputs) rest (eraseLocks overlay outputs) := by
  subst hqueue
  refine ⟨?_, fun r v hr => ?_, fun o ho r hro => ?_⟩
  · rw [append_assoc]
    exact h.agree
  · obtain ⟨hget, hnot⟩ := get_eraseLocks_iff.mp hr
    obtain ⟨o, ho, hv⟩ := h.shown r v hget
    refine ⟨o, (mem_append.mp ho).resolve_left fun ho => ?_, hv⟩
    exact hnot o ho (mem_of_get hv)
  · by_cases hleft : ∃ o' ∈ outputs, r ∈ o'.ownedObjectLocks
    · obtain ⟨o', ho', hro'⟩ := hleft
      exact .inr ⟨o', mem_append_right _ ho', hro'⟩
    · rcases h.covered o (mem_append_right _ ho) r hro with hmem | ⟨o', ho', hro'⟩
      · obtain ⟨v, hv⟩ := BTreeMap.mem_iff_get.mp hmem
        exact .inl (mem_of_get (get_eraseLocks_iff.mpr ⟨hv, fun o' ho' hro' => hleft ⟨o', ho', hro'⟩⟩))
      · exact .inr ⟨o', mem_append_left _ ho', hro'⟩

/-- An output joins whose locks are not locked by others. -/
theorem push {output : ConsensusCommitOutput}
    (hfree : ∀ (r : ObjectRef) (v : LockDetails), output.ownedObjectLocks[r]? = some v →
      ∀ v', lockOf (written ++ queue) r = some v' → v' = v) :
    LocksOk written (queue ++ [output])
      (output.ownedObjectLocks.toList.foldl (fun m entry => m.insert entry.1 entry.2) overlay) := by
  have hoverlay : ∀ r : ObjectRef, (output.ownedObjectLocks.toList.foldl
      (fun m entry => m.insert entry.1 entry.2) overlay)[r]? =
      (output.ownedObjectLocks[r]?).or overlay[r]? := fun r => by
    have hget := Writes.get_apply overlay output.ownedObjectLocks.toList r
    rwa [Writes.last_toList] at hget
  refine ⟨fun o ho r v hv => ?_, fun r v hr => ?_, fun o ho r hro => ?_⟩
  · rw [← append_assoc] at ho ⊢
    rw [lockOf_append, lockOf_singleton]
    rcases mem_concat.mp ho with ho | rfl
    · have hold := h.agree o ho r v hv
      cases hr : output.ownedObjectLocks[r]? with
      | some v' => rw [hfree r v' hr v hold, Option.some_or]
      | none => exact hold
    · rw [hv, Option.some_or]
  · rw [hoverlay, Option.or_eq_some_iff] at hr
    rcases hr with hr | ⟨-, hr⟩
    · exact ⟨output, by simp, hr⟩
    · obtain ⟨o, ho, hv⟩ := h.shown r v hr
      exact ⟨o, mem_append_left _ ho, hv⟩
  · have hmem : r ∈ output.ownedObjectLocks ∨ r ∈ overlay → r ∈
        output.ownedObjectLocks.toList.foldl (fun m entry => m.insert entry.1 entry.2) overlay := by
      rw [BTreeMap.mem_iff_get, BTreeMap.mem_iff_get, BTreeMap.mem_iff_get, hoverlay]
      intro hor
      cases hr : output.ownedObjectLocks[r]? with
      | some v => exact ⟨v, rfl⟩
      | none =>
        rw [hr] at hor
        simpa using hor
    rcases mem_concat.mp ho with ho | ho
    · exact (h.covered o ho r hro).imp_left fun hr => hmem (.inr hr)
    · rw [ho] at hro
      exact .inl (hmem (.inl hro))

end

end LocksOk

/-! ### Reads -/

/-- What a lookup through the quarantine returns. -/
theorem lookup_eq (keys : List κ) (cached table : κ → Option ν) :
    doFallbackLookup keys (fun k => .ofOption (cached k)) (fun keys => keys.map table) =
      .ok (keys.map fun k => (cached k).or (table k)) := by
  refine (doFallbackLookup_eq keys _ table).trans (congrArg Except.ok ?_)
  refine map_congr_left fun k _ => ?_
  cases cached k <;> rfl

/-- Readers see the tables as if the outputs had been written, which they are from the first one
on. -/
structure Transparent (start : EpochTables) (pushed : List ConsensusCommitOutput) (s : System) :
    Prop where
  nextVersions : ∀ keys, s.consensusQuarantine.getNextSharedObjectVersions s.tables keys =
    .ok (keys.map ((start.applyOutputs pushed).nextSharedObjectVersions[·]?))
  locks : ∀ objRefs, s.consensusQuarantine.getOwnedObjectLocks s.tables objRefs =
    .ok (objRefs.map ((start.applyOutputs pushed).ownedObjectLockedTransactions[·]?))
  written : ∃ written, pushed = written ++ s.consensusQuarantine.outputQueue ∧
    s.tables.outputTables = (start.applyOutputs written).outputTables

/-- The overlays have nothing. -/
structure ConsensusOutputQuarantine.Clean (q : ConsensusOutputQuarantine) : Prop where
  versions : q.sharedObjectNextVersions.map = ∅
  debts : q.congestionControlObjectDebts.map = ∅
  randomnessDebts : q.congestionControlRandomnessObjectDebts.map = ∅
  processed : q.processedConsensusMessages.map = ∅
  locks : q.ownedObjectLocks = ∅

namespace System

/-- What holds of the system after some outputs have been pushed. -/
structure Ok (start : EpochTables) (pushed : List ConsensusCommitOutput) (s : System) : Prop where
  represents : s.consensusQuarantine.Represents
  split : ∃ written, pushed = written ++ s.consensusQuarantine.outputQueue ∧
    s.tables.outputTables = (start.applyOutputs written).outputTables ∧
    LocksOk written s.consensusQuarantine.outputQueue s.consensusQuarantine.ownedObjectLocks
  /-- The locks of the commit are not locked by others. -/
  free : ∀ (r : ObjectRef) (v : LockDetails), s.ownedObjectLocks[r]? = some v → ∀ v',
    (start.applyOutputs pushed).ownedObjectLockedTransactions[r]? = some v' → v' = v

theorem ok_new (start : EpochTables) (highest : CheckpointSequenceNumber) :
    Ok start [] ⟨.new highest, start, ∅⟩ := by
  refine ⟨new_represents highest, ⟨[], rfl, rfl, ?_, ?_, ?_⟩, ?_⟩
  · simp [Agree, new]
  · simp [new]
  · simp [new]
  · simp

section
variable {start : EpochTables} {pushed : List ConsensusCommitOutput} {s : System}
  {objRefs : List ObjectRef} {q : ConsensusOutputQuarantine}

section
variable (h : Ok start pushed s)
include h

theorem Ok.transparent : Transparent start pushed s := by
  obtain ⟨written, hpushed, htables, hlocks⟩ := h.split
  have hversions : s.tables.nextSharedObjectVersions = (start.applyOutputs written).nextSharedObjectVersions :=
    congrArg (·.nextSharedObjectVersions) htables
  have hlocked : s.tables.ownedObjectLockedTransactions =
      (start.applyOutputs written).ownedObjectLockedTransactions :=
    congrArg (·.ownedObjectLockedTransactions) htables
  refine ⟨fun keys => ?_, fun objRefs => ?_, ⟨written, hpushed, htables⟩⟩
  · refine (lookup_eq keys s.consensusQuarantine.sharedObjectNextVersions.get
      (s.tables.nextSharedObjectVersions[·]?)).trans
      (congrArg Except.ok (map_congr_left fun k _ => ?_))
    rw [RefCountedHashMap.get_eq h.represents.versions, hversions, hpushed,
      nextSharedObjectVersions_applyOutputs, nextSharedObjectVersions_applyOutputs,
      Writes.get_apply, Writes.get_apply, flatMap_append, Writes.last_append, Option.or_assoc]
  · refine (lookup_eq objRefs (s.consensusQuarantine.ownedObjectLocks[·]?)
      (s.tables.ownedObjectLockedTransactions[·]?)).trans
      (congrArg Except.ok (map_congr_left fun r _ => ?_))
    rw [hlocked, hpushed, get_locks_applyOutputs, get_locks_applyOutputs, ← hlocks.read, Option.or_assoc]

/-- A commit moves outputs from the queue to the tables. -/
theorem Ok.commit (batch : DBBatch)
    (outputs : List ConsensusCommitOutput) (hc : Committed s.consensusQuarantine {} q batch outputs) :
    Ok start pushed { s with consensusQuarantine := q, tables := batch.write s.tables } := by
  obtain ⟨written, hpushed, htables, hlocks⟩ := h.split
  refine ⟨hc.represents, ⟨written ++ outputs, ?_, ?_, ?_⟩, h.free⟩
  · rw [hpushed, hc.queue, append_assoc]
  · rw [hc.written]
    refine (outputTables_applyOutputs htables outputs).trans ?_
    rw [applyOutputs, applyOutputs, applyOutputs, foldl_append]
  · rw [hc.locks]
    exact hlocks.commit hc.queue

end

/-- The output that is pushed, with the locks of the commit. -/
def lockedOutput (s : System) (output : ConsensusCommitOutput) : ConsensusCommitOutput :=
  { output with ownedObjectLocks := s.ownedObjectLocks }

theorem Ok.enqueue (h : Ok start pushed s) (output : ConsensusCommitOutput) :
    Ok start (pushed ++ [s.lockedOutput output])
      ⟨s.consensusQuarantine.enqueue (s.lockedOutput output), s.tables, ∅⟩ := by
  obtain ⟨written, hpushed, htables, hok⟩ := h.split
  refine ⟨enqueue_represents h.represents _, ⟨written, ?_, htables, hok.push ?_⟩, by simp⟩
  · rw [hpushed, append_assoc]
    rfl
  · intro r v hr v' hv'
    refine h.free r v hr v' ?_
    rw [hpushed, get_locks_applyOutputs, hv', Option.some_or]

theorem lockConflict_eq_none :
    lockConflict txDigest held objRefs = none ↔ ∀ r ∈ objRefs, ∀ v, held r = some v → v = txDigest := by
  unfold lockConflict
  rw [List.findSome?_eq_none_iff]
  refine forall₂_congr fun r _ => ?_
  cases held r with
  | none => simp
  | some v => simp

/-- The check against the locks that have been read. -/
theorem readConflict_eq_none :
    (((objRefs.map held).zip objRefs).findSome? fun (lock, objRef) =>
      lockConflict txDigest (fun _ => lock) [objRef]) = none ↔
      ∀ r ∈ objRefs, ∀ v, held r = some v → v = txDigest := by
  rw [List.findSome?_eq_none_iff, ← map_prod_right_eq_zip, forall_mem_map]
  refine forall₂_congr fun r _ => ?_
  rw [lockConflict_eq_none]
  simp

/-- Who holds a lock, in the commit that is being handled or before. -/
def seenLock (start : EpochTables) (pushed : List ConsensusCommitOutput) (s : System) (r : ObjectRef) :
    Option TransactionDigest :=
  s.ownedObjectLocks[r]?.or (start.applyOutputs pushed).ownedObjectLockedTransactions[r]?

section
variable (h : Ok start pushed s)
include h

/-- The outputs and the commit agree on who holds a lock. -/
theorem Ok.seenLock_of_pushed
    (hv : (start.applyOutputs pushed).ownedObjectLockedTransactions[r]? = some v) :
    s.seenLock start pushed r = some v := by
  unfold seenLock
  cases hmine : s.ownedObjectLocks[r]? with
  | none => exact hv
  | some v' => rw [h.free r v' hmine v hv, Option.some_or]

/-- Locks are acquired unless another transaction holds one of them. -/
theorem tryAcquire_eq (objRefs : List ObjectRef) (txDigest : TransactionDigest) :
    ((∀ r ∈ objRefs, ∀ v ∈ s.seenLock start pushed r, v = txDigest) ∧
      s.tryAcquireOwnedObjectLocksPostConsensus objRefs txDigest =
        .ok (.ok (objRefs.map (·, txDigest)))) ∨
    (¬(∀ r ∈ objRefs, ∀ v ∈ s.seenLock start pushed r, v = txDigest) ∧ ∃ conflict,
      s.tryAcquireOwnedObjectLocksPostConsensus objRefs txDigest = .ok (.error conflict)) := by
  unfold tryAcquireOwnedObjectLocksPostConsensus
  cases hcurrent : lockConflict txDigest (s.ownedObjectLocks[·]?) objRefs with
  | some conflict =>
    refine .inr ⟨fun hfree => ?_, conflict, rfl⟩
    have hnone : lockConflict txDigest (s.ownedObjectLocks[·]?) objRefs = none :=
      lockConflict_eq_none.mpr fun r hr v hv => hfree r hr v (by rw [seenLock, hv]; rfl)
    cases hcurrent.symm.trans hnone
  | none =>
    have hcurrent := lockConflict_eq_none.mp hcurrent
    rw [Exec.bind_ok (h.transparent.locks objRefs)]
    dsimp only
    split
    · rename_i conflict hread
      refine .inr ⟨fun hfree => ?_, conflict, rfl⟩
      have hnone := readConflict_eq_none.mpr fun r hr v hv => hfree r hr v (h.seenLock_of_pushed hv)
      cases hread.symm.trans hnone
    · rename_i hread
      refine .inl ⟨fun r hr v hv => ?_, rfl⟩
      rcases Option.or_eq_some_iff.mp hv with hv | ⟨-, hv⟩
      · exact hcurrent r hr v hv
      · exact readConflict_eq_none.mp hread r hr v hv

theorem Ok.acquire (hfree : ∀ r ∈ objRefs, ∀ v ∈ s.seenLock start pushed r, v = txDigest) :
    Ok start pushed { s with
      ownedObjectLocks := Writes.apply s.ownedObjectLocks (objRefs.map (·, txDigest)) } := by
  refine ⟨h.represents, h.split, fun r v hr v' hv' => ?_⟩
  rw [Writes.get_apply, Option.or_eq_some_iff] at hr
  rcases hr with hr | ⟨-, hr⟩
  · obtain ⟨r', hr', heq⟩ := mem_map.mp (Writes.mem_of_last hr)
    cases heq
    exact hfree r hr' v' (h.seenLock_of_pushed hv')
  · exact h.free r v hr v' hv'

end

theorem commitOutput_eq (s : System) (output : ConsensusCommitOutput) :
    s.commitOutput output = .ok (s.lockedOutput output) := by
  unfold commitOutput
  split
  · rename_i hempty
    have hlocks : s.ownedObjectLocks = ∅ := Std.ExtTreeMap.isEmpty_iff.mp hempty
    rw [lockedOutput, hlocks]
  · rfl

/-- One step. -/
theorem step_ok (h : Ok start pushed s) (action : Action) :
    Exec.Sat (s.step action) (fun p => Ok start (pushed ++ p.1.toList) p.2) Found := by
  have hnone : ∀ {s'}, Ok start pushed s' → Ok start (pushed ++ (none : Option
      ConsensusCommitOutput).toList) s' := fun h => by rwa [Option.toList_none, append_nil]
  cases action with
  | acquire objRefs txDigest =>
    rcases tryAcquire_eq h objRefs txDigest with ⟨hfree, hacquire⟩ | ⟨-, conflict, hacquire⟩ <;>
      unfold step <;> dsimp only <;> rw [hacquire]
    · exact hnone (h.acquire hfree)
    · exact hnone h
  | push output =>
    have hnext := h.enqueue output
    have hcommit : Exec.Sat
        (s.consensusQuarantine.pushConsensusOutput (s.lockedOutput output) s.tables)
        (fun p => Ok start (pushed ++ [s.lockedOutput output]) ⟨p.1, p.2, ∅⟩) Found :=
      (commitWithBatch_spec hnext.represents).bind fun p ⟨_, hc⟩ => hnext.commit _ _ hc
    unfold step
    dsimp only
    rw [commitOutput_eq]
    exact hcommit.bind fun p hp => hp
  | insertBuilderSummary seq summary contents =>
    exact hnone (h.commit {} [] ⟨rfl, fun _ => rfl, rfl, h.represents.aside⟩)
  | commit =>
    have hcommit : Exec.Sat (s.consensusQuarantine.commit s.tables)
        (fun p => Ok start pushed { s with consensusQuarantine := p.1, tables := p.2 }) Found :=
      (commitWithBatch_spec h.represents).bind fun p ⟨_, hc⟩ => h.commit _ _ hc
    exact hcommit.bind fun p hp => hnone hp
  | updateHighestExecutedCheckpoint checkpoint =>
    have hnext : Ok start pushed { s with
        consensusQuarantine := { s.consensusQuarantine with
          highestExecutedCheckpoint := checkpoint } } :=
      h.commit {} [] ⟨rfl, fun _ => rfl, rfl, h.represents.aside⟩
    exact (commitWithBatch_spec hnext.represents).bind fun p ⟨_, hc⟩ => hnone (hnext.commit _ _ hc)

end

/-- Takes the steps, and lists the outputs they push. -/
def run (s : System) : List Action → Exec (List ConsensusCommitOutput × System)
  | [] => return ([], s)
  | action :: actions => do
    let (output, s) ← s.step action
    let (outputs, s) ← run s actions
    return (output.toList ++ outputs, s)

theorem run_ok (h : Ok start pushed s) (actions : List Action) :
    Exec.Sat (s.run actions) (fun p => Ok start (pushed ++ p.1) p.2) Found := by
  induction actions generalizing pushed s with
  | nil =>
    show Ok start (pushed ++ []) s
    rwa [append_nil]
  | cons action actions ih =>
    refine (step_ok h action).bind fun p hp => (ih hp).bind fun p' hp' => ?_
    rwa [append_assoc] at hp'

/-- **The quarantine is transparent** after every run, and no key is missing in it. What the
outputs set is what the last of them to set it did. -/
theorem run_transparent (start : EpochTables) (highest : CheckpointSequenceNumber) (actions : List Action) :
    Exec.Sat (run ⟨.new highest, start, ∅⟩ actions)
      (fun p => Transparent start p.1 p.2 ∧
        (∀ key : ConsensusObjectSequenceKey,
          (start.applyOutputs p.1).nextSharedObjectVersions[key]? =
            (p.1.reverse.findSome? fun o => o.nextSharedObjectVersions.bind (·[key]?)).or
              start.nextSharedObjectVersions[key]?) ∧
        ∀ r : ObjectRef, (start.applyOutputs p.1).ownedObjectLockedTransactions[r]? =
          (p.1.reverse.findSome? fun o => o.ownedObjectLocks[r]?).or
            start.ownedObjectLockedTransactions[r]?) (fun panic => ∀ key, panic ≠ .nextVersionNotFound key) := by
  refine (run_ok (ok_new start highest) actions).mono fun p hp => ?_
  refine ⟨hp.transparent, fun key => ?_, get_locks_applyOutputs start p.1⟩
  rw [nextSharedObjectVersions_applyOutputs, Writes.get_apply, Writes.last_flatMap]
  congr 2
  funext o
  unfold nextVersionWrites
  cases o.nextSharedObjectVersions with
  | none => rfl
  | some versions => exact Writes.last_toList versions key

/-- **Nothing stays behind in the overlays**: after every run they count just the writes of the
outputs that wait, and are empty when none does. -/
theorem run_overlays (start : EpochTables) (highest : CheckpointSequenceNumber) (actions : List Action) :
    Exec.Sat (run ⟨.new highest, start, ∅⟩ actions)
      (fun p => p.2.consensusQuarantine.Represents ∧
        (p.2.consensusQuarantine.outputQueue = [] → p.2.consensusQuarantine.Clean)) Found := by
  refine (run_ok (ok_new start highest) actions).mono fun p hp => ⟨hp.represents, fun hempty => ?_⟩
  obtain ⟨hversions, hdebts, hrandomness, hprocessed⟩ := hp.represents
  obtain ⟨written, -, -, hlocks⟩ := hp.split
  rw [hempty] at hversions hdebts hrandomness hprocessed hlocks
  refine ⟨Counted.eq_empty hversions, Counted.eq_empty hdebts, Counted.eq_empty hrandomness,
    Counted.eq_empty hprocessed, Std.ExtTreeMap.ext_getElem? fun r => ?_⟩
  refine (Option.eq_none_iff_forall_ne_some.mpr fun lock hlock => ?_).trans Std.ExtTreeMap.getElem?_empty.symm
  obtain ⟨o, ho, -⟩ := hlocks.shown r lock hlock
  exact absurd ho not_mem_nil

end System

/-! ### Outputs that do not agree -/

/-- An output with a lock, after which the checkpoint queue is empty. -/
def lockingOutput (height : CheckpointHeight) (r : ObjectRef) (lock : LockDetails) :
    ConsensusCommitOutput :=
  { consensusCommitStats := some ⟨height, 0⟩
    ownedObjectLocks := (∅ : HashMap ObjectRef LockDetails).insert r lock
    checkpointQueueDrained := true }

/-- Two outputs that lock an object for two transactions: when the first one has been
written, readers see its lock, not the last one. -/
theorem conflicting_locks_seen :
    ∃ (r : ObjectRef) (q q' q'' : ConsensusOutputQuarantine) (tables tables' : EpochTables)
      (batch : DBBatch),
      (new 0).pushConsensusOutput (lockingOutput 1 r 7) {} = .ok (q, tables) ∧
      q.pushConsensusOutput (lockingOutput 2 r 8) tables = .ok (q', tables') ∧
      (q'.insertBuilderSummary 1 ⟨some 1⟩ []).updateHighestExecutedCheckpoint 1 {} =
        .ok (q'', batch) ∧
      q'.getOwnedObjectLocks tables' [r] = .ok [some 8] ∧
      q''.getOwnedObjectLocks (batch.write tables') [r] = .ok [some 7] :=
  ⟨toLex (1, toLex (1, 1)), _, _, _, _, _, _, rfl, rfl, rfl, rfl, rfl⟩

end Sui.Quarantine
