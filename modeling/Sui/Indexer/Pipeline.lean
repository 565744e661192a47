import Sui.Lib.BTree
import Sui.Lib.Except

/-! A concurrent pipeline of the indexer.

The collector gathers the rows of processed checkpoints into batches. The committer writes
batches concurrently, retrying each until its write succeeds, and then reports the batch's
parts: how many rows of each checkpoint it held. The commit-watermark task adds the parts
up and moves the watermark over contiguous checkpoints whose rows have all been reported.

`step` is one event of one of the three tasks, and `run` any interleaving of them. An event
whose task is not waiting for it changes nothing. The limits of the channels only delay
events and are left out, as are metrics and logs. Checkpoint numbers and row counts are
natural numbers. -/
namespace Sui.Indexer

open Sui.Lib Sui.Lib.BTreeMap Sui.Lib.Exec

inductive Panic
  /-- A part is added to a part of another checkpoint. -/
  | otherCheckpoint
  /-- `batch_rows` exceeded `total_rows`. -/
  | rowsExceeded
  /-- Can't take more rows than are available. -/
  | rowsUnavailable
  /-- No values are left of a checkpoint, but its part still has rows. -/
  | rowsLeft
  /-- More rows were batched than are counted as pending. -/
  | pendingRowsUnderflow
deriving DecidableEq

abbrev Exec := Except Panic

structure CommitterWatermark where
  epochHiInclusive : Nat
  checkpointHiInclusive : Nat
  txHi : Nat
  timestampMsHiInclusive : Nat
deriving DecidableEq

/-! ### Watermark parts -/

structure WatermarkPart where
  watermark : CommitterWatermark
  batchRows : Nat
  totalRows : Nat
deriving DecidableEq

namespace WatermarkPart

def checkpoint (self : WatermarkPart) : Nat := self.watermark.checkpointHiInclusive

def isComplete (self : WatermarkPart) : Bool := self.batchRows == self.totalRows

def add (self other : WatermarkPart) : Exec WatermarkPart := do
  require (self.checkpoint = other.checkpoint) .otherCheckpoint
  require (self.batchRows + other.batchRows ≤ self.totalRows) .rowsExceeded
  return {self with batchRows := self.batchRows + other.batchRows}

/-- The part of the rows taken, and what is left of this part. -/
def take (self : WatermarkPart) (rows : Nat) : Exec (WatermarkPart × WatermarkPart) := do
  require (rows ≤ self.batchRows) .rowsUnavailable
  return ({self with batchRows := rows}, {self with batchRows := self.batchRows - rows})

end WatermarkPart

/-! ### The collector -/

variable {ρ : Type}

structure IndexedCheckpoint (ρ : Type) where
  watermark : CommitterWatermark
  values : List ρ

def IndexedCheckpoint.checkpoint (self : IndexedCheckpoint ρ) : Nat :=
  self.watermark.checkpointHiInclusive

/-- A processed checkpoint, with the value of `main_reader_lo` that the collector reads
when it receives it. -/
structure Delivery (ρ : Type) where
  indexed : IndexedCheckpoint ρ
  readerLo : Nat

namespace Delivery

def checkpoint (self : Delivery ρ) : Nat := self.indexed.checkpoint

/-- The values that the collector keeps: none below the lowest checkpoint to commit. -/
def values (self : Delivery ρ) : List ρ :=
  if self.checkpoint < self.readerLo then [] else self.indexed.values

end Delivery

structure PendingCheckpoint (ρ : Type) where
  values : List ρ
  watermark : WatermarkPart

def PendingCheckpoint.isEmpty (self : PendingCheckpoint ρ) : Exec Bool := do
  let empty := self.values.isEmpty
  require (!empty ∨ self.watermark.batchRows = 0) .rowsLeft
  return empty

def PendingCheckpoint.ofDelivery (delivery : Delivery ρ) : PendingCheckpoint ρ where
  values := delivery.values
  watermark :=
    { watermark := delivery.indexed.watermark
      batchRows := delivery.values.length
      totalRows := delivery.values.length }

inductive BatchStatus
  | pending
  | ready
deriving DecidableEq

/-- What the handler does in `batch`: from the number of calls made before for the same
batch, the rows in the batch and the values offered, the number of values that it takes
from the iterator and the batch's status. -/
abbrev Handler (ρ : Type) := Nat → List ρ → List ρ → Nat × BatchStatus

/-- The batching of the Postgres handlers, by the number of fields of a row. -/
def maxChunkRows (fieldCount : Nat) : Nat := if fieldCount = 0 then 32767 else 32767 / fieldCount

def postgresHandler (fieldCount : Nat) : Handler ρ := fun _ batch values =>
  if maxChunkRows fieldCount < batch.length + values.length then
    (maxChunkRows fieldCount - batch.length, .ready)
  else
    (values.length, .pending)

/-- A batch, with the checkpoint of each of its rows. -/
structure BatchedRows (ρ : Type) where
  batch : List (Nat × ρ)
  batchLen : Nat
  watermark : List WatermarkPart

def BatchedRows.empty : BatchedRows ρ := ⟨[], 0, []⟩

/-- A batch that is being gathered, and what is pending meanwhile. -/
structure Gathering (ρ : Type) where
  pending : BTreeMap Nat (PendingCheckpoint ρ)
  batched : BatchedRows ρ

/-- The handler takes values of the first pending checkpoint. -/
def Gathering.offer (self : Gathering ρ) (handler : Handler ρ) (checkpoint : Nat)
    (indexed : PendingCheckpoint ρ) : Exec (Gathering ρ × BatchStatus) := do
  let call := handler self.batched.watermark.length (self.batched.batch.map Prod.snd) indexed.values
  let rows := indexed.values.take call.1
  let parts ← indexed.watermark.take rows.length
  let left : PendingCheckpoint ρ := ⟨indexed.values.drop call.1, parts.2⟩
  let empty ← left.isEmpty
  let pending :=
    if empty then self.pending.erase checkpoint else self.pending.insert checkpoint left
  let batched : BatchedRows ρ :=
    { batch := self.batched.batch ++ rows.map fun row => (checkpoint, row)
      batchLen := self.batched.batchLen + rows.length
      watermark := self.batched.watermark ++ [parts.1] }
  return (⟨pending, batched⟩, call.2)

/-- Gathers a batch, with at most so many more parts in it. -/
def Gathering.gather (handler : Handler ρ) : Nat → Gathering ρ → Exec (Gathering ρ)
  | 0, self => return self
  | updates + 1, self =>
    match firstEntry? self.pending with
    | none => return self
    | some (checkpoint, indexed) => do
      let offered ← self.offer handler checkpoint indexed
      if offered.2 = .ready then return offered.1 else offered.1.gather handler updates

structure Collector (ρ : Type) where
  /-- The processed checkpoints to come. -/
  rx : List (Delivery ρ)
  pending : BTreeMap Nat (PendingCheckpoint ρ)
  pendingRows : Nat
  /-- Sending batches, until nothing is pending. -/
  flushing : Bool

structure Config where
  maxPendingRows : Nat
  maxWatermarkUpdates : Nat
  writeConcurrency : Nat

namespace Collector

def receive (self : Collector ρ) (config : Config) : Collector ρ :=
  match self.rx with
  | [] => self
  | delivery :: rx =>
    if !self.flushing ∧ self.pendingRows < config.maxPendingRows then
      { self with
        rx
        pending := self.pending.insert delivery.checkpoint (.ofDelivery delivery)
        pendingRows := self.pendingRows + delivery.values.length }
    else self

/-- Gathers the next batch. -/
def flush (self : Collector ρ) (config : Config) (handler : Handler ρ) :
    Exec (Collector ρ × BatchedRows ρ) := do
  let gathered ← Gathering.gather handler config.maxWatermarkUpdates ⟨self.pending, .empty⟩
  require (gathered.batched.batchLen ≤ self.pendingRows) .pendingRowsUnderflow
  let collector :=
    { self with
      pending := gathered.pending
      pendingRows := self.pendingRows - gathered.batched.batchLen
      flushing := !gathered.pending.isEmpty }
  return (collector, gathered.batched)

end Collector

/-! ### The committer -/

structure Committer (ρ : Type) where
  /-- Batches that the collector has sent. -/
  queued : List (BatchedRows ρ)
  /-- Batches with a task that tries to write them. -/
  writing : List (BatchedRows ρ)
  /-- Parts of written batches, with a task that is about to report them. -/
  sending : List (List WatermarkPart)
  /-- The batches written, in the order of their writes. -/
  committed : List (BatchedRows ρ)

namespace Committer

def spawn (self : Committer ρ) (config : Config) : Committer ρ :=
  match self.queued with
  | [] => self
  | batched :: queued =>
    if self.writing.length + self.sending.length < config.writeConcurrency then
      {self with queued, writing := self.writing ++ [batched]}
    else self

/-- The write of a batch succeeds. -/
def commit (self : Committer ρ) (task : Nat) : Committer ρ :=
  match self.writing[task]? with
  | none => self
  | some batched =>
    { self with
      writing := self.writing.eraseIdx task
      sending := self.sending ++ [batched.watermark]
      committed := self.committed ++ [batched] }

end Committer

/-! ### The commit-watermark task -/

structure WatermarkTask where
  /-- Reported parts that the task has not received. -/
  rx : List (List WatermarkPart)
  nextCheckpoint : Nat
  precommitted : BTreeMap Nat WatermarkPart
  pendingWatermark : Option CommitterWatermark
  stopped : Bool
  /-- The watermarks written, in order. -/
  written : List CommitterWatermark
  /-- Every part received. -/
  received : List WatermarkPart
  /-- The checkpoints that the task has taken out of `precommitted`. -/
  takenOut : List Nat

namespace WatermarkTask

/-- The entry for a part, given the entry that its checkpoint had. -/
def merge (entry : Option WatermarkPart) (part : WatermarkPart) : Exec WatermarkPart :=
  match entry with
  | none => return part
  | some entry => entry.add part

def receivePart (self : WatermarkTask) (part : WatermarkPart) : Exec WatermarkTask := do
  let entry ← merge self.precommitted[part.checkpoint]? part
  return { self with
    precommitted := self.precommitted.insert part.checkpoint entry
    received := self.received ++ [part] }

/-- Takes the first precommitted checkpoint out, if it is complete and not from the
future. -/
def takeOut? (self : WatermarkTask) : Option WatermarkTask :=
  match firstEntry? self.precommitted with
  | none => none
  | some (checkpoint, part) =>
    if !part.isComplete then none
    else if self.nextCheckpoint < part.checkpoint then none
    else
      let rest :=
        { self with
          precommitted := self.precommitted.erase checkpoint
          takenOut := self.takenOut ++ [checkpoint] }
      if self.nextCheckpoint = part.checkpoint then
        some { rest with
          pendingWatermark := some part.watermark
          nextCheckpoint := self.nextCheckpoint + 1 }
      else some rest

/-- Takes out what can be, at most `fuel` checkpoints. -/
def advanceWith : Nat → WatermarkTask → WatermarkTask
  | 0, self => self
  | fuel + 1, self =>
    match self.takeOut? with
    | none => self
    | some next => advanceWith fuel next

def advance (self : WatermarkTask) : WatermarkTask := advanceWith self.precommitted.size self

/-- Tries to write the pending watermark; it is kept for the next try when that fails. -/
def write (self : WatermarkTask) (succeeds : Bool) : WatermarkTask :=
  match self.pendingWatermark with
  | none => self
  | some watermark =>
    if succeeds then
      {self with pendingWatermark := none, written := self.written ++ [watermark]}
    else self

/-- An iteration that receives parts. -/
def receive (self : WatermarkTask) : Exec WatermarkTask :=
  match self.rx with
  | [] => return self
  | parts :: rx => do
    let received ← parts.foldlM receivePart {self with rx}
    return received.advance

/-- An iteration in which the timer fires. -/
def tick (self : WatermarkTask) (succeeds : Bool) : WatermarkTask := self.advance.write succeeds

/-- The last write, when no more parts can come. -/
def close (self : WatermarkTask) (succeeds : Bool) : WatermarkTask :=
  if self.rx.isEmpty then {self.write succeeds with stopped := true} else self

end WatermarkTask

/-! ### The pipeline -/

structure State (ρ : Type) where
  collector : Collector ρ
  committer : Committer ρ
  task : WatermarkTask

/-- A pipeline that starts with checkpoint `start`. -/
def State.new (start : Nat) (deliveries : List (Delivery ρ)) : State ρ where
  collector := ⟨deliveries, ∅, 0, false⟩
  committer := ⟨[], [], [], []⟩
  task := ⟨[], start, ∅, none, false, [], [], []⟩

inductive Event (ρ : Type)
  /-- The collector receives a checkpoint. -/
  | collect
  /-- The collector's timer fires, or it has received enough rows. -/
  | wake
  /-- The collector gathers a batch and sends it. -/
  | flush (handler : Handler ρ)
  /-- The committer spawns a task for the next batch. -/
  | spawn
  /-- An attempt to write a batch fails; it is going to be retried. -/
  | fail (task : Nat)
  | commit (task : Nat)
  /-- The parts of a written batch are sent. -/
  | report (task : Nat)
  /-- The watermark task receives parts. -/
  | parts
  | tick (succeeds : Bool)
  | close (succeeds : Bool)

namespace State

def collect (self : State ρ) (config : Config) : State ρ :=
  {self with collector := self.collector.receive config}

def wake (self : State ρ) : State ρ :=
  {self with collector := {self.collector with flushing := true}}

def flush (self : State ρ) (config : Config) (handler : Handler ρ) : Exec (State ρ) :=
  if self.collector.flushing then do
    let flushed ← self.collector.flush config handler
    return { self with
      collector := flushed.1
      committer := {self.committer with queued := self.committer.queued ++ [flushed.2]} }
  else return self

def report (self : State ρ) (task : Nat) : State ρ :=
  match self.committer.sending[task]? with
  | none => self
  | some parts =>
    if self.task.stopped then self
    else
      { self with
        committer := {self.committer with sending := self.committer.sending.eraseIdx task}
        task := {self.task with rx := self.task.rx ++ [parts]} }

/-- An iteration of the watermark task. -/
def iterate (self : State ρ) (iteration : WatermarkTask → Exec WatermarkTask) : Exec (State ρ) :=
  if self.task.stopped then return self
  else do
    let task ← iteration self.task
    return {self with task}

def step (config : Config) (self : State ρ) : Event ρ → Exec (State ρ)
  | .collect => return self.collect config
  | .wake => return self.wake
  | .flush handler => self.flush config handler
  | .spawn => return {self with committer := self.committer.spawn config}
  | .fail _ => return self
  | .commit task => return {self with committer := self.committer.commit task}
  | .report task => return self.report task
  | .parts => self.iterate fun task => task.receive
  | .tick succeeds => self.iterate fun task => return task.tick succeeds
  | .close succeeds => self.iterate fun task => return task.close succeeds

def run (config : Config) (self : State ρ) (events : List (Event ρ)) : Exec (State ρ) :=
  events.foldlM (step config) self

/-- No part that the task is about to receive is for a checkpoint that it has taken out. -/
def onTime (self : State ρ) : Event ρ → Bool
  | .parts => self.task.stopped ||
    (self.task.rx.headD []).all fun part => part.checkpoint ∉ self.task.takenOut
  | _ => true

def onTimeRun (config : Config) : State ρ → List (Event ρ) → Bool
  | _, [] => true
  | self, event :: events => self.onTime event &&
    match self.step config event with
    | .ok next => next.onTimeRun config events
    | .error _ => true

end State

end Sui.Indexer
