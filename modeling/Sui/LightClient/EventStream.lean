import Sui.Lib.Mmr
import Sui.LightClient.StreamHead

/-! The stream of authenticated events.

A task of the client asks the server for the events of a stream page by page, holds back
those whose checkpoint may go on in the next page, compares the others with the stream's
verified head and sends them on (`Session.step`). The head has the events of each
settlement as one leaf of a mountain range, so the client groups them by the settlements
that the server lists (`bucketEventsBySettlement`), folds the groups into the head it has
(`applyStreamUpdates`), and expects the head it fetches for the last event's checkpoint
(`verifyEvents`).

The answers of the server are arguments; what the client asks for is left out. A failed
assertion, or an overflow, ends the task. -/
namespace Sui.LightClient

open Sui.Lib Sui.Lib.Exec

abbrev SuiAddress := Nat

/-- An event with a type `τ`. -/
structure Event (τ : Type) where
  packageId : ObjectID
  transactionModule : String
  sender : SuiAddress
  type : τ
  contents : Bytes
deriving DecidableEq

structure AuthenticatedEvent (τ : Type) where
  event : Event τ
  checkpoint : CheckpointSequenceNumber
  /-- The position of the transaction in its checkpoint. -/
  transactionOffset : Nat
  eventIndex : Nat
deriving DecidableEq

structure EventCommitment where
  checkpointSeq : CheckpointSequenceNumber
  transactionIdx : Nat
  eventIdx : Nat
  digest : Nat
deriving DecidableEq

/-- Formats and hash functions. -/
structure EventLibrary (τ : Type) where
  packageId : String → Option ObjectID
  identifier : String → Option String
  address : String → Option SuiAddress
  structTag : String → Option τ
  digest : Event τ → Nat
  /-- The number in the digest of a list of commitments. -/
  buildEventMerkleRoot : List EventCommitment → Nat
  hashTwoToOneU256 : Nat → Nat → Nat

/-! ### Errors -/

inductive Field
  | event
  | contents
  | value
  | packageId
  | transactionModule
  | sender
  | eventType
  | checkpoint
  | transactionOffset
  | eventIndex
  | settlementCheckpoint
  | settlementTransactionOffset
deriving DecidableEq

inductive StreamError
  | rpcError (code : Code)
  | missing (field : Field)
  | invalid (field : Field)
  | streamHead (error : ClientError)
  | noSettlement (checkpoint transactionOffset : Nat)
  | wentBackwards (old new : CheckpointSequenceNumber)
  | mmr
  | eventCount (computed expected : Nat)
  | headCheckpoint (head expected : CheckpointSequenceNumber)
  | panicked
  /-- The server does not answer any more. -/
  | unanswered
deriving DecidableEq

def Code.isRetriable : Code → Bool
  | .unavailable => true
  | .deadlineExceeded => true
  | .resourceExhausted => true
  | .aborted => true
  | .notFound => false
  | .other => false

def StreamError.isTerminal : StreamError → Bool
  | .rpcError code => !code.isRetriable
  | .streamHead (.rpcError code) => !code.isRetriable
  | _ => true

/-! ### Pages -/

structure ProtoEvent where
  packageId : Option String
  transactionModule : Option String
  sender : Option String
  eventType : Option String
  contents : Option (Option Bytes)

structure EventItem where
  event : Option ProtoEvent
  checkpoint : Option CheckpointSequenceNumber
  transactionOffset : Option Nat
  eventIndex : Option Nat

structure TransactionItem where
  checkpoint : Option CheckpointSequenceNumber
  transactionOffset : Option Nat

inductive QueryEndReason
  | unspecified
  | itemLimit
  | scanLimit
  | ledgerTip
  | checkpointBound
  | cursorBound
deriving DecidableEq

inductive Frame (ι : Type)
  | item (cursor : Option Bytes) (item : ι)
  | watermark (cursor : Option Bytes)
  | «end» (reason : Option QueryEndReason)
  | unknown

/-- The frames of one answer. -/
abbrev Frames (ι : Type) := Reply (List (Reply (Frame ι)))

structure Page (α : Type) where
  items : List α
  lastCursor : Option Bytes
  endReason : Option QueryEndReason

def Page.scanIncomplete {α : Type} (page : Page α) : Bool :=
  page.endReason = some .itemLimit ∨ page.endReason = some .scanLimit

section Read
variable {ι α : Type} (convert : ι → Except StreamError α)

def readFrame (page : Page α) : Reply (Frame ι) → Except StreamError (Page α)
  | .error code => .error (.rpcError code)
  | .ok (.item cursor item) => do
    let a ← convert item
    return { page with items := page.items ++ [a], lastCursor := cursor <|> page.lastCursor }
  | .ok (.watermark cursor) => return { page with lastCursor := cursor <|> page.lastCursor }
  | .ok (.end reason) => return { page with endReason := reason }
  | .ok .unknown => return page

def readFrames (frames : Frames ι) : Except StreamError (Page α) := do
  let frames ← mapError .rpcError frames
  frames.foldlM (readFrame convert) ⟨[], none, none⟩

end Read

def convertSettlement (item : TransactionItem) : Except StreamError (Nat × Nat) := do
  let checkpoint ← unwrap item.checkpoint (.missing .settlementCheckpoint)
  let offset ← unwrap item.transactionOffset (.missing .settlementTransactionOffset)
  return (checkpoint, offset)

/-- The settlements in the pages up to the first that ends the scan. -/
def fetchSettlementsForRange : List (Frames TransactionItem) → Except StreamError (List (Nat × Nat))
  | [] => .error .unanswered
  | frames :: rest => do
    let page ← readFrames convertSettlement frames
    if page.scanIncomplete then
      let others ← fetchSettlementsForRange rest
      return page.items ++ others
    else return page.items

section Stream
variable {τ : Type} (library : EventLibrary τ)

def convertEvent (item : EventItem) : Except StreamError (AuthenticatedEvent τ) := do
  let protoEvent ← unwrap item.event (.missing .event)
  let contents ← unwrap protoEvent.contents (.missing .contents)
  let eventBytes ← unwrap contents (.missing .value)
  let packageId ← unwrap protoEvent.packageId (.missing .packageId)
  let packageId ← unwrap (library.packageId packageId) (.invalid .packageId)
  let transactionModule ← unwrap protoEvent.transactionModule (.missing .transactionModule)
  let transactionModule ← unwrap (library.identifier transactionModule) (.invalid .transactionModule)
  let sender ← unwrap protoEvent.sender (.missing .sender)
  let sender ← unwrap (library.address sender) (.invalid .sender)
  let eventType ← unwrap protoEvent.eventType (.missing .eventType)
  let typeTag ← unwrap (library.structTag eventType) (.invalid .eventType)
  let checkpoint ← unwrap item.checkpoint (.missing .checkpoint)
  let transactionOffset ← unwrap item.transactionOffset (.missing .transactionOffset)
  let eventIndex ← unwrap item.eventIndex (.missing .eventIndex)
  return ⟨⟨packageId, transactionModule, sender, typeTag, eventBytes⟩, checkpoint,
    transactionOffset, eventIndex⟩

def AuthenticatedEvent.commitment (event : AuthenticatedEvent τ) : EventCommitment :=
  ⟨event.checkpoint, event.transactionOffset, event.eventIndex, library.digest event.event⟩

/-! ### Heads -/

def EventStreamHead.new : EventStreamHead := ⟨[], 0, 0⟩

def applyBatch (head : EventStreamHead) (cpEvents : List EventCommitment) :
    Except StreamError EventStreamHead :=
  match cpEvents with
  | [] => .error .panicked
  | first :: _ => do
    require (∀ event ∈ cpEvents, event.checkpointSeq = first.checkpointSeq) .panicked
    require (head.checkpointSeq ≤ first.checkpointSeq ∨ head.numEvents = 0) .panicked
    require (head.numEvents + cpEvents.length < 2 ^ 64) .panicked
    return ⟨Mmr.add 0 library.hashTwoToOneU256 head.mmr (library.buildEventMerkleRoot cpEvents),
      first.checkpointSeq, head.numEvents + cpEvents.length⟩

def applyStreamUpdates (head : EventStreamHead) (events : List (List EventCommitment)) :
    Except StreamError EventStreamHead :=
  events.foldlM (applyBatch library) head

/-! ### Groups -/

/-- The groups so far, with the settlements from the one last used on. -/
structure Buckets where
  accumulatedEvents : List (List EventCommitment)
  currentKey : Option (Nat × Nat)
  currentBatch : List EventCommitment
  settlements : List (Nat × Nat)

def Buckets.batches (buckets : Buckets) : List (List EventCommitment) :=
  if buckets.currentBatch = [] then buckets.accumulatedEvents
  else buckets.accumulatedEvents ++ [buckets.currentBatch]

/-- The settlement is before the event. -/
def settledBefore (event : AuthenticatedEvent τ) (settlement : Nat × Nat) : Bool :=
  settlement.1 < event.checkpoint ∨
    settlement.1 = event.checkpoint ∧ settlement.2 < event.transactionOffset

def Buckets.push (buckets : Buckets) (key : Nat × Nat) (settlements : List (Nat × Nat))
    (commitment : EventCommitment) : Buckets :=
  if buckets.currentKey = some key then
    { buckets with currentBatch := buckets.currentBatch ++ [commitment], settlements }
  else ⟨buckets.batches, some key, [commitment], settlements⟩

def bucketEvent (lastVerifiedCheckpoint : CheckpointSequenceNumber) (buckets : Buckets)
    (event : AuthenticatedEvent τ) : Except StreamError Buckets :=
  -- Logged as an error, in a release build.
  if event.checkpoint ≤ lastVerifiedCheckpoint then .ok buckets
  else
    match buckets.settlements.dropWhile (settledBefore event) with
    | [] => .error (.noSettlement event.checkpoint event.transactionOffset)
    | key :: rest =>
      if key.1 = event.checkpoint then .ok (buckets.push key (key :: rest) (event.commitment library))
      else .error (.noSettlement event.checkpoint event.transactionOffset)

def bucketEventsBySettlement (events : List (AuthenticatedEvent τ)) (settlements : List (Nat × Nat))
    (lastVerifiedCheckpoint : CheckpointSequenceNumber) :
    Except StreamError (List (List EventCommitment)) := do
  let buckets ← events.foldlM (bucketEvent library lastVerifiedCheckpoint) ⟨[], none, [], settlements⟩
  return buckets.batches

/-! ### Batches -/

structure EventStreamState (τ : Type) where
  nextCheckpoint : CheckpointSequenceNumber
  nextCursor : Option Bytes
  unverifiedBuffer : List (AuthenticatedEvent τ)
  lastVerifiedCheckpoint : CheckpointSequenceNumber
  verifiedStreamHead : Option EventStreamHead

/-- What the server answers while the client fetches one batch, with the verified heads. -/
structure BatchAnswers where
  events : Frames EventItem
  settlements : List (Frames TransactionItem)
  streamHead : CheckpointSequenceNumber → Except ClientError EventStreamHead

namespace EventStreamState

def new (startCheckpoint : CheckpointSequenceNumber) (initialStreamHead : Option EventStreamHead) :
    EventStreamState τ :=
  ⟨startCheckpoint, none, [], startCheckpoint - 1, initialStreamHead⟩

/-- The events that are drained, and those that stay. -/
def drainCompleteCheckpoints (buffer : List (AuthenticatedEvent τ)) (scanIncomplete : Bool) :
    List (AuthenticatedEvent τ) × List (AuthenticatedEvent τ) :=
  match buffer.getLast? with
  | none => ([], [])
  | some last =>
    if scanIncomplete then
      match buffer.reverse.findIdx? fun event => event.checkpoint ≠ last.checkpoint with
      | some held => (buffer.take (buffer.length - held), buffer.drop (buffer.length - held))
      | none => ([], buffer)
    else (buffer, [])

def verifyEvents (state : EventStreamState τ) (upToCheckpoint : CheckpointSequenceNumber)
    (events : List (AuthenticatedEvent τ)) (answers : BatchAnswers) :
    Except StreamError (EventStreamState τ) :=
  if upToCheckpoint ≤ state.lastVerifiedCheckpoint then return state
  else do
    let oldHead := state.verifiedStreamHead.getD .new
    let settlements ← fetchSettlementsForRange answers.settlements
    let accumulatedEvents ← bucketEventsBySettlement library events settlements
      state.lastVerifiedCheckpoint
    let newStreamHead ← mapError .streamHead (answers.streamHead upToCheckpoint)
    require (oldHead.checkpointSeq < newStreamHead.checkpointSeq)
      (.wentBackwards oldHead.checkpointSeq newStreamHead.checkpointSeq)
    let computedHead ← applyStreamUpdates library oldHead accumulatedEvents
    require (computedHead.mmr = newStreamHead.mmr) .mmr
    require (computedHead.numEvents = newStreamHead.numEvents)
      (.eventCount computedHead.numEvents newStreamHead.numEvents)
    require (newStreamHead.checkpointSeq = upToCheckpoint)
      (.headCheckpoint newStreamHead.checkpointSeq upToCheckpoint)
    return { state with
      verifiedStreamHead := some newStreamHead
      lastVerifiedCheckpoint := upToCheckpoint }

/-- The state once a page has been read, with the events drained. -/
def receive (state : EventStreamState τ) (page : Page (AuthenticatedEvent τ)) :
    List (AuthenticatedEvent τ) × EventStreamState τ :=
  let (flushed, unverifiedBuffer) :=
    drainCompleteCheckpoints (state.unverifiedBuffer ++ page.items) page.scanIncomplete
  let last := flushed.getLast? <|> unverifiedBuffer.getLast?
  (flushed, { state with
    unverifiedBuffer
    nextCursor := if page.scanIncomplete then page.lastCursor else none
    nextCheckpoint :=
      if page.scanIncomplete then state.nextCheckpoint
      else (last.map fun event => min (event.checkpoint + 1) (2 ^ 64 - 1)).getD state.nextCheckpoint })

/-- The state is changed by an error as well: the events that are not verified are dropped. -/
def fetchAndVerifyNextBatch (state : EventStreamState τ) (answers : BatchAnswers) :
    EventStreamState τ × Except StreamError (List (AuthenticatedEvent τ)) :=
  match readFrames (convertEvent library) answers.events with
  | .error error => (state, .error error)
  | .ok page =>
    let (flushed, state) := state.receive page
    match flushed.getLast? with
    | none => (state, .ok [])
    | some last =>
      if state.lastVerifiedCheckpoint < last.checkpoint then
        match state.verifyEvents library last.checkpoint flushed answers with
        | .error error => (state, .error error)
        | .ok state => (state, .ok flushed)
      else (state, .ok flushed)

end EventStreamState

/-! ### The task -/

/-- The task, with the events that it has sent and those of its batch still to send. -/
structure Session (τ : Type) where
  state : EventStreamState τ
  yielded : List (AuthenticatedEvent τ)
  pending : List (AuthenticatedEvent τ)
  stopped : Bool

inductive Action
  | fetch (answers : BatchAnswers)
  /-- The receiver takes an event, or it is gone. -/
  | send (received : Bool)

/-- What the task does with a batch, or an error. -/
def Session.accept (session : Session τ) (state : EventStreamState τ) :
    Except StreamError (List (AuthenticatedEvent τ)) → Session τ
  | .ok events => { session with state, pending := events }
  | .error error => { session with state, stopped := error.isTerminal }

def Session.step (session : Session τ) : Action → Session τ
  | .fetch answers =>
    if session.stopped ∨ session.pending ≠ [] then session
    else
      let (state, result) := session.state.fetchAndVerifyNextBatch library answers
      session.accept state result
  | .send received =>
    match session.pending with
    | [] => session
    | event :: pending =>
      if session.stopped then session
      else if received then { session with yielded := session.yielded ++ [event], pending }
      else { session with stopped := true }

def Session.run (session : Session τ) (actions : List Action) : Session τ :=
  actions.foldl (Session.step library) session

def createEventStreamWithHead (startCheckpoint : CheckpointSequenceNumber)
    (initialHead : Option EventStreamHead) : Session τ :=
  ⟨.new startCheckpoint initialHead, [], [], false⟩

def checkpointAfter (checkpoint : CheckpointSequenceNumber) :
    Except StreamError CheckpointSequenceNumber := do
  require (checkpoint + 1 < 2 ^ 64) .panicked
  return checkpoint + 1

/-- The verified head at the checkpoint of the head that the server reports, if it does. -/
def fetchCurrentStreamHeadAndVerify (getObject : Reply (Except ClientError EventStreamHead))
    (streamHead : CheckpointSequenceNumber → Except ClientError EventStreamHead) :
    Except StreamError (Option (EventStreamHead × CheckpointSequenceNumber)) :=
  match getObject with
  | .error .notFound => return none
  | .error code => .error (.rpcError code)
  | .ok object => do
    let reported ← mapError .streamHead object
    let verifiedHead ← mapError .streamHead (streamHead reported.checkpointSeq)
    return some (verifiedHead, reported.checkpointSeq)

/-- `getObject` has the head in the object that the server reports. -/
def streamEvents (getObject : Reply (Except ClientError EventStreamHead))
    (streamHead : CheckpointSequenceNumber → Except ClientError EventStreamHead) :
    Except StreamError (Session τ) := do
  match ← fetchCurrentStreamHeadAndVerify getObject streamHead with
  | none => return createEventStreamWithHead 0 none
  | some (head, checkpoint) =>
    let start ← checkpointAfter checkpoint
    return createEventStreamWithHead start (some head)

def streamEventsFromCheckpoint (lastVerifiedCheckpoint : CheckpointSequenceNumber)
    (streamHead : CheckpointSequenceNumber → Except ClientError EventStreamHead) :
    Except StreamError (Session τ) :=
  if lastVerifiedCheckpoint = 0 then return createEventStreamWithHead 0 none
  else do
    let verifiedHead ← mapError .streamHead (streamHead lastVerifiedCheckpoint)
    let start ← checkpointAfter lastVerifiedCheckpoint
    return createEventStreamWithHead start (some verifiedHead)

end Stream

end Sui.LightClient
