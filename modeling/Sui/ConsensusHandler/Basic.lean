import Sui.Deferral.Basic
import Sui.Quarantine.Basic

/-! What the consensus handler accepts from a commit.

The handler goes through the transactions of a commit twice. The first loop filters them:
a user transaction that is not ignored acquires locks on its owned inputs, and is dropped if
another transaction holds one of them. The second loop keeps the first copy of each message
that no earlier commit has processed. What is left of the user transactions goes on to be
scheduled, and the output of the commit goes to the quarantine.

Outputs are flushed from the quarantine, and keys are evicted from the cache of processed
messages, at any time; so the loops are cut into single steps of a `Node`, and a schedule
interleaves them. A restart leaves the tables only, and the commits after the last one that
was written to them are handled again. -/
namespace Sui.ConsensusHandler

open Sui.Lib Sui.Quarantine
open Sui.Deferral (ReconfigCertStatus)

abbrev AuthorityIndex := Nat

/-! ### Messages -/

inductive InputObjectKind
  | movePackage (id : ObjectID)
  | immOrOwnedMoveObject (objRef : ObjectRef)
  | sharedMoveObject (id : ObjectID) (initialSharedVersion : SequenceNumber)
deriving DecidableEq

structure Transaction where
  digest : TransactionDigest
  /-- The input objects, unless they are invalid. -/
  inputObjects : Option (List InputObjectKind)
deriving DecidableEq

/-- The kinds of messages that are not user transactions. Blocks with the two kinds of user
transactions before the current one are not valid. -/
inductive MessageKind
  | checkpointSignature
  | checkpointSignatureV2
  | endOfPublish
  | capabilityNotification
  | capabilityNotificationV2
  | newJWKFetched
  | randomnessStateUpdate
  | randomnessDkgMessage
  | randomnessDkgConfirmation
  | executionTimeObservation
deriving DecidableEq

inductive ConsensusTransactionKind
  | userTransactionV2 (tx : Transaction) (immutableObjects : List ObjectID)
  /-- A message with its key, and whether `verify_consensus_transaction` accepts it. -/
  | message (kind : MessageKind) (key : Nat) (verified : Bool)
deriving DecidableEq

namespace MessageKind

/-- Ignored when consensus certificates are no longer accepted. -/
def closesWithCerts : MessageKind → Bool
  | capabilityNotification | capabilityNotificationV2 | endOfPublish | executionTimeObservation
  | newJWKFetched => true
  | checkpointSignature | checkpointSignatureV2 | randomnessStateUpdate | randomnessDkgMessage
  | randomnessDkgConfirmation => false

/-- Ignored when no transactions are accepted. -/
def closesWithTx : MessageKind → Bool
  | randomnessDkgConfirmation | randomnessDkgMessage => true
  | _ => false

def deprecated : MessageKind → Bool
  | capabilityNotification | randomnessStateUpdate | checkpointSignature => true
  | _ => false

end MessageKind

/-- The key of a user transaction. -/
def certificateKey (digest : TransactionDigest) : SequencedConsensusTransactionKey := 2 * digest

/-- A message in a commit, with the author of its block. -/
structure Copy where
  author : AuthorityIndex
  transaction : ConsensusTransactionKind
  rejected : Bool
deriving DecidableEq

namespace Copy

def key (copy : Copy) : SequencedConsensusTransactionKey :=
  match copy.transaction with
  | .userTransactionV2 tx _ => certificateKey tx.digest
  | .message _ key _ => 2 * key + 1

def verifyConsensusTransaction (copy : Copy) : Bool :=
  match copy.transaction with
  | .userTransactionV2 _ _ => true
  | .message _ _ verified => verified

def userTransactionDigest (copy : Copy) : Option TransactionDigest :=
  match copy.transaction with
  | .userTransactionV2 tx _ => some tx.digest
  | .message _ _ _ => none

def isUserTransaction (copy : Copy) : Bool := copy.userTransactionDigest.isSome

end Copy

structure Block where
  author : AuthorityIndex
  /-- The messages, and whether each is rejected. -/
  transactions : List (ConsensusTransactionKind × Bool)

/-- A commit, with the state of the epoch that its handler finds. -/
structure Commit where
  round : Round
  blocks : List Block
  initialReconfigState : ReconfigCertStatus
  receivedEndOfPublish : List AuthorityIndex
  /-- Whether the commit makes a checkpoint, without which nothing of it is kept. -/
  makeCheckpoint : Bool
  made : initialReconfigState.shouldAcceptTx = true → makeCheckpoint = true

def Commit.copies (commit : Commit) : List Copy :=
  commit.blocks.flatMap fun block =>
    block.transactions.map fun (transaction, rejected) => ⟨block.author, transaction, rejected⟩

/-- The last commit of an epoch makes a checkpoint, as do those before it. -/
theorem handleCloseEpoch_made (commit : Deferral.Commit κ)
    (commitHasDeferredTxns : Bool) (deferred : Deferral.Deferred) (h : status.shouldAcceptTx = true) :
    ((Deferral.handleCloseEpoch status commit commitHasDeferredTxns deferred).2.1 ||
      (Deferral.handleCloseEpoch status commit commitHasDeferredTxns deferred).2.2) = true := by
  unfold Deferral.handleCloseEpoch Deferral.advanceEopStateMachine
  generalize (!commitHasDeferredTxns && deferred.isEmpty) = last
  generalize commit.timestampTriggered = triggered, commit.collectedEopQuorum = quorum
  revert h
  cases status <;> cases last <;> cases triggered <;> cases quorum <;> decide

/-- The commit whose handler closes the epoch as it does for the deferred transactions. -/
def Commit.closing {κ : Type} (round : Round) (blocks : List Block) (status : ReconfigCertStatus)
    (receivedEndOfPublish : List AuthorityIndex) (commit : Deferral.Commit κ)
    (commitHasDeferredTxns : Bool) (deferred : Deferral.Deferred) : Commit where
  round := round
  blocks := blocks
  initialReconfigState := status
  receivedEndOfPublish := receivedEndOfPublish
  makeCheckpoint :=
    (Deferral.handleCloseEpoch status commit commitHasDeferredTxns deferred).2.1 ||
      (Deferral.handleCloseEpoch status commit commitHasDeferredTxns deferred).2.2
  made := handleCloseEpoch_made commit commitHasDeferredTxns deferred

/-! ### The filter -/

inductive ConsensusTxStatus
  | finalized
  | rejected
  | dropped
deriving DecidableEq

/-- What the checks before the locks say. -/
inductive Screened
  | settled (status : Option ConsensusTxStatus) (kept : Bool)
  | locks (txDigest : TransactionDigest) (ownedObjectRefs : List ObjectRef)

/-- The inputs that need locks: those not claimed to be immutable. -/
def ownedObjectRefs (inputObjects : List InputObjectKind) (immutableObjectIds : List ObjectID) :
    List ObjectRef :=
  inputObjects.filterMap fun input =>
    match input with
    | .immOrOwnedMoveObject objRef =>
      if (ofLex objRef).1 ∈ immutableObjectIds then none else some objRef
    | _ => none

namespace Commit

/-- Messages that are ignored at the end of the epoch. -/
def ignores (commit : Commit) (copy : Copy) : Bool :=
  match copy.transaction with
  | .userTransactionV2 _ _ =>
    !commit.initialReconfigState.shouldAcceptConsensusCerts ||
      commit.receivedEndOfPublish.contains copy.author
  | .message kind _ _ =>
    !commit.initialReconfigState.shouldAcceptConsensusCerts && kind.closesWithCerts ||
      !commit.initialReconfigState.shouldAcceptTx && kind.closesWithTx || kind.deprecated

def screen (commit : Commit) (copy : Copy) : Screened :=
  if copy.rejected then
    .settled (if copy.isUserTransaction then some .rejected else none) false
  else if commit.ignores copy then .settled none false
  else
    match copy.transaction with
    | .message _ _ _ => .settled none true
    | .userTransactionV2 tx immutableObjects =>
      match tx.inputObjects with
      | none => .settled none false
      | some inputObjects => .locks tx.digest (ownedObjectRefs inputObjects immutableObjects)

end Commit

/-- The transactions that pass, and the status of each copy. -/
structure FilteredConsensusOutput where
  transactions : List Copy
  statuses : List (Copy × Option ConsensusTxStatus)
deriving DecidableEq

def FilteredConsensusOutput.add (output : FilteredConsensusOutput) (copy : Copy)
    (status : Option ConsensusTxStatus) (kept : Bool) : FilteredConsensusOutput :=
  ⟨if kept then output.transactions ++ [copy] else output.transactions,
    output.statuses ++ [(copy, status)]⟩

/-- After the attempt to acquire the locks of a copy. -/
def acquired (system : System) (output : FilteredConsensusOutput) (copy : Copy) :
    Except ObjectLockConflict (List (ObjectRef × LockDetails)) → System × FilteredConsensusOutput
  | .ok newLocks =>
    ({ system with ownedObjectLocks := Writes.apply system.ownedObjectLocks newLocks },
      output.add copy (some .finalized) true)
  | .error _ => (system, output.add copy (some .dropped) false)

/-- The body of the loop over the transactions of a commit. -/
def filterConsensusTxn (commit : Commit) (system : System) (output : FilteredConsensusOutput)
    (copy : Copy) : Exec (System × FilteredConsensusOutput) :=
  match commit.screen copy with
  | .settled status kept => return (system, output.add copy status kept)
  | .locks txDigest ownedObjectRefs => do
    let result ← system.tryAcquireOwnedObjectLocksPostConsensus ownedObjectRefs txDigest
    return acquired system output copy result

/-! ### Deduplication -/

def isConsensusMessageProcessed (system : System) (key : SequencedConsensusTransactionKey) : Bool :=
  system.consensusQuarantine.processedConsensusMessages.containsKey key ||
    system.tables.consensusMessageProcessed.contains key

structure Deduplicated where
  occurrenceCounts : HashMap SequencedConsensusTransactionKey Nat
  consensusMessagesProcessed : BTreeSet SequencedConsensusTransactionKey
  allTransactions : List Copy

def Deduplicated.start : Deduplicated := ⟨∅, ∅, []⟩

/-- The body of the loop over the transactions that pass the filter. -/
def deduplicateConsensusTxn (system : System)
    (processedCache : BTreeSet SequencedConsensusTransactionKey) (state : Deduplicated) (copy : Copy) :
    BTreeSet SequencedConsensusTransactionKey × Deduplicated :=
  if copy.verifyConsensusTransaction then
    let count := state.occurrenceCounts.getD copy.key 0 + 1
    let state := { state with occurrenceCounts := state.occurrenceCounts.insert copy.key count }
    if 1 < count ∨ copy.key ∈ processedCache ∨ isConsensusMessageProcessed system copy.key then
      (processedCache.insert copy.key, state)
    else
      (processedCache.insert copy.key, { state with
        consensusMessagesProcessed := state.consensusMessagesProcessed.insert copy.key
        allTransactions := state.allTransactions ++ [copy] })
  else (processedCache, state)

/-! ### The handler -/

/-- What the handler of a commit has come to. -/
inductive Phase
  | idle
  | filtering (commit : Commit) (remaining : List Copy) (output : FilteredConsensusOutput)
  | deduplicating (commit : Commit) (statuses : List (Copy × Option ConsensusTxStatus))
      (remaining : List Copy) (state : Deduplicated)
  | scheduling (commit : Commit) (state : Deduplicated)

structure Node where
  system : System
  processedCache : BTreeSet SequencedConsensusTransactionKey
  lastCommittedRound : Round
  phase : Phase

/-- What has become of the transactions of a commit, with those that go on to be scheduled. -/
structure Handled where
  round : Round
  statuses : List (Copy × Option ConsensusTxStatus)
  userTransactions : List Copy
deriving DecidableEq

/-- What happens to the quarantine while commits are handled. -/
inductive Flush
  | insertBuilderSummary (sequenceNumber : CheckpointSequenceNumber)
      (summary : BuilderCheckpointSummary) (contents : CheckpointContents)
  | commit
  | updateHighestExecutedCheckpoint (checkpoint : CheckpointSequenceNumber)

def Flush.action : Flush → System.Action
  | .insertBuilderSummary sequenceNumber summary contents =>
    .insertBuilderSummary sequenceNumber summary contents
  | .commit => .commit
  | .updateHighestExecutedCheckpoint checkpoint => .updateHighestExecutedCheckpoint checkpoint

inductive Action
  /-- The handler takes the next commit. -/
  | next
  /-- The handler takes one more step. An output that it pushes has the height of the last
  checkpoint of the commit, and other parts as given. -/
  | proceed (height : CheckpointHeight) (rest : ConsensusCommitOutput)
  | evict (key : SequencedConsensusTransactionKey)
  | flush (flush : Flush)
  | restart (highestExecutedCheckpoint : CheckpointSequenceNumber)

namespace Node

/-- The handler after a restart, with what is in the tables. -/
def ofTables (highestExecutedCheckpoint : CheckpointSequenceNumber) (tables : EpochTables) : Node where
  system := ⟨.new highestExecutedCheckpoint, tables, ∅⟩
  processedCache := ∅
  lastCommittedRound := (tables.lastConsensusStats.map (·.lastCommittedRound)).getD 0
  phase := .idle

/-- The beginning of the epoch. -/
def start (highestExecutedCheckpoint : CheckpointSequenceNumber) : Node :=
  ofTables highestExecutedCheckpoint {}

/-- The output of a commit; the system has its locks. -/
def output (commit : Commit) (state : Deduplicated) (height : CheckpointHeight)
    (rest : ConsensusCommitOutput) : ConsensusCommitOutput :=
  { rest with
    consensusRound := commit.round
    consensusMessagesProcessed := state.consensusMessagesProcessed
    consensusCommitStats := some ⟨height, commit.round⟩ }

/-- The next step of the handler, with what has been handled when the loops are done. -/
def proceed (node : Node) (height : CheckpointHeight) (rest : ConsensusCommitOutput) :
    Exec (Option Handled × Node) :=
  match node.phase with
  | .idle => return (none, node)
  | .filtering commit (copy :: remaining) output => do
    let (system, output) ← filterConsensusTxn commit node.system output copy
    return (none, { node with system := system, phase := .filtering commit remaining output })
  | .filtering commit [] output =>
    return (none, { node with
      phase := .deduplicating commit output.statuses output.transactions .start })
  | .deduplicating commit statuses (copy :: remaining) state =>
    let (processedCache, state) := deduplicateConsensusTxn node.system node.processedCache state copy
    return (none, { node with
      processedCache := processedCache
      phase := .deduplicating commit statuses remaining state })
  | .deduplicating commit statuses [] state =>
    return (some ⟨commit.round, statuses, state.allTransactions.filter Copy.isUserTransaction⟩,
      { node with phase := .scheduling commit state })
  | .scheduling commit state =>
    if commit.makeCheckpoint then do
      let (_, system) ← node.system.step (.push (output commit state height rest))
      return (none, { node with system := system, phase := .idle })
    else
      return (none, { node with
        system := { node.system with ownedObjectLocks := ∅ }
        phase := .idle })

def step (commits : List Commit) (node : Node) : Action → Exec (Option Handled × Node)
  | .next =>
    match node.phase, commits.find? fun commit => node.lastCommittedRound < commit.round with
    | .idle, some commit =>
      return (none, { node with
        lastCommittedRound := commit.round
        phase := .filtering commit commit.copies ⟨[], []⟩ })
    | _, _ => return (none, node)
  | .proceed height rest => node.proceed height rest
  | .evict key => return (none, { node with processedCache := node.processedCache.erase key })
  | .flush flush => do
    let (_, system) ← node.system.step flush.action
    return (none, { node with system := system })
  | .restart highestExecutedCheckpoint =>
    return (none, ofTables highestExecutedCheckpoint node.system.tables)

/-- One action; a panic stops the process, which starts again from the tables. -/
def act (commits : List Commit) (node : Node) (action : Action) : Option Handled × Node :=
  match node.step commits action with
  | .ok result => result
  | .error _ =>
    (none, ofTables node.system.consensusQuarantine.highestExecutedCheckpoint node.system.tables)

/-- Takes the actions of a schedule, and lists what is handled. -/
def run (commits : List Commit) (node : Node) : List Action → List Handled × Node
  | [] => ([], node)
  | action :: schedule =>
    let (handled, node) := node.act commits action
    let (rest, node) := run commits node schedule
    (handled.toList ++ rest, node)

end Node

end Sui.ConsensusHandler
