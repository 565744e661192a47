import Sui.Lib.BTree
import Sui.Lib.Except
import Sui.Lib.Writes

/-! The quarantine of consensus outputs.

The outputs of consensus commits wait in a queue until the checkpoints of their commits
are executed. Until then, overlays show to readers what the outputs are going to write to
the epoch's tables. Outputs leave the queue together, as a batch that is written to the
tables at once.

The commit handler acquires the owned objects of a commit's transactions before it pushes
the output: `System` has both, with the tables. Metrics, and the fields of an output that
are written to tables of their own and nowhere else, are left out. -/
namespace Sui.Quarantine

open Sui.Lib

abbrev ObjectID := Nat
abbrev SequenceNumber := Nat
abbrev ObjectDigest := Nat
abbrev TransactionDigest := Nat
abbrev CheckpointSequenceNumber := Nat
abbrev CheckpointHeight := Nat
abbrev Round := Nat
abbrev LockDetails := TransactionDigest
abbrev ConsensusObjectSequenceKey := ObjectID ×ₗ SequenceNumber
abbrev ObjectRef := ObjectID ×ₗ SequenceNumber ×ₗ ObjectDigest
abbrev SequencedConsensusTransactionKey := Nat
abbrev Jwk := Nat

instance objectRefTransOrd : Std.TransOrd ObjectRef := inferInstance

/-- Hash maps; no result here depends on the order of their entries. -/
abbrev HashMap (κ ν : Type) [Ord κ] := BTreeMap κ ν

inductive Panic
  /-- A digest of the contents is missing, or belongs to another checkpoint. -/
  | transactionNotFound (digest : TransactionDigest)
  | otherCheckpoint (digest : TransactionDigest)
  | checkpointWithoutHeight
  | heightDecreased (height highest : CheckpointHeight)
  | commitStatsNotSet
  /-- Shared object next version not found in quarantine. -/
  | nextVersionNotFound (key : ConsensusObjectSequenceKey)
  | jwkOfOtherRound (round : Round)
  | locksAlreadySet
  /-- The answers of a fallback are not as many as its keys. -/
  | fallbackLength
deriving DecidableEq

abbrev Exec := Except Panic

/-! ### Reference counts -/

structure RefCountedHashMap (κ ν : Type) [LinearOrder κ] where
  map : HashMap κ (Nat × ν)

namespace RefCountedHashMap
variable {κ ν : Type} [LinearOrder κ]

def new : RefCountedHashMap κ ν := ⟨∅⟩

def insert (self : RefCountedHashMap κ ν) (key : κ) (value : ν) : RefCountedHashMap κ ν :=
  match self.map[key]? with
  | some (refCount, _) => ⟨self.map.insert key (refCount + 1, value)⟩
  | none => ⟨self.map.insert key (1, value)⟩

/-- Whether the key was present, which stays if it has been inserted more often. -/
def remove (self : RefCountedHashMap κ ν) (key : κ) : Bool × RefCountedHashMap κ ν :=
  match self.map[key]? with
  | some (refCount, value) =>
    if refCount - 1 = 0 then (true, ⟨self.map.erase key⟩)
    else (true, ⟨self.map.insert key (refCount - 1, value)⟩)
  | none => (false, self)

def get (self : RefCountedHashMap κ ν) (key : κ) : Option ν := self.map[key]?.map (·.2)

def containsKey (self : RefCountedHashMap κ ν) (key : κ) : Bool := self.map[key]?.isSome

end RefCountedHashMap

/-! ### Lookups with a fallback -/

inductive CacheResult (ν : Type)
  | hit (value : ν)
  | negativeHit
  | miss

/-- A present value is a hit. -/
def CacheResult.ofOption {ν : Type} : Option ν → CacheResult (Option ν)
  | some value => .hit (some value)
  | none => .miss

/-- What the loop over the keys collects. -/
structure Fallback (κ ν : Type) where
  results : List ν
  keys : List κ := []
  indices : List Nat := []

def Fallback.visit {κ ν : Type} (getCachedKey : κ → CacheResult ν) (f : Fallback κ ν)
    (entry : κ × Nat) : Fallback κ ν :=
  match getCachedKey entry.1 with
  | .miss => { f with keys := f.keys ++ [entry.1], indices := f.indices ++ [entry.2] }
  | .negativeHit => f
  | .hit value => { f with results := f.results.set entry.2 value }

def doFallbackLookup {κ ν : Type} [Inhabited ν] (keys : List κ) (getCachedKey : κ → CacheResult ν)
    (multigetFallback : List κ → List ν) : Exec (List ν) := do
  let f := keys.zipIdx.foldl (Fallback.visit getCachedKey) ⟨List.replicate keys.length default, [], []⟩
  let fallbackResults := multigetFallback f.keys
  Exec.require (fallbackResults.length = f.indices.length) .fallbackLength
  Exec.require (fallbackResults.length = f.keys.length) .fallbackLength
  return (f.indices.zip fallbackResults).foldl (fun results entry => results.set entry.1 entry.2)
    f.results

/-! ### Outputs and tables -/

structure CongestionPerObjectDebt where
  round : Round
  debt : Nat
deriving DecidableEq, Repr

structure ExecutionIndicesWithStats where
  height : CheckpointHeight
  lastCommittedRound : Round
deriving DecidableEq, Repr

structure BuilderCheckpointSummary where
  checkpointHeight : Option CheckpointHeight
deriving DecidableEq, Repr

/-- The digests of the transactions. -/
abbrev CheckpointContents := List TransactionDigest

structure ConsensusCommitOutput where
  consensusRound : Round := 0
  consensusMessagesProcessed : BTreeSet SequencedConsensusTransactionKey := ∅
  consensusCommitStats : Option ExecutionIndicesWithStats := none
  nextSharedObjectVersions : Option (HashMap ConsensusObjectSequenceKey SequenceNumber) := none
  activeJwks : List (Round × Jwk) := []
  congestionControlObjectDebts : List (ObjectID × Nat) := []
  congestionControlRandomnessObjectDebts : List (ObjectID × Nat) := []
  ownedObjectLocks : HashMap ObjectRef LockDetails := ∅
  checkpointQueueDrained : Bool := false

structure EpochTables where
  consensusMessageProcessed : BTreeMap SequencedConsensusTransactionKey Bool := ∅
  lastConsensusStats : Option ExecutionIndicesWithStats := none
  nextSharedObjectVersions : BTreeMap ConsensusObjectSequenceKey SequenceNumber := ∅
  ownedObjectLockedTransactions : BTreeMap ObjectRef LockDetails := ∅
  activeJwks : BTreeSet (Round ×ₗ Jwk) := ∅
  congestionControlObjectDebts : BTreeMap ObjectID CongestionPerObjectDebt := ∅
  congestionControlRandomnessObjectDebts : BTreeMap ObjectID CongestionPerObjectDebt := ∅
  builderDigestToCheckpoint : BTreeMap TransactionDigest CheckpointSequenceNumber := ∅
  builderCheckpointSummary : BTreeMap CheckpointSequenceNumber BuilderCheckpointSummary := ∅

/-- The inserts of a batch, table by table. -/
structure DBBatch where
  consensusMessageProcessed : List (SequencedConsensusTransactionKey × Bool) := []
  lastConsensusStats : List ExecutionIndicesWithStats := []
  nextSharedObjectVersions : List (ConsensusObjectSequenceKey × SequenceNumber) := []
  ownedObjectLockedTransactions : List (ObjectRef × LockDetails) := []
  activeJwks : List (Round × Jwk) := []
  congestionControlObjectDebts : List (ObjectID × CongestionPerObjectDebt) := []
  congestionControlRandomnessObjectDebts : List (ObjectID × CongestionPerObjectDebt) := []
  builderDigestToCheckpoint : List (TransactionDigest × CheckpointSequenceNumber) := []
  builderCheckpointSummary : List (CheckpointSequenceNumber × BuilderCheckpointSummary) := []

def DBBatch.write (batch : DBBatch) (tables : EpochTables) : EpochTables where
  consensusMessageProcessed :=
    Writes.apply tables.consensusMessageProcessed batch.consensusMessageProcessed
  lastConsensusStats := batch.lastConsensusStats.foldl (fun _ stats => some stats)
    tables.lastConsensusStats
  nextSharedObjectVersions :=
    Writes.apply tables.nextSharedObjectVersions batch.nextSharedObjectVersions
  ownedObjectLockedTransactions :=
    Writes.apply tables.ownedObjectLockedTransactions batch.ownedObjectLockedTransactions
  activeJwks := batch.activeJwks.foldl (fun jwks j => jwks.insert (toLex j)) tables.activeJwks
  congestionControlObjectDebts :=
    Writes.apply tables.congestionControlObjectDebts batch.congestionControlObjectDebts
  congestionControlRandomnessObjectDebts :=
    Writes.apply tables.congestionControlRandomnessObjectDebts
      batch.congestionControlRandomnessObjectDebts
  builderDigestToCheckpoint :=
    Writes.apply tables.builderDigestToCheckpoint batch.builderDigestToCheckpoint
  builderCheckpointSummary :=
    Writes.apply tables.builderCheckpointSummary batch.builderCheckpointSummary

namespace ConsensusCommitOutput

def nextVersionWrites (output : ConsensusCommitOutput) :
    List (ConsensusObjectSequenceKey × SequenceNumber) :=
  match output.nextSharedObjectVersions with
  | some nextVersions => nextVersions.toList
  | none => []

def debtWrites (output : ConsensusCommitOutput) (debts : List (ObjectID × Nat)) :
    List (ObjectID × CongestionPerObjectDebt) :=
  debts.map fun (objectId, debt) => (objectId, ⟨output.consensusRound, debt⟩)

def writeToBatch (output : ConsensusCommitOutput) (batch : DBBatch) : Exec DBBatch := do
  let stats ← Exec.unwrap output.consensusCommitStats .commitStatsNotSet
  let round := stats.lastCommittedRound
  Exec.require (∀ j ∈ output.activeJwks, j.1 = round) (.jwkOfOtherRound round)
  return { batch with
    consensusMessageProcessed := batch.consensusMessageProcessed ++
      output.consensusMessagesProcessed.toList.map (·, true)
    lastConsensusStats := batch.lastConsensusStats ++ [stats]
    nextSharedObjectVersions := batch.nextSharedObjectVersions ++ output.nextVersionWrites
    ownedObjectLockedTransactions := batch.ownedObjectLockedTransactions ++
      output.ownedObjectLocks.toList
    activeJwks := batch.activeJwks ++ output.activeJwks
    congestionControlObjectDebts := batch.congestionControlObjectDebts ++
      output.debtWrites output.congestionControlObjectDebts
    congestionControlRandomnessObjectDebts := batch.congestionControlRandomnessObjectDebts ++
      output.debtWrites output.congestionControlRandomnessObjectDebts }

def setOwnedObjectLocks (output : ConsensusCommitOutput) (locks : HashMap ObjectRef LockDetails) :
    Exec ConsensusCommitOutput := do
  Exec.require (output.ownedObjectLocks.isEmpty = true) .locksAlreadySet
  return { output with ownedObjectLocks := locks }

end ConsensusCommitOutput

/-! ### The quarantine -/

structure ConsensusOutputQuarantine where
  outputQueue : List ConsensusCommitOutput
  highestExecutedCheckpoint : CheckpointSequenceNumber
  builderCheckpointSummary :
    BTreeMap CheckpointSequenceNumber (BuilderCheckpointSummary × CheckpointContents)
  builderDigestToCheckpoint : HashMap TransactionDigest CheckpointSequenceNumber
  sharedObjectNextVersions : RefCountedHashMap ConsensusObjectSequenceKey SequenceNumber
  congestionControlRandomnessObjectDebts : RefCountedHashMap ObjectID CongestionPerObjectDebt
  congestionControlObjectDebts : RefCountedHashMap ObjectID CongestionPerObjectDebt
  processedConsensusMessages : RefCountedHashMap SequencedConsensusTransactionKey Unit
  ownedObjectLocks : HashMap ObjectRef LockDetails

namespace ConsensusOutputQuarantine

def new (highestExecutedCheckpoint : CheckpointSequenceNumber) : ConsensusOutputQuarantine where
  outputQueue := []
  highestExecutedCheckpoint
  builderCheckpointSummary := ∅
  builderDigestToCheckpoint := ∅
  sharedObjectNextVersions := .new
  congestionControlRandomnessObjectDebts := .new
  congestionControlObjectDebts := .new
  processedConsensusMessages := .new
  ownedObjectLocks := ∅

variable (self : ConsensusOutputQuarantine) (output : ConsensusCommitOutput)

def insertSharedObjectNextVersions : ConsensusOutputQuarantine :=
  { self with
    sharedObjectNextVersions := output.nextVersionWrites.foldl
      (fun m entry => m.insert entry.1 entry.2) self.sharedObjectNextVersions }

def insertCongestionControlDebts : ConsensusOutputQuarantine :=
  { self with
    congestionControlObjectDebts :=
      (output.debtWrites output.congestionControlObjectDebts).foldl
        (fun m entry => m.insert entry.1 entry.2) self.congestionControlObjectDebts
    congestionControlRandomnessObjectDebts :=
      (output.debtWrites output.congestionControlRandomnessObjectDebts).foldl
        (fun m entry => m.insert entry.1 entry.2) self.congestionControlRandomnessObjectDebts }

def insertProcessedConsensusMessages : ConsensusOutputQuarantine :=
  { self with
    processedConsensusMessages := output.consensusMessagesProcessed.toList.foldl
      (fun m key => m.insert key ()) self.processedConsensusMessages }

def insertOwnedObjectLocks : ConsensusOutputQuarantine :=
  { self with
    ownedObjectLocks := output.ownedObjectLocks.toList.foldl
      (fun m entry => m.insert entry.1 entry.2) self.ownedObjectLocks }

def removeNextVersion (m : RefCountedHashMap ConsensusObjectSequenceKey SequenceNumber)
    (objectId : ConsensusObjectSequenceKey) :
    Exec (RefCountedHashMap ConsensusObjectSequenceKey SequenceNumber) :=
  match m.remove objectId with
  | (true, m) => .ok m
  | (false, _) => .error (.nextVersionNotFound objectId)

def removeSharedObjectNextVersions : Exec ConsensusOutputQuarantine := do
  let versions ← (output.nextVersionWrites.map (·.1)).foldlM removeNextVersion
    self.sharedObjectNextVersions
  return { self with sharedObjectNextVersions := versions }

def removeProcessedConsensusMessages : ConsensusOutputQuarantine :=
  { self with
    processedConsensusMessages := output.consensusMessagesProcessed.toList.foldl
      (fun m key => (m.remove key).2) self.processedConsensusMessages }

def removeCongestionControlDebts : ConsensusOutputQuarantine :=
  { self with
    congestionControlObjectDebts := output.congestionControlObjectDebts.foldl
      (fun m entry => (m.remove entry.1).2) self.congestionControlObjectDebts
    congestionControlRandomnessObjectDebts := output.congestionControlRandomnessObjectDebts.foldl
      (fun m entry => (m.remove entry.1).2) self.congestionControlRandomnessObjectDebts }

def removeOwnedObjectLocks : ConsensusOutputQuarantine :=
  { self with
    ownedObjectLocks := output.ownedObjectLocks.keys.foldl (fun m objRef => m.erase objRef)
      self.ownedObjectLocks }

def insertBuilderSummary (sequenceNumber : CheckpointSequenceNumber)
    (summary : BuilderCheckpointSummary) (contents : CheckpointContents) :
    ConsensusOutputQuarantine :=
  { self with
    builderDigestToCheckpoint := contents.foldl (fun m tx => m.insert tx sequenceNumber)
      self.builderDigestToCheckpoint
    builderCheckpointSummary :=
      self.builderCheckpointSummary.insert sequenceNumber (summary, contents) }

/-! ### Commits -/

/-- The digests of a checkpoint leave the builder's map. -/
def removeDigest (seq : CheckpointSequenceNumber)
    (m : HashMap TransactionDigest CheckpointSequenceNumber) (digest : TransactionDigest) :
    Exec (HashMap TransactionDigest CheckpointSequenceNumber) := do
  let found ← Exec.unwrap m[digest]? (.transactionNotFound digest)
  Exec.require (found = seq) (.otherCheckpoint digest)
  return m.erase digest

/-- Takes the first checkpoint, which is executed, from the builder's maps. -/
def popSummary (batch : DBBatch) (highestCommittedHeight : Option CheckpointHeight)
    (seq : CheckpointSequenceNumber) (builderSummary : BuilderCheckpointSummary)
    (contents : CheckpointContents) :
    Exec (ConsensusOutputQuarantine × DBBatch × Option CheckpointHeight) := do
  let digests ← contents.foldlM (removeDigest seq) self.builderDigestToCheckpoint
  let batch := { batch with
    builderDigestToCheckpoint := batch.builderDigestToCheckpoint ++ contents.map (·, seq)
    builderCheckpointSummary := batch.builderCheckpointSummary ++ [(seq, builderSummary)] }
  let checkpointHeight ← Exec.unwrap builderSummary.checkpointHeight .checkpointWithoutHeight
  let highest := highestCommittedHeight.getD checkpointHeight
  Exec.require (highest ≤ checkpointHeight) (.heightDecreased checkpointHeight highest)
  return ({ self with
    builderCheckpointSummary := self.builderCheckpointSummary.erase seq
    builderDigestToCheckpoint := digests }, batch, some checkpointHeight)

/-- The loop over the builder's checkpoints, in the order of the map. -/
def commitSummaries (self : ConsensusOutputQuarantine) (batch : DBBatch)
    (highestCommittedHeight : Option CheckpointHeight) :
    List (CheckpointSequenceNumber × BuilderCheckpointSummary × CheckpointContents) →
    Exec (ConsensusOutputQuarantine × DBBatch × Option CheckpointHeight)
  | [] => return (self, batch, highestCommittedHeight)
  | (seq, builderSummary, contents) :: rest =>
    if seq ≤ self.highestExecutedCheckpoint then do
      let (self, batch, highestCommittedHeight) ←
        self.popSummary batch highestCommittedHeight seq builderSummary contents
      commitSummaries self batch highestCommittedHeight rest
    else return (self, batch, highestCommittedHeight)

/-- The last output up to the height after which the checkpoint queue was empty. -/
def lastDrainIdx (highestCommittedHeight : CheckpointHeight) (i : Nat) (last : Option Nat) :
    List ConsensusCommitOutput → Exec (Option Nat)
  | [] => return last
  | output :: rest => do
    let stats ← Exec.unwrap output.consensusCommitStats .commitStatsNotSet
    if highestCommittedHeight < stats.height then
      return last
    else
      lastDrainIdx highestCommittedHeight (i + 1)
        (if output.checkpointQueueDrained then some i else last) rest

/-- Writes out the first outputs of the queue. -/
def drain (batch : DBBatch) : Nat → ConsensusOutputQuarantine →
    Exec (ConsensusOutputQuarantine × DBBatch)
  | 0, self => return (self, batch)
  | n + 1, self =>
    match self.outputQueue with
    | [] => return (self, batch)
    | output :: rest => do
      let self ← { self with outputQueue := rest }.removeSharedObjectNextVersions output
      let self := self.removeProcessedConsensusMessages output
      let self := self.removeCongestionControlDebts output
      let self := self.removeOwnedObjectLocks output
      let batch ← output.writeToBatch batch
      drain batch n self

def commitWithBatch (batch : DBBatch) : Exec (ConsensusOutputQuarantine × DBBatch) := do
  let (self, batch, highestCommittedHeight) ←
    self.commitSummaries batch none self.builderCheckpointSummary.toList
  match highestCommittedHeight with
  | none => return (self, batch)
  | some highestCommittedHeight =>
    match ← lastDrainIdx highestCommittedHeight 0 none self.outputQueue with
    | none => return (self, batch)
    | some idx => drain batch (idx + 1) self

def commit (tables : EpochTables) : Exec (ConsensusOutputQuarantine × EpochTables) := do
  let (self, batch) ← self.commitWithBatch {}
  return (self, batch.write tables)

def updateHighestExecutedCheckpoint (checkpoint : CheckpointSequenceNumber) (batch : DBBatch) :
    Exec (ConsensusOutputQuarantine × DBBatch) :=
  { self with highestExecutedCheckpoint := checkpoint }.commitWithBatch batch

def pushConsensusOutput (tables : EpochTables) : Exec (ConsensusOutputQuarantine × EpochTables) :=
  let self := self.insertSharedObjectNextVersions output
  let self := self.insertCongestionControlDebts output
  let self := self.insertProcessedConsensusMessages output
  let self := self.insertOwnedObjectLocks output
  { self with outputQueue := self.outputQueue ++ [output] }.commit tables

/-! ### Reads -/

def getNextSharedObjectVersions (tables : EpochTables)
    (objectsToInit : List ConsensusObjectSequenceKey) : Exec (List (Option SequenceNumber)) :=
  doFallbackLookup objectsToInit
    (fun objectKey => .ofOption (self.sharedObjectNextVersions.get objectKey))
    (fun objectKeys => objectKeys.map (tables.nextSharedObjectVersions[·]?))

def getOwnedObjectLocks (tables : EpochTables) (objRefs : List ObjectRef) :
    Exec (List (Option LockDetails)) :=
  doFallbackLookup objRefs
    (fun objRef => .ofOption self.ownedObjectLocks[objRef]?)
    (fun objRefs => objRefs.map (tables.ownedObjectLockedTransactions[·]?))

end ConsensusOutputQuarantine

/-! ### The epoch store -/

structure ObjectLockConflict where
  objRef : ObjectRef
  pendingTransaction : TransactionDigest
deriving DecidableEq

/-- The first reference that another transaction has locked. -/
def lockConflict (txDigest : TransactionDigest) (lockOf : ObjectRef → Option TransactionDigest)
    (objRefs : List ObjectRef) : Option ObjectLockConflict :=
  objRefs.findSome? fun objRef =>
    match lockOf objRef with
    | some lockedTxDigest => if lockedTxDigest ≠ txDigest then some ⟨objRef, lockedTxDigest⟩ else none
    | none => none

/-- The quarantine and the tables, with the locks of the commit that is being handled. -/
structure System where
  consensusQuarantine : ConsensusOutputQuarantine
  tables : EpochTables
  ownedObjectLocks : HashMap ObjectRef TransactionDigest

namespace System

def tryAcquireOwnedObjectLocksPostConsensus (s : System) (ownedObjectRefs : List ObjectRef)
    (txDigest : TransactionDigest) :
    Exec (Except ObjectLockConflict (List (ObjectRef × LockDetails))) :=
  match lockConflict txDigest (s.ownedObjectLocks[·]?) ownedObjectRefs with
  | some conflict => return .error conflict
  | none => do
    let existingLocks ← s.consensusQuarantine.getOwnedObjectLocks s.tables ownedObjectRefs
    match (existingLocks.zip ownedObjectRefs).findSome? fun (lock, objRef) =>
        lockConflict txDigest (fun _ => lock) [objRef] with
    | some conflict => return .error conflict
    | none => return .ok (ownedObjectRefs.map (·, txDigest))

/-- The output of the commit that is being handled, with the locks acquired for it. -/
def commitOutput (s : System) (output : ConsensusCommitOutput) : Exec ConsensusCommitOutput :=
  -- An output is built without locks.
  let output := { output with ownedObjectLocks := ∅ }
  if s.ownedObjectLocks.isEmpty then .ok output else output.setOwnedObjectLocks s.ownedObjectLocks

inductive Action
  /-- The handler of a commit meets a transaction with owned inputs. -/
  | acquire (ownedObjectRefs : List ObjectRef) (txDigest : TransactionDigest)
  /-- The handler has set the other parts of the output. -/
  | push (output : ConsensusCommitOutput)
  | insertBuilderSummary (sequenceNumber : CheckpointSequenceNumber)
      (summary : BuilderCheckpointSummary) (contents : CheckpointContents)
  | commit
  | updateHighestExecutedCheckpoint (checkpoint : CheckpointSequenceNumber)

/-- One step, which returns the output it pushes. -/
def step (s : System) : Action → Exec (Option ConsensusCommitOutput × System)
  | .acquire ownedObjectRefs txDigest => do
    match ← s.tryAcquireOwnedObjectLocksPostConsensus ownedObjectRefs txDigest with
    | .ok newLocks => return (none, { s with ownedObjectLocks := Writes.apply s.ownedObjectLocks newLocks })
    | .error _ => return (none, s)
  | .push output => do
    let output ← s.commitOutput output
    let (quarantine, tables) ← s.consensusQuarantine.pushConsensusOutput output s.tables
    return (some output, ⟨quarantine, tables, ∅⟩)
  | .insertBuilderSummary sequenceNumber summary contents =>
    return (none, { s with
      consensusQuarantine :=
        s.consensusQuarantine.insertBuilderSummary sequenceNumber summary contents })
  | .commit => do
    let (quarantine, tables) ← s.consensusQuarantine.commit s.tables
    return (none, { s with consensusQuarantine := quarantine, tables := tables })
  | .updateHighestExecutedCheckpoint checkpoint => do
    let (quarantine, batch) ← s.consensusQuarantine.updateHighestExecutedCheckpoint checkpoint {}
    return (none, { s with consensusQuarantine := quarantine, tables := batch.write s.tables })

end System

end Sui.Quarantine
