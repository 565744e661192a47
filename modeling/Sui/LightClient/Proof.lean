import Sui.Lib.BTree
import Sui.Lib.Except
import Sui.Lib.Merkle

/-! Proofs for light clients.

A `Proof` has a certified checkpoint summary, a target, and contents that relate the two. An
object-checkpoint-state target is the reference that an object has at the end of the
checkpoint, or an object that the checkpoint does not modify. It is checked against the
Merkle tree of the modified objects, whose root the summary commits to.

The hash functions, the Merkle trees and the quorum signatures are parameters (`Library`).
The fields of a summary that no function here reads are left out, and so are the targets
that are proved by a transaction: objects and events. -/
namespace Sui.LightClient

open Sui.Lib Sui.Lib.Exec

abbrev EpochId := Nat
abbrev CheckpointSequenceNumber := Nat
abbrev AuthorityName := Nat
abbrev StakeUnit := Nat
abbrev ObjectID := Nat
abbrev SequenceNumber := Nat

/-- Digests of objects, in the order of their bytes. -/
abbrev ObjectDigest := Nat

abbrev ObjectRef := ObjectID ×ₗ SequenceNumber ×ₗ ObjectDigest

def objectRef (id : ObjectID) (seq : SequenceNumber) (digest : ObjectDigest) : ObjectRef :=
  toLex (id, toLex (seq, digest))

def ObjectRef.id (ref : ObjectRef) : ObjectID := (ofLex ref).1

inductive Panic
  /-- Object states should be monotonically increasing. -/
  | stateNotIncreasing (id : ObjectID)
  /-- A committee without members, without voting power, or with another total of it. -/
  | invalidCommittee
deriving DecidableEq

/-- The texts of general errors. -/
inductive GeneralError
  | library
  | objectStatesNotFound
  | artifactsDigestNotFound
  | appearsMoreThanOnce (id : ObjectID)
  | refMismatch (input : ObjectRef) (actual : Option ObjectRef)
  | objectNotFound (id : ObjectID)
  | inCheckpoint (id : ObjectID)
deriving DecidableEq

inductive SummaryError
  | wrongEpoch (expected actual : EpochId)
  | invalidSignature
deriving DecidableEq

inductive ProofError
  | committeeMismatch
  | mismatchedTargetAndProofType
  | epochAddOverflow
  | expectedEndOfEpochCheckpoint
  | summaryVerificationFailed (error : SummaryError)
  | invalidProof
  | artifactDigestMismatch
  | generalError (error : GeneralError)
  /-- An assertion fails instead. -/
  | panic (panic : Panic)
deriving DecidableEq

abbrev ProofResult := Except ProofError

/-! ### Committees and summaries -/

structure Committee where
  epoch : EpochId
  votingRights : List (AuthorityName × StakeUnit)
deriving DecidableEq

def totalVotingPower : StakeUnit := 10000

def Committee.new (epoch : EpochId) (votingRights : BTreeMap AuthorityName StakeUnit) :
    ProofResult Committee := do
  let votingRights := votingRights.toList
  require (votingRights.any fun right => right.2 ≠ 0) (.panic .invalidCommittee)
  require ((votingRights.map Prod.snd).sum = totalVotingPower) (.panic .invalidCommittee)
  return ⟨epoch, votingRights⟩

variable {δ Δ σ : Type}

inductive CheckpointCommitment (Δ : Type)
  | ecmhLiveObjectSetDigest (digest : Nat)
  | checkpointArtifactsDigest (digest : Δ)
deriving DecidableEq

structure EndOfEpochData where
  nextEpochCommittee : List (AuthorityName × StakeUnit)
deriving DecidableEq

structure CheckpointSummary (Δ : Type) where
  epoch : EpochId
  sequenceNumber : CheckpointSequenceNumber
  checkpointCommitments : List (CheckpointCommitment Δ)
  endOfEpochData : Option EndOfEpochData
deriving DecidableEq

def CheckpointSummary.checkpointArtifactsDigest (self : CheckpointSummary Δ) : ProofResult Δ :=
  let digest := self.checkpointCommitments.findSome? fun commitment =>
    match commitment with
    | .checkpointArtifactsDigest digest => some digest
    | .ecmhLiveObjectSetDigest _ => none
  unwrap digest (.generalError .artifactsDigestNotFound)

/-- A quorum's signature, with the epoch that it names. -/
structure AuthorityQuorumSignInfo (σ : Type) where
  epoch : EpochId
  signature : σ

structure CertifiedCheckpointSummary (Δ σ : Type) where
  data : CheckpointSummary Δ
  authSig : AuthorityQuorumSignInfo σ

/-- Hashing, Merkle trees and signatures. -/
structure Library (δ Δ σ : Type) where
  merkle : Merkle ObjectRef δ
  fromArtifactDigests : List δ → Δ
  /-- Members with a quorum of the voting power have signed the summary. -/
  quorumSigned : Committee → CheckpointSummary Δ → σ → Bool

def CertifiedCheckpointSummary.verifyAuthoritySignatures (library : Library δ Δ σ)
    (self : CertifiedCheckpointSummary Δ σ) (committee : Committee) : Except SummaryError Unit := do
  require (self.data.epoch = self.authSig.epoch)
    (.wrongEpoch self.authSig.epoch self.data.epoch)
  require (self.authSig.epoch = committee.epoch) (.wrongEpoch committee.epoch self.authSig.epoch)
  require (library.quorumSigned committee self.data self.authSig.signature = true) .invalidSignature

/-- The committee of the next epoch, from the last summary of an epoch. -/
def extractNewCommitteeInfo (summary : CheckpointSummary Δ) : ProofResult Committee :=
  match summary.endOfEpochData with
  | none => .error .expectedEndOfEpochCheckpoint
  | some data => do
    let nextCommittee := data.nextEpochCommittee.foldl
      (fun rights right => rights.insert right.1 right.2) (∅ : BTreeMap AuthorityName StakeUnit)
    require (summary.epoch + 1 < 2 ^ 64) .epochAddOverflow
    Committee.new (summary.epoch + 1) nextCommittee

/-! ### Artifacts of a checkpoint -/

abbrev ObjectStates := BTreeMap ObjectID (SequenceNumber × ObjectDigest)

inductive CheckpointArtifact
  | objectStates (states : ObjectStates)

/-- The references of the states, in the order of the objects. -/
def ObjectStates.leaves (states : ObjectStates) : List ObjectRef :=
  states.toList.map fun state => objectRef state.1 state.2.1 state.2.2

def CheckpointArtifact.digest (library : Library δ Δ σ) : CheckpointArtifact → ProofResult δ
  | .objectStates states => unwrap (library.merkle.root states.leaves) (.generalError .library)

structure CheckpointArtifacts where
  artifacts : List CheckpointArtifact

/-- The effects of a transaction, with the references of the objects that it wrote, deleted
or wrapped. -/
structure TransactionEffects where
  written : List ObjectRef

namespace CheckpointArtifacts

def fromObjectStates (states : ObjectStates) : CheckpointArtifacts := ⟨[.objectStates states]⟩

def objectStates (self : CheckpointArtifacts) : ProofResult ObjectStates :=
  match self.artifacts with
  | [] => .error (.generalError .objectStatesNotFound)
  | .objectStates states :: _ => return states

def digest (library : Library δ Δ σ) (self : CheckpointArtifacts) : ProofResult Δ := do
  let digests ← self.artifacts.mapM (CheckpointArtifact.digest library)
  return library.fromArtifactDigests digests

def insertState (states : ObjectStates) (ref : ObjectRef) : ProofResult ObjectStates := do
  let state := (ofLex ref).2
  require (∀ old ∈ states[ref.id]?, old.1 < (ofLex state).1) (.panic (.stateNotIncreasing ref.id))
  return states.insert ref.id (ofLex state)

def ofEffects (effects : List TransactionEffects) : ProofResult CheckpointArtifacts := do
  let states ← effects.foldlM (fun states e => e.written.foldlM insertState states) ∅
  return fromObjectStates states

end CheckpointArtifacts

/-! ### Object checkpoint state -/

inductive OCSTargetType
  /-- The object is updated in the checkpoint. -/
  | inclusion
  /-- It is not. -/
  | nonInclusion
deriving DecidableEq

structure OCSTarget where
  objectRef : ObjectRef
  targetType : OCSTargetType
deriving DecidableEq

namespace OCSTarget

def getDummyObjectRef (id : ObjectID) : ObjectRef := LightClient.objectRef id 0 0

def newNonInclusionTarget (id : ObjectID) : OCSTarget := ⟨getDummyObjectRef id, .nonInclusion⟩

def newInclusionTarget (ref : ObjectRef) : OCSTarget := ⟨ref, .inclusion⟩

end OCSTarget

structure OCSInclusionProof (library : Library δ Δ σ) where
  merkleProof : library.merkle.Proof
  leafIndex : Nat
  treeRoot : δ

structure OCSNonInclusionProof (library : Library δ Δ σ) where
  nonInclusionProof : library.merkle.NonInclusionProof
  treeRoot : δ

variable {library : Library δ Δ σ}

def OCSInclusionProof.verify (self : OCSInclusionProof library) (target : OCSTarget) :
    ProofResult Unit := do
  require (target.targetType = .inclusion) .mismatchedTargetAndProofType
  require (library.merkle.verifyProof self.merkleProof self.treeRoot target.objectRef
    self.leafIndex = true) .invalidProof

def OCSNonInclusionProof.verify (self : OCSNonInclusionProof library) (target : OCSTarget) :
    ProofResult Unit := do
  require (target.targetType = .nonInclusion) .mismatchedTargetAndProofType
  require (library.merkle.verifyNonInclusionProof self.nonInclusionProof self.treeRoot
    target.objectRef = true) .invalidProof

inductive OCSProof (library : Library δ Δ σ)
  | inclusion (proof : OCSInclusionProof library)
  | nonInclusion (proof : OCSNonInclusionProof library)

namespace OCSProof

def getArtifactDigest : OCSProof library → δ
  | .inclusion proof => proof.treeRoot
  | .nonInclusion proof => proof.treeRoot

def verifyTarget (self : OCSProof library) (target : OCSTarget) : ProofResult Unit :=
  match self with
  | .inclusion proof => proof.verify target
  | .nonInclusion proof => proof.verify target

end OCSProof

/-- The tree of all objects updated in the checkpoint. -/
structure ModifiedObjectTree (δ : Type) where
  leaves : List ObjectRef
  treeRoot : δ
  objectPosMap : BTreeMap ObjectID Nat

namespace ModifiedObjectTree

def insertPosition (positions : BTreeMap ObjectID Nat) (leaf : ObjectRef × Nat) :
    ProofResult (BTreeMap ObjectID Nat) := do
  require (leaf.1.id ∉ positions) (.generalError (.appearsMoreThanOnce leaf.1.id))
  return positions.insert leaf.1.id leaf.2

def new (library : Library δ Δ σ) (artifacts : CheckpointArtifacts) :
    ProofResult (ModifiedObjectTree δ) := do
  let states ← artifacts.objectStates
  let objectPosMap ← states.leaves.zipIdx.foldlM insertPosition ∅
  let treeRoot ← unwrap (library.merkle.root states.leaves) (.generalError .library)
  return ⟨states.leaves, treeRoot, objectPosMap⟩

def getObjectState (self : ModifiedObjectTree δ) (id : ObjectID) : Option ObjectRef :=
  self.objectPosMap[id]?.bind fun position => self.leaves[position]?

def isObjectInCheckpoint (self : ModifiedObjectTree δ) (id : ObjectID) : Bool :=
  self.objectPosMap.contains id

def getInclusionProof (library : Library δ Δ σ) (self : ModifiedObjectTree δ) (ref : ObjectRef) :
    ProofResult (OCSInclusionProof library) := do
  require (self.getObjectState ref.id = some ref)
    (.generalError (.refMismatch ref (self.getObjectState ref.id)))
  let index ← unwrap self.objectPosMap[ref.id]? (.generalError (.objectNotFound ref.id))
  let proof ← unwrap (library.merkle.getProof self.leaves index) (.generalError .library)
  return ⟨proof, index, self.treeRoot⟩

def getNonInclusionProof (library : Library δ Δ σ) (self : ModifiedObjectTree δ) (ref : ObjectRef) :
    ProofResult (OCSNonInclusionProof library) := do
  require (self.isObjectInCheckpoint ref.id = false) (.generalError (.inCheckpoint ref.id))
  let proof ← unwrap (library.merkle.computeNonInclusionProof self.leaves ref)
    (.generalError .library)
  return ⟨proof, self.treeRoot⟩

end ModifiedObjectTree

/-! ### Proofs -/

structure CommitteeTarget where
  committee : Committee

inductive ProofTarget
  | committee (target : CommitteeTarget)
  | objectCheckpointState (target : OCSTarget)

inductive ProofContents (library : Library δ Δ σ)
  | transactionProof
  | committeeProof
  | objectCheckpointStateProof (proof : OCSProof library)

structure Proof (library : Library δ Δ σ) where
  targets : ProofTarget
  checkpointSummary : CertifiedCheckpointSummary Δ σ
  proofContents : ProofContents library

def CommitteeProof.verify (targets : ProofTarget) (summary : CheckpointSummary Δ) :
    ProofResult Unit :=
  match targets with
  | .committee target => do
    let newCommittee ← extractNewCommitteeInfo summary
    require (newCommittee = target.committee) .committeeMismatch
  | .objectCheckpointState _ => .error .mismatchedTargetAndProofType

variable [DecidableEq Δ]

def OCSProof.verify (self : OCSProof library) (targets : ProofTarget)
    (summary : CheckpointSummary Δ) : ProofResult Unit :=
  match targets with
  | .objectCheckpointState target => do
    let actual ← summary.checkpointArtifactsDigest
    require (library.fromArtifactDigests [self.getArtifactDigest] = actual) .artifactDigestMismatch
    self.verifyTarget target
  | .committee _ => .error .mismatchedTargetAndProofType

/-- The targets and the type of the proof match. -/
def Proof.matchesTargets (self : Proof library) : Bool :=
  match self.targets, self.proofContents with
  | .committee _, .committeeProof => true
  | .objectCheckpointState _, .objectCheckpointStateProof _ => true
  | _, _ => false

def ProofContents.verify (self : ProofContents library) (targets : ProofTarget)
    (summary : CheckpointSummary Δ) : ProofResult Unit :=
  match self with
  | .transactionProof => .error .mismatchedTargetAndProofType
  | .committeeProof => CommitteeProof.verify targets summary
  | .objectCheckpointStateProof proof => proof.verify targets summary

def Proof.verify (self : Proof library) (committee : Committee) : ProofResult Unit := do
  match self.checkpointSummary.verifyAuthoritySignatures library committee with
  | .error error => .error (.summaryVerificationFailed error)
  | .ok _ => do
    require (self.matchesTargets = true) .mismatchedTargetAndProofType
    self.proofContents.verify self.targets self.checkpointSummary.data

omit [DecidableEq Δ]

structure CheckpointData (Δ σ : Type) where
  checkpointSummary : CertifiedCheckpointSummary Δ σ
  transactions : List TransactionEffects

def OCSTarget.construct (library : Library δ Δ σ) (self : OCSTarget)
    (checkpoint : CheckpointData Δ σ) : ProofResult (Proof library) := do
  let artifacts ← CheckpointArtifacts.ofEffects checkpoint.transactions
  let tree ← ModifiedObjectTree.new library artifacts
  match self.targetType with
  | .inclusion => do
    let proof ← tree.getInclusionProof library self.objectRef
    return ⟨.objectCheckpointState self, checkpoint.checkpointSummary,
      .objectCheckpointStateProof (.inclusion proof)⟩
  | .nonInclusion => do
    let proof ← tree.getNonInclusionProof library self.objectRef
    return ⟨.objectCheckpointState self, checkpoint.checkpointSummary,
      .objectCheckpointStateProof (.nonInclusion proof)⟩

end Sui.LightClient
