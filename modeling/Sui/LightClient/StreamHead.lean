import Sui.LightClient.ObjectState

/-! Authenticated stream heads.

The client follows the committees from the genesis committee on: the last summary of an
epoch, signed by its committee, names the next committee (`trustRatchetToCheckpoint`). With
the committee that its cache has for a checkpoint, it verifies what the server sends for
the head of an event stream (`fetchAndVerifyStreamHead`).

Whatever the server answers, the cache holds the true committees only (`ratchet_genuine`).
The head is decoded from one field of the response, and the proof in it is checked for a
reference and a summary in others. `stream_head_genuine` says that the head is that of the
stream at the checkpoint if these are linked: the reference is the one of the decoded
object, its id the one asked for, and the summary the one of the checkpoint. The client
checks none of these links, and `forged_head_accepted` is a response with another head.

The encodings and the digest of objects are parameters (`Codec`). A request is modelled by
what the server answers to it. -/
namespace Sui.LightClient

open Sui.Lib Sui.Lib.BTreeMap Sui.Lib.Exec

abbrev Bytes := List UInt8

structure EventStreamHead where
  mmr : List Nat
  checkpointSeq : CheckpointSequenceNumber
  numEvents : Nat
deriving DecidableEq

inductive Data
  | move (contents : Bytes)
  | package
deriving DecidableEq

structure Object where
  id : ObjectID
  version : SequenceNumber
  data : Data
deriving DecidableEq

/-! ### What the server answers -/

inductive Code
  | notFound
  | unavailable
  | deadlineExceeded
  | resourceExhausted
  | aborted
  | other
deriving DecidableEq

abbrev Reply (α : Type) := Except Code α

structure ProtoObjectReference where
  objectId : Option String
  version : Option SequenceNumber
  digest : Option String

inductive ProtoMerkleNode
  | missing
  | empty
  | digest (bytes : Bytes)
  | unknown

structure ProtoOcsInclusionProof where
  objectRef : Option ProtoObjectReference
  merkleProof : Option (List ProtoMerkleNode)
  leafIndex : Option Nat
  treeRoot : Option Bytes
  objectData : Option Bytes

inductive ProtoProof
  | inclusion (proof : ProtoOcsInclusionProof)
  | nonInclusion
  | unknown

structure GetCheckpointObjectProofResponse where
  checkpointSummary : Option Bytes
  proof : Option ProtoProof

structure ProtoEpoch where
  lastCheckpoint : Option CheckpointSequenceNumber

/-- The answers in one iteration of the ratchet: the epoch, and its last checkpoint. -/
structure EpochReplies where
  getEpoch : Reply (Option ProtoEpoch)
  getCheckpoint : Reply (Option Bytes)

inductive InternalError
  | missingProof
  | notUpdated (checkpoint : CheckpointSequenceNumber)
  | unknownProofVariant
  | missingObjectData
  | bcs
  | streamHead
  | expectedMoveObject
  | missingEpochInfo (epoch : EpochId)
  | getEpochFailed (epoch : EpochId) (code : Code)
  | fetchCheckpointFailed (checkpoint : CheckpointSequenceNumber) (code : Code)
  | missingCheckpoint
  | convertCheckpoint
  | missingCheckpointSummary
  | missingObjectRef
  | missingObjectId
  | invalidObjectId
  | missingVersion
  | missingDigest
  | invalidDigest
  | missingMerkleNode
  | merkleNodeLength (length : Nat)
  | unknownMerkleNode
  | missingMerkleProof
  | missingLeafIndex
  | missingTreeRoot
  | treeRootLength (length : Nat)
deriving DecidableEq

inductive VerificationError
  | checkpoint (checkpoint : CheckpointSequenceNumber) (error : SummaryError)
  | extractCommittee (checkpoint : CheckpointSequenceNumber) (error : ProofError)
  | proof (error : ProofError)
deriving DecidableEq

inductive ClientError
  | verificationError (error : VerificationError)
  | internalError (error : InternalError)
  | rpcError (code : Code)
  /-- Committee must exist after the ratchet succeeded. -/
  | noCommittee
deriving DecidableEq

section Client
variable {δ Δ σ : Type}

/-- Encodings, and the digest of objects. -/
structure Codec (library : Library δ Δ σ) where
  object : Bytes → Option Object
  streamHead : Bytes → Option EventStreamHead
  summary : Bytes → Option (CertifiedCheckpointSummary Δ σ)
  checkpoint : Bytes → Option (CertifiedCheckpointSummary Δ σ)
  objectId : String → Option ObjectID
  objectDigest : String → Option ObjectDigest
  treeRoot : Bytes → δ
  merkleProof : List (Option Bytes) → library.merkle.Proof
  digest : Object → ObjectDigest

variable {library : Library δ Δ σ} (codec : Codec library)

def Object.computeObjectReference (object : Object) : ObjectRef :=
  objectRef object.id object.version (codec.digest object)

def extractStreamHeadFromObject (object : Object) : Except ClientError EventStreamHead :=
  match object.data with
  | .move contents => unwrap (codec.streamHead contents) (.internalError .streamHead)
  | .package => .error (.internalError .expectedMoveObject)

/-! ### Converters -/

def protoObjectRefToSuiObjectRef (proto : ProtoObjectReference) : Except ClientError ObjectRef := do
  let objectId ← unwrap proto.objectId (.internalError .missingObjectId)
  let objectId ← unwrap (codec.objectId objectId) (.internalError .invalidObjectId)
  let version ← unwrap proto.version (.internalError .missingVersion)
  let digest ← unwrap proto.digest (.internalError .missingDigest)
  let digest ← unwrap (codec.objectDigest digest) (.internalError .invalidDigest)
  return objectRef objectId version digest

def protoMerkleNodeToNode : ProtoMerkleNode → Except ClientError (Option Bytes)
  | .missing => .error (.internalError .missingMerkleNode)
  | .empty => return none
  | .digest bytes => do
    require (bytes.length = 32) (.internalError (.merkleNodeLength bytes.length))
    return some bytes
  | .unknown => .error (.internalError .unknownMerkleNode)

def protoOcsInclusionProofToLightClientProof (proto : ProtoOcsInclusionProof) :
    Except ClientError (OCSInclusionProof library) := do
  let path ← unwrap proto.merkleProof (.internalError .missingMerkleProof)
  let nodes ← path.mapM protoMerkleNodeToNode
  let leafIndex ← unwrap proto.leafIndex (.internalError .missingLeafIndex)
  let treeRoot ← unwrap proto.treeRoot (.internalError .missingTreeRoot)
  require (treeRoot.length = 32) (.internalError (.treeRootLength treeRoot.length))
  return ⟨codec.merkleProof nodes, leafIndex, codec.treeRoot treeRoot⟩

/-! ### The committees -/

structure EpochCache where
  completedCommittees : List (CheckpointSequenceNumber × CheckpointSequenceNumber × Committee)
  currentEpochNumber : EpochId
  currentCommittee : Committee
  currentEpochStartCheckpoint : CheckpointSequenceNumber

/-- The loop of a binary search among `size` elements from `base` on. -/
def searchBase (cmp : Nat → Ordering) : Nat → Nat → Nat → Nat
  | 0, _, base => base
  | fuel + 1, size, base =>
    if 1 < size then
      let half := size / 2
      searchBase cmp fuel (size - half) (if cmp (base + half) = .gt then base else base + half)
    else base

def binarySearchBy {α : Type} (l : List α) (cmp : α → Ordering) : Option Nat :=
  let at' := fun i => (l[i]?.map cmp).getD .gt
  let base := searchBase at' l.length l.length 0
  if at' base = .eq then some base else none

namespace EpochCache

def new (genesisCommittee : Committee) : EpochCache := ⟨[], 0, genesisCommittee, 0⟩

def getCommitteeForCheckpoint (self : EpochCache) (checkpoint : CheckpointSequenceNumber) :
    Option Committee :=
  if self.currentEpochStartCheckpoint ≤ checkpoint then some self.currentCommittee
  else
    let found := binarySearchBy self.completedCommittees fun range =>
      if checkpoint < range.1 then .gt else if range.2.1 < checkpoint then .lt else .eq
    (found.bind fun i => self.completedCommittees[i]?).map fun range => range.2.2

def applyRatchetUpdate (self : EpochCache) (endOfEpochCheckpoint : CheckpointSequenceNumber)
    (newCommittee : Committee) : EpochCache where
  completedCommittees := self.completedCommittees ++
    [(self.currentEpochStartCheckpoint, endOfEpochCheckpoint, self.currentCommittee)]
  currentEpochNumber := self.currentEpochNumber + 1
  currentCommittee := newCommittee
  currentEpochStartCheckpoint := endOfEpochCheckpoint + 1

end EpochCache

/-- The last checkpoint of the epoch, as the server reports it, if there is one. -/
def endOfEpochCheckpoint (currentEpoch : EpochId) (reply : Reply (Option ProtoEpoch)) :
    Except ClientError (Option CheckpointSequenceNumber) :=
  match reply with
  | .ok (some epoch) => return epoch.lastCheckpoint
  | .ok none => .error (.internalError (.missingEpochInfo currentEpoch))
  | .error .notFound => return none
  | .error code => .error (.internalError (.getEpochFailed currentEpoch code))

/-- The summary that the server sends for the last checkpoint of an epoch. -/
def endOfEpochSummary (checkpoint : CheckpointSequenceNumber) (reply : Reply (Option Bytes)) :
    Except ClientError (CertifiedCheckpointSummary Δ σ) :=
  match reply with
  | .error code => .error (.internalError (.fetchCheckpointFailed checkpoint code))
  | .ok none => .error (.internalError .missingCheckpoint)
  | .ok (some bytes) => unwrap (codec.checkpoint bytes) (.internalError .convertCheckpoint)

def mapError {ε ε' α : Type} (f : ε → ε') : Except ε α → Except ε' α
  | .ok a => .ok a
  | .error e => .error (f e)

def fetchAndVerifyNextEpoch (currentEpoch : EpochId) (currentCommittee : Committee)
    (toCheckpoint : CheckpointSequenceNumber) (replies : EpochReplies) :
    Except ClientError (Option (CheckpointSequenceNumber × Committee)) := do
  match ← endOfEpochCheckpoint currentEpoch replies.getEpoch with
  | none => return none
  | some last =>
    if toCheckpoint ≤ last then return none
    else do
      let summary ← endOfEpochSummary codec last replies.getCheckpoint
      mapError (fun error => .verificationError (.checkpoint last error))
        (summary.verifyAuthoritySignatures library currentCommittee)
      let nextCommittee ← mapError (fun error => .verificationError (.extractCommittee last error))
        (extractNewCommitteeInfo summary.data)
      return some (last, nextCommittee)

/-- One iteration of the ratchet: the next cache, unless it is done. An iteration whose
epoch another task ends meanwhile changes nothing, and is left out. -/
def ratchetOnce (cache : EpochCache) (checkpoint : CheckpointSequenceNumber)
    (replies : EpochReplies) : Except ClientError (Option EpochCache) :=
  if checkpoint < cache.currentEpochStartCheckpoint then return none
  else do
    let result ← fetchAndVerifyNextEpoch codec cache.currentEpochNumber cache.currentCommittee
      checkpoint replies
    return result.map fun next => cache.applyRatchetUpdate next.1 next.2

/-- Iterations of other tasks of the client, with their checkpoints. -/
def otherTasks (cache : EpochCache) (others : List (CheckpointSequenceNumber × EpochReplies)) :
    EpochCache :=
  others.foldl (fun cache other =>
    match ratchetOnce codec cache other.1 other.2 with
    | .ok (some next) => next
    | _ => cache) cache

/-- An iteration, after some of other tasks. -/
structure Iteration where
  others : List (CheckpointSequenceNumber × EpochReplies)
  replies : EpochReplies

/-- The cache in the end, unless the server does not answer any more. -/
def trustRatchetToCheckpoint (checkpoint : CheckpointSequenceNumber) :
    List Iteration → EpochCache → Except ClientError (Option EpochCache)
  | [], _ => return none
  | iteration :: rest, cache => do
    let cache := otherTasks codec cache iteration.others
    match ← ratchetOnce codec cache checkpoint iteration.replies with
    | none => return some cache
    | some next => trustRatchetToCheckpoint checkpoint rest next

/-! ### The head of a stream -/

section Verify
variable [DecidableEq Δ]

def verifyOcsInclusionProof (committee : Committee) (response : GetCheckpointObjectProofResponse) :
    Except ClientError Unit := do
  let bytes ← unwrap response.checkpointSummary (.internalError .missingCheckpointSummary)
  let checkpointSummary ← unwrap (codec.summary bytes) (.internalError .bcs)
  match response.proof with
  | none => .error (.internalError .missingProof)
  | some .nonInclusion => .error (.internalError .unknownProofVariant)
  | some .unknown => .error (.internalError .unknownProofVariant)
  | some (.inclusion inclusionProof) => do
    let proto ← unwrap inclusionProof.objectRef (.internalError .missingObjectRef)
    let ref ← protoObjectRefToSuiObjectRef codec proto
    let ocsInclusionProof ← protoOcsInclusionProofToLightClientProof codec inclusionProof
    let proof : Proof library :=
      ⟨.objectCheckpointState (.newInclusionTarget ref), checkpointSummary,
        .objectCheckpointStateProof (.inclusion ocsInclusionProof)⟩
    mapError (fun error => .verificationError (.proof error)) (proof.verify committee)

/-- What the client does with a response. -/
def verifyStreamHead (committee : Committee) (checkpoint : CheckpointSequenceNumber)
    (reply : Reply GetCheckpointObjectProofResponse) : Except ClientError EventStreamHead := do
  let response ← mapError .rpcError reply
  match response.proof with
  | none => .error (.internalError .missingProof)
  | some .nonInclusion => .error (.internalError (.notUpdated checkpoint))
  | some .unknown => .error (.internalError .unknownProofVariant)
  | some (.inclusion inclusionProof) => do
    let bytes ← unwrap inclusionProof.objectData (.internalError .missingObjectData)
    let object ← unwrap (codec.object bytes) (.internalError .bcs)
    let streamHead ← extractStreamHeadFromObject codec object
    verifyOcsInclusionProof codec committee response
    return streamHead

/-- What the server answers in a call, with what other tasks do meanwhile. -/
structure Answers where
  ratchet : List Iteration
  others : List (CheckpointSequenceNumber × EpochReplies)
  proof : Reply GetCheckpointObjectProofResponse

/-- A head, with the committee that it was verified with. -/
structure Fetched where
  head : EventStreamHead
  committee : Committee
deriving DecidableEq

/-- The head, unless the server does not answer any more. The response is not compared with
the object that the head was asked for. -/
def fetchAndVerifyStreamHead (cache : EpochCache) (_streamObjectId : ObjectID)
    (checkpoint : CheckpointSequenceNumber) (answers : Answers) :
    Except ClientError (Option Fetched) := do
  match ← trustRatchetToCheckpoint codec checkpoint answers.ratchet cache with
  | none => return none
  | some cache =>
    let cache := otherTasks codec cache answers.others
    let committee ← unwrap (cache.getCommitteeForCheckpoint checkpoint) .noCommittee
    let head ← verifyStreamHead codec committee checkpoint answers.proof
    return some ⟨head, committee⟩

end Verify

/-! ### The true chain -/

/-- What the network has agreed on. -/
structure Chain (Δ σ : Type) where
  checkpoint : CheckpointSequenceNumber → Option (CheckpointData Δ σ)
  committee : EpochId → Committee
  /-- The object after the checkpoint, if the checkpoint modifies and does not remove it. -/
  objectAt : CheckpointSequenceNumber → ObjectID → Option Object

/-- Committees sign the summaries of their epoch's checkpoints only, which name the next
committee and commit to the objects modified; no two objects have one reference. -/
structure Chain.Genuine (codec : Codec library) (genesisCommittee : Committee) (chain : Chain Δ σ) :
    Prop where
  genesis : chain.committee 0 = genesisCommittee
  epochs : ∀ epoch, (chain.committee epoch).epoch = epoch
  numbers : ∀ n data, chain.checkpoint n = some data →
    data.checkpointSummary.data.sequenceNumber = n
  signs : ∀ epoch summary signature,
    library.quorumSigned (chain.committee epoch) summary signature = true → summary.epoch = epoch →
    ∃ n data, chain.checkpoint n = some data ∧ data.checkpointSummary.data = summary
  next : ∀ n data committee, chain.checkpoint n = some data →
    extractNewCommitteeInfo data.checkpointSummary.data = .ok committee →
    committee = chain.committee (data.checkpointSummary.data.epoch + 1)
  commits : ∀ n data, chain.checkpoint n = some data → ∃ artifacts digest,
    CheckpointArtifacts.ofEffects data.transactions = .ok artifacts ∧
    artifacts.digest library = .ok digest ∧
    data.checkpointSummary.data.checkpointArtifactsDigest = .ok digest
  /-- The digest written for a deleted or wrapped object is that of no object. -/
  objects : ∀ n data id ref, chain.checkpoint n = some data →
    lastWritten data.transactions id = some ref →
    (∃ object, chain.objectAt n id = some object ∧ object.computeObjectReference codec = ref) ∨
      ∀ object : Object, object.computeObjectReference codec ≠ ref
  digests : ∀ object object' : Object,
    object.computeObjectReference codec = object'.computeObjectReference codec → object = object'

section Trust
variable {codec} {genesisCommittee : Committee} {chain : Chain Δ σ}

theorem mapError_eq_ok : mapError f x = .ok a ↔ x = .ok a := by
  cases x <;> simp [mapError]

/-- A summary that a true committee has signed is of a true checkpoint of its epoch. -/
theorem Chain.Genuine.signed (h : chain.Genuine codec genesisCommittee) {epoch : EpochId}
    {summary : CertifiedCheckpointSummary Δ σ} {u : Unit}
    (hsigned : summary.verifyAuthoritySignatures library (chain.committee epoch) = .ok u) :
    summary.data.epoch = epoch ∧ ∃ data, chain.checkpoint summary.data.sequenceNumber = some data ∧
      data.checkpointSummary.data = summary.data := by
  obtain ⟨_, hdata, hsigned⟩ := bind_eq_ok.mp hsigned
  obtain ⟨_, hepoch, hsigned⟩ := bind_eq_ok.mp hsigned
  have hepoch : summary.data.epoch = epoch := by
    rw [require_eq_ok.mp hdata, require_eq_ok.mp hepoch, h.epochs]
  obtain ⟨n, data, hcheckpoint, heq⟩ := h.signs epoch _ _ (require_eq_ok.mp hsigned) hepoch
  refine ⟨hepoch, data, ?_, heq⟩
  rw [← heq, h.numbers n data hcheckpoint]
  exact hcheckpoint

/-- The cache has the true committees of the epochs up to the current one. -/
structure EpochCache.Valid (chain : Chain Δ σ) (cache : EpochCache) : Prop where
  current : cache.currentCommittee = chain.committee cache.currentEpochNumber
  completed : cache.completedCommittees.map (·.2.2) = (List.range cache.currentEpochNumber).map chain.committee

variable {checkpoint : CheckpointSequenceNumber}

section
variable (h : chain.Genuine codec genesisCommittee)
include h

theorem EpochCache.Valid.ratchetOnce {cache next : EpochCache}
    (hcache : cache.Valid chain) {replies : EpochReplies}
    (hnext : ratchetOnce codec cache checkpoint replies = .ok (some next)) : next.Valid chain := by
  unfold LightClient.ratchetOnce at hnext
  split at hnext
  · cases hnext
  · obtain ⟨result, hresult, hnext⟩ := bind_eq_ok.mp hnext
    cases result with
    | none => cases hnext
    | some result =>
      cases hnext
      obtain ⟨last, hlast, hresult⟩ := bind_eq_ok.mp hresult
      cases last with
      | none => cases hresult
      | some last =>
        dsimp only at hresult
        split at hresult
        · cases hresult
        · obtain ⟨summary, -, hresult⟩ := bind_eq_ok.mp hresult
          obtain ⟨_, hsigned, hresult⟩ := bind_eq_ok.mp hresult
          obtain ⟨committee, hcommittee, hresult⟩ := bind_eq_ok.mp hresult
          cases hresult
          have hsigned := mapError_eq_ok.mp hsigned
          rw [hcache.current] at hsigned
          obtain ⟨hepoch, data, hcheckpoint, hdata⟩ := h.signed hsigned
          constructor
          · have hnext := h.next _ data committee hcheckpoint (hdata ▸ mapError_eq_ok.mp hcommittee)
            rw [hdata, hepoch] at hnext
            exact hnext
          · show List.map _ (_ ++ [_]) = List.map _ (List.range (_ + 1))
            rw [List.map_append, hcache.completed, List.range_succ, List.map_append]
            exact congrArg (_ ++ [·]) hcache.current

theorem EpochCache.Valid.otherTasks
    (hcache : cache.Valid chain) (others : List (CheckpointSequenceNumber × EpochReplies)) :
    (otherTasks codec cache others).Valid chain := by
  unfold LightClient.otherTasks
  induction others generalizing cache with
  | nil => exact hcache
  | cons other rest ih =>
    rw [List.foldl_cons]
    apply ih
    split
    · rename_i next hnext
      exact hcache.ratchetOnce h hnext
    · exact hcache

theorem EpochCache.Valid.trustRatchet (hcache : cache.Valid chain)
    (hnext : trustRatchetToCheckpoint codec checkpoint iterations cache = .ok (some next)) : next.Valid chain := by
  induction iterations generalizing cache with
  | nil => cases hnext
  | cons iteration rest ih =>
    have hothers := hcache.otherTasks h iteration.others
    obtain ⟨result, hresult, hnext⟩ := bind_eq_ok.mp hnext
    cases result with
    | none =>
      cases hnext
      exact hothers
    | some result => exact ih (hothers.ratchetOnce h hresult) hnext

end

theorem EpochCache.Valid.committee {cache : EpochCache} (hcache : cache.Valid chain)
    {committee : Committee} (h : cache.getCommitteeForCheckpoint checkpoint = some committee) :
    ∃ epoch ≤ cache.currentEpochNumber, committee = chain.committee epoch := by
  unfold getCommitteeForCheckpoint at h
  split at h
  · cases h
    exact ⟨_, le_rfl, hcache.current⟩
  · obtain ⟨range, hrange, rfl⟩ := Option.map_eq_some_iff.mp h
    obtain ⟨i, -, hget⟩ := Option.bind_eq_some_iff.mp hrange
    have hmem := List.mem_map_of_mem (f := (·.2.2)) (List.mem_of_getElem? hget)
    rw [hcache.completed] at hmem
    obtain ⟨epoch, hepoch, heq⟩ := List.mem_map.mp hmem
    exact ⟨epoch, (List.mem_range.mp hepoch).le, heq.symm⟩

theorem EpochCache.new_valid (h : chain.Genuine codec genesisCommittee) :
    (EpochCache.new genesisCommittee).Valid chain :=
  ⟨h.genesis.symm, rfl⟩

/-- **The ratchet of trust**: whatever the server answers to the iterations of any tasks, the cache
has the true committees of the epochs up to the current one, in order, and gives no other. -/
theorem ratchet_genuine (h : chain.Genuine codec genesisCommittee)
    (iterations : List (CheckpointSequenceNumber × EpochReplies)) (cache : EpochCache)
    (hcache : otherTasks codec (.new genesisCommittee) iterations = cache) :
    cache.currentCommittee = chain.committee cache.currentEpochNumber ∧
    cache.completedCommittees.map (·.2.2) = (List.range cache.currentEpochNumber).map chain.committee ∧
    ∀ checkpoint committee, cache.getCommitteeForCheckpoint checkpoint = some committee →
      ∃ epoch ≤ cache.currentEpochNumber, committee = chain.committee epoch := by
  subst hcache
  have hvalid := (EpochCache.new_valid h).otherTasks h iterations
  exact ⟨hvalid.current, hvalid.completed, fun _ _ => hvalid.committee⟩

variable [DecidableEq Δ]

/-- What the client has decoded from a response that it accepts. -/
structure Decoded (codec : Codec library) (response : GetCheckpointObjectProofResponse) where
  object : Object
  ref : ObjectRef
  summary : CertifiedCheckpointSummary Δ σ
  proof : ProtoOcsInclusionProof
  isInclusion : response.proof = some (.inclusion proof)
  isObject : proof.objectData.bind codec.object = some object
  isRef : ∃ proto, proof.objectRef = some proto ∧ protoObjectRefToSuiObjectRef codec proto = .ok ref
  isSummary : response.checkpointSummary.bind codec.summary = some summary

/-- The links between the parts of a response and the request. -/
structure Decoded.Linked {response : GetCheckpointObjectProofResponse}
    (decoded : Decoded codec response) (id : ObjectID) (checkpoint : CheckpointSequenceNumber) :
    Prop where
  ref : decoded.ref = decoded.object.computeObjectReference codec
  id : decoded.object.id = id
  checkpoint : decoded.summary.data.sequenceNumber = checkpoint

/-- An accepted response has a head, and a proof that verifies for its reference. -/
theorem verifyStreamHead_eq_ok (h : verifyStreamHead codec committee checkpoint reply = .ok head) :
    ∃ (response : GetCheckpointObjectProofResponse) (decoded : Decoded codec response)
      (contents : OCSInclusionProof library), reply = .ok response ∧
      extractStreamHeadFromObject codec decoded.object = .ok head ∧
      (⟨.objectCheckpointState (.newInclusionTarget decoded.ref), decoded.summary,
        .objectCheckpointStateProof (.inclusion contents)⟩ : Proof library).verify committee = .ok () := by
  obtain ⟨response, hresponse, h⟩ := bind_eq_ok.mp h
  cases hproof : response.proof with
  | none =>
    rw [hproof] at h
    cases h
  | some proof =>
    rw [hproof] at h
    cases proof with
    | nonInclusion => cases h
    | unknown => cases h
    | inclusion proof =>
      obtain ⟨bytes, hbytes, h⟩ := bind_eq_ok.mp h
      obtain ⟨object, hobject, h⟩ := bind_eq_ok.mp h
      obtain ⟨streamHead, hhead, h⟩ := bind_eq_ok.mp h
      obtain ⟨_, hverify, h⟩ := bind_eq_ok.mp h
      cases h
      obtain ⟨summaryBytes, hsummaryBytes, hverify⟩ := bind_eq_ok.mp hverify
      obtain ⟨summary, hsummary, hverify⟩ := bind_eq_ok.mp hverify
      rw [hproof] at hverify
      obtain ⟨proto, hproto, hverify⟩ := bind_eq_ok.mp hverify
      obtain ⟨ref, href, hverify⟩ := bind_eq_ok.mp hverify
      obtain ⟨contents, -, hverify⟩ := bind_eq_ok.mp hverify
      refine ⟨response, ⟨object, ref, summary, proof, hproof, ?_, ⟨proto, unwrap_eq_ok.mp hproto, href⟩,
        ?_⟩, contents, mapError_eq_ok.mp hresponse, hhead, mapError_eq_ok.mp hverify⟩
      · rw [unwrap_eq_ok.mp hbytes]
        exact unwrap_eq_ok.mp hobject
      · rw [unwrap_eq_ok.mp hsummaryBytes]
        exact unwrap_eq_ok.mp hsummary

omit [DecidableEq Δ] in
/-- A response is decoded in one way. -/
theorem Decoded.unique (decoded decoded' : Decoded codec response) : decoded = decoded' := by
  obtain ⟨object, ref, summary, proof, hproof, hobject, ⟨proto, hproto, href⟩, hsummary⟩ := decoded
  obtain ⟨object', ref', summary', proof', hproof', hobject', ⟨proto', hproto', href'⟩, hsummary'⟩ := decoded'
  cases hproof.symm.trans hproof'
  cases hobject.symm.trans hobject'
  cases hproto.symm.trans hproto'
  cases href.symm.trans href'
  cases hsummary.symm.trans hsummary'
  rfl

/-- **Stream heads.** Whatever the server answers, to this call and to calls before and
meanwhile: if the parts of the accepted response are linked, the head is the content of the
stream's object after the true checkpoint, and it was verified with the committee of the
checkpoint's epoch. -/
theorem stream_head_genuine (hs : library.Sound) (h : chain.Genuine codec genesisCommittee)
    (before : List (CheckpointSequenceNumber × EpochReplies)) (streamObjectId : ObjectID)
    (checkpoint : CheckpointSequenceNumber) (answers : Answers) (fetched : Fetched)
    (hfetch : fetchAndVerifyStreamHead codec (otherTasks codec (.new genesisCommittee) before)
      streamObjectId checkpoint answers = .ok (some fetched))
    (hlinked : ∀ response, answers.proof = .ok response → ∀ decoded : Decoded codec response,
      decoded.Linked streamObjectId checkpoint) :
    ∃ data object, chain.checkpoint checkpoint = some data ∧
      chain.objectAt checkpoint streamObjectId = some object ∧
      extractStreamHeadFromObject codec object = .ok fetched.head ∧
      fetched.committee = chain.committee data.checkpointSummary.data.epoch := by
  obtain ⟨cache, hcache, hfetch⟩ := bind_eq_ok.mp hfetch
  cases cache with
  | none => cases hfetch
  | some cache =>
    obtain ⟨committee, hcommittee, hfetch⟩ := bind_eq_ok.mp hfetch
    obtain ⟨head, hhead, hfetch⟩ := bind_eq_ok.mp hfetch
    cases hfetch
    have hvalid := (((EpochCache.new_valid h).otherTasks h before).trustRatchet h hcache).otherTasks h
      answers.others
    obtain ⟨epoch, -, rfl⟩ := hvalid.committee (unwrap_eq_ok.mp hcommittee)
    obtain ⟨response, decoded, contents, hresponse, hextract, hverify⟩ := verifyStreamHead_eq_ok hhead
    obtain ⟨href, hid, hnumber⟩ := hlinked response hresponse decoded
    -- The summary is of the true checkpoint, and the reference its last one of the object.
    have hsigned : ∃ u, decoded.summary.verifyAuthoritySignatures library (chain.committee epoch) = .ok u := by
      unfold Proof.verify at hverify
      split at hverify
      · cases hverify
      · rename_i u hsigned
        exact ⟨u, hsigned⟩
    obtain ⟨u, hu⟩ := hsigned
    obtain ⟨hepoch, data, hcheckpoint, hdata⟩ := h.signed hu
    have hcommits := h.commits _ data hcheckpoint
    rw [hdata] at hcommits
    have hcertified : Certified library (chain.committee epoch)
        ⟨decoded.summary, data.transactions⟩ := ⟨⟨u, hu⟩, hcommits⟩
    have hlast := inclusion_sound hs hcertified rfl rfl hverify
    rw [hnumber] at hcheckpoint
    refine ⟨data, decoded.object, hcheckpoint, ?_, hextract, ?_⟩
    · rcases h.objects checkpoint data _ _ hcheckpoint hlast with ⟨object, hobject, heq⟩ | hnone
      · have hsame := h.digests object decoded.object (heq.trans href)
        rw [hsame] at hobject
        have hrefid : decoded.ref.id = streamObjectId := by
          rw [href]
          exact hid
        rw [← hrefid]
        exact hobject
      · exact absurd href.symm (hnone decoded.object)
    · rw [hdata, hepoch]

end Trust
end Client

/-! ### A chain with one stream -/

namespace OneStream

abbrev Root := List ObjectRef

def committeeOf (epoch : EpochId) : Committee := ⟨epoch, [(epoch + 1, 10000)]⟩

def code (contents : Bytes) : Nat := Encodable.encode (contents.map UInt8.toNat)

def digest (object : Object) : ObjectDigest :=
  match object.data with
  | .package => 0
  | .move contents => code contents + 1

/-- The head of the stream. -/
def object : Object := ⟨5, 7, .move [1]⟩

def ref : ObjectRef := objectRef object.id object.version (digest object)

/-- The last summary of the first epoch. -/
def summary : CertifiedCheckpointSummary (List Root) Unit :=
  ⟨⟨0, 3, [.checkpointArtifactsDigest [[ref]]], some ⟨[(2, 10000)]⟩⟩, ⟨0, ()⟩⟩

def chain : Chain (List Root) Unit where
  checkpoint n := if n = 3 then some ⟨summary, [⟨[ref]⟩]⟩ else none
  committee := committeeOf
  objectAt n id := if n = 3 ∧ id = 5 then some object else none

/-- Roots and digests show what they are of; the one summary is signed. -/
def library : Library Root (List Root) Unit where
  merkle := .ideal ObjectRef
  fromArtifactDigests := id
  quorumSigned _ signed _ := signed = summary.data

def codec : Codec library where
  object bytes := some ⟨5, 7, .move bytes⟩
  streamHead bytes := some ⟨bytes.map UInt8.toNat, 3, 1⟩
  summary _ := some summary
  checkpoint _ := some summary
  objectId _ := some 5
  objectDigest _ := some (digest object)
  treeRoot _ := [ref]
  merkleProof _ := ()
  digest := digest

theorem code_injective : Function.Injective code :=
  Encodable.encode_injective.comp (List.map_injective_iff.mpr fun _ _ h => UInt8.toNat_inj.mp h)

theorem library_sound : library.Sound := ⟨Merkle.ideal_sound, Function.injective_id⟩

theorem checkpoint_eq (h : chain.checkpoint n = some data) : n = 3 ∧ data = ⟨summary, [⟨[ref]⟩]⟩ := by
  obtain ⟨hn, hdata⟩ := Option.ite_none_right_eq_some.mp h
  exact ⟨hn, (Option.some.inj hdata).symm⟩

theorem genuine : chain.Genuine codec (committeeOf 0) where
  genesis := rfl
  epochs _ := rfl
  numbers n data h := by
    obtain ⟨rfl, rfl⟩ := checkpoint_eq h
    rfl
  signs epoch signed signature h _ := ⟨3, ⟨summary, [⟨[ref]⟩]⟩, rfl, (of_decide_eq_true h).symm⟩
  next n data committee h hnext := by
    obtain ⟨rfl, rfl⟩ := checkpoint_eq h
    have hnamed : extractNewCommitteeInfo summary.data = .ok (committeeOf 1) := by
      decide +kernel
    exact Except.ok.inj (hnext.symm.trans hnamed)
  commits n data h := by
    obtain ⟨rfl, rfl⟩ := checkpoint_eq h
    refine ⟨.fromObjectStates ((∅ : ObjectStates).insert 5 (7, digest object)), [[ref]], rfl, ?_, rfl⟩
    have hleaves : ObjectStates.leaves ((∅ : ObjectStates).insert 5 (7, digest object)) = [ref] := by
      decide +kernel
    show Except.ok [ObjectStates.leaves _] = _
    rw [hleaves]
  objects n data id last h hlast := by
    obtain ⟨rfl, rfl⟩ := checkpoint_eq h
    by_cases hid : id = 5
    · left
      rw [hid] at hlast
      cases hlast
      exact ⟨object, if_pos ⟨rfl, hid⟩, rfl⟩
    · have hnone : lastWritten [⟨[ref]⟩] id = none := by
        show (List.filter _ [ref]).getLast? = none
        have hother : ref.id ≠ id := Ne.symm hid
        rw [List.filter_cons_of_neg (by simpa using hother)]
        rfl
      rw [hnone] at hlast
      cases hlast
  digests first second h := by
    obtain ⟨id, version, data⟩ := first
    obtain ⟨id', version', data'⟩ := second
    have h : (id, version, digest ⟨id, version, data⟩) = (id', version', digest ⟨id', version', data'⟩) := h
    simp only [Prod.mk.injEq] at h
    obtain ⟨rfl, rfl, h⟩ := h
    cases data with
    | package =>
      cases data' with
      | package => rfl
      | move contents => exact absurd h.symm (Nat.succ_ne_zero _)
    | move contents =>
      cases data' with
      | package => exact absurd h (Nat.succ_ne_zero _)
      | move contents' => rw [code_injective (Nat.add_right_cancel h)]

/-- A response with the proof of the stream's true reference, and the contents given. -/
def response (contents : Bytes) : GetCheckpointObjectProofResponse where
  checkpointSummary := some []
  proof := some (.inclusion ⟨some ⟨some "", some 7, some ""⟩, some [], some 0,
    some (List.replicate 32 0), some contents⟩)

/-- The epoch has no last checkpoint. -/
def answers (contents : Bytes) : Answers :=
  ⟨[⟨[], ⟨.ok (some ⟨none⟩), .error .other⟩⟩], [], .ok (response contents)⟩

/-- The first epoch ends with checkpoint 3, the second has no end. -/
def iterations : List (CheckpointSequenceNumber × EpochReplies) :=
  [(4, ⟨.ok (some ⟨some 3⟩), .ok (some [])⟩), (9, ⟨.ok (some ⟨none⟩), .error .other⟩)]

end OneStream

/-- The last summary of the first epoch is accepted, and names the committee of the second. -/
theorem ratchet_genuine_next : ∃ cache : EpochCache,
    otherTasks OneStream.codec (.new (OneStream.committeeOf 0)) OneStream.iterations = cache ∧
    cache.currentEpochNumber = 1 ∧ cache.getCommitteeForCheckpoint 3 = some (OneStream.committeeOf 0) ∧
    cache.currentCommittee = OneStream.chain.committee 1 ∧
    cache.completedCommittees.map (·.2.2) = [OneStream.chain.committee 0] := by
  obtain ⟨hcurrent, hcompleted, -⟩ := ratchet_genuine OneStream.genuine OneStream.iterations _ rfl
  have hepoch : (otherTasks OneStream.codec (.new (OneStream.committeeOf 0))
      OneStream.iterations).currentEpochNumber = 1 := by
    decide +kernel
  rw [hepoch] at hcurrent hcompleted
  exact ⟨_, rfl, hepoch, by decide +kernel, hcurrent, hcompleted⟩

/-- With the contents `[2]` in place of the stream's contents `[1]`, the head returned is
not that of the stream. -/
theorem forged_head_accepted : ∃ fetched,
    OneStream.library.Sound ∧ OneStream.chain.Genuine OneStream.codec (OneStream.committeeOf 0) ∧
    fetchAndVerifyStreamHead OneStream.codec (.new (OneStream.committeeOf 0)) 5 3
      (OneStream.answers [2]) = .ok (some fetched) ∧
    OneStream.chain.objectAt 3 5 = some OneStream.object ∧
    extractStreamHeadFromObject OneStream.codec OneStream.object ≠ .ok fetched.head := by
  refine ⟨⟨⟨[2], 3, 1⟩, OneStream.committeeOf 0⟩, OneStream.library_sound, OneStream.genuine, ?_, rfl, ?_⟩
  · decide +kernel
  · decide

/-- The true contents are linked, and their head is that of the stream. -/
theorem stream_head_genuine_one : ∃ data object,
    OneStream.chain.checkpoint 3 = some data ∧ OneStream.chain.objectAt 3 5 = some object ∧
    extractStreamHeadFromObject OneStream.codec object = .ok ⟨[1], 3, 1⟩ ∧
    OneStream.committeeOf 0 = OneStream.chain.committee data.checkpointSummary.data.epoch := by
  refine stream_head_genuine OneStream.library_sound OneStream.genuine [] 5 3 (OneStream.answers [1])
    ⟨⟨[1], 3, 1⟩, OneStream.committeeOf 0⟩ (by decide +kernel) ?_
  intro response hresponse decoded
  cases hresponse
  have honly : decoded = ⟨OneStream.object, OneStream.ref, OneStream.summary, _, rfl, rfl,
    ⟨_, rfl, rfl⟩, rfl⟩ := Decoded.unique _ _
  rw [honly]
  exact ⟨rfl, rfl, rfl⟩

end Sui.LightClient
