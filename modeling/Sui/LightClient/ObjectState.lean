import Sui.LightClient.Proof

/-! What object-checkpoint-state proofs show.

The leaves of a checkpoint's tree are the last references that its transactions wrote, one
for each object, sorted (`leaves_sorted`, `mem_leaves`). An accepted inclusion target is
therefore the reference of its object at the end of the checkpoint.

A non-inclusion proof is about a whole reference: its value is not among the leaves. The
leaf of an object comes right before or right after any other reference of the object, so
the proof shows that the object is not modified exactly if none of the two neighbours in it
is the object's leaf (`Clear`). The verifier does not look at the neighbours:
`both_proofs_accepted` is a checkpoint with an accepted inclusion proof and an accepted
non-inclusion proof for one object. -/
namespace Sui.LightClient

open Sui.Lib Sui.Lib.BTreeMap Sui.Lib.Exec List ModifiedObjectTree OCSTarget

variable {δ Δ σ : Type}

/-! ### References -/

theorem id_monotone : Monotone ObjectRef.id := fun _ _ h => Prod.Lex.monotone_fst _ _ h

@[simp] theorem id_objectRef (id : ObjectID) (seq : SequenceNumber) (digest : ObjectDigest) :
    (objectRef id seq digest).id = id := rfl

/-- The last reference of an object that the transactions wrote. -/
def lastOf (written : List ObjectRef) (id : ObjectID) : Option ObjectRef :=
  (written.filter fun ref => ref.id = id).getLast?

def lastWritten (effects : List TransactionEffects) (id : ObjectID) : Option ObjectRef :=
  lastOf (effects.flatMap TransactionEffects.written) id

theorem lastOf_concat (written : List ObjectRef) (ref : ObjectRef) (id : ObjectID) :
    lastOf (written ++ [ref]) id = if ref.id = id then some ref else lastOf written id := by
  unfold lastOf
  by_cases h : ref.id = id <;> simp [h]

/-! ### The states of a checkpoint -/

/-- The state of an object, as a reference. -/
def ObjectStates.ref (states : ObjectStates) (id : ObjectID) : Option ObjectRef :=
  states[id]?.map fun state => objectRef id state.1 state.2

theorem insertState_ref
    (h : CheckpointArtifacts.insertState states ref = .ok states') (id : ObjectID) :
    states'.ref id = if ref.id = id then some ref else states.ref id := by
  obtain ⟨_, _, h⟩ := bind_eq_ok.mp h
  cases h
  unfold ObjectStates.ref
  rw [get_insert]
  by_cases hid : ref.id = id
  · rw [if_pos hid, if_pos hid, ← hid]
    rfl
  · rw [if_neg hid, if_neg hid]

theorem insertStates_ref
    (h : written.foldlM CheckpointArtifacts.insertState states = .ok states') (id : ObjectID) :
    states'.ref id = (lastOf written id <|> states.ref id) := by
  induction written using reverseRecOn generalizing states' with
  | nil =>
    cases h
    rfl
  | append_singleton written ref ih =>
    obtain ⟨middle, hwritten, h⟩ := foldlM_append_eq_ok.mp h
    obtain ⟨last, hlast, h⟩ := foldlM_cons_eq_ok.mp h
    cases h
    rw [insertState_ref hlast, ih hwritten, lastOf_concat]
    split <;> rfl

theorem ofEffects_ref (h : CheckpointArtifacts.ofEffects effects = .ok artifacts) :
    ∃ states, artifacts = .fromObjectStates states ∧ ∀ id, states.ref id = lastWritten effects id := by
  obtain ⟨states, hstates, h⟩ := bind_eq_ok.mp h
  cases h
  refine ⟨states, rfl, ?_⟩
  rw [← foldlM_flatMap] at hstates
  intro id
  rw [insertStates_ref hstates, lastWritten]
  cases lastOf (effects.flatMap TransactionEffects.written) id <;> rfl

theorem mem_leaves {states : ObjectStates} {ref : ObjectRef} :
    ref ∈ states.leaves ↔ states.ref ref.id = some ref := by
  unfold ObjectStates.leaves ObjectStates.ref
  rw [mem_map, Option.map_eq_some_iff]
  constructor
  · intro ⟨state, hmem, heq⟩
    have hget := mem_toList_iff.mp hmem
    rw [← heq]
    exact ⟨state.2, hget, rfl⟩
  · intro ⟨state, hget, heq⟩
    exact ⟨(ref.id, state), mem_toList_iff.mpr hget, heq⟩

theorem leaves_sorted (states : ObjectStates) : (states.leaves.map ObjectRef.id).Pairwise (· < ·) := by
  have hids : states.leaves.map ObjectRef.id = states.keys := by
    unfold ObjectStates.leaves
    rw [map_map, ← Std.ExtTreeMap.map_fst_toList_eq_keys]
    rfl
  rw [hids]
  exact states.ordered_keys.imp compare_lt_iff_lt.mp

theorem leaves_pairwise (states : ObjectStates) : states.leaves.Pairwise (· < ·) := by
  refine (pairwise_map.mp (leaves_sorted states)).imp fun {a b} h => ?_
  exact Prod.Lex.lt_iff.mpr (.inl h)

/-! ### The tree of a checkpoint -/

/-- The positions are those of the leaves. -/
def Entered (leaves : List (ObjectRef × Nat)) (positions : BTreeMap ObjectID Nat) : Prop :=
  ∀ (id : ObjectID) (i : Nat),
    positions[id]? = some i ↔ ∃ leaf : ObjectRef, (leaf, i) ∈ leaves ∧ leaf.id = id

theorem insertPositions {leaves : List ObjectRef} (hids : (leaves.map ObjectRef.id).Nodup) :
    ∃ positions, leaves.zipIdx.foldlM ModifiedObjectTree.insertPosition ∅ = .ok positions ∧
      Entered leaves.zipIdx positions := by
  have hrun : Sat (leaves.zipIdx.foldlM insertPosition ∅) (Entered leaves.zipIdx) (fun _ => False) := by
    refine Sat.foldlM (P := Entered) ?_ ?_
    · intro id i
      simp
    · intro done entry rest positions hsplit hpositions
      have hfresh : ∀ leaf i, (leaf, i) ∈ done → leaf.id ≠ entry.1.id := by
        intro leaf i hmem heq
        have hmap : leaves.map ObjectRef.id = (done ++ entry :: rest).map fun e => e.1.id := by
          rw [← hsplit]
          conv_lhs => rw [← zipIdx_map_fst 0 leaves, map_map]
          rfl
        rw [hmap, map_append, nodup_append] at hids
        exact hids.2.2 _ (mem_map_of_mem hmem) _ (by simp) heq
      have habsent : entry.1.id ∉ positions := by
        rw [not_mem_iff_get, Option.eq_none_iff_forall_ne_some]
        intro i hi
        obtain ⟨leaf, hmem, heq⟩ := (hpositions _ _).mp hi
        exact hfresh leaf i hmem heq
      refine Sat.of_eq (bind_require habsent _) ?_
      intro id i
      rw [get_insert]
      by_cases hid : entry.1.id = id
      · rw [if_pos hid, Option.some_inj]
        constructor
        · intro hi
          exact ⟨entry.1, by simp [← hi], hid⟩
        · intro ⟨leaf, hmem, heq⟩
          rcases mem_concat.mp hmem with hmem | hmem
          · exact absurd (heq.trans hid.symm) (hfresh leaf i hmem)
          · rw [← hmem]
      · rw [if_neg hid, hpositions]
        constructor
        · intro ⟨leaf, hmem, heq⟩
          exact ⟨leaf, mem_append_left _ hmem, heq⟩
        · intro ⟨leaf, hmem, heq⟩
          rcases mem_concat.mp hmem with hmem | hmem
          · exact ⟨leaf, hmem, heq⟩
          · rw [← hmem] at hid
            exact absurd heq hid
  cases hresult : leaves.zipIdx.foldlM insertPosition ∅ with
  | error e => exact (hrun.error hresult).elim
  | ok positions =>
    exact ⟨positions, rfl, hrun.ok hresult⟩

/-- The tree of the states. -/
structure TreeOf (states : ObjectStates) (root : δ) (tree : ModifiedObjectTree δ) : Prop where
  leaves : tree.leaves = states.leaves
  root : tree.treeRoot = root
  entered : Entered states.leaves.zipIdx tree.objectPosMap

theorem tree_new {library : Library δ Δ σ} {states : ObjectStates} {root : δ}
    (hroot : library.merkle.root states.leaves = some root) :
    ∃ tree, ModifiedObjectTree.new library (.fromObjectStates states) = .ok tree ∧ TreeOf states root tree := by
  have hids : (states.leaves.map ObjectRef.id).Nodup := (leaves_sorted states).imp ne_of_lt
  obtain ⟨positions, hpositions, hspec⟩ := insertPositions hids
  refine ⟨⟨states.leaves, root, positions⟩, ?_, ⟨rfl, rfl, hspec⟩⟩
  unfold new
  rw [bind_ok (rfl : CheckpointArtifacts.objectStates _ = .ok states), bind_ok hpositions, bind_unwrap hroot]
  rfl

namespace TreeOf
variable {states : ObjectStates} {root : δ} {tree : ModifiedObjectTree δ}

section
variable (h : TreeOf states root tree)
include h

theorem positions (id : ObjectID) (i : Nat) :
    tree.objectPosMap[id]? = some i ↔ ∃ leaf : ObjectRef, states.leaves[i]? = some leaf ∧ leaf.id = id := by
  rw [h.entered id i]
  simp only [mem_zipIdx_iff_getElem?]

theorem getObjectState (id : ObjectID) : tree.getObjectState id = states.ref id := by
  unfold ModifiedObjectTree.getObjectState
  rw [h.leaves]
  cases hposition : tree.objectPosMap[id]? with
  | some i =>
    obtain ⟨leaf, hleaf, hid⟩ := (h.positions id i).mp hposition
    have href := mem_leaves.mp (mem_of_getElem? hleaf)
    rw [hid] at href
    rw [href]
    exact hleaf
  | none =>
    cases href : states.ref id with
    | none => rfl
    | some ref =>
      have hid : ref.id = id := by
        obtain ⟨state, -, rfl⟩ := Option.map_eq_some_iff.mp href
        rfl
      have hmem : ref ∈ states.leaves := mem_leaves.mpr (hid ▸ href)
      obtain ⟨i, hi⟩ := getElem?_of_mem hmem
      rw [(h.positions id i).mpr ⟨ref, hi, hid⟩] at hposition
      cases hposition

theorem isObjectInCheckpoint (id : ObjectID) : tree.isObjectInCheckpoint id = (states.ref id).isSome := by
  rw [← h.getObjectState, ModifiedObjectTree.getObjectState, h.leaves, ModifiedObjectTree.isObjectInCheckpoint]
  cases hposition : tree.objectPosMap[id]? with
  | none =>
    rw [Option.bind_none]
    exact Bool.eq_false_iff.mpr fun hcontains =>
      not_mem_iff_get.mpr hposition (Std.ExtTreeMap.contains_iff_mem.mp hcontains)
  | some i =>
    obtain ⟨leaf, hleaf, -⟩ := (h.positions id i).mp hposition
    rw [Option.bind_some, hleaf]
    exact Std.ExtTreeMap.contains_iff_mem.mpr (mem_of_get hposition)

end

end TreeOf

/-! ### Accepted proofs -/

/-- Hashing is collision resistant, and the library's Merkle proofs show what they say. -/
structure Library.Sound (library : Library δ Δ σ) : Prop where
  merkle : library.merkle.Sound
  artifacts : Function.Injective library.fromArtifactDigests

/-- The committee has signed the summary of the checkpoint, which commits to the objects
modified in it. -/
structure Certified (library : Library δ Δ σ) (committee : Committee)
    (checkpoint : CheckpointData Δ σ) : Prop where
  signed : ∃ u, checkpoint.checkpointSummary.verifyAuthoritySignatures library committee = .ok u
  commits : ∃ artifacts digest, CheckpointArtifacts.ofEffects checkpoint.transactions = .ok artifacts ∧
    artifacts.digest library = .ok digest ∧
    checkpoint.checkpointSummary.data.checkpointArtifactsDigest = .ok digest

/-- None of the leaves between which the proof puts its target is of the object. -/
def OCSNonInclusionProof.Clear {library : Library δ Δ σ} (self : OCSNonInclusionProof library)
    (id : ObjectID) : Prop :=
  (∀ leaf ∈ library.merkle.leftLeaf self.nonInclusionProof, leaf.id ≠ id) ∧
    ∀ leaf ∈ library.merkle.rightLeaf self.nonInclusionProof, leaf.id ≠ id

section Accepted
variable {library : Library δ Δ σ} {committee : Committee} {checkpoint : CheckpointData Δ σ}

/-- The states behind a certified summary. -/
theorem Certified.states (h : Certified library committee checkpoint) :
    ∃ states root, CheckpointArtifacts.ofEffects checkpoint.transactions =
        .ok (.fromObjectStates states) ∧
      (∀ id, states.ref id = lastWritten checkpoint.transactions id) ∧
      library.merkle.root states.leaves = some root ∧
      checkpoint.checkpointSummary.data.checkpointArtifactsDigest = .ok (library.fromArtifactDigests [root]) := by
  obtain ⟨artifacts, digest, hartifacts, hdigest, hsummary⟩ := h.commits
  obtain ⟨states, rfl, hstates⟩ := ofEffects_ref hartifacts
  obtain ⟨digests, hdigests, hdigest⟩ := bind_eq_ok.mp hdigest
  have hone : ([CheckpointArtifact.objectStates states].mapM (CheckpointArtifact.digest library)) =
      .ok digests := hdigests
  rw [mapM_cons] at hone
  obtain ⟨root, hroot, hone⟩ := bind_eq_ok.mp hone
  cases hone
  cases hdigest
  exact ⟨states, root, hartifacts, hstates, unwrap_eq_ok.mp hroot, hsummary⟩

variable [DecidableEq Δ]

/-- An accepted proof has been checked against a tree root that the summary commits to. -/
theorem verify_eq_ok {proof : Proof library} {u : Unit}
    (htarget : proof.targets = .objectCheckpointState target) (h : proof.verify committee = .ok u) :
    ∃ contents, proof.proofContents = .objectCheckpointStateProof contents ∧
      proof.checkpointSummary.data.checkpointArtifactsDigest =
        .ok (library.fromArtifactDigests [contents.getArtifactDigest]) ∧
      contents.verifyTarget target = .ok () := by
  unfold Proof.verify at h
  split at h
  · cases h
  · obtain ⟨_, hmatches, h⟩ := bind_eq_ok.mp h
    have hmatches := require_eq_ok.mp hmatches
    rw [htarget] at h
    unfold Proof.matchesTargets at hmatches
    rw [htarget] at hmatches
    cases hcontents : proof.proofContents with
    | transactionProof =>
      rw [hcontents] at hmatches
      cases hmatches
    | committeeProof =>
      rw [hcontents] at hmatches
      cases hmatches
    | objectCheckpointStateProof contents =>
      rw [hcontents] at h
      obtain ⟨actual, hactual, h⟩ := bind_eq_ok.mp h
      obtain ⟨_, hdigest, h⟩ := bind_eq_ok.mp h
      refine ⟨contents, rfl, ?_, h⟩
      rw [require_eq_ok.mp hdigest]
      exact hactual

/-- Every proof with matching contents for a signed summary is accepted. -/
theorem verify_ok (hcert : Certified library committee checkpoint)
    (hdigest : checkpoint.checkpointSummary.data.checkpointArtifactsDigest =
      .ok (library.fromArtifactDigests [contents.getArtifactDigest]))
    (htarget : contents.verifyTarget target = .ok ()) :
    (⟨.objectCheckpointState target, checkpoint.checkpointSummary,
      .objectCheckpointStateProof contents⟩ : Proof library).verify committee = .ok () := by
  obtain ⟨u, hsigned⟩ := hcert.signed
  unfold Proof.verify
  rw [hsigned]
  refine (bind_require rfl _).trans ?_
  refine (bind_ok hdigest _).trans ?_
  exact (bind_require rfl _).trans htarget

section Sound
variable (hs : library.Sound) (hcert : Certified library committee checkpoint)
include hs hcert

/-- An accepted inclusion target is the last reference written of its object. -/
theorem inclusion_sound {proof : Proof library} {ref : ObjectRef}
    (hsummary : proof.checkpointSummary.data = checkpoint.checkpointSummary.data)
    (htarget : proof.targets = .objectCheckpointState ⟨ref, .inclusion⟩)
    (h : proof.verify committee = .ok ()) : lastWritten checkpoint.transactions ref.id = some ref := by
  obtain ⟨states, root, -, hstates, hroot, hdigest⟩ := hcert.states
  obtain ⟨contents, -, hcontents, hverify⟩ := verify_eq_ok htarget h
  rw [hsummary, hdigest] at hcontents
  cases contents with
  | inclusion proof =>
    have hroots : root = proof.treeRoot := singleton_inj.mp (hs.artifacts (Except.ok.inj hcontents))
    obtain ⟨_, _, hverify⟩ := bind_eq_ok.mp hverify
    have hleaf := hs.merkle.inclusion _ _ _ _ _ (hroots ▸ hroot) (require_eq_ok.mp hverify)
    rw [← hstates]
    exact mem_leaves.mp (mem_of_getElem? hleaf)
  | nonInclusion proof =>
    obtain ⟨_, htype, _⟩ := bind_eq_ok.mp hverify
    cases require_eq_ok.mp htype

/-- An accepted non-inclusion target shows that the object is not modified exactly if the
proof is clear of it. -/
theorem nonInclusion_sound_iff {proof : Proof library} {ref : ObjectRef}
    (hsummary : proof.checkpointSummary.data = checkpoint.checkpointSummary.data)
    (htarget : proof.targets = .objectCheckpointState ⟨ref, .nonInclusion⟩) (h : proof.verify committee = .ok ()) :
    ∃ contents : OCSNonInclusionProof library,
      proof.proofContents = .objectCheckpointStateProof (.nonInclusion contents) ∧
      (lastWritten checkpoint.transactions ref.id = none ↔ contents.Clear ref.id) := by
  obtain ⟨states, root, -, hstates, hroot, hdigest⟩ := hcert.states
  obtain ⟨contents, hproof, hcontents, hverify⟩ := verify_eq_ok htarget h
  rw [hsummary, hdigest] at hcontents
  cases contents with
  | inclusion proof =>
    obtain ⟨_, htype, _⟩ := bind_eq_ok.mp hverify
    cases require_eq_ok.mp htype
  | nonInclusion contents =>
    have hroots : root = contents.treeRoot := singleton_inj.mp (hs.artifacts (Except.ok.inj hcontents))
    obtain ⟨_, _, hverify⟩ := bind_eq_ok.mp hverify
    have hbrackets := hs.merkle.nonInclusion _ _ _ _ (leaves_pairwise states) (hroots ▸ hroot)
      (require_eq_ok.mp hverify)
    have hkey := hbrackets.exists_key_iff id_monotone (leaves_pairwise states)
    refine ⟨contents, hproof, ?_⟩
    -- Some leaf is of the object exactly if the object has a state.
    have hleaf : (∃ leaf ∈ states.leaves, leaf.id = ref.id) ↔
        lastWritten checkpoint.transactions ref.id ≠ none := by
      rw [← hstates]
      constructor
      · intro ⟨leaf, hmem, hid⟩ hnone
        rw [← hid, mem_leaves.mp hmem] at hnone
        cases hnone
      · intro hsome
        obtain ⟨leaf, hleaf⟩ := Option.ne_none_iff_exists'.mp hsome
        have hid : leaf.id = ref.id := by
          obtain ⟨state, -, rfl⟩ := Option.map_eq_some_iff.mp hleaf
          rfl
        exact ⟨leaf, mem_leaves.mpr (hid ▸ hleaf), hid⟩
    rw [← not_iff_not, ← ne_eq, ← hleaf, hkey, OCSNonInclusionProof.Clear, not_and_or]
    simp only [not_forall, not_not, exists_prop]

end Sound

/-! ### Constructed proofs -/

section Construct
variable (hc : library.merkle.Complete) (hcert : Certified library committee checkpoint)
include hc hcert

/-- The reference that an object has at the end of the checkpoint is the one with an accepted proof. -/
theorem construct_inclusion_iff {ref : ObjectRef} :
    (∃ proof, (newInclusionTarget ref).construct library checkpoint = .ok proof ∧ proof.verify committee = .ok ()) ↔
      lastWritten checkpoint.transactions ref.id = some ref := by
  obtain ⟨states, root, hartifacts, hstates, hroot, hdigest⟩ := hcert.states
  obtain ⟨tree, htree, hof⟩ := tree_new hroot
  rw [construct, bind_ok hartifacts, bind_ok htree, ← hstates]
  constructor
  · rintro ⟨_, h, -⟩
    obtain ⟨_, hproof, _⟩ := bind_eq_ok.mp h
    obtain ⟨_, hstate, _⟩ := bind_eq_ok.mp hproof
    rw [← hof.getObjectState]
    exact require_eq_ok.mp hstate
  · intro href
    obtain ⟨index, hindex⟩ := getElem?_of_mem (mem_leaves.mpr href)
    obtain ⟨merkleProof, hget, hverify⟩ := hc.inclusion _ _ _ _ hroot hindex
    have hposition : tree.objectPosMap[ref.id]? = some index := (hof.positions _ _).mpr ⟨ref, hindex, rfl⟩
    have hproof : tree.getInclusionProof library ref = .ok ⟨merkleProof, index, root⟩ := by
      unfold getInclusionProof
      rw [bind_require ((hof.getObjectState _).trans href), bind_unwrap hposition, hof.leaves,
        bind_unwrap hget, hof.root]
      rfl
    refine ⟨_, bind_ok hproof _, ?_⟩
    apply verify_ok hcert
    · exact hdigest
    · exact (bind_require rfl _).trans (require_of hverify)

/-- The objects that the checkpoint does not modify are the ones with an accepted proof of that. -/
theorem construct_nonInclusion_iff {id : ObjectID} :
    (∃ proof, (newNonInclusionTarget id).construct library checkpoint = .ok proof ∧ proof.verify committee = .ok ()) ↔
      lastWritten checkpoint.transactions id = none := by
  obtain ⟨states, root, hartifacts, hstates, hroot, hdigest⟩ := hcert.states
  obtain ⟨tree, htree, hof⟩ := tree_new hroot
  rw [construct, bind_ok hartifacts, bind_ok htree, ← hstates]
  have hstate : tree.isObjectInCheckpoint id = false ↔ states.ref id = none := by
    rw [hof.isObjectInCheckpoint, Option.isSome_eq_false_iff, Option.isNone_iff_eq_none]
  constructor
  · rintro ⟨_, h, -⟩
    obtain ⟨_, hproof, _⟩ := bind_eq_ok.mp h
    obtain ⟨_, habsent, _⟩ := bind_eq_ok.mp hproof
    exact hstate.mp (require_eq_ok.mp habsent)
  · intro hnone
    have hleaf : getDummyObjectRef id ∉ states.leaves := by
      intro hmem
      cases (mem_leaves.mp hmem).symm.trans hnone
    obtain ⟨merkleProof, hget, hverify⟩ := hc.nonInclusion _ _ _ (leaves_pairwise states) hroot hleaf
    have hproof : tree.getNonInclusionProof library (getDummyObjectRef id) = .ok ⟨merkleProof, root⟩ := by
      unfold getNonInclusionProof
      rw [bind_require (show tree.isObjectInCheckpoint (getDummyObjectRef id).id = false from hstate.mpr hnone),
        hof.leaves, bind_unwrap hget, hof.root]
      rfl
    refine ⟨_, bind_ok hproof _, ?_⟩
    apply verify_ok hcert
    · exact hdigest
    · exact (bind_require rfl _).trans (require_of hverify)

end Construct

/-- **Object-checkpoint-state proofs.** For a checkpoint that the committee has certified:
an accepted inclusion target is the reference of its object at the end of the checkpoint; an
accepted non-inclusion target is of an object that is not modified exactly if its proof is
clear of the object, and then there is no accepted inclusion target of the object; and for
every object exactly one of the two proofs that the prover constructs exists, and it is
accepted. -/
theorem object_checkpoint_state_proofs (hs : library.Sound) (hc : library.merkle.Complete)
    (hcert : Certified library committee checkpoint) :
    (∀ (proof : Proof library) (ref : ObjectRef),
      proof.checkpointSummary.data = checkpoint.checkpointSummary.data →
      proof.verify committee = .ok () →
      (proof.targets = .objectCheckpointState ⟨ref, .inclusion⟩ →
        lastWritten checkpoint.transactions ref.id = some ref) ∧
      (proof.targets = .objectCheckpointState ⟨ref, .nonInclusion⟩ →
        ∃ contents : OCSNonInclusionProof library,
          proof.proofContents = .objectCheckpointStateProof (.nonInclusion contents) ∧
          (lastWritten checkpoint.transactions ref.id = none ↔ contents.Clear ref.id) ∧
          (contents.Clear ref.id → ∀ (other : Proof library) (included : ObjectRef),
            other.checkpointSummary.data = checkpoint.checkpointSummary.data →
            other.targets = .objectCheckpointState ⟨included, .inclusion⟩ →
            included.id = ref.id → other.verify committee ≠ .ok ()))) ∧
    ∀ id, Xor
      (∃ ref proof, ref.id = id ∧
        (OCSTarget.newInclusionTarget ref).construct library checkpoint = .ok proof ∧
        proof.verify committee = .ok ())
      (∃ proof, (OCSTarget.newNonInclusionTarget id).construct library checkpoint = .ok proof ∧
        proof.verify committee = .ok ()) := by
  refine ⟨fun proof ref hsummary hverify => ⟨fun htarget => ?_, fun htarget => ?_⟩, fun id => ?_⟩
  · exact inclusion_sound hs hcert hsummary htarget hverify
  · obtain ⟨contents, hcontents, hiff⟩ := nonInclusion_sound_iff hs hcert hsummary htarget hverify
    refine ⟨contents, hcontents, hiff, ?_⟩
    intro hclear other included hother hincluded hid haccepted
    have hlast := inclusion_sound hs hcert hother hincluded haccepted
    rw [hid, hiff.mpr hclear] at hlast
    cases hlast
  · cases hlast : lastWritten checkpoint.transactions id with
    | some ref =>
      obtain ⟨states, -, -, hstates, -⟩ := hcert.states
      have hid : ref.id = id := by
        rw [← hstates] at hlast
        obtain ⟨state, -, rfl⟩ := Option.map_eq_some_iff.mp hlast
        rfl
      left
      constructor
      · obtain ⟨proof, hproof, hverify⟩ := (construct_inclusion_iff hc hcert).mpr (hid ▸ hlast)
        exact ⟨ref, proof, hid, hproof, hverify⟩
      · intro hproof
        rw [(construct_nonInclusion_iff hc hcert).mp hproof] at hlast
        cases hlast
    | none =>
      right
      refine ⟨(construct_nonInclusion_iff hc hcert).mpr hlast, ?_⟩
      intro ⟨ref, proof, hid, hproof⟩
      have href := (construct_inclusion_iff hc hcert).mp ⟨proof, hproof⟩
      rw [hid, hlast] at href
      cases href

end Accepted

/-! ### A checkpoint that modifies one object -/

namespace OneObject

abbrev Root := List ObjectRef

/-- Roots and digests show what they are of; every summary is signed. -/
def library : Library Root (List Root) Unit := ⟨.ideal ObjectRef, id, fun _ _ _ => true⟩

theorem library_sound : library.Sound := ⟨Merkle.ideal_sound, Function.injective_id⟩

def committee : Committee := ⟨0, [(1, 10000)]⟩

def ref : ObjectRef := objectRef 5 7 9

def summary : CertifiedCheckpointSummary (List Root) Unit :=
  ⟨⟨0, 3, [.checkpointArtifactsDigest [[ref]]], none⟩, ⟨0, ()⟩⟩

def checkpoint : CheckpointData (List Root) Unit := ⟨summary, [⟨[ref]⟩]⟩

def states : ObjectStates := (∅ : ObjectStates).insert 5 (7, 9)

theorem certified : Certified library committee checkpoint where
  signed := ⟨(), rfl⟩
  commits := by
    refine ⟨.fromObjectStates states, [[ref]], rfl, ?_, rfl⟩
    have hleaves : states.leaves = [ref] := by decide +kernel
    show Except.ok [states.leaves] = _
    rw [hleaves]

/-- Inclusion of the object's reference. -/
def included : Proof library :=
  ⟨.objectCheckpointState (.newInclusionTarget ref), summary,
    .objectCheckpointStateProof (.inclusion ⟨(), 0, [ref]⟩)⟩

/-- Non-inclusion of the object's dummy reference, which comes before the only leaf. -/
def notIncluded : Proof library :=
  ⟨.objectCheckpointState (.newNonInclusionTarget 5), summary,
    .objectCheckpointStateProof (.nonInclusion ⟨(none, some ref), [ref]⟩)⟩

/-- Non-inclusion of an object that is not modified, with the only leaf before it. -/
def absent : Proof library :=
  ⟨.objectCheckpointState (.newNonInclusionTarget 8), summary,
    .objectCheckpointStateProof (.nonInclusion ⟨(some ref, none), [ref]⟩)⟩

end OneObject

/-- A certified checkpoint with an accepted inclusion proof and an accepted non-inclusion
proof for the object that it modifies. -/
theorem both_proofs_accepted :
    Certified OneObject.library OneObject.committee OneObject.checkpoint ∧
    OneObject.included.verify OneObject.committee = .ok () ∧
    OneObject.notIncluded.verify OneObject.committee = .ok () ∧
    lastWritten OneObject.checkpoint.transactions 5 = some OneObject.ref :=
  ⟨OneObject.certified, rfl, rfl, rfl⟩

/-- The object has an inclusion proof from the prover, and no non-inclusion proof. Another one has
an accepted non-inclusion proof that is clear of it. -/
theorem one_object_proofs :
    (∃ ref proof, ref.id = 5 ∧
      (OCSTarget.newInclusionTarget ref).construct OneObject.library OneObject.checkpoint = .ok proof ∧
      proof.verify OneObject.committee = .ok ()) ∧
    lastWritten OneObject.checkpoint.transactions 5 = some OneObject.ref ∧
    OneObject.absent.verify OneObject.committee = .ok () ∧
    lastWritten OneObject.checkpoint.transactions 8 = none ∧
    ∀ (other : Proof OneObject.library) (included : ObjectRef),
      other.checkpointSummary.data = OneObject.summary.data →
      other.targets = .objectCheckpointState ⟨included, .inclusion⟩ → included.id = 8 →
      other.verify OneObject.committee ≠ .ok () := by
  obtain ⟨haccepted, hprover⟩ := object_checkpoint_state_proofs OneObject.library_sound
    Merkle.ideal_complete OneObject.certified
  obtain ⟨contents, hcontents, hiff, hnone⟩ := (haccepted OneObject.absent (getDummyObjectRef 8) rfl rfl).2 rfl
  have hclear : contents.Clear 8 := by
    cases hcontents
    constructor <;> intro leaf hleaf <;> cases hleaf
    decide
  refine ⟨?_, (haccepted OneObject.included OneObject.ref rfl rfl).1 rfl, rfl, hiff.mpr hclear, hnone hclear⟩
  rcases hprover 5 with ⟨hincluded, -⟩ | ⟨hproof, -⟩
  · exact hincluded
  · exact absurd ((construct_nonInclusion_iff Merkle.ideal_complete OneObject.certified).mp hproof) (by decide)

end Sui.LightClient
