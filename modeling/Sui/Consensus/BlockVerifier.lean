import Sui.Consensus.Context

/-! Block verification.

`verifyBlock` runs the checks of `SignedBlockVerifier` in their order; the check of
the signature itself is a parameter. What the rest of the development uses of a
verified block is `Verified`: distinct ancestor authors, the block's own author
first, lower ancestor rounds, genuine genesis ancestors and a quorum of parents.
Transaction votes are not checked at all. -/
namespace Sui.Consensus

open Sui.Lib List

inductive ConsensusError
  | wrongEpoch (expected actual : Nat)
  | unexpectedGenesisBlock
  | invalidAuthorityIndex (index max : Nat)
  | signatureVerificationFailure
  | tooManyAncestors (count max : Nat)
  | insufficientParentStakes (parentStakes quorum : Nat)
  | invalidAncestorPosition (blockAuthority ancestorAuthority position : Nat)
  | invalidAncestorRound (ancestor block : Nat)
  | invalidGenesisAncestor (ancestor : BlockRef)
  | duplicatedAncestorsAuthority (author : Nat)
  | transactionTooLarge (size limit : Nat)
  | tooManyTransactions (count limit : Nat)
  | tooManyTransactionBytes (size limit : Nat)
deriving DecidableEq, Repr

namespace SignedBlockVerifier

variable (ctx : Context)

/-- An error unless the condition holds. -/
def ensure (c : Prop) [Decidable c] (e : ConsensusError) : Except ConsensusError Unit :=
  if c then .ok () else .error e

@[simp] theorem ensure_eq_ok [Decidable c] : ensure c e = .ok u ↔ c := by
  unfold ensure
  split <;> simp_all

/-- The loop over the ancestors from position `i` on; returns the stake of the parents. -/
def checkAncestors (block : VerifiedBlock) (i : Nat) (seenAncestors : Finset Nat)
    (parentStakes : Nat) : List BlockRef → Except ConsensusError Nat
  | [] => .ok parentStakes
  | ancestor :: rest => do
    ensure (ctx.committee.isValidIndex ancestor.author)
      (.invalidAuthorityIndex ancestor.author (ctx.committee.size - 1))
    ensure (¬((i = 0 ∧ ancestor.author ≠ block.author) ∨ (i > 0 ∧ ancestor.author = block.author)))
      (.invalidAncestorPosition block.author ancestor.author i)
    ensure (ancestor.round < block.round) (.invalidAncestorRound ancestor.round block.round)
    ensure (¬(ancestor.round = GENESIS_ROUND ∧ ctx.genesis ancestor = none))
      (.invalidGenesisAncestor ancestor)
    ensure (ancestor.author ∉ seenAncestors) (.duplicatedAncestorsAuthority ancestor.author)
    checkAncestors block (i + 1) (insert ancestor.author seenAncestors)
      (if ancestor.round = block.round - 1 then parentStakes + ctx.committee.stake ancestor.author
       else parentStakes) rest

def checkTransactionSizes (limit : Nat) : List Transaction → Except ConsensusError Unit
  | [] => .ok ()
  | t :: rest => do
    ensure (¬(t.length > limit ∧ limit > 0)) (.transactionTooLarge t.length limit)
    checkTransactionSizes limit rest

/-- Size limits; a limit of zero is no limit. The error for the total size reports
the number of transactions, as the source does. -/
def checkTransactions (batch : List Transaction) : Except ConsensusError Unit := do
  checkTransactionSizes ctx.protocolConfig.maxTransactionSizeBytes batch
  let maxNum := ctx.protocolConfig.maxNumTransactionsInBlock
  ensure (¬(batch.length > maxNum ∧ maxNum > 0)) (.tooManyTransactions batch.length maxNum)
  let maxTotal := ctx.protocolConfig.maxTransactionsInBlockBytes
  ensure (¬((batch.map List.length).sum > maxTotal ∧ maxTotal > 0))
    (.tooManyTransactionBytes batch.length maxTotal)

def verifyBlock (verifySignature : VerifiedBlock → Bool) (block : VerifiedBlock) :
    Except ConsensusError Unit := do
  let committee := ctx.committee
  ensure (block.epoch = committee.epoch) (.wrongEpoch committee.epoch block.epoch)
  ensure (block.round ≠ 0) .unexpectedGenesisBlock
  ensure (committee.isValidIndex block.author)
    (.invalidAuthorityIndex block.author (committee.size - 1))
  ensure (verifySignature block) .signatureVerificationFailure
  ensure (block.ancestors.length ≤ committee.size)
    (.tooManyAncestors block.ancestors.length committee.size)
  ensure (block.ancestors ≠ []) (.insufficientParentStakes 0 committee.quorumThreshold)
  let parentStakes ← checkAncestors ctx block 0 ∅ 0 block.ancestors
  ensure (committee.reachedQuorum parentStakes)
    (.insufficientParentStakes parentStakes committee.quorumThreshold)
  checkTransactions ctx block.transactions

end SignedBlockVerifier

/-! ### What verification establishes -/

/-- The authors of a block's parents, its ancestors one round below. -/
def VerifiedBlock.parentAuthors (b : VerifiedBlock) : Finset Nat :=
  ((b.ancestors.filter fun a => a.round + 1 = b.round).map BlockRef.author).toFinset

/-- A block the verifier passes. -/
structure Verified (ctx : Context) (b : VerifiedBlock) : Prop where
  epoch : b.epoch = ctx.committee.epoch
  round : 0 < b.round
  author : b.author < ctx.committee.size
  ancestorAuthors : ∀ a ∈ b.ancestors, a.author < ctx.committee.size
  ownAncestor : ∃ a rest, b.ancestors = a :: rest ∧ a.author = b.author
  distinctAuthors : (b.ancestors.map BlockRef.author).Nodup
  ancestorRounds : ∀ a ∈ b.ancestors, a.round < b.round
  genesisAncestors : ∀ a ∈ b.ancestors, a.round = GENESIS_ROUND → ctx.genesis a ≠ none
  parents : ctx.committee.quorumThreshold ≤ ctx.committee.stakeOf b.parentAuthors

namespace SignedBlockVerifier

variable {ctx : Context} {b : VerifiedBlock}

theorem mem_parentAuthors : x ∈ b.parentAuthors ↔ ∃ a ∈ b.ancestors, a.round + 1 = b.round ∧ a.author = x := by
  simp [VerifiedBlock.parentAuthors, and_assoc]

/-- A quorum is not empty, so there is a parent. -/
theorem exists_parent (h : Verified ctx b)
    (hquorum : 0 < ctx.committee.quorumThreshold) : ∃ a ∈ b.ancestors, a.round + 1 = b.round := by
  have hpos : 0 < ∑ x ∈ b.parentAuthors, ctx.committee.stake x := hquorum.trans_le h.parents
  obtain ⟨x, hx, _⟩ := Finset.exists_ne_zero_of_sum_ne_zero (Nat.pos_iff_ne_zero.mp hpos)
  obtain ⟨a, ha, hround, _⟩ := mem_parentAuthors.mp hx
  exact ⟨a, ha, hround⟩

/-- What one pass over the ancestors establishes, and the stake it counts. -/
theorem checkAncestors_spec (hround : 0 < b.round) (h : checkAncestors ctx b i seen stakes ancestors = .ok total) :
    (∀ a ∈ ancestors, a.author < ctx.committee.size ∧ a.round < b.round ∧ a.author ∉ seen ∧
      (a.round = GENESIS_ROUND → ctx.genesis a ≠ none)) ∧
    (ancestors.map BlockRef.author).Nodup ∧
    (i = 0 → ∀ a rest, ancestors = a :: rest → a.author = b.author) ∧
    total = stakes + ctx.committee.stakeOf
      ((ancestors.filter fun a => a.round + 1 = b.round).map BlockRef.author).toFinset := by
  induction ancestors generalizing i seen stakes with
  | nil =>
    cases h
    refine ⟨by simp, by simp, by simp, ?_⟩
    simp [Committee.stakeOf]
  | cons a rest ih =>
    simp only [checkAncestors, Exec.bind_eq_ok, ensure_eq_ok] at h
    obtain ⟨_, hvalid, _, hpos, _, hlt, _, hgen, _, hseen, hrest⟩ := h
    obtain ⟨hall, hnodup, _, htotal⟩ := ih hrest
    have hfresh : ∀ a' ∈ rest, a'.author ≠ a.author ∧ a'.author ∉ seen := by
      intro a' ha'
      have := (hall a' ha').2.2.1
      rw [Finset.mem_insert, not_or] at this
      exact this
    refine ⟨?_, ?_, ?_, ?_⟩
    · intro a' ha'
      rcases mem_cons.mp ha' with rfl | hmem
      · refine ⟨by simpa [Committee.isValidIndex] using hvalid, hlt, hseen, ?_⟩
        intro hg hnone
        exact hgen ⟨hg, hnone⟩
      · obtain ⟨h₁, h₂, _, h₄⟩ := hall a' hmem
        exact ⟨h₁, h₂, (hfresh a' hmem).2, h₄⟩
    · rw [map_cons, nodup_cons]
      refine ⟨?_, hnodup⟩
      intro hmem
      obtain ⟨a', ha', heq⟩ := mem_map.mp hmem
      exact (hfresh a' ha').1 heq
    · intro hi a' rest' heq
      cases heq
      by_contra hne
      exact hpos (.inl ⟨hi, hne⟩)
    · rw [htotal]
      by_cases hp : a.round + 1 = b.round
      · have hp' : a.round = b.round - 1 := by omega
        have hnot : a.author ∉ ((rest.filter fun a => a.round + 1 = b.round).map BlockRef.author).toFinset := by
          simp only [mem_toFinset, mem_map, mem_filter, not_exists, not_and]
          intro a' ha' heq
          exact (hfresh a' ha'.1).1 heq
        rw [if_pos hp', filter_cons_of_pos (by simpa using hp), map_cons,
          toFinset_cons, Committee.stakeOf, Committee.stakeOf, weight_insert _ hnot]
        omega
      · have hp' : a.round ≠ b.round - 1 := by omega
        rw [if_neg hp', filter_cons_of_neg (by simpa using hp)]

theorem verifyBlock_spec (h : verifyBlock ctx verifySignature b = .ok ()) : Verified ctx b := by
  simp only [verifyBlock, Exec.bind_eq_ok, ensure_eq_ok] at h
  obtain ⟨_, hepoch, _, hround, _, hauthor, _, _, _, _, _, hne, total, hcheck, _, hq, _⟩ := h
  have hpos : 0 < b.round := Nat.pos_of_ne_zero hround
  obtain ⟨hall, hnodup, hfirst, htotal⟩ := checkAncestors_spec hpos hcheck
  obtain ⟨a, rest, heq⟩ := exists_cons_of_ne_nil hne
  refine ⟨hepoch, hpos, by simpa [Committee.isValidIndex] using hauthor, fun a ha => (hall a ha).1,
    ⟨a, rest, heq, hfirst rfl a rest heq⟩, hnodup, fun a ha => (hall a ha).2.1,
    fun a ha => (hall a ha).2.2.2, ?_⟩
  rw [htotal, Nat.zero_add] at hq
  simpa [Committee.reachedQuorum, VerifiedBlock.parentAuthors] using hq

end SignedBlockVerifier

end Sui.Consensus
