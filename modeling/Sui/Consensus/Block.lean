import Sui.Lib.BTree

/-! Blocks and references to them.

A `BlockRef` is the round, the author and the digest of a block, ordered in that
order. The digest covers the whole block, so the refs of two different blocks
differ; what depends on that says so. Rounds, authority indices, timestamps and
digests are natural numbers: the source's machine integers and 32-byte arrays are
only compared and incremented. -/
namespace Sui.Consensus

def GENESIS_ROUND : Nat := 0

structure BlockRef where
  round : Nat
  author : Nat
  digest : Nat
deriving DecidableEq, Repr

namespace BlockRef

/-- The derived order compares the fields in turn. -/
def key (r : BlockRef) : Nat ×ₗ Nat ×ₗ Nat := toLex (r.round, toLex (r.author, r.digest))

theorem key_injective : Function.Injective key := by
  rintro ⟨r, a, d⟩ ⟨r', a', d'⟩ h
  obtain ⟨rfl, rfl, rfl⟩ := h
  rfl

instance : LinearOrder BlockRef := LinearOrder.lift' key key_injective

theorem lt_of_round_lt {a b : BlockRef} (h : a.round < b.round) : a < b := by
  exact Prod.Lex.toLex_lt_toLex.mpr (.inl h)

theorem round_le_of_le {a b : BlockRef} (h : a ≤ b) : a.round ≤ b.round := by
  by_contra hlt
  exact absurd (lt_of_round_lt (Nat.lt_of_not_le hlt)) (not_lt.mpr h)

end BlockRef

/-- A slot is a round and the authority that may propose in it. -/
structure Slot where
  round : Nat
  authority : Nat
deriving DecidableEq, Repr

def BlockRef.slot (r : BlockRef) : Slot := ⟨r.round, r.author⟩

/-- A proposer's reject votes on the transactions of one block. -/
structure BlockTransactionVotes where
  blockRef : BlockRef
  rejects : List Nat
deriving DecidableEq, Repr

/-- The bytes of a transaction. -/
abbrev Transaction := List UInt8

/-- A signed block and its digest. `VerifiedBlock` and `SignedBlock` have the same
content; which of the two a block is, is whether `verifyBlock` has passed it. -/
structure VerifiedBlock where
  epoch : Nat := 0
  round : Nat
  author : Nat
  timestampMs : Nat := 0
  ancestors : List BlockRef := []
  transactions : List Transaction := []
  transactionVotes : List BlockTransactionVotes := []
  digest : Nat := 0
deriving DecidableEq, Repr

namespace VerifiedBlock

def reference (b : VerifiedBlock) : BlockRef := ⟨b.round, b.author, b.digest⟩

def slot (b : VerifiedBlock) : Slot := ⟨b.round, b.author⟩

@[simp] theorem reference_round (b : VerifiedBlock) : b.reference.round = b.round := rfl
@[simp] theorem reference_author (b : VerifiedBlock) : b.reference.author = b.author := rfl
@[simp] theorem reference_slot (b : VerifiedBlock) : b.reference.slot = b.slot := rfl

end VerifiedBlock

end Sui.Consensus
