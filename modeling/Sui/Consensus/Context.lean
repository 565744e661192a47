import Sui.Consensus.Block
import Sui.Consensus.Committee

/-! What one validator is configured with.

The context is fixed for an epoch. The digest of a commit and of a genesis block
are hashes of their serialization; the hash is a parameter of the context. -/
namespace Sui.Consensus

structure CommitRef where
  index : Nat
  digest : Nat
deriving DecidableEq, Repr

namespace CommitRef

def key (r : CommitRef) : Nat ×ₗ Nat := toLex (r.index, r.digest)

theorem key_injective : Function.Injective key := by
  rintro ⟨i, d⟩ ⟨i', d'⟩ h
  obtain ⟨rfl, rfl⟩ := h
  rfl

instance : LinearOrder CommitRef := LinearOrder.lift' key key_injective

end CommitRef

/-- A commit as it is stored and sent: refs instead of blocks. -/
structure Commit where
  index : Nat
  previousDigest : Nat
  timestampMs : Nat
  leader : BlockRef
  blocks : List BlockRef
deriving DecidableEq, Repr

structure ProtocolConfig where
  gcDepth : Nat
  numLeadersPerRound : Option Nat := some 1
  enableV3 : Bool := false
  maxTransactionSizeBytes : Nat := 0
  maxTransactionsInBlockBytes : Nat := 0
  maxNumTransactionsInBlock : Nat := 0
  badNodesStakeThreshold : Nat := 0
  leaderScheduleWindowSizeConfig : Nat := 0
  leaderScheduleUpdateIntervalConfig : Nat := 0
deriving DecidableEq, Repr

namespace ProtocolConfig

/-- Clamped to at least one, as a window cannot be empty. -/
def leaderScheduleWindowSize (p : ProtocolConfig) : Nat := max p.leaderScheduleWindowSizeConfig 1

def leaderScheduleUpdateInterval (p : ProtocolConfig) : Nat :=
  max p.leaderScheduleUpdateIntervalConfig 1

end ProtocolConfig

structure Parameters where
  dagStateCachedRounds : Nat
  skipEquivocationValidation : Bool := false
deriving DecidableEq, Repr

structure Context where
  committee : Committee
  ownIndex : Nat
  protocolConfig : ProtocolConfig
  parameters : Parameters
  epochStartTimestampMs : Nat := 0
  /-- The digest of an authority's genesis block. -/
  genesisDigest : Nat → Nat := id
  /-- The digest of a serialized commit. -/
  commitDigest : Commit → Nat := fun c => c.index

namespace Context

def genesisBlock (ctx : Context) (authority : Nat) : VerifiedBlock :=
  { epoch := ctx.committee.epoch, round := GENESIS_ROUND, author := authority,
    timestampMs := ctx.epochStartTimestampMs, digest := ctx.genesisDigest authority }

/-- One genesis block for each authority. -/
def genesisBlocks (ctx : Context) : List VerifiedBlock :=
  (List.range ctx.committee.size).map ctx.genesisBlock

/-- Looks a reference up among the genesis blocks. -/
def genesis (ctx : Context) (r : BlockRef) : Option VerifiedBlock :=
  ctx.genesisBlocks.find? (fun b => b.reference = r)

/-- Rounds at or below this one are no longer committed after a leader of round
`commitRound`. -/
def calculateGcRound (ctx : Context) (commitRound : Nat) : Nat :=
  commitRound - ctx.protocolConfig.gcDepth

theorem calculateGcRound_mono (ctx : Context) (h : r ≤ r') : ctx.calculateGcRound r ≤ ctx.calculateGcRound r' :=
  Nat.sub_le_sub_right h _

variable {ctx : Context} {r : BlockRef}

theorem genesis_reference (h : ctx.genesis r = some b) : b.reference = r := by
  simpa using List.find?_some h

theorem genesis_round (h : (ctx.genesis r).isSome) : r.round = GENESIS_ROUND := by
  obtain ⟨b, hb⟩ := Option.isSome_iff_exists.mp h
  obtain ⟨a, _, rfl⟩ := List.mem_map.mp (List.mem_of_find?_eq_some hb)
  rw [← genesis_reference hb]
  rfl

end Context

/-! ### Four authorities of equal stake -/

def fourContext : Context where
  committee := ⟨0, [⟨1⟩, ⟨1⟩, ⟨1⟩, ⟨1⟩], 4, 3, 3, 2⟩
  ownIndex := 0
  protocolConfig := { gcDepth := 2 }
  parameters := { dagStateCachedRounds := 1 }

/-- A block of theirs, linked to the first block of each of the round before. -/
def fourBlock (round author digest : Nat) : VerifiedBlock :=
  { round, author, digest,
    ancestors := (author :: (List.range 4).erase author).map fun a =>
      ⟨round - 1, a, if round = 1 then a else 0⟩ }

end Sui.Consensus
