import Sui.Consensus.Commit

/-! Votes collected for leader scores.

`ScoringSubdag` records, for the committed leaders of a range of commits, the
blocks that vote for them and the stake that includes each vote. -/
namespace Sui.Consensus

open Sui.Lib

structure ScoringSubdag where
  commitRange : Option CommitRange := none
  leaders : Finset BlockRef := ∅
  votes : BTreeMap BlockRef (StakeAggregator .quorum) := ∅

namespace ScoringSubdag

variable (ctx : Context)

/-- One strong link: a vote if it points to a leader, and support if it points to a vote. -/
def addLink (block : VerifiedBlock) (s : ScoringSubdag) (ancestor : BlockRef) :
    Exec ScoringSubdag := do
  if ancestor.round ≠ block.round - 1 then return s
  let s ←
    if ancestor ∈ s.leaders then do
      assert (s.votes[block.reference]? = none) .duplicateVote
      pure { s with votes := s.votes.insert block.reference {} }
    else pure s
  return { s with votes := s.votes.modify ancestor fun stake =>
    (stake.add ctx.committee block.author).1 }

def addSubdag (s : ScoringSubdag) (subdag : CommittedSubDag) : Exec ScoringSubdag := do
  let index := subdag.commitRef.index
  let range ← match s.commitRange with
    | none => pure ⟨index, index⟩
    | some range => range.extendTo index
  let s := { s with commitRange := some range, leaders := insert subdag.leader s.leaders }
  subdag.blocks.foldlM (fun s block => block.ancestors.foldlM (addLink ctx block) s) s

def addSubdags (s : ScoringSubdag) (committedSubdags : List CommittedSubDag) : Exec ScoringSubdag :=
  committedSubdags.foldlM (addSubdag ctx) s

end ScoringSubdag

end Sui.Consensus
