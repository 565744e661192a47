import Sui.Consensus.Committer.Base
import Sui.Consensus.View

/-! Votes, certificates and blames.

What the committer computes on a view, in terms of the blocks of the universe: a
block of the next round votes for a leader that it links to, a block two rounds up
certifies a leader if a quorum of its ancestors vote for it. Neither depends on the
view, so two views can only differ in which blocks they hold.

`certifies_unique`, `not_certifies_of_blamed` and `exists_certificate` are the
quorum facts of the commit rule. -/
namespace Sui.Consensus

open Sui.Lib

/-- `v` votes for `l`: it is of the next round and links to it. -/
def VotesFor (v l : VerifiedBlock) : Prop := v.round = l.round + 1 ∧ l.reference ∈ v.ancestors

/-- The votes for `l` among the ancestors of `c`. -/
def votesIn (U : Set VerifiedBlock) (c l : VerifiedBlock) : Set VerifiedBlock :=
  {v | v ∈ U ∧ v.reference ∈ c.ancestors ∧ VotesFor v l}

def Certifies (ctx : Context) (U : Set VerifiedBlock) (c l : VerifiedBlock) : Prop :=
  HasQuorum ctx (votesIn U c l)

/-- A certificate for `l` in the history of `b`, within a view. -/
def CertifiedFrom (ctx : Context) (U S : Set VerifiedBlock) (b l : VerifiedBlock) : Prop :=
  ∃ c ∈ S, c.round = l.round + 2 ∧ dag.Reach S b c ∧ Certifies ctx U c l

/-- The blocks of the voting round that do not link to the leader's author at all. -/
def blames (S : Set VerifiedBlock) (slot : Slot) : Set VerifiedBlock :=
  {v | v ∈ S ∧ v.round = slot.round + 1 ∧ ∀ a ∈ v.ancestors, a.author ≠ slot.authority}

/-- The certificates for `l` in the decision round. -/
def certificates (ctx : Context) (U S : Set VerifiedBlock) (l : VerifiedBlock) : Set VerifiedBlock :=
  {c | c ∈ S ∧ c.round = l.round + 2 ∧ Certifies ctx U c l}

variable {ctx : Context} {U : Set VerifiedBlock}

/-! ### Quorum facts -/

/-- A block has one ancestor by each author. -/
theorem Verified.ancestor_unique (h : Verified ctx b)
    (ha : a ∈ b.ancestors) (ha' : a' ∈ b.ancestors) (heq : a.author = a'.author) : a = a' :=
  List.inj_on_of_nodup_map h.distinctAuthors ha ha' heq

/-- Certificates of one slot are for one block. -/
theorem certifies_unique (hU : Universe ctx U faulty)
    (h : Certifies ctx U c l) (h' : Certifies ctx U c' l') (hslot : l.slot = l'.slot) :
    l.reference = l'.reference := by
  have hround : l.round = l'.round := congrArg Slot.round hslot
  obtain ⟨v, hv, hv'⟩ := HasQuorum.common hU (fun _ h => h.1) (fun _ h => h.1)
    (fun _ h => h.2.2.1) (fun _ h => hround ▸ h.2.2.1) h h'
  exact (hU.verified v hv.1).ancestor_unique hv.2.2.2 hv'.2.2.2 (congrArg Slot.authority hslot)

/-- A blamed slot has no certificate, in any view. -/
theorem not_certifies_of_blamed (hU : Universe ctx U faulty) (hS : S ⊆ U)
    (hb : HasQuorum ctx (blames S slot)) (hl : l.slot = slot) : ¬Certifies ctx U c l := by
  intro hc
  have hround : l.round = slot.round := congrArg Slot.round hl
  obtain ⟨v, hv, hv'⟩ := HasQuorum.common hU (fun _ h => hS h.1) (fun _ h => h.1)
    (fun _ h => h.2.1) (fun _ h => hround ▸ h.2.2.1) hb hc
  exact hv.2.2 _ hv'.2.2.2 (congrArg Slot.authority hl)

section View
/-- A leader committed directly in one view has a certificate in the history of every
later block, in every view. -/
theorem exists_certificate (hU : Universe ctx U faulty) (hv : View ctx U floor d) (hS : S ⊆ U)
    (hfloor : floor < l.round) (hq : HasQuorum ctx (certificates ctx U S l)) (hb : b ∈ d.blocks)
    (hround : l.round + 3 ≤ b.round) : CertifiedFrom ctx U d.blocks b l := by
  obtain ⟨c, hc, hcd, hreach⟩ := hv.exists_reach_of_hasQuorum hU (r := l.round + 2) (by omega)
    (fun _ h => hS h.1) (fun _ h => h.2.1) hq hb (by omega)
  exact ⟨c, hcd, hc.2.1, hreach, hc.2.2⟩

/-- A view that holds a certificate holds the certified block. -/
theorem mem_blocks_of_certifies (hU : Universe ctx U faulty) (hv : View ctx U floor d)
    (hc : c ∈ d.blocks) (hl : l ∈ U) (hfloor : floor < l.round) (h : Certifies ctx U c l) : l ∈ d.blocks := by
  obtain ⟨v, hvU, hvc, hround, hlv⟩ := h.nonempty hU
  obtain ⟨v', hv', heq⟩ := hv.exists_ancestor hc hvc (by
    rw [VerifiedBlock.reference_round]
    omega)
  have hvv : v' = v := hU.refs v' (hv.blocks_subset hv') v hvU heq
  subst hvv
  obtain ⟨l', hl', heq⟩ := hv.exists_ancestor hv' hlv hfloor
  exact hU.refs l' (hv.blocks_subset hl') l hl heq ▸ hl'

end View

end Sui.Consensus
