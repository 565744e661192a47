import Sui.Lib.Quorum

/-! DAGs of blocks in rounds.

Blocks have a round and an author and link to blocks of lower rounds. Authors
outside a light faulty set have one block a round in the universe, so two heavy
groups of authors of one round share a block (`exists_common`). If every block
links to a heavy group of the round below, a property that a heavy group of one
round has is met on some path from every later block (`exists_reach`). -/
namespace Sui.Lib

variable {β α : Type*}

structure RoundDag (β α : Type*) where
  round : β → ℕ
  author : β → α
  link : β → β → Prop

namespace RoundDag

variable (D : RoundDag β α)

/-- `b` reaches `c` by links that stay in `S`. -/
def Reach (S : Set β) : β → β → Prop :=
  Relation.ReflTransGen fun b c => c ∈ S ∧ D.link b c

/-- Authors outside `faulty` have at most one block a round. -/
def OneBlockPerRound (faulty : Finset α) (U : Set β) : Prop :=
  ∀ b ∈ U, ∀ c ∈ U, D.author b ∉ faulty → D.author b = D.author c → D.round b = D.round c → b = c

/-- Every author of the group has a block in `T`. -/
def AuthoredIn (T : Set β) (group : Finset α) : Prop := ∀ x ∈ group, ∃ t ∈ T, D.author t = x

variable {D}

theorem Reach.mem (hb : b ∈ S) (h : D.Reach S b c) : c ∈ S := by
  induction h with
  | refl => exact hb
  | tail _ hstep _ => exact hstep.1

variable [DecidableEq α] {w : α → ℕ} {members faulty : Finset α} {f : ℕ} {U : Set β} {S T : Set β}

/-- Two groups of authors of one round that together outweigh the whole and the
faults have a block in common. -/
theorem exists_common (hw : Supported w members) (hf : weight w faulty ≤ f)
    (hU : D.OneBlockPerRound faulty U) (hS : S ⊆ U) (hT : T ⊆ U)
    (hSr : ∀ s ∈ S, D.round s = r) (hTr : ∀ t ∈ T, D.round t = r) (hA : D.AuthoredIn S A) (hB : D.AuthoredIn T B)
    (h : weight w members + f < weight w A + weight w B) : ∃ b ∈ S, b ∈ T := by
  obtain ⟨x, hxA, hxB, hx⟩ := exists_mem_inter_not_mem hw A B faulty hf h
  obtain ⟨s, hs, rfl⟩ := hA x hxA
  obtain ⟨t, ht, hts⟩ := hB _ hxB
  have hst : s = t := hU s (hS hs) t (hT ht) hx hts.symm ((hSr s hs).trans (hTr t ht).symm)
  exact ⟨s, hs, hst ▸ ht⟩

/-- If every block of `S` above round `r` links to a group of the round below that
meets the group `A`, then from every block of `S` above `r` a block of `T` is reached. -/
theorem exists_reach (hw : Supported w members) (hf : weight w faulty ≤ f)
    (hU : D.OneBlockPerRound faulty U) (hS : S ⊆ U) (hT : T ⊆ U)
    (hTr : ∀ t ∈ T, D.round t = r) (hA : D.AuthoredIn T A) (hlinks : ∀ b ∈ S, r < D.round b → ∃ P : Finset α,
      D.AuthoredIn {p | p ∈ S ∧ D.link b p ∧ D.round p + 1 = D.round b} P ∧
        weight w members + f < weight w A + weight w P) :
    ∀ b ∈ S, r < D.round b → ∃ t ∈ T, t ∈ S ∧ D.Reach S b t := by
  intro b
  induction hn : D.round b using Nat.strong_induction_on generalizing b with
  | _ n ih =>
    intro hb hr
    obtain ⟨P, hP, hweight⟩ := hlinks b hb (hn ▸ hr)
    rcases Nat.lt_or_ge (r + 1) n with hfar | hnear
    · -- The group is not empty, and its blocks are one round closer.
      obtain ⟨x, hx⟩ : P.Nonempty := by
        by_contra hempty
        rw [Finset.not_nonempty_iff_eq_empty] at hempty
        have hle := weight_le_members hw A
        rw [hempty, weight_empty] at hweight
        omega
      obtain ⟨p, ⟨hpS, hlink, hround⟩, _⟩ := hP x hx
      obtain ⟨t, ht, htS, hreach⟩ := ih (D.round p) (by omega) p rfl hpS (by omega)
      exact ⟨t, ht, htS, .head ⟨hpS, hlink⟩ hreach⟩
    · obtain ⟨t, ⟨htS, hlink, _⟩, htT⟩ := exists_common hw hf hU
        (fun p hp => hS hp.1) hT (r := r) (fun p hp => by have := hp.2.2; omega) hTr hP hA
        (by omega)
      exact ⟨t, htT, htS, .single ⟨htS, hlink⟩⟩

end RoundDag

end Sui.Lib
