import Sui.Consensus.Context

/-! Counting stake.

A `StakeAggregator` holds the authorities counted so far and their total stake,
each authority once. `addUntil` is the loop most callers run over it: add votes in
order and stop when the threshold is reached. Its result depends only on the set
of voters (`addUntil_iff`). -/
namespace Sui.Consensus

open Sui.Lib

inductive CommitteeThreshold
  | quorum
  | certification
deriving DecidableEq, Repr

def CommitteeThreshold.threshold (c : Committee) : CommitteeThreshold → Nat
  | .quorum => c.quorumThreshold
  | .certification => c.certificationThreshold

structure StakeAggregator (T : CommitteeThreshold) where
  votes : Finset Nat := ∅
  stake : Nat := 0
deriving DecidableEq

namespace StakeAggregator
variable {T : CommitteeThreshold} (c : Committee) {s : StakeAggregator T}

/-- Counts the vote unless the authority was counted before; tells whether it was new. -/
def addUnique (s : StakeAggregator T) (vote : Nat) : StakeAggregator T × Bool :=
  if vote ∈ s.votes then (s, false)
  else (⟨insert vote s.votes, s.stake + c.stake vote⟩, true)

def reachedThreshold (s : StakeAggregator T) : Bool := T.threshold c ≤ s.stake

/-- Counts the vote; tells whether the threshold is reached. -/
def add (s : StakeAggregator T) (vote : Nat) : StakeAggregator T × Bool :=
  let s := (s.addUnique c vote).1
  (s, s.reachedThreshold c)

/-- The stake is that of the counted authorities. -/
def Counted (s : StakeAggregator T) : Prop := s.stake = c.stakeOf s.votes

theorem counted_empty : Counted c ({} : StakeAggregator T) := rfl

@[simp] theorem addUnique_votes (s : StakeAggregator T) (v : Nat) :
    (s.addUnique c v).1.votes = insert v s.votes := by
  unfold addUnique
  split
  · rename_i h
    exact (Finset.insert_eq_of_mem h).symm
  · rfl

theorem addUnique_counted (h : s.Counted c) (v : Nat) : (s.addUnique c v).1.Counted c := by
  unfold addUnique
  split
  · exact h
  · rename_i hv
    show s.stake + c.stake v = weight c.stake (insert v s.votes)
    rw [weight_insert _ hv, h, Nat.add_comm]
    rfl

/-- Adds votes in order until the threshold is reached. -/
def addUntil (s : StakeAggregator T) : List Nat → Bool
  | [] => false
  | v :: rest =>
    let (s, reached) := s.add c v
    if reached then true else addUntil s rest

theorem addUntil_iff (h : s.Counted c) (vs : List Nat) (hlow : s.stake < T.threshold c) :
    s.addUntil c vs = true ↔ T.threshold c ≤ c.stakeOf (s.votes ∪ vs.toFinset) := by
  induction vs generalizing s with
  | nil =>
    simp only [addUntil, List.toFinset_nil, Finset.union_empty, Bool.false_eq_true, false_iff, not_le]
    rwa [← h]
  | cons v rest ih =>
    have hc : (s.addUnique c v).1.Counted c := addUnique_counted c h v
    have hset : s.votes ∪ (v :: rest).toFinset = (s.addUnique c v).1.votes ∪ rest.toFinset := by
      simp only [addUnique_votes, List.toFinset_cons, Finset.union_insert, Finset.insert_union]
    by_cases hr : T.threshold c ≤ (s.addUnique c v).1.stake
    · have hmono : c.stakeOf (s.addUnique c v).1.votes ≤ c.stakeOf (s.votes ∪ (v :: rest).toFinset) := by
        rw [hset]
        exact weight_mono _ Finset.subset_union_left
      simp only [addUntil, add, reachedThreshold, hr, decide_true, if_true, true_iff]
      rw [hc] at hr
      exact hr.trans hmono
    · simp only [addUntil, add, reachedThreshold, hr, decide_false, Bool.false_eq_true, if_false]
      rw [ih hc (Nat.lt_of_not_le hr), hset]

/-- From an empty aggregator the loop answers whether the voters reach the threshold. -/
theorem addUntil_empty_iff (hpos : 0 < T.threshold c) (vs : List Nat) :
    ({} : StakeAggregator T).addUntil c vs = true ↔ T.threshold c ≤ c.stakeOf vs.toFinset := by
  rw [addUntil_iff c (counted_empty c) vs hpos]
  simp

theorem addUntil_quorum_iff {c : Committee} (hpos : 0 < c.quorumThreshold) (vs : List Nat) :
    ({} : StakeAggregator .quorum).addUntil c vs = true ↔ c.quorumThreshold ≤ c.stakeOf vs.toFinset :=
  addUntil_empty_iff (T := .quorum) c hpos vs

end StakeAggregator

end Sui.Consensus
