import Sui.Consensus.DagState.Update
import Sui.Lib.WeightedMedian

/-! Commit timestamps.

The timestamp of a commit is the median, by stake, of those of the leader's parents, unless
that is before the last commit. `timestamps_robust` says that faulty authors move it no
further than to the timestamps of the others, and that it does not decrease. -/
namespace Sui.Consensus

open Sui.Lib Exec

/-! ### The median -/

/-- The timestamp at which more than half of the stake is reached, if there is one. The
running stake is at most the total, which has been computed. -/
def medianTimestampsByStakeInner (timestamps : List (Nat × Nat)) (totalStake : Nat) : Exec Nat :=
  let timestamps := timestamps.insertionSort (·.1 ≤ ·.1)
  match crossing (totalStake / 2) 0 timestamps with
  | some ts => .ok ts
  | none => expect (timestamps.getLast?.map Prod.fst) .medianTimestamp

inductive MedianError
  | noBlocks
  | belowQuorum (totalStake quorumThreshold : Nat)
deriving DecidableEq, Repr

def medianTimestampByStake (c : Committee) (blocks : List VerifiedBlock) :
    Exec (Except MedianError Nat) := do
  let timestamps := blocks.map fun b => (b.timestampMs, c.stake b.author)
  let totalStake ← checkedU64 (timestamps.map Prod.snd).sum
  if timestamps.isEmpty then return .error .noBlocks
  else if totalStake < c.quorumThreshold then
    return .error (.belowQuorum totalStake c.quorumThreshold)
  else do
    let ts ← medianTimestampsByStakeInner timestamps totalStake
    return .ok ts

/-- A failure to compute the median is a panic. -/
def unwrapMedian : Except MedianError Nat → Exec Nat
  | .ok ts => .ok ts
  | .error _ => .error .medianTimestamp

def calculateCommitTimestamp (ctx : Context) (d : DagState) (leaderBlock : VerifiedBlock)
    (lastCommitTimestampMs : Nat) : Exec Nat := do
  let blockRefs := leaderBlock.ancestors.filter fun r => r.round = leaderBlock.round - 1
  let blocks ← (d.getBlocks ctx blockRefs).mapM (expect · .parentsMissing)
  let median ← medianTimestampByStake ctx.committee blocks
  let ts ← unwrapMedian median
  return max ts lastCommitTimestampMs

/-- The timestamps of the commits along a run, in which only commits change the last commit. -/
inductive CommitTimestamps (ctx : Context) : DagState → List Nat → Prop
  | nil (d : DagState) : CommitTimestamps ctx d []
  | other {d d' : DagState} {timestamps : List Nat} (hsame : d'.lastCommit = d.lastCommit)
      (h : CommitTimestamps ctx d' timestamps) : CommitTimestamps ctx d timestamps
  | commit {d d' : DagState} {timestamps : List Nat} {leaderBlock : VerifiedBlock}
      {commit : TrustedCommit}
      (hts : calculateCommitTimestamp ctx d leaderBlock d.lastCommitTimestampMs = .ok commit.timestampMs)
      (hindex : commit.index = d.lastCommitIndex + 1) (hadd : d.addCommit commit = .ok d')
      (h : CommitTimestamps ctx d' timestamps) :
      CommitTimestamps ctx d (commit.timestampMs :: timestamps)

/-! ### The stake of a committee -/

variable {c : Committee} {blocks : List VerifiedBlock}

/-- Distinct authors have no more stake than there is. -/
theorem sum_stake_le (hc : c.Built) (hauthors : (blocks.map VerifiedBlock.author).Nodup) :
    (blocks.map fun b => c.stake b.author).sum ≤ U64_MAX := by
  have hsum : (blocks.map fun b => c.stake b.author).sum =
      weight c.stake (blocks.map VerifiedBlock.author).toFinset := by
    rw [weight, List.sum_toFinset _ hauthors, List.map_map]
    rfl
  obtain ⟨htotal, -, hmax, -⟩ := hc.bounds
  rw [hsum]
  exact (weight_le_members c.stake_supported _).trans (htotal ▸ hmax)

/-- The median of distinct authors' blocks lies between two that are not faulty. -/
theorem median_between (hc : c.Built) (faulty : Nat → Bool) (hauthors : (blocks.map VerifiedBlock.author).Nodup)
    (hquorum : c.quorumThreshold ≤ (blocks.map fun b => c.stake b.author).sum)
    (hfaulty : ((blocks.filter fun b => faulty b.author).map fun b => c.stake b.author).sum ≤
      c.faultTolerance) :
    ∃ ts, medianTimestampByStake c blocks = .ok (.ok ts) ∧
      crossing ((blocks.map fun b => c.stake b.author).sum / 2) 0
        ((blocks.map fun b => (b.timestampMs, c.stake b.author)).insertionSort (·.1 ≤ ·.1)) = some ts ∧
      (∃ b ∈ blocks, faulty b.author = false ∧ b.timestampMs ≤ ts) ∧
      ∃ b ∈ blocks, faulty b.author = false ∧ ts ≤ b.timestampMs := by
  have hbounds := hc.bounds.2.2.2
  have hsplit := sum_filter_add (fun b => c.stake b.author) (fun b => faulty b.author) blocks
  have hperm := blocks.perm_insertionSort fun b b' => b.timestampMs ≤ b'.timestampMs
  have hsum (p : VerifiedBlock → Bool) := ((hperm.filter p).map fun b => c.stake b.author).sum_eq
  have hbetween := crossing_between VerifiedBlock.timestampMs (fun b => c.stake b.author)
    (fun b => faulty b.author) (blocks.pairwise_insertionSort fun b b' => b.timestampMs ≤ b'.timestampMs)
    (show _ ≤ (blocks.map fun b => c.stake b.author).sum / 2 by rw [hsum]; omega) (by rw [hsum]; omega)
  simp only [hperm.mem_iff] at hbetween
  rw [List.map_insertionSort _ (fun p q => p.1 ≤ q.1) _ _ (by simp)] at hbetween
  obtain ⟨ts, hcross, hrange⟩ := hbetween
  refine ⟨ts, ?_, hcross, hrange⟩
  have hstakes : (blocks.map fun b => (b.timestampMs, c.stake b.author)).map Prod.snd =
      blocks.map fun b => c.stake b.author := List.map_map ..
  have hne : (blocks.map fun b => (b.timestampMs, c.stake b.author)).isEmpty = false := by
    cases blocks with
    | nil => simp at hquorum; omega
    | cons => rfl
  unfold medianTimestampByStake
  dsimp only
  rw [hstakes, bind_ok (checkedU64_eq_ok.mpr ⟨rfl, sum_stake_le hc hauthors⟩), hne,
    if_neg Bool.false_ne_true, if_neg hquorum.not_gt, medianTimestampsByStakeInner]
  rw [hcross]
  rfl

/-- What is calculated for the next commit is not before the last one, so that it is added. -/
theorem calculateCommitTimestamp_added
    (hts : calculateCommitTimestamp ctx d leaderBlock d.lastCommitTimestampMs = .ok commit.timestampMs)
    (hindex : commit.index = d.lastCommitIndex + 1) :
    d.lastCommitTimestampMs ≤ commit.timestampMs ∧ ∃ d', d.addCommit commit = .ok d' ∧
      d'.lastCommitTimestampMs = commit.timestampMs := by
  simp only [calculateCommitTimestamp, bind_eq_ok, pure_eq_ok] at hts
  obtain ⟨_, _, _, _, ts, _, hmax⟩ := hts
  have hle : d.lastCommitTimestampMs ≤ commit.timestampMs := hmax ▸ le_max_right ..
  have hcheck : d.checkCommit commit = .ok true := by
    unfold DagState.checkCommit
    unfold DagState.lastCommitIndex at hindex
    unfold DagState.lastCommitTimestampMs at hle
    cases hold : d.lastCommit with
    | none =>
      rw [hold] at hindex
      exact bind_require hindex _
    | some last =>
      simp only [hold] at hindex hle ⊢
      rw [if_neg (by omega)]
      exact (bind_require hindex _).trans (bind_require hle _)
  exact ⟨hle, _, bind_ok hcheck _, rfl⟩

theorem CommitTimestamps.pairwise (h : CommitTimestamps ctx d timestamps) :
    (d.lastCommitTimestampMs :: timestamps).Pairwise (· ≤ ·) := by
  induction h with
  | nil d => simp
  | other hsame h ih => simpa only [DagState.lastCommitTimestampMs, hsame] using ih
  | @commit d d' timestamps leaderBlock commit hts hindex hadd h ih =>
    obtain ⟨hle, d'', hadd', hlast⟩ := calculateCommitTimestamp_added hts hindex
    cases hadd'.symm.trans hadd
    rw [hlast] at ih
    refine List.pairwise_cons.mpr ⟨fun ts hts => ?_, ih⟩
    rcases List.mem_cons.mp hts with rfl | hts
    · exact hle
    · exact hle.trans ((List.pairwise_cons.mp ih).1 ts hts)

/-- **Commit timestamps are robust and do not decrease.** With a quorum of blocks by distinct
authors, the median is found before the end of the list, between two timestamps of authors that
are not faulty. What is calculated is never before the last commit, so that no commit is refused for
its timestamp. -/
theorem timestamps_robust {c : Committee} (hc : c.Built) :
    (∀ (blocks : List VerifiedBlock) (faulty : Nat → Bool),
      (blocks.map VerifiedBlock.author).Nodup →
      c.quorumThreshold ≤ (blocks.map fun b => c.stake b.author).sum →
      ((blocks.filter fun b => faulty b.author).map fun b => c.stake b.author).sum ≤ c.faultTolerance →
      ∃ ts, medianTimestampByStake c blocks = .ok (.ok ts) ∧
        crossing ((blocks.map fun b => c.stake b.author).sum / 2) 0
          ((blocks.map fun b => (b.timestampMs, c.stake b.author)).insertionSort (·.1 ≤ ·.1)) = some ts ∧
        (∃ b ∈ blocks, faulty b.author = false ∧ b.timestampMs ≤ ts) ∧
        ∃ b ∈ blocks, faulty b.author = false ∧ ts ≤ b.timestampMs) ∧
    (∀ (ctx : Context) (d : DagState) (leaderBlock : VerifiedBlock) (commit : TrustedCommit),
      calculateCommitTimestamp ctx d leaderBlock d.lastCommitTimestampMs = .ok commit.timestampMs →
      commit.index = d.lastCommitIndex + 1 →
      d.lastCommitTimestampMs ≤ commit.timestampMs ∧ ∃ d', d.addCommit commit = .ok d' ∧
        d'.lastCommitTimestampMs = commit.timestampMs) ∧
    ∀ ctx d timestamps, CommitTimestamps ctx d timestamps →
      (d.lastCommitTimestampMs :: timestamps).Pairwise (· ≤ ·) :=
  ⟨fun _ faulty hauthors hquorum hfaulty => median_between hc faulty hauthors hquorum hfaulty,
    fun _ _ _ _ => calculateCommitTimestamp_added, fun _ _ _ h => h.pairwise⟩

/-- A commit of four authorities with the timestamps of three of its parents, and one that comes
after it with earlier ones. -/
theorem timestamps_robust_two : ∃ c, Committee.new 0 [⟨1⟩, ⟨1⟩, ⟨1⟩, ⟨1⟩] = .ok c ∧
    (∃ ts, medianTimestampByStake c [{ round := 1, author := 0, timestampMs := 10 },
      { round := 1, author := 1, timestampMs := 30 }, { round := 1, author := 2, timestampMs := 99 }] =
      .ok (.ok ts) ∧ ts ≤ 30) ∧
    ∃ d, CommitTimestamps fourContext d [30, 30] ∧ (d.lastCommitTimestampMs :: [30, 30]).Pairwise (· ≤ ·) := by
  have hnew : Committee.new 0 [⟨1⟩, ⟨1⟩, ⟨1⟩, ⟨1⟩] = .ok ⟨0, [⟨1⟩, ⟨1⟩, ⟨1⟩, ⟨1⟩], 4, 3, 3, 2⟩ := by
    decide
  have hrobust := timestamps_robust (.new hnew)
  refine ⟨_, hnew, ?_, ?_⟩
  · obtain ⟨ts, hts, -, -, b, hb, hgood, hle⟩ := hrobust.1
      [{ round := 1, author := 0, timestampMs := 10 }, { round := 1, author := 1, timestampMs := 30 },
        { round := 1, author := 2, timestampMs := 99 }] (· == 2) (by decide) (by decide) (by decide)
    refine ⟨ts, hts, hle.trans ?_⟩
    revert hgood
    simp only [List.mem_cons, List.not_mem_nil, or_false] at hb
    rcases hb with rfl | rfl | rfl <;> decide
  · let parents (round : Nat) (a b c : Nat) : List VerifiedBlock :=
      [{ round, author := 0, timestampMs := a }, { round, author := 1, timestampMs := b },
        { round, author := 2, timestampMs := c }]
    let leader (round : Nat) : VerifiedBlock :=
      { round, author := 0, ancestors := [⟨round - 1, 0, 0⟩, ⟨round - 1, 1, 0⟩, ⟨round - 1, 2, 0⟩] }
    let blocks := parents 1 10 30 99 ++ parents 2 5 6 7
    let d : DagState :=
      { recentBlocks := blocks.foldl (fun m b => m.insert b.reference { block := b }) ∅ }
    have hrun : CommitTimestamps fourContext d [30, 30] := by
      refine @CommitTimestamps.commit _ _ _ _ (leader 2) ⟨⟨1, 0, 30, ⟨2, 0, 0⟩, []⟩, 0⟩ ?_ rfl rfl ?_
      · decide +kernel
      · refine @CommitTimestamps.commit _ _ _ _ (leader 3) ⟨⟨2, 0, 30, ⟨3, 0, 0⟩, []⟩, 0⟩ ?_ rfl rfl (.nil _)
        decide +kernel
    exact ⟨d, hrun, hrobust.2.2 _ _ _ hrun⟩

end Sui.Consensus
