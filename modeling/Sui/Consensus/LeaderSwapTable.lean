import Sui.Consensus.Commit
import Sui.Consensus.Committee
import Sui.Lib.BTree

/-! The table of leaders to swap.

Authorities are sorted by score. Those at the front are good and those at the end bad, each time up
to a share of the stake of at most a third, so that the two never meet. A share that the first
authority exceeds leaves no good node, while there may be bad ones: then the swap of a bad leader
panics (`swap_well_defined`). Hostnames and stakes, which the table keeps for debugging, are left out. -/
namespace Sui.Consensus

open Sui.Lib List

/-- The generator, seeded for each use: it orders authorities of the same score and chooses one of
the good nodes. -/
structure Rng where
  shuffle : Nat → List (Nat × Nat) → List (Nat × Nat)
  shuffle_perm : ∀ seed l, (shuffle seed l).Perm l
  choose : Nat → Nat → Nat → Nat
  choose_lt : ∀ round offset n, 0 < n → choose round offset n < n

structure LeaderSwapTable where
  goodNodes : List Nat := []
  badNodes : BTreeSet Nat := ∅

namespace LeaderSwapTable

def authoritiesByScore (c : Committee) (scores : ReputationScores) : Exec (List (Nat × Nat)) :=
  scores.scoresPerAuthority.zipIdx.mapM fun (score, index) => do
    assert (c.isValidIndex index) .invalidAuthority
    return (index, score)

/-- By score, descending; the sort is stable. -/
def sorted (rng : Rng) (commitIndex : Nat) (authorities : List (Nat × Nat)) : List (Nat × Nat) :=
  (rng.shuffle commitIndex authorities).insertionSort fun a b => b.2 ≤ a.2

/-- The first nodes, as long as their stake is within the threshold. The stake of some authorities
fits, since that of all of them does. -/
def retrieveFirstNodes (c : Committee) (stakeThreshold : Nat) :
    Nat → List (Nat × Nat) → Exec (List Nat)
  | _, [] => return []
  | stake, (index, _) :: rest => do
    let share ← checkedU64 (stakeThreshold * c.totalStake)
    if share / 100 < stake + c.stake index then return [] else do
    let nodes ← retrieveFirstNodes c stakeThreshold (stake + c.stake index) rest
    return index :: nodes

def newInner (rng : Rng) (c : Committee) (swapStakeThreshold commitIndex : Nat)
    (scores : ReputationScores) : Exec LeaderSwapTable := do
  assert (swapStakeThreshold ≤ 33) .swapThresholdOutOfRange
  if scores.scoresPerAuthority = [] then return {} else do
  let authorities ← authoritiesByScore c scores
  assert (authorities.length = c.size) .scoresOfOtherSize
  let good ← retrieveFirstNodes c swapStakeThreshold 0 (sorted rng commitIndex authorities)
  let bad ← retrieveFirstNodes c swapStakeThreshold 0 (sorted rng commitIndex authorities).reverse
  return ⟨good, bad.foldl (fun m node => m.insert node) ∅⟩

def swap (table : LeaderSwapTable) (rng : Rng) (leader leaderRound leaderOffset : Nat) :
    Exec (Option Nat) :=
  if leader ∈ table.badNodes then do
    assert (leaderOffset = 0) .multiLeaderSwap
    let node ← expect table.goodNodes[rng.choose leaderRound leaderOffset table.goodNodes.length]?
      .noGoodNode
    return some node
  else return none

variable {c : Committee} {t stake : Nat} {l first middle last : List (Nat × Nat)}

/-! ### The first nodes -/

/-- The stake of authorities. -/
def stakes (c : Committee) (l : List (Nat × Nat)) : Nat := ((l.map Prod.fst).map c.stake).sum

theorem stakes_append (l l' : List (Nat × Nat)) : stakes c (l ++ l') = stakes c l + stakes c l' := by
  simp [stakes]

theorem stakes_reverse (l : List (Nat × Nat)) : stakes c l.reverse = stakes c l := by
  simp [stakes, map_reverse, sum_reverse]

theorem retrieveFirstNodes_spec (hfits : t * c.totalStake ≤ U64_MAX) (hstake : stake ≤ t * c.totalStake / 100) :
    ∃ first rest, l = first ++ rest ∧ retrieveFirstNodes c t stake l = .ok (first.map Prod.fst) ∧
      stake + stakes c first ≤ t * c.totalStake / 100 ∧
      (first = [] ↔ ∀ a ∈ l.head?, t * c.totalStake / 100 < stake + c.stake a.1) := by
  induction l generalizing stake with
  | nil => exact ⟨[], [], rfl, rfl, hstake, by simp⟩
  | cons a l ih =>
    unfold retrieveFirstNodes
    rw [Exec.bind_ok (checkedU64_eq_ok.mpr ⟨rfl, hfits⟩)]
    split
    · exact ⟨[], _, rfl, rfl, hstake, by simpa⟩
    · rename_i hle
      obtain ⟨first, rest, rfl, hrun, hshare, -⟩ := ih (Nat.not_lt.mp hle)
      rw [Exec.bind_ok hrun]
      refine ⟨a :: first, rest, rfl, rfl, ?_, by simpa using hle⟩
      simp only [stakes, map_cons, sum_cons] at hshare ⊢
      omega

theorem fits_of_retrieveFirstNodes (hl : l ≠ [])
    (h : retrieveFirstNodes c t stake l = .ok nodes) : t * c.totalStake ≤ U64_MAX := by
  cases l with
  | nil => exact absurd rfl hl
  | cons a l =>
    obtain ⟨_, hshare, -⟩ := Exec.bind_eq_ok.mp h
    exact (checkedU64_eq_ok.mp hshare).2

/-! ### The order -/

variable (rng : Rng) (commitIndex : Nat) (scores : ReputationScores)

/-- The authorities of the scores, from the best one. -/
def order : List (Nat × Nat) :=
  sorted rng commitIndex (scores.scoresPerAuthority.zipIdx.map Prod.swap)

theorem order_perm : (order rng commitIndex scores).Perm (scores.scoresPerAuthority.zipIdx.map Prod.swap) :=
  (perm_insertionSort ..).trans (rng.shuffle_perm ..)

theorem order_pairwise : (order rng commitIndex scores).Pairwise fun a b => b.2 ≤ a.2 := by
  have : Std.Total fun a b : Nat × Nat => b.2 ≤ a.2 := ⟨fun a b => Nat.le_total b.2 a.2⟩
  have : IsTrans (Nat × Nat) fun a b => b.2 ≤ a.2 := ⟨fun _ _ _ h h' => h'.trans h⟩
  exact pairwise_insertionSort ..

theorem map_fst_order : ((order rng commitIndex scores).map Prod.fst).Perm
    (List.range scores.scoresPerAuthority.length) := by
  have h := (order_perm rng commitIndex scores).map Prod.fst
  rwa [map_map, show Prod.fst ∘ Prod.swap = (Prod.snd : Nat × Nat → Nat) from rfl,
    zipIdx_map_snd, ← range_eq_range'] at h

/-- What holds of a table, whether or not a leader can be swapped. -/
structure Fair (table : LeaderSwapTable) (c : Committee) (t : Nat) (scores : ReputationScores) :
    Prop where
  disjoint : ∀ i ∈ table.goodNodes, i ∉ table.badNodes
  good : ∀ s : Finset Nat, (∀ i ∈ s, i ∈ table.goodNodes) → c.stakeOf s * 100 ≤ t * c.totalStake
  bad : ∀ s : Finset Nat, (∀ i ∈ s, i ∈ table.badNodes) → c.stakeOf s * 100 ≤ t * c.totalStake
  scored : ∀ i ∈ table.goodNodes, ∀ j ∈ table.badNodes, ∀ a b : Nat,
    scores.scoresPerAuthority[i]? = some a → scores.scoresPerAuthority[j]? = some b → b ≤ a

/-- The table of the authorities at the front and at the end. -/
def ofEnds (first last : List (Nat × Nat)) : LeaderSwapTable :=
  ⟨first.map Prod.fst, (last.map Prod.fst).foldl (fun m node => m.insert node) ∅⟩

theorem mem_badNodes : i ∈ (ofEnds first last).badNodes ↔ i ∈ last.map Prod.fst := by
  simp [ofEnds, BTreeSet.mem_foldl_insert]

/-- The stake of some of the nodes is at most that of all of them. -/
theorem stakeOf_le (h : ∀ i ∈ s, i ∈ l.map Prod.fst) : c.stakeOf s ≤ stakes c l :=
  (weight_mono _ fun i hi => mem_toFinset.mpr (h i hi)).trans (weight_toFinset_le ..)

variable {rng commitIndex scores}

theorem fair_of_split (hsplit : order rng commitIndex scores = first ++ (middle ++ last.reverse))
    (hgood : stakes c first ≤ t * c.totalStake / 100)
    (hbad : stakes c last ≤ t * c.totalStake / 100) : (ofEnds first last).Fair c t scores := by
  have hnodup : ((order rng commitIndex scores).map Prod.fst).Nodup := (map_fst_order ..).nodup_iff.mpr nodup_range
  have hpairs := order_pairwise rng commitIndex scores
  have hscore : ∀ a ∈ order rng commitIndex scores, scores.scoresPerAuthority[a.1]? = some a.2 := by
    intro a ha
    obtain ⟨p, hp, rfl⟩ := mem_map.mp ((order_perm ..).mem_iff.mp ha)
    exact mem_zipIdx_iff_getElem?.mp hp
  rw [hsplit] at hnodup hpairs hscore
  refine ⟨fun i hi hb => ?_, fun s hs => ?_, fun s hs => ?_, fun i hi j hj a b ha hb => ?_⟩
  · rw [map_append, map_append, map_reverse] at hnodup
    exact (disjoint_of_nodup_append hnodup) hi (mem_append_right _ (mem_reverse.mpr (mem_badNodes.mp hb)))
  · have := (stakeOf_le hs).trans hgood
    omega
  · have := (stakeOf_le fun i hi => mem_badNodes.mp (hs i hi)).trans hbad
    omega
  · obtain ⟨x, hx, rfl⟩ := mem_map.mp hi
    obtain ⟨y, hy, rfl⟩ := mem_map.mp (mem_badNodes.mp hj)
    have hy : y ∈ middle ++ last.reverse := mem_append_right _ (mem_reverse.mpr hy)
    cases (hscore x (mem_append_left _ hx)).symm.trans ha
    cases (hscore y (mem_append_right _ hy)).symm.trans hb
    exact (pairwise_append.mp hpairs).2.2 x hx y hy

/-! ### The table -/

section Table
variable (hc : c.Built) (hlen : scores.scoresPerAuthority.length = c.size) (ht : t ≤ 33)
include hc hlen

theorem stakes_order (rng : Rng) (commitIndex : Nat) : stakes c (order rng commitIndex scores) = c.totalStake := by
  have h := ((map_fst_order rng commitIndex scores).map c.stake).sum_eq
  rw [hlen] at h
  exact h.trans hc.bounds.1

theorem order_ne_nil : order rng commitIndex scores ≠ [] := by
  intro hnil
  have hsum := stakes_order hc hlen rng commitIndex
  rw [hnil] at hsum
  exact hc.bounds.2.1.ne hsum

include ht

/-- Nothing but the two cuts of the order can panic. -/
theorem newInner_eq : newInner rng c t commitIndex scores = do
    let good ← retrieveFirstNodes c t 0 (order rng commitIndex scores)
    let bad ← retrieveFirstNodes c t 0 (order rng commitIndex scores).reverse
    return ⟨good, bad.foldl (fun m node => m.insert node) ∅⟩ := by
  have hne : scores.scoresPerAuthority ≠ [] := by
    intro hnil
    have hperm := order_perm rng commitIndex scores
    rw [hnil] at hperm
    exact order_ne_nil hc hlen hperm.eq_nil
  have hauthorities : authoritiesByScore c scores = .ok (scores.scoresPerAuthority.zipIdx.map Prod.swap) := by
    refine Exec.mapM_eq_ok fun a ha => ?_
    have hlt := (mem_zipIdx' ha).1
    exact Exec.bind_ok (assert_of (by simpa [Committee.isValidIndex, ← hlen] using hlt)) _
  unfold newInner
  rw [Exec.bind_ok (assert_of ht), if_neg hne, Exec.bind_ok hauthorities,
    Exec.bind_ok (assert_of (by simpa using hlen))]
  rfl

/-- The two ends of the order never meet: together they hold less than the whole stake. -/
theorem newInner_spec (hfits : t * c.totalStake ≤ U64_MAX) :
    ∃ first middle last, order rng commitIndex scores = first ++ (middle ++ last.reverse) ∧
      newInner rng c t commitIndex scores = .ok (ofEnds first last) ∧
      stakes c first ≤ t * c.totalStake / 100 ∧ stakes c last ≤ t * c.totalStake / 100 ∧
      (first = [] ↔ ∀ a ∈ (order rng commitIndex scores).head?,
        t * c.totalStake / 100 < c.stake a.1) ∧
      (last = [] ↔ ∀ a ∈ (order rng commitIndex scores).getLast?, t * c.totalStake / 100 < c.stake a.1) := by
  have hsum := stakes_order hc hlen rng commitIndex
  have hpos := hc.bounds.2.1
  rw [newInner_eq hc hlen ht]
  generalize order rng commitIndex scores = l at *
  obtain ⟨first, rest, hfirst, hgood, hshare, hnone⟩ := retrieveFirstNodes_spec (l := l) hfits (Nat.zero_le _)
  obtain ⟨last, rest', hlast, hbad, hshare', hnone'⟩ :=
    retrieveFirstNodes_spec (l := l.reverse) hfits (Nat.zero_le _)
  simp only [Nat.zero_add, head?_reverse] at hshare hshare' hnone hnone'
  have hends : first ++ rest = rest'.reverse ++ last.reverse := by
    rw [← hfirst, ← reverse_append, ← hlast, reverse_reverse]
  obtain ⟨middle, hsplit⟩ : ∃ middle, l = first ++ (middle ++ last.reverse) := by
    rcases append_eq_append_iff.mp hends with ⟨middle, -, hrest⟩ | ⟨overlap, hover, hrest⟩
    · exact ⟨middle, hrest ▸ hfirst⟩
    · -- all of the stake would be in one of the ends
      rw [hfirst, hends, stakes_append, stakes_reverse, stakes_reverse] at hsum
      rw [hover, stakes_append, stakes_reverse] at hshare
      have hthird : t * c.totalStake ≤ 33 * c.totalStake := Nat.mul_le_mul_right _ ht
      omega
  refine ⟨first, middle, last, hsplit, ?_, hshare, hshare', hnone, hnone'⟩
  exact (Exec.bind_ok hgood _).trans (Exec.bind_ok hbad _)

end Table

/-- **When leaders can be swapped.** Good and bad nodes are apart, neither holds more than the share
of the stake, and no bad node has a higher score than a good one. A bad leader is swapped for one
that is not bad if there is a good node as soon as there is a bad one, that is, if the first of the
order is within the share of the stake or its last is not; otherwise the swap panics. -/
theorem swap_well_defined (rng : Rng) (t commitIndex : Nat) (scores : ReputationScores)
    (hc : c.Built) (hlen : scores.scoresPerAuthority.length = c.size) (ht : t ≤ 33) :
    (∀ table, newInner rng c t commitIndex scores = .ok table → table.Fair c t scores) ∧
    ((∃ table, newInner rng c t commitIndex scores = .ok table ∧ ∀ leader round,
        ∃ r, table.swap rng leader round 0 = .ok r ∧
          (leader ∈ table.badNodes → ∃ a, r = some a ∧ a ∉ table.badNodes)) ↔
      t * c.totalStake < 2 ^ 64 ∧
        ((∃ a ∈ (order rng commitIndex scores).getLast?, c.stake a.1 ≤ t * c.totalStake / 100) →
          ∃ a ∈ (order rng commitIndex scores).head?, c.stake a.1 ≤ t * c.totalStake / 100)) := by
  have hfits {table : LeaderSwapTable} (h : newInner rng c t commitIndex scores = .ok table) :
      t * c.totalStake ≤ U64_MAX := by
    rw [newInner_eq hc hlen ht] at h
    obtain ⟨_, hgood, -⟩ := Exec.bind_eq_ok.mp h
    exact fits_of_retrieveFirstNodes (order_ne_nil hc hlen) hgood
  refine ⟨fun table htable => ?_, ?_, ?_⟩
  · obtain ⟨first, middle, last, hsplit, hrun, hgood, hbad, -, -⟩ := newInner_spec hc hlen ht (hfits htable)
    cases htable.symm.trans hrun
    exact fair_of_split hsplit hgood hbad
  · rintro ⟨table, htable, hswap⟩
    have hmax := hfits htable
    obtain ⟨first, middle, last, -, hrun, -, -, hfirst, hlast⟩ := newInner_spec hc hlen ht hmax
    cases htable.symm.trans hrun
    refine ⟨by unfold U64_MAX at hmax; omega, fun ⟨a, ha, hle⟩ => ?_⟩
    by_contra hnone
    obtain ⟨b, hb⟩ := exists_mem_of_ne_nil _ fun hnil : last = [] =>
      Nat.not_le.mpr (hlast.mp hnil a ha) hle
    obtain ⟨r, hr, -⟩ := hswap b.1 0
    rw [swap, if_pos (mem_badNodes.mpr (mem_map_of_mem hb)), hfirst.mpr (by simpa using hnone)] at hr
    cases hr
  · rintro ⟨hmax, hcond⟩
    obtain ⟨first, middle, last, hsplit, hrun, hgood, hbad, hfirst, hlast⟩ :=
      newInner_spec hc hlen ht (by unfold U64_MAX; omega)
    have hfair : (ofEnds first last).Fair c t scores := fair_of_split hsplit hgood hbad
    refine ⟨_, hrun, fun leader round => ?_⟩
    unfold swap
    split
    · rename_i hleader
      have hpos : 0 < (ofEnds first last).goodNodes.length := by
        obtain ⟨b, hb, -⟩ := mem_map.mp (mem_badNodes.mp hleader)
        have hlast := mt hlast.mpr (ne_nil_of_mem hb)
        have hfirst := mt hfirst.mp
        push Not at hlast hfirst
        simpa [ofEnds, length_pos_iff] using hfirst (hcond hlast)
      rw [Exec.bind_ok (assert_of rfl), List.getElem?_eq_getElem (rng.choose_lt round 0 _ hpos)]
      exact ⟨_, rfl, fun _ => ⟨_, rfl, hfair.disjoint _ (getElem_mem _)⟩⟩
    · rename_i hleader
      exact ⟨none, rfl, fun h => absurd h hleader⟩

/-- No order but that of the scores. -/
def plain : Rng := ⟨fun _ l => l, fun _ _ => .refl _, fun _ _ _ => 0, fun _ _ _ h => h⟩

/-- Of four equal authorities the last is swapped for the first. -/
theorem swap_well_defined_four : ∃ c table, Committee.new 0 [⟨1⟩, ⟨1⟩, ⟨1⟩, ⟨1⟩] = .ok c ∧
    newInner plain c 25 0 ⟨[4, 3, 2, 1], ⟨0, 0⟩⟩ = .ok table ∧ ∃ r, table.swap plain 3 1 0 = .ok r := by
  obtain ⟨c, hc⟩ : ∃ c, Committee.new 0 [⟨1⟩, ⟨1⟩, ⟨1⟩, ⟨1⟩] = .ok c := ⟨_, rfl⟩
  obtain ⟨table, htable, hswap⟩ := (swap_well_defined plain 25 0 ⟨[4, 3, 2, 1], ⟨0, 0⟩⟩
    (.new hc) (by cases hc; rfl) (by decide)).2.mpr (by cases hc; decide +kernel)
  obtain ⟨r, hr, -⟩ := hswap 3 1
  exact ⟨c, table, hc, htable, r, hr⟩

/-- The better of two authorities has nine tenths of the stake. -/
theorem swap_panics : ∃ c table, Committee.new 0 [⟨9⟩, ⟨1⟩] = .ok c ∧
    newInner plain c 33 0 ⟨[10, 1], ⟨0, 0⟩⟩ = .ok table ∧ table.swap plain 1 1 0 = .error .noGoodNode :=
  ⟨_, _, rfl, rfl, by decide +kernel⟩

end LeaderSwapTable
end Sui.Consensus
