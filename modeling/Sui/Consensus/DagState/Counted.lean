import Sui.Consensus.DagState.Cached

/-! Votes counted as blocks arrive.

Under the third version of the commit rule a cached block above the gc round knows
its children of the next round, and each round above the gc round its blocks.
`Counted` says that these counts are exact. Accepting a block keeps it, whatever the
block is: the code panics on a block whose parents are not there. -/
namespace Sui.Consensus

open Sui.Lib BTreeMap Exec Option StakeAggregator

/-- The aggregator holds the authors of the blocks, and their stake. -/
def Tallies (ctx : Context) (s : StakeAggregator .quorum) (blocks : Finset BlockRef) : Prop :=
  s.votes = blocks.image (·.author) ∧ s.Counted ctx.committee

theorem Tallies.empty (ctx : Context) : Tallies ctx {} ∅ := ⟨rfl, counted_empty _⟩

theorem Tallies.insert {ctx : Context} {s : StakeAggregator .quorum} {blocks : Finset BlockRef}
    (h : Tallies ctx s blocks) (r : BlockRef) :
    Tallies ctx (s.addUnique ctx.committee r.author).1 (insert r blocks) := by
  refine ⟨?_, addUnique_counted _ h.2 _⟩
  rw [addUnique_votes, Finset.image_insert, h.1]

namespace BlockInfo

/-- The block with one more child. -/
def withChild (c : Committee) (child : BlockRef) (info : BlockInfo) : BlockInfo :=
  { info with
    children := insert child info.children
    childrenStake := (info.childrenStake.addUnique c child.author).1 }

theorem withChild_withChild (c : Committee) (child : BlockRef) (info : BlockInfo) :
    (info.withChild c child).withChild c child = info.withChild c child := by
  have hstake : ((info.childrenStake.addUnique c child.author).1.addUnique c child.author).1 =
      (info.childrenStake.addUnique c child.author).1 := by
    conv_lhs => rw [addUnique]
    rw [if_pos (by rw [addUnique_votes]; exact Finset.mem_insert_self ..)]
  simp only [withChild, hstake, Finset.insert_idem]

end BlockInfo

namespace DagState

variable (ctx : Context)

/-- A link from a block of the next round, above the gc round. -/
def IsParent (d : DagState) (child parent : BlockRef) : Prop :=
  parent.round + 1 = child.round ∧ d.gcRound ctx < parent.round

instance (d : DagState) (child parent : BlockRef) : Decidable (d.IsParent ctx child parent) :=
  inferInstanceAs (Decidable (_ ∧ _))

def frontRoundOf (roundInfo : List RoundInfo) : Nat :=
  match roundInfo.head? with
  | some info => info.round
  | none => 0

/-- Consecutive rounds with the blocks of `S` in each of them above the gc round. -/
structure RoundsCounted (gcRound : Nat) (S : BlockRef → Prop) (roundInfo : List RoundInfo) : Prop where
  rounds : ∀ (i : Nat) info, roundInfo[i]? = some info → info.round = frontRoundOf roundInfo + i
  front : roundInfo ≠ [] → frontRoundOf roundInfo ≤ gcRound + 1
  reached : ∀ r, S r → gcRound < r.round → r.round < nextRoundOf gcRound roundInfo
  blocks : ∀ info ∈ roundInfo, gcRound < info.round → ∀ r, r ∈ info.blocks ↔ S r ∧ r.round = info.round
  totalStake : ∀ info ∈ roundInfo, Tallies ctx info.totalStake info.blocks

structure Counted (d : DagState) : Prop where
  roundInfo : RoundsCounted ctx (d.gcRound ctx) (· ∈ d.recentBlocks) d.roundInfo
  parents : ∀ (c : BlockRef) info, d.recentBlocks[c]? = some info →
    ∀ a ∈ info.block.ancestors, d.IsParent ctx c a → a ∈ d.recentBlocks
  children : ∀ (r : BlockRef) info, d.recentBlocks[r]? = some info → d.gcRound ctx < r.round →
    ∀ c, c ∈ info.children ↔ ∃ child, d.recentBlocks[c]? = some child ∧
      r ∈ child.block.ancestors ∧ r.round + 1 = c.round
  childrenStake : ∀ (r : BlockRef) info, d.recentBlocks[r]? = some info →
    Tallies ctx info.childrenStake info.children

variable {ctx} {d d' : DagState} {b : VerifiedBlock}

/-! ### Children -/

theorem addChild_eq (h : d.addChild ctx child parent = .ok d') :
    (d.IsParent ctx child parent → parent ∈ d.recentBlocks) ∧
      ∃ m, d' = { d with recentBlocks := m } ∧ ∀ r : BlockRef, m[r]? = (d.recentBlocks[r]?).map fun info =>
        if r = parent ∧ d.IsParent ctx child parent then info.withChild ctx.committee child else info := by
  unfold addChild at h
  split at h
  · rename_i hskip
    have hno : ¬d.IsParent ctx child parent := by
      rintro ⟨hround, hgc⟩
      rcases hskip with hne | hle
      · exact hne hround
      · omega
    cases h
    exact ⟨fun hp => absurd hp hno, _, rfl, fun r => by simp [hno]⟩
  · rename_i hparent
    rw [not_or, not_not, Nat.not_le] at hparent
    simp only [bind_eq_ok, expect_eq_ok] at h
    obtain ⟨info, hinfo, h⟩ := h
    cases h
    refine ⟨fun _ => mem_of_get hinfo, _, rfl, fun r => ?_⟩
    rw [get_insert]
    have hp : d.IsParent ctx child parent := hparent
    by_cases hr : parent = r
    · subst hr
      simp [hp, hinfo, BlockInfo.withChild]
    · simp [hr, Ne.symm hr]

/-- A block's parents count it once each. -/
theorem addChildren_eq {child : BlockRef} {ancestors : List BlockRef}
    (h : ancestors.foldlM (addChild ctx child) d = .ok d') :
    (∀ a ∈ ancestors, d.IsParent ctx child a → a ∈ d.recentBlocks) ∧
      ∃ m, d' = { d with recentBlocks := m } ∧ ∀ r : BlockRef, m[r]? = (d.recentBlocks[r]?).map fun info =>
        if r ∈ ancestors ∧ d.IsParent ctx child r then info.withChild ctx.committee child else info := by
  induction ancestors generalizing d with
  | nil =>
    cases h
    exact ⟨nofun, _, rfl, fun r => by simp⟩
  | cons a rest ih =>
    obtain ⟨t, ht, hrest⟩ := foldlM_cons_eq_ok.mp h
    obtain ⟨hmem, m, rfl, hget⟩ := addChild_eq ht
    obtain ⟨hmem', m', rfl, hget'⟩ := ih hrest
    have hkeys : ∀ r, r ∈ m ↔ r ∈ d.recentBlocks := by
      intro r
      rw [mem_iff_get, mem_iff_get, hget]
      simp only [map_eq_some_iff]
      exact ⟨fun ⟨_, info, hinfo, _⟩ => ⟨info, hinfo⟩, fun ⟨info, hinfo⟩ => ⟨_, info, hinfo, rfl⟩⟩
    refine ⟨fun x hx hp => ?_, m', rfl, fun r => ?_⟩
    · rcases List.mem_cons.mp hx with rfl | hx
      · exact hmem hp
      · exact (hkeys x).mp (hmem' x hx hp)
    · rw [hget', hget, map_map]
      congr 1
      funext info
      show (if r ∈ rest ∧ d.IsParent ctx child r then _ else _) = _
      by_cases hp : d.IsParent ctx child r
      · by_cases hra : r = a
        · subst hra
          by_cases hrr : r ∈ rest
          · simp [hp, hrr, BlockInfo.withChild_withChild]
          · simp [hp, hrr]
        · simp [hra, hp]
      · by_cases hra : r = a
        · subst hra
          simp [hp]
        · simp [hra, hp]

/-! ### Rounds -/

section RoundInfo
variable {gcRound : Nat} {S : BlockRef → Prop} {roundInfo : List RoundInfo} {info : RoundInfo}

/-- The round after the last one is that many rounds after the first. -/
theorem RoundsCounted.nextRound_eq (h : RoundsCounted ctx gcRound S roundInfo) (hne : roundInfo ≠ []) :
    nextRoundOf gcRound roundInfo = frontRoundOf roundInfo + roundInfo.length := by
  have hpos : 0 < roundInfo.length := List.length_pos_iff.mpr hne
  have hlast : roundInfo.getLast? = roundInfo[roundInfo.length - 1]? := List.getLast?_eq_getElem?
  unfold nextRoundOf
  rw [hlast, List.getElem?_eq_getElem (by omega)]
  have hround := h.rounds (roundInfo.length - 1) _ (List.getElem?_eq_getElem (by omega))
  simp only
  rw [hround]
  omega

/-- The next round is added when its first block comes. -/
theorem RoundsCounted.extend (h : RoundsCounted ctx gcRound S roundInfo) :
    RoundsCounted ctx gcRound S (roundInfo ++ [{ round := nextRoundOf gcRound roundInfo }]) := by
  have hfront : frontRoundOf (roundInfo ++ [{ round := nextRoundOf gcRound roundInfo }]) =
      if roundInfo = [] then gcRound + 1 else frontRoundOf roundInfo := by
    cases roundInfo with
    | nil => rfl
    | cons info rest => rfl
  have hnext : nextRoundOf gcRound (roundInfo ++ [{ round := nextRoundOf gcRound roundInfo }]) =
      nextRoundOf gcRound roundInfo + 1 := by
    conv_lhs => rw [nextRoundOf]
    simp
  refine ⟨fun i info hi => ?_, fun _ => ?_, fun r hr hgc => ?_, fun info hinfo hgc r => ?_,
    forall_mem_concat.mpr ⟨h.totalStake, .empty ctx⟩⟩
  · rw [hfront]
    by_cases hne : roundInfo = []
    · subst hne
      cases i with
      | zero =>
        cases hi
        rfl
      | succ i => simp at hi
    · rw [if_neg hne]
      rcases Nat.lt_or_ge i roundInfo.length with hlt | hge
      · rw [List.getElem?_append_left hlt] at hi
        exact h.rounds i info hi
      · have hlen := List.getElem?_eq_some_iff.mp hi |>.1
        simp only [List.length_append, List.length_singleton] at hlen
        have hi' : i = roundInfo.length := by omega
        subst hi'
        rw [List.getElem?_append_right le_rfl] at hi
        simp only [Nat.sub_self, List.getElem?_cons_zero, some.injEq] at hi
        subst hi
        exact h.nextRound_eq hne
  · rw [hfront]
    split
    · exact le_rfl
    · rename_i hne
      exact h.front hne
  · rw [hnext]
    exact Nat.lt_succ_of_lt (h.reached r hr hgc)
  · rcases mem_concat.mp hinfo with hinfo | rfl
    · exact h.blocks info hinfo hgc r
    · constructor
      · exact fun hr => absurd hr (Finset.notMem_empty r)
      · rintro ⟨hS, hround⟩
        have hlt := h.reached r hS (hround ▸ hgc)
        exact absurd hround (Nat.ne_of_lt hlt)

theorem frontRoundOf_congr (h : l.map (·.round) = l'.map (·.round)) : frontRoundOf l = frontRoundOf l' := by
  have heq (l : List RoundInfo) : frontRoundOf l = (l.map (·.round)).head?.getD 0 := by
    rw [List.head?_map, frontRoundOf]
    cases l.head? <;> rfl
  rw [heq, h, ← heq]

theorem nextRoundOf_congr (gcRound : Nat) (h : l.map (·.round) = l'.map (·.round)) :
    nextRoundOf gcRound l = nextRoundOf gcRound l' := by
  have heq (l : List RoundInfo) : nextRoundOf gcRound l = ((l.map (·.round)).getLast?.getD gcRound) + 1 := by
    rw [List.getLast?_map, nextRoundOf]
    cases l.getLast? <;> rfl
  rw [heq, h, ← heq]

theorem map_round_set (new : RoundInfo) (hi : roundInfo[i]? = some info)
    (hnew : new.round = info.round) : (roundInfo.set i new).map (·.round) = roundInfo.map (·.round) := by
  apply List.ext_getElem?
  intro j
  rw [List.getElem?_map, List.getElem?_map, List.getElem?_set]
  split
  · rename_i hij
    subst hij
    rw [hi]
    simp [hnew, (List.getElem?_eq_some_iff.mp hi).1]
  · rfl

/-- The info of a round with one more block. -/
abbrev countIn (ctx : Context) (b : VerifiedBlock) (info : RoundInfo) : RoundInfo :=
  ⟨info.round, insert b.reference info.blocks, (info.totalStake.addUnique ctx.committee b.author).1⟩

/-- A block is counted in its round. -/
theorem RoundsCounted.count (h : RoundsCounted ctx gcRound S roundInfo)
    (hi : roundInfo[i]? = some info) (hround : info.round = b.round) :
    RoundsCounted ctx gcRound (fun r => b.reference = r ∨ S r) (roundInfo.set i (countIn ctx b info)) := by
  obtain ⟨hlt, hget⟩ := List.getElem?_eq_some_iff.mp hi
  have hmem : info ∈ roundInfo := hget ▸ List.getElem_mem hlt
  have hne : roundInfo ≠ [] := List.ne_nil_of_mem hmem
  have hmap := map_round_set (countIn ctx b info) hi rfl
  -- An entry is the updated one, or an old one of another round.
  have hentry : ∀ j info', (roundInfo.set i (countIn ctx b info))[j]? = some info' →
      (j = i ∧ info' = countIn ctx b info) ∨
      (info'.round ≠ b.round ∧ roundInfo[j]? = some info') := by
    intro j info' hj
    rw [List.getElem?_set] at hj
    split at hj
    · rename_i hij
      exact .inl ⟨hij.symm, (some.inj hj).symm⟩
    · rename_i hij
      refine .inr ⟨fun heq => hij ?_, hj⟩
      have h₁ := h.rounds i info hi
      have h₂ := h.rounds j info' hj
      omega
  refine ⟨fun j info' hj => ?_, fun _ => ?_, fun r hr hgc => ?_, fun info' hinfo' hgc r => ?_,
    fun info' hinfo' => ?_⟩
  · rw [frontRoundOf_congr hmap]
    rcases hentry j info' hj with ⟨rfl, rfl⟩ | ⟨_, hold⟩
    · exact h.rounds j info hi
    · exact h.rounds j info' hold
  · rw [frontRoundOf_congr hmap]
    exact h.front hne
  · rw [nextRoundOf_congr _ hmap]
    rcases hr with rfl | hr
    · rw [h.nextRound_eq hne]
      have hr := h.rounds i info hi
      show b.round < _
      omega
    · exact h.reached r hr hgc
  · obtain ⟨j, hj⟩ := List.mem_iff_getElem?.mp hinfo'
    rcases hentry j info' hj with ⟨_, rfl⟩ | ⟨hne', hold⟩
    · rw [Finset.mem_insert, h.blocks info hmem hgc]
      constructor
      · rintro (rfl | ⟨hS, hr⟩)
        · exact ⟨.inl rfl, hround.symm⟩
        · exact ⟨.inr hS, hr⟩
      · rintro ⟨rfl | hS, hr⟩
        · exact .inl rfl
        · exact .inr ⟨hS, hr⟩
    · rw [h.blocks info' (List.mem_iff_getElem?.mpr ⟨j, hold⟩) hgc]
      constructor
      · rintro ⟨hS, hr⟩
        exact ⟨.inr hS, hr⟩
      · rintro ⟨rfl | hS, hr⟩
        · exact absurd hr.symm hne'
        · exact ⟨hS, hr⟩
  · obtain ⟨j, hj⟩ := List.mem_iff_getElem?.mp hinfo'
    rcases hentry j info' hj with ⟨_, rfl⟩ | ⟨_, hold⟩
    · exact (h.totalStake info hmem).insert b.reference
    · exact h.totalStake info' (List.mem_iff_getElem?.mpr ⟨j, hold⟩)

/-- Only blocks above the gc round matter. -/
theorem RoundsCounted.congr (h : RoundsCounted ctx gcRound S roundInfo)
    (hST : ∀ r : BlockRef, gcRound < r.round → (S r ↔ T r)) : RoundsCounted ctx gcRound T roundInfo := by
  refine ⟨h.rounds, h.front, fun r hr hgc => h.reached r ((hST r hgc).mpr hr) hgc,
    fun info hinfo hgc r => ?_, h.totalStake⟩
  rw [h.blocks info hinfo hgc r]
  constructor
  · rintro ⟨hS, hr⟩
    exact ⟨(hST r (hr ▸ hgc)).mp hS, hr⟩
  · rintro ⟨hT, hr⟩
    exact ⟨(hST r (hr ▸ hgc)).mpr hT, hr⟩

end RoundInfo

/-- A block of at most the next round is counted. -/
theorem updateRoundInfo_eq (h : RoundsCounted ctx (d.gcRound ctx) S d.roundInfo)
    (hle : d.gcRound ctx < b.round → b.round ≤ d.nextRound ctx) :
    ∃ roundInfo, d.updateRoundInfo ctx b = .ok { d with roundInfo } ∧
      RoundsCounted ctx (d.gcRound ctx) (fun r => b.reference = r ∨ S r) roundInfo ∧
      d.nextRound ctx ≤ nextRoundOf (d.gcRound ctx) roundInfo := by
  unfold updateRoundInfo
  by_cases hgc : b.round ≤ d.gcRound ctx
  · rw [if_pos hgc]
    refine ⟨d.roundInfo, rfl, h.congr fun r hr => (or_iff_right ?_).symm, le_rfl⟩
    rintro rfl
    exact absurd hr hgc.not_gt
  · replace hle := hle (Nat.lt_of_not_le hgc)
    rw [if_neg hgc, bind_ok (assert_of hle)]
    obtain ⟨roundInfo, hdef, hcounted, hlast, hmono⟩ : ∃ roundInfo,
        (if b.round = d.nextRound ctx then d.roundInfo ++ [{ round := b.round }] else d.roundInfo) =
          roundInfo ∧ RoundsCounted ctx (d.gcRound ctx) S roundInfo ∧
          b.round < nextRoundOf (d.gcRound ctx) roundInfo ∧
          d.nextRound ctx ≤ nextRoundOf (d.gcRound ctx) roundInfo := by
      by_cases hnext : b.round = d.nextRound ctx
      · rw [if_pos hnext, hnext]
        refine ⟨_, rfl, h.extend, ?_, ?_⟩
        · simp [nextRoundOf, nextRound]
        · simp [nextRoundOf, nextRound]
      · rw [if_neg hnext]
        exact ⟨_, rfl, h, lt_of_le_of_ne hle hnext, le_rfl⟩
    simp only [hdef]
    have hne : roundInfo ≠ [] := by
      rintro rfl
      simp only [nextRoundOf, List.getLast?_nil] at hlast
      omega
    have hfront := hcounted.front hne
    rw [hcounted.nextRound_eq hne] at hlast
    obtain ⟨front, hhead⟩ : ∃ front, roundInfo.head? = some front := by
      cases roundInfo with
      | nil => exact absurd rfl hne
      | cons info rest => exact ⟨info, rfl⟩
    have hfrontRound : frontRoundOf roundInfo = front.round := by simp [frontRoundOf, hhead]
    rw [hfrontRound] at hfront hlast
    obtain ⟨info, hinfo⟩ : ∃ info, roundInfo[b.round - front.round]? = some info :=
      ⟨_, List.getElem?_eq_getElem (by omega)⟩
    have hround : info.round = b.round := by
      have := hcounted.rounds _ info hinfo
      omega
    have hfb : front.round ≤ b.round := by omega
    rw [bind_ok (expect_eq_ok.mpr hhead), bind_ok (assert_of hfb), bind_ok (expect_eq_ok.mpr hinfo)]
    have hsame := nextRoundOf_congr (d.gcRound ctx) (map_round_set (countIn ctx b info) hinfo rfl)
    exact ⟨_, rfl, hcounted.count hinfo hround, le_of_le_of_eq hmono hsame.symm⟩

theorem updateRoundInfo_le (h : d.updateRoundInfo ctx b = .ok d')
    (hgc : d.gcRound ctx < b.round) : b.round ≤ d.nextRound ctx := by
  unfold updateRoundInfo at h
  rw [if_neg hgc.not_ge] at h
  simp only [bind_eq_ok, assert_eq_ok] at h
  obtain ⟨_, hle, _⟩ := h
  exact hle

/-! ### Accepting a block -/

theorem get_cacheBlock (b : VerifiedBlock) (r : BlockRef) :
    (d.cacheBlock b).recentBlocks[r]? = if b.reference = r then some { block := b } else d.recentBlocks[r]? := by
  show (d.recentBlocks.insert b.reference { block := b })[r]? = _
  rw [get_insert]
  congr

/-- The counts stay exact when a new block is cached. -/
theorem updateBlockMetadata_counted (hv3 : ctx.protocolConfig.enableV3 = true) (h : d.Counted ctx)
    (hnew : b.reference ∉ d.recentBlocks)
    (hok : d.updateBlockMetadata ctx b = .ok d') : d'.Counted ctx ∧ d.nextRound ctx ≤ d'.nextRound ctx := by
  have hmem := fun r => (updateBlockMetadata_sat.ok hok).mem_iff (r := r)
  unfold updateBlockMetadata countBlock at hok
  rw [if_pos hv3] at hok
  simp only [bind_eq_ok] at hok
  obtain ⟨t, ⟨t', hchildren, hround⟩, hok⟩ := hok
  obtain ⟨hparents, m, rfl, hget⟩ := addChildren_eq hchildren
  have hrounds : RoundsCounted ctx (d.gcRound ctx) (· ∈ d.recentBlocks) d.roundInfo := h.roundInfo
  obtain ⟨roundInfo, hround', hcounted, hmono⟩ :=
    updateRoundInfo_eq (d := { d.cacheBlock b with recentBlocks := m }) hrounds (updateRoundInfo_le hround)
  rw [hround'] at hround
  cases hround
  cases hok
  replace hmem : ∀ r, r ∈ m ↔ b.reference = r ∨ r ∈ d.recentBlocks := hmem
  have hself : ¬d.IsParent ctx b.reference b.reference := fun hp => by
    have := hp.1
    omega
  -- An entry is the new block without children, or an old one with one child more at most.
  have hentry : ∀ (r : BlockRef) info, m[r]? = some info ↔
      (b.reference = r ∧ info = { block := b }) ∨
      (b.reference ≠ r ∧ ∃ old, d.recentBlocks[r]? = some old ∧ info = if r ∈ b.ancestors ∧
        d.IsParent ctx b.reference r then old.withChild ctx.committee b.reference else old) := by
    intro r info
    rw [hget, get_cacheBlock]
    by_cases hbr : b.reference = r
    · subst hbr
      have hself' : ¬(d.cacheBlock b).IsParent ctx b.reference b.reference := hself
      simp [hself', eq_comm]
    · simp only [hbr, if_false, map_eq_some_iff, false_and, false_or, Ne, not_false_eq_true, true_and]
      exact ⟨fun ⟨old, hold, h⟩ => ⟨old, hold, h.symm⟩, fun ⟨old, hold, h⟩ => ⟨old, hold, h.symm⟩⟩
  have hblock : ∀ (r : BlockRef) (P : VerifiedBlock → Prop), (∃ info, m[r]? = some info ∧ P info.block) ↔
      (b.reference = r ∧ P b) ∨ ∃ old, d.recentBlocks[r]? = some old ∧ P old.block := by
    intro r P
    constructor
    · rintro ⟨info, hr, hP⟩
      rcases (hentry r info).mp hr with ⟨hbr, rfl⟩ | ⟨_, old, hold, rfl⟩
      · exact .inl ⟨hbr, hP⟩
      · refine .inr ⟨old, hold, ?_⟩
        split at hP
        · exact hP
        · exact hP
    · rintro (⟨hbr, hP⟩ | ⟨old, hold, hP⟩)
      · exact ⟨_, (hentry r _).mpr (.inl ⟨hbr, rfl⟩), hP⟩
      · have hne : b.reference ≠ r := by
          rintro rfl
          exact hnew (mem_of_get hold)
        refine ⟨_, (hentry r _).mpr (.inr ⟨hne, old, hold, rfl⟩), ?_⟩
        split
        · exact hP
        · exact hP
  refine ⟨⟨hcounted.congr fun r _ => (hmem r).symm, fun c info hc a ha hp => ?_,
    fun r info hr hgc c => ?_, fun r info hr => ?_⟩, hmono⟩
  · rcases (hblock c (fun b => a ∈ b.ancestors)).mp ⟨info, hc, ha⟩ with ⟨rfl, ha⟩ | ⟨old, hold, ha⟩
    · exact (hmem a).mpr (mem_insert_iff.mp (hparents a ha hp))
    · exact (hmem a).mpr (.inr (h.parents c old hold a ha hp))
  · rw [hblock c (fun b => r ∈ b.ancestors ∧ r.round + 1 = c.round)]
    rcases (hentry r info).mp hr with ⟨rfl, rfl⟩ | ⟨hne, old, hold, rfl⟩
    · constructor
      · exact fun hc => absurd hc (Finset.notMem_empty c)
      · rintro (⟨rfl, _, hround⟩ | ⟨child, hchild, ha, hround⟩)
        · omega
        · exact absurd (h.parents c child hchild _ ha ⟨hround, hgc⟩) hnew
    · have hold' := h.children r old hold hgc c
      have hwith : c ∈ (if r ∈ b.ancestors ∧ d.IsParent ctx b.reference r then
          old.withChild ctx.committee b.reference else old).children ↔
          (c = b.reference ∧ r ∈ b.ancestors ∧ d.IsParent ctx b.reference r) ∨ c ∈ old.children := by
        split
        · rename_i hp
          simp only [BlockInfo.withChild, Finset.mem_insert, hp, and_self, and_true]
        · rename_i hp
          constructor
          · exact .inr
          · rintro (⟨_, hp'⟩ | hc)
            · exact absurd hp' hp
            · exact hc
      rw [hwith, hold']
      constructor
      · rintro (⟨rfl, ha, hp⟩ | hc)
        · exact .inl ⟨rfl, ha, hp.1⟩
        · exact .inr hc
      · rintro (⟨rfl, ha, hround⟩ | hc)
        · exact .inl ⟨rfl, ha, hround, hgc⟩
        · exact .inr hc
  · rcases (hentry r info).mp hr with ⟨_, rfl⟩ | ⟨_, old, hold, rfl⟩
    · exact .empty ctx
    · split
      · exact (h.childrenStake r old hold).insert b.reference
      · exact h.childrenStake r old hold

/-- Caching a block succeeds if its parents are there and it does not skip a round. -/
theorem updateBlockMetadata_ok
    (h : ctx.protocolConfig.enableV3 = true → d.Counted ctx ∧
      (∀ a ∈ b.ancestors, d.IsParent ctx b.reference a → a ∈ d.recentBlocks) ∧
      (d.gcRound ctx < b.round → b.round ≤ d.nextRound ctx)) : ∃ d', d.updateBlockMetadata ctx b = .ok d' := by
  unfold updateBlockMetadata countBlock
  split
  · rename_i hv3
    obtain ⟨hcount, hparents, hround⟩ := h hv3
    have hok : ∃ t, b.ancestors.foldlM (addChild ctx b.reference) (d.cacheBlock b) = .ok t ∧
        ∃ m, t = { d.cacheBlock b with recentBlocks := m } ∧ ∀ r ∈ (d.cacheBlock b).recentBlocks, r ∈ m := by
      refine foldlM_ok ?_ ⟨_, rfl, fun r hr => hr⟩
      rintro _ a ha ⟨m, rfl, hm⟩
      unfold addChild
      split
      · exact ⟨_, rfl, m, rfl, hm⟩
      · rename_i hp
        rw [not_or, not_not, Nat.not_le] at hp
        obtain ⟨info, hinfo⟩ := mem_iff_get.mp (hm a (mem_insert_iff.mpr (.inr (hparents a ha hp))))
        refine ⟨_, bind_ok (expect_eq_ok.mpr hinfo) _, _, rfl, fun r hr => ?_⟩
        exact mem_insert_iff.mpr (.inr (hm r hr))
    obtain ⟨_, hchildren, m, rfl, _⟩ := hok
    have hrounds : RoundsCounted ctx (d.gcRound ctx) (· ∈ d.recentBlocks) d.roundInfo := hcount.roundInfo
    obtain ⟨roundInfo, hrun, _⟩ :=
      updateRoundInfo_eq (d := { d.cacheBlock b with recentBlocks := m }) hrounds hround
    exact ⟨_, bind_ok ((bind_ok hchildren _).trans hrun) _⟩
  · exact ⟨_, rfl⟩

/-! ### Other changes -/

section
variable {gcRound : Nat} {S : BlockRef → Prop} {roundInfo : List RoundInfo}
    (h : RoundsCounted ctx gcRound S roundInfo)
include h

/-- Raising the gc round. -/
theorem RoundsCounted.raise (hle : gcRound ≤ gcRound') : RoundsCounted ctx gcRound' S roundInfo := by
  refine ⟨h.rounds, fun hne => (h.front hne).trans (Nat.succ_le_succ hle), fun r hr hgc => ?_,
    fun info hinfo hgc => h.blocks info hinfo (hle.trans_lt hgc), h.totalStake⟩
  have hlt := h.reached r hr (hle.trans_lt hgc)
  by_cases hne : roundInfo = []
  · subst hne
    simp only [nextRoundOf, List.getLast?_nil] at hlt ⊢
    omega
  · have hsame : nextRoundOf gcRound' roundInfo = nextRoundOf gcRound roundInfo := by
      unfold nextRoundOf
      cases hl : roundInfo.getLast? with
      | none => exact absurd (List.getLast?_eq_none_iff.mp hl) hne
      | some info => rfl
    rw [hsame]
    exact hlt

/-- Forgetting rounds up to the gc round. -/
theorem RoundsCounted.drop :
    RoundsCounted ctx gcRound S (roundInfo.dropWhile fun info => info.round ≤ gcRound) ∧
      gcRound < nextRoundOf gcRound (roundInfo.dropWhile fun info => info.round ≤ gcRound) := by
  induction roundInfo with
  | nil => exact ⟨h, Nat.lt_succ_self _⟩
  | cons info rest ih =>
    rw [List.dropWhile_cons]
    by_cases hlow : info.round ≤ gcRound
    · simp only [hlow, decide_true, if_true]
      have hfront : frontRoundOf (info :: rest) = info.round := rfl
      have hlen := h.nextRound_eq (List.cons_ne_nil _ _)
      rw [hfront, List.length_cons] at hlen
      apply ih
      cases rest with
      | nil =>
        refine ⟨fun i x hx => by simp at hx, fun hne => absurd rfl hne, fun r hr hgc => ?_, nofun, nofun⟩
        have := h.reached r hr hgc
        simp only [List.length_nil] at hlen
        omega
      | cons second rest =>
        have hsecond : second.round = info.round + 1 := h.rounds 1 second rfl
        refine ⟨fun i x hx => ?_, fun _ => ?_, h.reached,
          fun x hx => h.blocks x (.tail _ hx),
          fun x hx => h.totalStake x (.tail _ hx)⟩
        · have := h.rounds (i + 1) x (by rw [List.getElem?_cons_succ]; exact hx)
          rw [hfront] at this
          show x.round = second.round + i
          omega
        · show second.round ≤ _
          omega
    · simp only [hlow, decide_false, Bool.false_eq_true, if_false]
      refine ⟨h, ?_⟩
      rw [h.nextRound_eq (List.cons_ne_nil _ _)]
      show gcRound < info.round + _
      omega

end

theorem SameVotes.counted (hs : SameVotes d d') (h : d.Counted ctx) : d'.Counted ctx := by
  obtain ⟨m, rfl, hm⟩ := hs
  have hmem : ∀ r, r ∈ m ↔ r ∈ d.recentBlocks := fun r => hm.mem_iff
  have hget : ∀ (r : BlockRef) info, m[r]? = some info → ∃ old, d.recentBlocks[r]? = some old ∧
      old.block = info.block ∧ old.children = info.children ∧
      old.childrenStake = info.childrenStake := by
    intro r info hr
    obtain ⟨old, hold, hvotes⟩ := hm.get hr
    simp only [votes, Prod.mk.injEq] at hvotes
    exact ⟨old, hold, hvotes⟩
  refine ⟨h.roundInfo.congr fun r _ => (hmem r).symm, fun c info hc a ha hp => ?_,
    fun r info hr hgc c => ?_, fun r info hr => ?_⟩
  · obtain ⟨old, hold, hblock, _⟩ := hget c info hc
    exact (hmem a).mpr (h.parents c old hold a (hblock ▸ ha) hp)
  · obtain ⟨old, hold, _, hchildren, _⟩ := hget r info hr
    rw [← hchildren, h.children r old hold hgc c]
    constructor
    · rintro ⟨child, hchild, ha, hround⟩
      obtain ⟨info', hinfo', hvotes⟩ := hm.symm.get hchild
      have hblock : info'.block = child.block := congrArg Prod.fst hvotes
      exact ⟨info', hinfo', hblock ▸ ha, hround⟩
    · rintro ⟨child, hchild, ha, hround⟩
      obtain ⟨old', hold', hblock, _⟩ := hget c child hchild
      exact ⟨old', hold', hblock ▸ ha, hround⟩
  · obtain ⟨old, hold, _, hchildren, hstake⟩ := hget r info hr
    rw [← hchildren, ← hstake]
    exact h.childrenStake r old hold

/-- Dropping cached blocks up to the gc round, and raising it. -/
theorem Counted.evict (h : d.Counted ctx) (hgc : d.gcRound ctx ≤ d'.gcRound ctx)
    (hround : d'.roundInfo = d.roundInfo) (hget : ∀ r : BlockRef, d'.recentBlocks[r]? = d.recentBlocks[r]? ∨
      (d'.recentBlocks[r]? = none ∧ r.round ≤ d'.gcRound ctx)) : d'.Counted ctx := by
  have hsub : ∀ (r : BlockRef) info, d'.recentBlocks[r]? = some info → d.recentBlocks[r]? = some info := by
    intro r info hr
    rcases hget r with heq | ⟨hnone, _⟩
    · exact heq ▸ hr
    · rw [hnone] at hr
      cases hr
  have habove : ∀ r : BlockRef, d'.gcRound ctx < r.round → d'.recentBlocks[r]? = d.recentBlocks[r]? := by
    intro r hr
    rcases hget r with heq | ⟨_, hle⟩
    · exact heq
    · omega
  have hmem : ∀ r : BlockRef, d'.gcRound ctx < r.round → (r ∈ d'.recentBlocks ↔ r ∈ d.recentBlocks) := by
    intro r hr
    rw [mem_iff_get, mem_iff_get, habove r hr]
  refine ⟨?_, fun c info hc a ha hp => ?_, fun r info hr hgc' c => ?_, fun r info hr => ?_⟩
  · rw [hround]
    exact (h.roundInfo.raise hgc).congr fun r hr => (hmem r hr).symm
  · exact (hmem a hp.2).mpr (h.parents c info (hsub c info hc) a ha ⟨hp.1, hgc.trans_lt hp.2⟩)
  · rw [h.children r info (hsub r info hr) (hgc.trans_lt hgc') c]
    constructor
    · rintro ⟨child, hchild, ha, hround'⟩
      exact ⟨child, (habove c (by omega)).trans hchild, ha, hround'⟩
    · rintro ⟨child, hchild, ha, hround'⟩
      exact ⟨child, hsub c child hchild, ha, hround'⟩
  · exact h.childrenStake r info (hsub r info hr)

end DagState

end Sui.Consensus
