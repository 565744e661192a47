import Sui.Lib.RoundDag
import Sui.Consensus.BlockVerifier
import Sui.Consensus.DagState.Basic

/-! Views of the DAG.

The blocks that exist in a run of the protocol form a `Universe`: they pass
verification, their refs are unique, and authors outside a faulty set have one
block a round. What one validator holds is a `View`: cached blocks of the universe,
closed under ancestors above a floor at or below the gc round. Looking blocks up in
a view, and walking a block's history, then never fails. -/
namespace Sui.Consensus

open Sui.Lib BTreeMap Exec List Relation.ReflTransGen

/-- Blocks, their authors and their links. -/
def dag : RoundDag VerifiedBlock Nat where
  round := VerifiedBlock.round
  author := VerifiedBlock.author
  link b c := c.reference ∈ b.ancestors

/-- The blocks that exist, with the authors that may equivocate. -/
structure Universe (ctx : Context) (U : Set VerifiedBlock) (faulty : Finset Nat) : Prop where
  verified : ∀ b ∈ U, Verified ctx b
  refs : ∀ b ∈ U, ∀ c ∈ U, b.reference = c.reference → b = c
  honest : dag.OneBlockPerRound faulty U
  safe : ∃ f, ctx.committee.Safe f ∧ ctx.committee.stakeOf faulty ≤ f

/-- Authors of a quorum have blocks in `T`. -/
def HasQuorum (ctx : Context) (T : Set VerifiedBlock) : Prop :=
  ∃ group, ctx.committee.quorumThreshold ≤ ctx.committee.stakeOf group ∧ dag.AuthoredIn T group

/-- The cached blocks. -/
def DagState.blocks (d : DagState) : Set VerifiedBlock :=
  {b | ∃ info, d.recentBlocks[b.reference]? = some info ∧ info.block = b}

/-- What one validator holds of the universe. -/
structure View (ctx : Context) (U : Set VerifiedBlock) (floor : Nat) (d : DagState) : Prop where
  keyed : ∀ (r : BlockRef) info, d.recentBlocks[r]? = some info → info.block.reference = r ∧ info.block ∈ U
  closed : ∀ b ∈ d.blocks, ∀ a ∈ b.ancestors, floor < a.round → a ∈ d.recentBlocks
  stored : ∀ (r : BlockRef) b, d.store.blocks[r]? = some b → b.reference = r
  floorLe : floor ≤ d.gcRound ctx

variable {ctx : Context} {U : Set VerifiedBlock}

theorem Universe.quorum_pos (hU : Universe ctx U faulty) : 0 < ctx.committee.quorumThreshold := by
  obtain ⟨f, hsafe, _⟩ := hU.safe
  have := hsafe.quorum
  omega

namespace HasQuorum

variable {ctx : Context} {U : Set VerifiedBlock} {faulty : Finset Nat} {T : Set VerifiedBlock}

/-- Counting the authors of a list decides whether its blocks have a quorum. -/
theorem iff_list {blocks : List VerifiedBlock} (h : ∀ b, b ∈ blocks ↔ b ∈ T) :
    HasQuorum ctx T ↔ ctx.committee.quorumThreshold ≤ ctx.committee.stakeOf (blocks.map (·.author)).toFinset := by
  constructor
  · rintro ⟨group, hq, hin⟩
    refine hq.trans (weight_mono _ fun x hx => ?_)
    obtain ⟨t, ht, rfl⟩ := hin x hx
    exact mem_toFinset.mpr (mem_map_of_mem ((h t).mpr ht))
  · intro hq
    refine ⟨_, hq, fun x hx => ?_⟩
    obtain ⟨b, hb, rfl⟩ := mem_map.mp (mem_toFinset.mp hx)
    exact ⟨b, (h b).mp hb, rfl⟩

/-- Two quorums of one round share a block. -/
theorem common (hU : Universe ctx U faulty) (hS : S ⊆ U)
    (hT : T ⊆ U) (hSr : ∀ s ∈ S, s.round = r) (hTr : ∀ t ∈ T, t.round = r)
    (h₁ : HasQuorum ctx S) (h₂ : HasQuorum ctx T) : ∃ b ∈ S, b ∈ T := by
  obtain ⟨f, hsafe, hf⟩ := hU.safe
  obtain ⟨A, hqA, hA⟩ := h₁
  obtain ⟨B, hqB, hB⟩ := h₂
  refine RoundDag.exists_common ctx.committee.stake_supported hf hU.honest hS hT hSr hTr hA hB ?_
  have hq := hsafe.quorum
  rw [hsafe.total]
  unfold Committee.stakeOf at hqA hqB
  omega

theorem nonempty (hU : Universe ctx U faulty) (h : HasQuorum ctx T) : ∃ b, b ∈ T := by
  obtain ⟨group, hq, hin⟩ := h
  have hpos : 0 < ctx.committee.stakeOf group := hU.quorum_pos.trans_le hq
  obtain ⟨x, hx, _⟩ := Finset.exists_ne_zero_of_sum_ne_zero (Nat.pos_iff_ne_zero.mp hpos)
  obtain ⟨t, ht, _⟩ := hin x hx
  exact ⟨t, ht⟩

end HasQuorum

namespace View

variable {ctx : Context} {U : Set VerifiedBlock} {faulty : Finset Nat} {floor : Nat} {d : DagState}
  {round : Nat} {r : BlockRef} {y x : BlockRef} {c : VerifiedBlock}

theorem blocks_subset (hv : View ctx U floor d) : d.blocks ⊆ U := by
  rintro b ⟨info, hinfo, rfl⟩
  exact (hv.keyed _ info hinfo).2

theorem mem_blocks_of_get (hv : View ctx U floor d)
    (h : d.recentBlocks[r]? = some info) : info.block ∈ d.blocks ∧ info.block.reference = r := by
  have hr := (hv.keyed r info h).1
  exact ⟨⟨info, hr ▸ h, rfl⟩, hr⟩

variable {b : VerifiedBlock}

/-- An ancestor above the floor is a cached block. -/
theorem exists_ancestor (hv : View ctx U floor d) (hb : b ∈ d.blocks) (ha : a ∈ b.ancestors)
    (hr : floor < a.round) : ∃ c ∈ d.blocks, c.reference = a := by
  obtain ⟨info, hinfo⟩ := mem_iff_get.mp (hv.closed b hb a ha hr)
  exact ⟨info.block, hv.mem_blocks_of_get hinfo⟩

theorem getBlock_of_mem (hU : Universe ctx U faulty) (hv : View ctx U floor d)
    (hb : b ∈ d.blocks) : d.getBlock ctx b.reference = some b := by
  have hpos := (hU.verified b (hv.blocks_subset hb)).round
  obtain ⟨info, hinfo, rfl⟩ := hb
  unfold DagState.getBlock
  rw [if_neg (by rw [VerifiedBlock.reference_round]; exact Nat.ne_of_gt hpos), hinfo]

section
variable (hv : View ctx U floor d)
include hv

/-- Whatever a lookup returns has the ref that was asked for. -/
theorem getBlock_reference (h : d.getBlock ctx r = some b) : b.reference = r := by
  unfold DagState.getBlock at h
  split at h
  · exact Context.genesis_reference h
  · split at h
    · rename_i info hinfo
      cases h
      exact (hv.keyed r info hinfo).1
    · exact hv.stored r b h

/-! ### Slots and rounds -/

theorem mem_map_filter (p : BlockRef → Prop) [DecidablePred p] :
    b ∈ (d.recentBlocks.toList.filter fun q => p q.1).map (·.2.block) ↔ b ∈ d.blocks ∧ p b.reference := by
  simp only [mem_map, mem_filter, decide_eq_true_eq, Prod.exists]
  constructor
  · rintro ⟨r, info, ⟨hmem, hp⟩, rfl⟩
    obtain ⟨hb, rfl⟩ := hv.mem_blocks_of_get (mem_toList_iff.mp hmem)
    exact ⟨hb, hp⟩
  · rintro ⟨⟨info, hinfo, rfl⟩, hp⟩
    exact ⟨_, info, ⟨mem_toList_iff.mpr hinfo, hp⟩, rfl⟩

theorem mem_getUncommittedBlocksAtSlot : b ∈ d.getUncommittedBlocksAtSlot slot ↔ b ∈ d.blocks ∧ b.slot = slot :=
  hv.mem_map_filter fun r => r.slot = slot

theorem getUncommittedBlocksAtRound_eq
    (h : d.lastCommitRound < round) : ∃ blocks, d.getUncommittedBlocksAtRound round = .ok blocks ∧
      ∀ b, b ∈ blocks ↔ b ∈ d.blocks ∧ b.round = round :=
  ⟨_, bind_ok (assert_of h) _, fun _ => hv.mem_map_filter fun r => r.round = round⟩

/-- The blocks of a slot are listed once each. -/
theorem nodup_getUncommittedBlocksAtSlot (slot : Slot) : (d.getUncommittedBlocksAtSlot slot).Nodup := by
  unfold DagState.getUncommittedBlocksAtSlot
  rw [List.Nodup, pairwise_map]
  apply List.Pairwise.filter
  refine Std.ExtTreeMap.distinct_keys_toList.imp_of_mem ?_
  intro p q hp hq hne heq
  have hp' := (hv.keyed p.1 p.2 (mem_toList_iff.mp hp)).1
  have hq' := (hv.keyed q.1 q.2 (mem_toList_iff.mp hq)).1
  apply hne
  rw [← hp', ← hq', heq]
  exact compare_eq_iff_eq.mpr rfl

end

/-! ### The history of a block -/

/-- A cached block with ref `y` has the ancestor `x`. -/
def RefLink (d : DagState) (y x : BlockRef) : Prop := ∃ b ∈ d.blocks, b.reference = y ∧ x ∈ b.ancestors

def RefReach (d : DagState) : BlockRef → BlockRef → Prop := Relation.ReflTransGen (RefLink d)

section
variable (hU : Universe ctx U faulty) (hv : View ctx U floor d)
include hU hv

theorem RefLink.round_lt (h : RefLink d y x) : x.round < y.round := by
  obtain ⟨b, hb, rfl, hx⟩ := h
  exact (hU.verified b (hv.blocks_subset hb)).ancestorRounds x hx

theorem RefReach.round_le (h : RefReach d y x) : x.round ≤ y.round := by
  induction h with
  | refl => exact le_rfl
  | tail _ hstep ih => exact (Nat.le_of_lt (RefLink.round_lt hU hv hstep)).trans ih

/-- A path that leaves a cached block goes through one of its ancestors. -/
theorem RefReach.through (hb : b ∈ d.blocks)
    (h : RefReach d b.reference x) (hne : b.reference ≠ x) : ∃ a ∈ b.ancestors, RefReach d a x := by
  rcases cases_head h with heq | ⟨a, ⟨c, hc, hcr, ha⟩, hrest⟩
  · exact absurd heq hne
  · have : c = b := hU.refs c (hv.blocks_subset hc) b (hv.blocks_subset hb) hcr
    exact ⟨a, this ▸ ha, hrest⟩

theorem reach_iff_refReach (hb : b ∈ d.blocks) (hc : c ∈ d.blocks) :
    dag.Reach d.blocks b c ↔ RefReach d b.reference c.reference := by
  constructor
  · intro h
    induction h with
    | refl => exact .refl
    | tail hpre hstep ih =>
      have hmid := RoundDag.Reach.mem hb hpre
      exact (ih hmid).tail ⟨_, hmid, rfl, hstep.2⟩
  · intro h
    generalize hx : c.reference = x at h
    induction h generalizing c with
    | refl =>
      have : c = b := hU.refs c (hv.blocks_subset hc) b (hv.blocks_subset hb) hx
      exact this ▸ .refl
    | tail _ hstep ih =>
      obtain ⟨m, hm, rfl, hxm⟩ := hstep
      exact (ih hm rfl).tail ⟨hc, show c.reference ∈ m.ancestors from hx ▸ hxm⟩

end

/-- What a cached block reaches above the floor is cached. -/
theorem RefReach.exists_block (hv : View ctx U floor d) (hb : b ∈ d.blocks)
    (h : RefReach d b.reference x) (hr : floor < x.round) : ∃ c ∈ d.blocks, c.reference = x := by
  rcases cases_tail h with rfl | ⟨y, _, m, hm, _, hx⟩
  · exact ⟨b, hb, rfl⟩
  · exact hv.exists_ancestor hm hx hr

section
variable (hU : Universe ctx U faulty) (hv : View ctx U floor d)
include hU hv

/-- The traversal finds the refs of a round that the linked refs lead to. Each turn
takes out the greatest ref, and all refs that remain are below it. -/
theorem expandLinked_eq
    (hround : floor < round) (fuel : Nat) (linked : BTreeSet BlockRef) (bound : BlockRef)
    (hbound : ∀ x ∈ linked, x < bound) (hknown : ∀ x ∈ linked, round < x.round → x ∈ d.recentBlocks)
    (hfuel : ((BTreeMap.keySet d.recentBlocks).filter (· < bound)).card < fuel) :
    ∃ found, d.expandLinked ctx round fuel linked = .ok found ∧ (∀ x ∈ found, x.round ≤ round) ∧
      ∀ x, x.round = round → (x ∈ found ↔ ∃ y ∈ linked, RefReach d y x) := by
  induction fuel generalizing linked bound with
  | zero => omega
  | succ fuel ih =>
    unfold DagState.expandLinked
    cases hlast : linked.last? with
    | none =>
      have hempty := (BTreeSet.last_eq_none_iff _).mp hlast
      refine ⟨linked, rfl, fun x hx => absurd hx (hempty x), fun x _ => ?_⟩
      exact ⟨fun hx => absurd hx (hempty x), fun ⟨y, hy, _⟩ => absurd hy (hempty y)⟩
    | some m =>
      obtain ⟨hm, hmle⟩ := (BTreeSet.last_eq_some_iff _).mp hlast
      simp only
      by_cases hstop : m.round ≤ round
      · rw [if_pos hstop]
        have hlow : ∀ x ∈ linked, x.round ≤ round := fun x hx =>
          (BlockRef.round_le_of_le (hmle x hx)).trans hstop
        refine ⟨linked, rfl, hlow, fun x hx => ⟨fun h => ⟨x, h, .refl⟩, ?_⟩⟩
        rintro ⟨y, hy, hreach⟩
        rcases cases_head hreach with rfl | ⟨z, hyz, hzx⟩
        · exact hy
        · have h₁ := RefLink.round_lt hU hv hyz
          have h₂ := RefReach.round_le hU hv hzx
          have h₃ := hlow y hy
          omega
      · rw [if_neg hstop]
        obtain ⟨info, hinfo⟩ := mem_iff_get.mp (hknown m hm (Nat.lt_of_not_le hstop))
        obtain ⟨hb, hbm⟩ := hv.mem_blocks_of_get hinfo
        generalize info.block = b at hb hbm
        subst hbm
        have hget : expect (d.getBlock ctx b.reference) .blockNotInDag = .ok b :=
          expect_eq_ok.mpr (hv.getBlock_of_mem hU hb)
        rw [bind_ok hget]
        have hlt : ∀ x ∈ b.ancestors, x < b.reference := fun x hx =>
          BlockRef.lt_of_round_lt ((hU.verified b (hv.blocks_subset hb)).ancestorRounds x hx)
        have hmem : ∀ x, x ∈ b.ancestors.foldl (fun s a => s.insert a) (linked.erase b.reference) ↔
            (b.reference ≠ x ∧ x ∈ linked) ∨ x ∈ b.ancestors := by
          intro x
          rw [BTreeSet.mem_foldl_insert, BTreeSet.mem_erase_iff]
        obtain ⟨found, hfound, hlow, hiff⟩ := ih _ b.reference
          (fun x hx => by
            rcases (hmem x).mp hx with ⟨hne, hx⟩ | hx
            · exact lt_of_le_of_ne (hmle x hx) (Ne.symm hne)
            · exact hlt x hx)
          (fun x hx hr => by
            rcases (hmem x).mp hx with ⟨_, hx⟩ | hx
            · exact hknown x hx hr
            · exact hv.closed b hb x hx (hround.trans hr))
          (by
            refine lt_of_lt_of_le ?_ (Nat.le_of_lt_succ hfuel)
            apply Finset.card_lt_card
            refine Finset.ssubset_iff_subset_ne.mpr ⟨?_, ?_⟩
            · intro x hx
              rw [Finset.mem_filter] at hx ⊢
              exact ⟨hx.1, hx.2.trans (hbound _ hm)⟩
            · intro heq
              have hself : b.reference ∈ (BTreeMap.keySet d.recentBlocks).filter (· < bound) := by
                rw [Finset.mem_filter, mem_keySet]
                exact ⟨hknown _ hm (Nat.lt_of_not_le hstop), hbound _ hm⟩
              rw [← heq, Finset.mem_filter] at hself
              exact lt_irrefl _ hself.2)
        refine ⟨found, hfound, hlow, fun x hx => (hiff x hx).trans ?_⟩
        constructor
        · rintro ⟨y, hy, hreach⟩
          rcases (hmem y).mp hy with ⟨_, hy⟩ | hy
          · exact ⟨y, hy, hreach⟩
          · exact ⟨b.reference, hm, .head ⟨b, hb, rfl, hy⟩ hreach⟩
        · rintro ⟨y, hy, hreach⟩
          by_cases hyb : b.reference = y
          · subst hyb
            have hne : b.reference ≠ x := by
              rintro rfl
              exact hstop (Nat.le_of_eq hx)
            obtain ⟨a, ha, hax⟩ := RefReach.through hU hv hb hreach hne
            exact ⟨a, (hmem a).mpr (.inr ha), hax⟩
          · exact ⟨y, (hmem y).mpr (.inl ⟨hyb, hy⟩), hreach⟩

/-- `ancestorsAtRound` lists the blocks of a round that a block reaches. -/
theorem ancestorsAtRound_eq (hb : b ∈ d.blocks) (hround : floor < round)
    (hlt : round < b.round) : ∃ blocks, d.ancestorsAtRound ctx b round = .ok blocks ∧
      ∀ c, c ∈ blocks ↔ c ∈ d.blocks ∧ c.round = round ∧ dag.Reach d.blocks b c := by
  have hver := hU.verified b (hv.blocks_subset hb)
  have hmem : ∀ x, x ∈ b.ancestors.foldl (fun s a => s.insert a) (∅ : BTreeSet BlockRef) ↔ x ∈ b.ancestors := by
    intro x
    rw [BTreeSet.mem_foldl_insert]
    simp
  obtain ⟨found, hfound, hlow, hiff⟩ := expandLinked_eq hU hv hround
    (d.recentBlocks.size + d.store.blocks.size + 1) _ b.reference
    (fun x hx => BlockRef.lt_of_round_lt (hver.ancestorRounds x ((hmem x).mp hx)))
    (fun x hx hr => hv.closed b hb x ((hmem x).mp hx) (hround.trans hr))
    (by
      have h₁ := card_keySet_le d.recentBlocks
      have h₂ := Finset.card_filter_le (BTreeMap.keySet d.recentBlocks) (· < b.reference)
      omega)
  have hreach : ∀ x ∈ found, round ≤ x.round → x.round = round ∧ RefReach d b.reference x := by
    intro x hx hr
    have hround' := le_antisymm (hlow x hx) hr
    obtain ⟨a, ha, hax⟩ := (hiff x hround').mp hx
    exact ⟨hround', .head ⟨b, hb, rfl, (hmem a).mp ha⟩ hax⟩
  have hresolve : ∀ x ∈ found.toList.filter fun r => round ≤ r.round,
      ∃ c ∈ d.blocks, c.reference = x ∧ d.getBlock ctx x = some c := by
    intro x hx
    simp only [mem_filter, Std.ExtTreeSet.mem_toList, decide_eq_true_eq] at hx
    obtain ⟨hxr, hbx⟩ := hreach x hx.1 hx.2
    obtain ⟨c, hc, rfl⟩ := RefReach.exists_block hv hb hbx (by omega)
    exact ⟨c, hc, rfl, hv.getBlock_of_mem hU hc⟩
  obtain ⟨blocks, hmap, hblocks⟩ := mapM_ok
    (f := fun r => expect (d.getBlock ctx r) .blockNotInDag) fun x hx => by
      obtain ⟨c, _, _, hget⟩ := hresolve x hx
      exact ⟨c, by rw [hget]; rfl⟩
  refine ⟨blocks, (bind_ok hfound _).trans hmap, fun c => (hblocks c).trans ⟨?_, ?_⟩⟩
  · rintro ⟨x, hx, hcx⟩
    obtain ⟨c, hc, rfl, hget⟩ := hresolve x hx
    simp only [mem_filter, Std.ExtTreeSet.mem_toList, decide_eq_true_eq] at hx
    obtain ⟨hxr, hbx⟩ := hreach _ hx.1 hx.2
    rw [hget] at hcx
    cases hcx
    exact ⟨hc, hxr, (reach_iff_refReach hU hv hb hc).mpr hbx⟩
  · rintro ⟨hc, rfl, hbc⟩
    have hne : b.reference ≠ c.reference := by
      intro heq
      have := congrArg BlockRef.round heq
      simp only [VerifiedBlock.reference_round] at this
      omega
    obtain ⟨a, ha, hac⟩ := RefReach.through hU hv hb ((reach_iff_refReach hU hv hb hc).mp hbc) hne
    refine ⟨c.reference, ?_, by rw [hv.getBlock_of_mem hU hc]; rfl⟩
    simp only [mem_filter, Std.ExtTreeSet.mem_toList, decide_eq_true_eq]
    exact ⟨(hiff _ rfl).mpr ⟨a, (hmem a).mpr ha, hac⟩, le_rfl⟩

/-- What a block reaches above the floor of a view that holds the block, it reaches
in that view. -/
theorem reach_transfer (hS : S ⊆ U) (hb : b ∈ d.blocks)
    (h : dag.Reach S b c) (hr : floor < c.round) : dag.Reach d.blocks b c ∧ c ∈ d.blocks := by
  induction h with
  | refl => exact ⟨.refl, hb⟩
  | @tail m c hbm hstep ih =>
    obtain ⟨hc, hlink⟩ := hstep
    have hmU : m ∈ U := by
      rcases cases_tail hbm with rfl | ⟨_, _, hm, _⟩
      · exact hv.blocks_subset hb
      · exact hS hm
    have hlt : c.round < m.round := (hU.verified m hmU).ancestorRounds _ hlink
    obtain ⟨hreach, hm⟩ := ih (hr.trans hlt)
    obtain ⟨c', hc', heq⟩ := hv.exists_ancestor hm hlink hr
    have : c' = c := hU.refs c' (hv.blocks_subset hc') c (hS hc) heq
    subst this
    exact ⟨hreach.tail ⟨hc', hlink⟩, hc'⟩

/-- What a quorum of one round has in some view, every later block reaches in every
view that is closed down to that round. -/
theorem exists_reach_of_hasQuorum {r : Nat}
    (hr : floor < r) {T : Set VerifiedBlock} (hT : T ⊆ U) (hTr : ∀ t ∈ T, t.round = r)
    (hq : HasQuorum ctx T) (hb : b ∈ d.blocks) (hbr : r < b.round) :
    ∃ t ∈ T, t ∈ d.blocks ∧ dag.Reach d.blocks b t := by
  obtain ⟨f, hsafe, hf⟩ := hU.safe
  obtain ⟨A, hqA, hA⟩ := hq
  refine RoundDag.exists_reach ctx.committee.stake_supported hf hU.honest hv.blocks_subset hT hTr hA ?_ b hb hbr
  intro c hc hcr
  have hcr : r < c.round := hcr
  have hver := hU.verified c (hv.blocks_subset hc)
  refine ⟨c.parentAuthors, ?_, ?_⟩
  · intro x hx
    obtain ⟨a, ha, hround, rfl⟩ := SignedBlockVerifier.mem_parentAuthors.mp hx
    obtain ⟨p, hp, rfl⟩ := hv.exists_ancestor hc ha (by omega)
    exact ⟨p, ⟨hp, ha, hround⟩, rfl⟩
  · have hparents := hver.parents
    have hqq := hsafe.quorum
    rw [hsafe.total]
    unfold Committee.stakeOf at hqA hparents
    omega

end

end View

/-! ### A view of given blocks -/

/-- A state that caches the given blocks, with no commit. -/
def DagState.ofBlocks (blocks : List VerifiedBlock) : DagState where
  recentBlocks := blocks.foldl (fun m b => m.insert b.reference { block := b }) ∅
  highestAcceptedRound := (blocks.map (·.round)).foldl max 0

/-- Blocks closed under ancestors form a view. -/
theorem View.ofBlocks (hU : ∀ b ∈ blocks, b ∈ U)
    (hclosed : ∀ b ∈ blocks, ∀ a ∈ b.ancestors, a.round ≠ 0 → a ∈ blocks.map (·.reference)) :
    View ctx U 0 (DagState.ofBlocks blocks) := by
  have hcached : ∀ (r : BlockRef) info, (DagState.ofBlocks blocks).recentBlocks[r]? = some info →
      ∃ b ∈ blocks, b.reference = r ∧ info.block = b := by
    intro r info h
    rcases get_foldl_insert _ _ _ _ h with h | ⟨b, hb, hbr, rfl⟩
    · simp at h
    · exact ⟨b, hb, hbr, rfl⟩
  refine ⟨?_, ?_, ?_, Nat.zero_le _⟩
  · intro r info h
    obtain ⟨b, hb, hbr, hinfo⟩ := hcached r info h
    rw [hinfo]
    exact ⟨hbr, hU b hb⟩
  · rintro b ⟨info, hinfo, rfl⟩ a ha hr
    obtain ⟨c, hc, _, hcb⟩ := hcached _ info hinfo
    rw [hcb] at ha
    exact (mem_foldl_insert _ _ _ _ _).mpr (.inr (hclosed c hc a ha (Nat.ne_of_gt hr)))
  · intro r b h
    simp [DagState.ofBlocks] at h

end Sui.Consensus
