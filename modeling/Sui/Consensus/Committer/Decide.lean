import Sui.Consensus.Committer.Votes

/-! What the rule for one slot returns.

On a view nothing the rule reads is missing, the cache of votes only saves work, and
at most one block of the slot can be certified. So both rules return, and
`tryDirectDecide_eq` and `decideLeaderFromAnchor_eq` say what. -/
namespace Sui.Consensus.BaseCommitter

open Sui.Lib Exec List StakeAggregator

variable {ctx : Context} {U : Set VerifiedBlock} {c : VerifiedBlock} {v : VerifiedBlock}

/-! ### Votes -/

/-- Up to the voting round, the supported block is the ancestor in the slot. -/
theorem findSupportedBlock_eq
    (hanc : ∀ a ∈ v.ancestors, a.round < v.round) (hround : v.round ≤ slot.round + 1) (fuel : Nat) :
    findSupportedBlock ctx d slot (fuel + 1) v =
      .ok (if v.round < slot.round then none else v.ancestors.find? fun a => a.slot = slot) := by
  unfold findSupportedBlock
  split
  · rfl
  · rw [firstSome_eq (g := fun a => if a.slot = slot then some a else none)]
    · congr 1
      induction v.ancestors with
      | nil => rfl
      | cons a rest ih =>
        rw [List.findSome?_cons, List.find?_cons]
        by_cases h : a.slot = slot
        · simp [h]
        · simp [h, ih]
    · intro a ha
      have := hanc a ha
      by_cases h : a.slot = slot
      · rw [if_pos h, if_pos h]
      · rw [if_neg h, if_neg h, if_pos (by omega)]

variable {l : VerifiedBlock} {allVotes : AllVotes} {r : BlockRef}

/-- Below the leader's round nothing is a vote. -/
theorem isVote_of_lt (h : v.round < l.round) : isVote ctx d v l = .ok false := by
  unfold isVote findSupportedBlock
  rw [if_pos (show v.round < l.slot.round from h)]
  rfl

theorem isVote_eq (hver : Verified ctx v) (hround : v.round ≤ l.round + 1) :
    ∃ vote, isVote ctx d v l = .ok vote ∧ (vote = true ↔ VotesFor v l) := by
  have hfind : findSupportedBlock ctx d l.slot (v.round + 1) v = _ :=
    findSupportedBlock_eq hver.ancestorRounds hround v.round
  refine ⟨_, bind_ok hfind _, ?_⟩
  rw [decide_eq_true_eq]
  constructor
  · intro h
    split at h
    · cases h
    · have hmem := mem_of_find?_eq_some h
      have hlt : l.round < v.round := hver.ancestorRounds _ hmem
      exact ⟨by omega, hmem⟩
  · rintro ⟨hr, hmem⟩
    rw [if_neg (show ¬v.round < l.slot.round by show ¬v.round < l.round; omega)]
    have hsome : (v.ancestors.find? fun a => a.slot = l.slot).isSome :=
      List.find?_isSome.mpr ⟨l.reference, hmem, by simp⟩
    obtain ⟨a, ha⟩ := Option.isSome_iff_exists.mp hsome
    have hslot : a.slot = l.slot := by simpa using List.find?_some ha
    rw [ha, hver.ancestor_unique (mem_of_find?_eq_some ha) hmem (congrArg Slot.authority hslot)]

open Classical in
/-- Whether the block with ref `r` votes for `l`. -/
noncomputable def voteOf (U : Set VerifiedBlock) (l : VerifiedBlock) (r : BlockRef) : Bool :=
  decide (∃ v ∈ U, v.reference = r ∧ VotesFor v l)

theorem voteOf_eq_true : voteOf U l r = true ↔ ∃ v ∈ U, v.reference = r ∧ VotesFor v l := by
  simp [voteOf]

/-- On an ancestor of a cached block, the code's answer is the universe's. -/
theorem isVoteRef_eq (hU : Universe ctx U faulty) (hv : View ctx U floor d)
    (hfloor : floor < l.round) (hc : c ∈ d.blocks) (hr : r ∈ c.ancestors)
    (hround : r.round ≤ l.round + 1) : isVoteRef ctx d l r = .ok (voteOf U l r) := by
  unfold isVoteRef
  rcases Nat.lt_or_ge floor r.round with habove | hbelow
  · obtain ⟨v, hvd, rfl⟩ := hv.exists_ancestor hc hr habove
    have hvU := hv.blocks_subset hvd
    rw [hv.getBlock_of_mem hU hvd]
    obtain ⟨vote, hvote, hiff⟩ := isVote_eq (d := d) (hU.verified v hvU) hround
    show isVote ctx d v l = _
    rw [hvote]
    congr 1
    rw [Bool.eq_iff_iff, hiff, voteOf_eq_true]
    constructor
    · intro h
      exact ⟨v, hvU, rfl, h⟩
    · rintro ⟨v', hv'U, heq, h⟩
      exact hU.refs v' hv'U v hvU heq ▸ h
  · have hno : voteOf U l r = false := by
      rw [Bool.eq_false_iff, Ne, voteOf_eq_true]
      rintro ⟨v, _, rfl, h, _⟩
      rw [VerifiedBlock.reference_round] at hbelow
      omega
    rw [hno]
    split
    · rename_i b hb
      have hbr : b.round = r.round := by rw [← hv.getBlock_reference hb, VerifiedBlock.reference_round]
      exact isVote_of_lt (by omega)
    · exact bind_ok (assert_of (hbelow.trans hv.floorLe)) _

/-- The cache holds right answers only. -/
def CacheOk (U : Set VerifiedBlock) (l : VerifiedBlock) (allVotes : AllVotes) : Prop :=
  ∀ (r : BlockRef) vote, allVotes[r]? = some vote → vote = voteOf U l r

theorem cacheOk_empty (l : VerifiedBlock) : CacheOk U l ∅ := by
  intro r vote h
  simp at h

theorem isVoteCached_eq (hcache : CacheOk U l allVotes) (h : isVoteRef ctx d l r = .ok (voteOf U l r)) :
    ∃ allVotes', isVoteCached ctx d l allVotes r = .ok (voteOf U l r, allVotes') ∧ CacheOk U l allVotes' := by
  unfold isVoteCached
  split
  · rename_i vote hvote
    exact ⟨allVotes, by rw [hcache r vote hvote], hcache⟩
  · refine ⟨allVotes.insert r (voteOf U l r), bind_ok h _, ?_⟩
    intro r' vote hvote
    rcases BTreeMap.insert_eq_some.mp hvote with ⟨heq, rfl⟩ | ⟨-, hvote⟩
    · rw [heq]
    · exact hcache r' vote hvote

theorem countVotes_eq
    (h : ∀ r ∈ refs, isVoteRef ctx d l r = .ok (voteOf U l r)) (votes : StakeAggregator .quorum)
    (hcache : CacheOk U l allVotes) :
    ∃ allVotes', countVotes ctx d l votes allVotes refs =
        .ok (votes.addUntil ctx.committee ((refs.filter (voteOf U l)).map (·.author)), allVotes') ∧
      CacheOk U l allVotes' := by
  induction refs generalizing votes allVotes with
  | nil => exact ⟨allVotes, rfl, hcache⟩
  | cons r rest ih =>
    have hrest : ∀ r ∈ rest, isVoteRef ctx d l r = .ok (voteOf U l r) := fun r hr =>
      h r (.tail _ hr)
    obtain ⟨allVotes₁, hvote, hcache₁⟩ := isVoteCached_eq hcache (h r (.head _))
    unfold countVotes
    rw [bind_ok hvote]
    by_cases hv : voteOf U l r = true
    · simp only [hv, if_true, filter_cons_of_pos hv, map_cons, addUntil]
      split
      · exact ⟨allVotes₁, rfl, hcache₁⟩
      · exact ih hrest _ hcache₁
    · simp only [hv, filter_cons_of_neg hv]
      exact ih hrest _ hcache₁

/-! ### Certificates -/

open Classical in
noncomputable def certOf (ctx : Context) (U : Set VerifiedBlock) (l c : VerifiedBlock) : Bool :=
  decide (Certifies ctx U c l)

theorem certOf_eq_true : certOf ctx U l c = true ↔ Certifies ctx U c l := by
  simp [certOf]

/-- Counting the refs that are votes counts the votes. -/
theorem certifies_iff : Certifies ctx U c l ↔
    ctx.committee.quorumThreshold ≤
      ctx.committee.stakeOf ((c.ancestors.filter (voteOf U l)).map (·.author)).toFinset := by
  constructor
  · rintro ⟨group, hq, hin⟩
    refine hq.trans (weight_mono _ fun x hx => ?_)
    obtain ⟨v, ⟨hvU, hvc, hvote⟩, rfl⟩ := hin x hx
    simp only [mem_toFinset, mem_map, mem_filter]
    exact ⟨v.reference, ⟨hvc, voteOf_eq_true.mpr ⟨v, hvU, rfl, hvote⟩⟩, rfl⟩
  · intro hq
    refine ⟨_, hq, fun x hx => ?_⟩
    simp only [mem_toFinset, mem_map, mem_filter] at hx
    obtain ⟨r, ⟨hr, hvr⟩, rfl⟩ := hx
    obtain ⟨v, hvU, rfl, hvote⟩ := voteOf_eq_true.mp hvr
    exact ⟨v, ⟨hvU, hr, hvote⟩, rfl⟩

section
variable (hU : Universe ctx U faulty)
include hU

theorem isCertificate_eq (hv : View ctx U floor d)
    (hfloor : floor < l.round) (hc : c ∈ d.blocks) (hround : c.round = l.round + 2)
    (hcache : CacheOk U l allVotes) :
    ∃ allVotes', isCertificate ctx d c l allVotes = .ok (certOf ctx U l c, allVotes') ∧ CacheOk U l allVotes' := by
  have hrefs : ∀ r ∈ c.ancestors, isVoteRef ctx d l r = .ok (voteOf U l r) := by
    intro r hr
    have := (hU.verified c (hv.blocks_subset hc)).ancestorRounds r hr
    exact isVoteRef_eq hU hv hfloor hc hr (by omega)
  obtain ⟨allVotes', hcount, hcache'⟩ := countVotes_eq hrefs {} hcache
  refine ⟨allVotes', ?_, hcache'⟩
  unfold isCertificate
  rw [hcount]
  congr 2
  rw [Bool.eq_iff_iff, addUntil_quorum_iff hU.quorum_pos, certOf_eq_true, certifies_iff]

theorem countCertificates_eq (hv : View ctx U floor d) (hfloor : floor < l.round)
    (h : ∀ c ∈ blocks, c ∈ d.blocks ∧ c.round = l.round + 2) (agg : StakeAggregator .quorum)
    (hcache : CacheOk U l allVotes) :
    countCertificates ctx d l agg allVotes blocks =
      .ok (agg.addUntil ctx.committee ((blocks.filter (certOf ctx U l)).map (·.author))) := by
  induction blocks generalizing agg allVotes with
  | nil => rfl
  | cons c rest ih =>
    have hrest := fun c hc => h c (.tail _ hc)
    obtain ⟨hc, hround⟩ := h c (.head _)
    obtain ⟨allVotes₁, hcert, hcache₁⟩ := isCertificate_eq hU hv hfloor hc hround hcache
    unfold countCertificates
    rw [bind_ok hcert]
    by_cases hcc : certOf ctx U l c = true
    · simp only [hcc, if_true, filter_cons_of_pos hcc, map_cons, addUntil]
      split
      · rfl
      · exact ih hrest _ hcache₁
    · simp only [hcc, filter_cons_of_neg hcc]
      exact ih hrest _ hcache₁

theorem anyCertificate_eq (hv : View ctx U floor d) (hfloor : floor < l.round)
    (h : ∀ c ∈ blocks, c ∈ d.blocks ∧ c.round = l.round + 2) (hcache : CacheOk U l allVotes) :
    anyCertificate ctx d l allVotes blocks = .ok (blocks.any (certOf ctx U l)) := by
  induction blocks generalizing allVotes with
  | nil => rfl
  | cons c rest ih =>
    obtain ⟨hc, hround⟩ := h c (.head _)
    obtain ⟨allVotes₁, hcert, hcache₁⟩ := isCertificate_eq hU hv hfloor hc hround hcache
    unfold anyCertificate
    rw [bind_ok hcert]
    by_cases hcc : certOf ctx U l c = true
    · simp only [hcc, if_true, any_cons, Bool.true_or]
      rfl
    · simp only [hcc, any_cons, Bool.false_or]
      exact ih (fun c hc => h c (.tail _ hc)) hcache₁

/-! ### Blame and support -/

theorem enoughLeaderBlame_eq (hv : View ctx U floor d) (hcommit : d.lastCommitRound ≤ slot.round) :
    ∃ blamed, enoughLeaderBlame ctx d (slot.round + 1) slot.authority = .ok blamed ∧
      (blamed = true ↔ HasQuorum ctx (blames d.blocks slot)) := by
  obtain ⟨blocks, hblocks, hmem⟩ :=
    hv.getUncommittedBlocksAtRound_eq (show d.lastCommitRound < slot.round + 1 by omega)
  refine ⟨_, bind_ok hblocks _, ?_⟩
  rw [addUntil_quorum_iff hU.quorum_pos]
  refine Iff.symm (HasQuorum.iff_list ?_)
  intro b
  simp only [mem_filter, hmem, all_eq_true, decide_eq_true_eq]
  exact and_assoc

theorem enoughLeaderSupport_eq (hv : View ctx U floor d)
    (hfloor : floor < l.round) (hcommit : d.lastCommitRound ≤ l.round) :
    ∃ supported, enoughLeaderSupport ctx d (l.round + 2) l = .ok supported ∧
      (supported = true ↔ HasQuorum ctx (certificates ctx U d.blocks l)) := by
  obtain ⟨blocks, hblocks, hmem⟩ :=
    hv.getUncommittedBlocksAtRound_eq (show d.lastCommitRound < l.round + 2 by omega)
  have hlist : HasQuorum ctx (certificates ctx U d.blocks l) ↔ ctx.committee.quorumThreshold ≤
      ctx.committee.stakeOf ((blocks.filter (certOf ctx U l)).map (·.author)).toFinset := by
    apply HasQuorum.iff_list
    intro b
    rw [mem_filter, hmem, certOf_eq_true]
    exact and_assoc
  unfold enoughLeaderSupport
  rw [bind_ok hblocks]
  by_cases hstake : ctx.committee.reachedQuorum (blocks.map fun b => ctx.committee.stake b.author).sum = true
  · have hcount := countCertificates_eq hU hv hfloor (fun c hc => (hmem c).mp hc) {} (cacheOk_empty l)
    refine ⟨({} : StakeAggregator .quorum).addUntil ctx.committee
      ((blocks.filter (certOf ctx U l)).map (·.author)), ?_, ?_⟩
    · simp only [hstake, if_true]
      exact hcount
    · rw [addUntil_quorum_iff hU.quorum_pos, hlist]
  · refine ⟨false, ?_, ?_⟩
    · simp only [hstake]
      rfl
    · -- All decision blocks together are too light, so the certificates among them are.
      rw [hlist]
      simp only [Committee.reachedQuorum, decide_eq_true_eq, not_le] at hstake
      have h₁ : ctx.committee.stakeOf ((blocks.filter (certOf ctx U l)).map (·.author)).toFinset ≤
          ctx.committee.stakeOf (blocks.map (·.author)).toFinset := by
        apply weight_mono
        intro x hx
        simp only [mem_toFinset, mem_map, mem_filter] at hx ⊢
        obtain ⟨b, ⟨hb, _⟩, hbx⟩ := hx
        exact ⟨b, hb, hbx⟩
      have h₂ := weight_toFinset_le ctx.committee.stake (blocks.map (·.author))
      rw [map_map] at h₂
      simp only [Bool.false_eq_true, false_iff, not_le]
      exact (h₁.trans h₂).trans_lt hstake

end

/-! ### The two rules -/

theorem length_le_one_of_unique {l : List α} (hn : l.Nodup) (h : ∀ a ∈ l, ∀ b ∈ l, a = b) : l.length ≤ 1 := by
  match l, hn, h with
  | [], _, _ => simp
  | [_], _, _ => simp
  | a :: b :: rest, hn, h =>
    have hab : a = b := h a (by simp) b (by simp)
    simp [hab] at hn

section
variable (hU : Universe ctx U faulty)
include hU

theorem floor_lt_of_slot (hv : View ctx U floor d)
    (hfloor : floor ≤ slot.round - 1) (hl : l ∈ d.blocks) (hslot : l.slot = slot) :
    floor < l.round ∧ l.round = slot.round := by
  have hpos := (hU.verified l (hv.blocks_subset hl)).round
  have hround : l.round = slot.round := congrArg Slot.round hslot
  exact ⟨by omega, hround⟩

/-- The direct rule skips a blamed slot and commits a block with a quorum of certificates. -/
theorem tryDirectDecide_eq (hv : View ctx U floor d)
    (ho : o.decisionRound (o.waveNumber slot.round) = slot.round + 2)
    (hfloor : floor ≤ slot.round - 1) (hcommit : d.lastCommitRound ≤ slot.round) :
    ∃ status, tryDirectDecide ctx d o slot = .ok status ∧
      ((status = .skip slot ∧ HasQuorum ctx (blames d.blocks slot)) ∨
      (∃ l ∈ d.blocks, l.slot = slot ∧ status = .commit l ∧
        HasQuorum ctx (certificates ctx U d.blocks l)) ∨ status = .undecided slot) := by
  classical
  obtain ⟨blamed, hblamed, hiff⟩ := enoughLeaderBlame_eq hU hv hcommit
  unfold tryDirectDecide
  rw [bind_ok hblamed]
  by_cases hb : blamed = true
  · exact ⟨.skip slot, by rw [if_pos hb]; rfl, .inl ⟨rfl, hiff.mp hb⟩⟩
  rw [if_neg hb]
  simp only [ho]
  have hsupport : ∀ l ∈ d.getUncommittedBlocksAtSlot slot,
      enoughLeaderSupport ctx d (slot.round + 2) l =
        .ok (decide (HasQuorum ctx (certificates ctx U d.blocks l))) := by
    intro l hl
    obtain ⟨hld, hslot⟩ := hv.mem_getUncommittedBlocksAtSlot.mp hl
    obtain ⟨hfl, hround⟩ := floor_lt_of_slot hU hv hfloor hld hslot
    obtain ⟨b, hb, hiff⟩ := enoughLeaderSupport_eq hU hv hfl (by omega)
    rw [← hround, hb, Bool.eq_iff_iff.mpr (hiff.trans decide_eq_true_iff.symm)]
  rw [bind_ok (filter_eq hsupport)]
  have hmem : ∀ l ∈ (d.getUncommittedBlocksAtSlot slot).filter
      (fun l => decide (HasQuorum ctx (certificates ctx U d.blocks l))),
      l ∈ d.blocks ∧ l.slot = slot ∧ HasQuorum ctx (certificates ctx U d.blocks l) := by
    intro l hl
    rw [mem_filter, hv.mem_getUncommittedBlocksAtSlot, decide_eq_true_eq] at hl
    exact ⟨hl.1.1, hl.1.2, hl.2⟩
  have hone : ((d.getUncommittedBlocksAtSlot slot).filter
      (fun l => decide (HasQuorum ctx (certificates ctx U d.blocks l)))).length ≤ 1 := by
    refine length_le_one_of_unique ((hv.nodup_getUncommittedBlocksAtSlot slot).filter _) ?_
    intro l hl l' hl'
    obtain ⟨hld, hslot, hq⟩ := hmem l hl
    obtain ⟨hld', hslot', hq'⟩ := hmem l' hl'
    obtain ⟨c, hc⟩ := hq.nonempty hU
    obtain ⟨c', hc'⟩ := hq'.nonempty hU
    exact hU.refs l (hv.blocks_subset hld) l' (hv.blocks_subset hld')
      (certifies_unique hU hc.2.2 hc'.2.2 (hslot.trans hslot'.symm))
  generalize (d.getUncommittedBlocksAtSlot slot).filter
    (fun l => decide (HasQuorum ctx (certificates ctx U d.blocks l))) = supported at hmem hone
  rw [bind_ok (assert_of hone)]
  cases supported with
  | nil => exact ⟨.undecided slot, rfl, .inr (.inr rfl)⟩
  | cons l rest =>
    obtain ⟨hld, hslot, hq⟩ := hmem l (.head _)
    exact ⟨.commit l, rfl, .inr (.inl ⟨l, hld, hslot, rfl, hq⟩)⟩

/-- The indirect rule commits the block of the slot that is certified in the anchor's
history, and skips the slot if there is none. -/
theorem decideLeaderFromAnchor_eq (hv : View ctx U floor d)
    (ho : o.decisionRound (o.waveNumber slot.round) = slot.round + 2)
    (hfloor : floor ≤ slot.round - 1) {anchor : VerifiedBlock} (hanchor : anchor ∈ d.blocks)
    (hround : slot.round + 3 ≤ anchor.round) :
    ∃ status, decideLeaderFromAnchor ctx d o anchor slot = .ok status ∧
      ((∃ l ∈ d.blocks, l.slot = slot ∧ status = .commit l ∧ CertifiedFrom ctx U d.blocks anchor l) ∨
      (status = .skip slot ∧ ∀ l ∈ d.blocks, l.slot = slot → ¬CertifiedFrom ctx U d.blocks anchor l)) := by
  classical
  obtain ⟨potential, hpot, hpmem⟩ := hv.ancestorsAtRound_eq hU hanchor
    (show floor < slot.round + 2 by omega) (by omega)
  unfold decideLeaderFromAnchor
  simp only [ho]
  rw [bind_ok hpot]
  have hcert : ∀ l ∈ d.getUncommittedBlocksAtSlot slot, anyCertificate ctx d l ∅ potential =
      .ok (decide (CertifiedFrom ctx U d.blocks anchor l)) := by
    intro l hl
    obtain ⟨hld, hslot⟩ := hv.mem_getUncommittedBlocksAtSlot.mp hl
    obtain ⟨hfl, hr⟩ := floor_lt_of_slot hU hv hfloor hld hslot
    have hin : ∀ c ∈ potential, c ∈ d.blocks ∧ c.round = l.round + 2 := by
      intro c hc
      obtain ⟨h₁, h₂, _⟩ := (hpmem c).mp hc
      exact ⟨h₁, by omega⟩
    rw [anyCertificate_eq hU hv hfl hin (cacheOk_empty l)]
    congr 1
    rw [Bool.eq_iff_iff, any_eq_true, decide_eq_true_iff]
    constructor
    · rintro ⟨c, hc, hcc⟩
      obtain ⟨h₁, h₂, h₃⟩ := (hpmem c).mp hc
      exact ⟨c, h₁, by omega, h₃, certOf_eq_true.mp hcc⟩
    · rintro ⟨c, h₁, h₂, h₃, h₄⟩
      exact ⟨c, (hpmem c).mpr ⟨h₁, by omega, h₃⟩, certOf_eq_true.mpr h₄⟩
  rw [bind_ok (filter_eq hcert)]
  have hmem : ∀ l, l ∈ (d.getUncommittedBlocksAtSlot slot).filter
      (fun l => decide (CertifiedFrom ctx U d.blocks anchor l)) ↔
      (l ∈ d.blocks ∧ l.slot = slot) ∧ CertifiedFrom ctx U d.blocks anchor l := by
    intro l
    rw [mem_filter, hv.mem_getUncommittedBlocksAtSlot, decide_eq_true_eq]
  have hone : ((d.getUncommittedBlocksAtSlot slot).filter
      (fun l => decide (CertifiedFrom ctx U d.blocks anchor l))).length ≤ 1 := by
    refine length_le_one_of_unique ((hv.nodup_getUncommittedBlocksAtSlot slot).filter _) ?_
    intro l hl l' hl'
    obtain ⟨⟨hld, hslot⟩, c, _, _, _, hc⟩ := (hmem l).mp hl
    obtain ⟨⟨hld', hslot'⟩, c', _, _, _, hc'⟩ := (hmem l').mp hl'
    exact hU.refs l (hv.blocks_subset hld) l' (hv.blocks_subset hld')
      (certifies_unique hU hc hc' (hslot.trans hslot'.symm))
  generalize (d.getUncommittedBlocksAtSlot slot).filter
    (fun l => decide (CertifiedFrom ctx U d.blocks anchor l)) = certified at hmem hone
  rw [bind_ok (assert_of hone)]
  cases certified with
  | nil =>
    refine ⟨.skip slot, rfl, .inr ⟨rfl, fun l hl hslot hcf => ?_⟩⟩
    exact absurd ((hmem l).mpr ⟨⟨hl, hslot⟩, hcf⟩) not_mem_nil
  | cons l rest =>
    obtain ⟨⟨hld, hslot⟩, hcf⟩ := (hmem l).mp (.head _)
    exact ⟨.commit l, rfl, .inl ⟨l, hld, hslot, rfl, hcf⟩⟩

end

end Sui.Consensus.BaseCommitter
