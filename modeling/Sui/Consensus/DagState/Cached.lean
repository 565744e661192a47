import Sui.Consensus.DagState.Update

/-! What the cache holds.

`Cached` says that the cache, its index by author, the write buffer and the store
fit together: everything cached is stored or buffered, and everything stored above
the gc round is cached. All operations keep it, and `new` establishes it. Under it
`containsBlock` answers for every block above the gc round whether the DAG has it. -/
namespace Sui.Consensus.DagState

open Sui.Lib BTreeMap Exec

variable (ctx : Context)

/-- The block is a genesis block, cached or stored. -/
def Has (d : DagState) (r : BlockRef) : Prop :=
  (ctx.genesis r).isSome ∨ r ∈ d.recentBlocks ∨ r ∈ d.store.blocks

/-- The index by author follows the cache, which has each block under its ref. -/
structure Indexed (d : DagState) : Prop where
  refs : ∀ authority r, r ∈ d.recentRefsByAuthority authority ↔ r.author = authority ∧ r ∈ d.recentBlocks
  keyed : ∀ (r : BlockRef) info, d.recentBlocks[r]? = some info → info.block.reference = r

structure Cached (d : DagState) : Prop extends Indexed d where
  storeKeyed : ∀ (r : BlockRef) b, d.store.blocks[r]? = some b → b.reference = r
  buffered : ∀ b ∈ d.blocksToWrite, b.reference ∈ d.recentBlocks
  persisted : ∀ r ∈ d.recentBlocks, r ∈ d.store.blocks ∨ r ∈ d.blocksToWrite.map (·.reference)
  stored : ∀ r ∈ d.store.blocks, d.gcRound ctx < r.round → r ∈ d.recentBlocks
  positive : ∀ r, r ∈ d.recentBlocks ∨ r ∈ d.store.blocks → r.round ≠ GENESIS_ROUND

/-- The panics of accepting a block. -/
def acceptPanics : List Panic :=
  [.genesisBlockAccepted, .ownSlotTaken, .parentMissing, .roundGap, .roundInfoMissing]

variable {ctx} {d d' : DagState} {r : BlockRef} {blocks : List VerifiedBlock} {gcRound : Nat}

/-! ### Lookups -/

section
variable (hc : d.Cached ctx)
include hc

theorem has_of_containsBlock (h : d.containsBlock ctx r = true) : d.Has ctx r := by
  unfold containsBlock at h
  simp only at h
  split at h
  · rename_i hfound
    rcases Bool.or_eq_true _ _ |>.mp hfound with hr | hg
    · exact .inr (.inl ((hc.refs _ r).mp (Std.ExtTreeSet.contains_iff_mem.mp hr)).2)
    · exact .inl hg
  · split at h
    · cases h
    · split at h
      · cases h
      · exact .inr (.inr (Std.ExtTreeMap.contains_iff_mem.mp h))

theorem containsBlock_of_mem (hmem : r ∈ d.recentBlocks) : d.containsBlock ctx r = true := by
  have hin : (d.recentRefsByAuthority r.author).contains r = true :=
    Std.ExtTreeSet.contains_iff_mem.mpr ((hc.refs _ r).mpr ⟨rfl, hmem⟩)
  simp [containsBlock, hin]

/-- Above the gc round the cache is complete, and there are no other blocks at round 0. -/
theorem containsBlock_of_has
    (hr : r.round = GENESIS_ROUND ∨ d.gcRound ctx < r.round) (h : d.Has ctx r) : d.containsBlock ctx r = true := by
  rcases h with hg | hmem | hstore
  · simp [containsBlock, hg]
  · exact containsBlock_of_mem hc hmem
  · rcases hr with hr | hr
    · exact absurd hr (hc.positive r (.inr hstore))
    · exact containsBlock_of_mem hc (hc.stored r hstore hr)

theorem containsBlock_iff (hr : r.round = GENESIS_ROUND ∨ d.gcRound ctx < r.round) :
    d.containsBlock ctx r = true ↔ d.Has ctx r :=
  ⟨has_of_containsBlock hc, containsBlock_of_has hc hr⟩

end

/-! ### Accepting -/

/-- A block and its flags, which counting votes leaves alone. -/
def status (info : BlockInfo) : VerifiedBlock × Bool × Bool :=
  (info.block, info.committed, info.included)

/-- Only what is counted changes. -/
def Recounted (d d' : DagState) : Prop :=
  ∃ m roundInfo, d' = { d with recentBlocks := m, roundInfo } ∧ BTreeMap.Agree status d.recentBlocks m

theorem Recounted.refl : Recounted d d := ⟨_, _, rfl, .refl⟩

theorem Recounted.trans (h : Recounted d d') (h' : Recounted d' d'') : Recounted d d'' := by
  obtain ⟨m, roundInfo, rfl, hm⟩ := h
  obtain ⟨m', roundInfo', rfl, hm'⟩ := h'
  exact ⟨m', roundInfo', rfl, hm.trans hm'⟩

theorem addChild_sat : Sat (d.addChild ctx blockRef ancestor) (Recounted d) (· ∈ acceptPanics) := by
  unfold addChild
  split
  · exact .refl
  · refine (Sat.unwrap fun _ => by decide).bind fun info hinfo => ?_
    exact ⟨_, _, rfl, .insert hinfo rfl⟩

variable {b : VerifiedBlock}

theorem updateRoundInfo_sat : Sat (d.updateRoundInfo ctx b) (Recounted d) (· ∈ acceptPanics) := by
  unfold updateRoundInfo
  split
  · exact .refl
  · refine (Sat.require fun _ => by decide).bind fun _ _ => ?_
    refine (Sat.unwrap fun _ => by decide).bind fun _ _ => ?_
    refine (Sat.require fun _ => by decide).bind fun _ _ => ?_
    refine (Sat.unwrap fun _ => by decide).bind fun _ _ => ?_
    exact ⟨_, _, rfl, .refl⟩

theorem countBlock_sat : Sat (d.countBlock ctx b) (Recounted d) (· ∈ acceptPanics) := by
  unfold countBlock
  split
  · refine (Sat.foldlM_keep (P := Recounted d) .refl fun a _ t ht => ?_).bind fun t ht => ?_
    · exact addChild_sat.mono fun _ => ht.trans
    · exact updateRoundInfo_sat.mono fun _ => ht.trans
  · exact .refl

/-- The block is cached, and of the others only what is counted changes. -/
def Caches (ctx : Context) (b : VerifiedBlock) (d d' : DagState) : Prop :=
  ∃ m roundInfo,
    d' = { d.cacheBlock b with
      recentBlocks := m
      roundInfo
      thresholdClock := d.thresholdClock.addBlock ctx.committee b.reference
      highestAcceptedRound := max d.highestAcceptedRound b.round } ∧
    BTreeMap.Agree status (d.recentBlocks.insert b.reference { block := b }) m

theorem updateBlockMetadata_sat : Sat (d.updateBlockMetadata ctx b) (Caches ctx b d) (· ∈ acceptPanics) := by
  refine countBlock_sat.bind fun _ hcount => ?_
  obtain ⟨m, roundInfo, rfl, hm⟩ := hcount
  exact ⟨m, roundInfo, rfl, hm⟩

section
variable (h : Caches ctx b d d')
include h

theorem Caches.mem_iff : r ∈ d'.recentBlocks ↔ b.reference = r ∨ r ∈ d.recentBlocks := by
  obtain ⟨m, roundInfo, rfl, hm⟩ := h
  rw [← mem_insert_iff]
  exact hm.mem_iff

theorem Caches.indexed (hi : d.Indexed) : d'.Indexed := by
  have hmem := fun r => h.mem_iff (r := r)
  obtain ⟨m, roundInfo, rfl, hm⟩ := h
  refine ⟨fun a r => ?_, fun r info hr => ?_⟩
  · rw [hmem]
    show r ∈ Function.update d.recentRefsByAuthority b.author _ a ↔ _
    by_cases ha : a = b.author
    · subst ha
      have hauthor : b.reference = r → r.author = b.author := fun heq => heq ▸ rfl
      rw [Function.update_self, BTreeSet.mem_insert_iff, hi.refs, and_or_left, and_iff_right_of_imp hauthor]
    · rw [Function.update_of_ne ha, hi.refs]
      constructor
      · rintro ⟨hra, hr⟩
        exact ⟨hra, .inr hr⟩
      · rintro ⟨hra, rfl | hr⟩
        · exact absurd hra.symm ha
        · exact ⟨hra, hr⟩
  · obtain ⟨info', hinfo', hstatus⟩ := hm.get hr
    have hblock : info'.block = info.block := congrArg Prod.fst hstatus
    rw [← hblock]
    rcases insert_eq_some.mp hinfo' with ⟨hbr, rfl⟩ | ⟨-, hinfo'⟩
    · exact hbr
    · exact hi.keyed r info' hinfo'

end

/-- Accepting a block adds it, and leaves the commits alone. -/
theorem acceptBlock_sat (hc : d.Cached ctx) :
    Sat (d.acceptBlock ctx b) (fun d' => d'.Cached ctx ∧ (∀ r, d'.Has ctx r ↔ d.Has ctx r ∨ r = b.reference) ∧
      d'.lastCommit = d.lastCommit) (· ∈ acceptPanics) := by
  refine (Sat.require fun _ => by decide).bind fun _ hpos => ?_
  split
  · rename_i hhas
    refine ⟨hc, fun r => ⟨.inl, ?_⟩, rfl⟩
    rintro (hr | rfl)
    · exact hr
    · exact has_of_containsBlock hc hhas
  · refine (Sat.require fun _ => by decide).bind fun _ _ => ?_
    refine updateBlockMetadata_sat.bind fun t ht => ?_
    have hmem := fun r => ht.mem_iff (r := r)
    have hindexed := ht.indexed hc.toIndexed
    obtain ⟨m, roundInfo, rfl, _⟩ := ht
    have hbuffered := forall_mem_concat.mpr ⟨fun c hcw => (hmem _).mpr (.inr (hc.buffered c hcw)),
      (hmem _).mpr (.inl rfl)⟩
    refine ⟨⟨⟨hindexed.refs, hindexed.keyed⟩, hc.storeKeyed, hbuffered, ?_, ?_, ?_⟩, ?_, rfl⟩
    · intro r hr
      rw [List.map_append, List.mem_append]
      rcases (hmem r).mp hr with rfl | hr
      · exact .inr (.inr (List.mem_singleton.mpr rfl))
      · rcases hc.persisted r hr with hs | hw
        · exact .inl hs
        · exact .inr (.inl hw)
    · exact fun r hr hgc => (hmem r).mpr (.inr (hc.stored r hr hgc))
    · rintro r (hr | hr)
      · rcases (hmem r).mp hr with rfl | hr
        · exact hpos
        · exact hc.positive r (.inl hr)
      · exact hc.positive r (.inr hr)
    · intro r
      show (_ ∨ r ∈ m ∨ r ∈ d.store.blocks) ↔ (_ ∨ r ∈ d.recentBlocks ∨ r ∈ d.store.blocks) ∨ _
      rw [show r ∈ m ↔ b.reference = r ∨ r ∈ d.recentBlocks from hmem r, eq_comm (a := r), or_assoc,
        or_left_comm, or_comm]

theorem acceptBlocks_sat (hc : d.Cached ctx) :
    Sat (d.acceptBlocks ctx blocks) (fun d' => d'.Cached ctx ∧
      (∀ r, d'.Has ctx r ↔ d.Has ctx r ∨ r ∈ blocks.map (·.reference)) ∧
      d'.lastCommit = d.lastCommit) (· ∈ acceptPanics) := by
  induction blocks generalizing d with
  | nil => exact ⟨hc, fun r => by simp, rfl⟩
  | cons b rest ih =>
    rw [acceptBlocks, List.foldlM_cons]
    refine (acceptBlock_sat hc).bind ?_
    rintro t ⟨hct, hhas, hcommit⟩
    refine (ih hct).mono ?_
    rintro d' ⟨hc', hhas', hcommit'⟩
    refine ⟨hc', fun r => ?_, hcommit'.trans hcommit⟩
    rw [hhas', hhas, List.map_cons, List.mem_cons, or_assoc]

/-! ### Flags -/

/-- A block and its children, which setting flags leaves alone. -/
def votes (info : BlockInfo) : VerifiedBlock × Finset BlockRef × StakeAggregator .quorum :=
  (info.block, info.children, info.childrenStake)

/-- Only flags of cached blocks change. -/
def SameVotes (d d' : DagState) : Prop :=
  ∃ m, d' = { d with recentBlocks := m } ∧ BTreeMap.Agree votes d.recentBlocks m

namespace SameVotes

theorem refl : SameVotes d d := ⟨_, rfl, .refl⟩

theorem trans (h : SameVotes d d') (h' : SameVotes d' d'') : SameVotes d d'' := by
  obtain ⟨m, rfl, hm⟩ := h
  obtain ⟨m', rfl, hm'⟩ := h'
  exact ⟨m', rfl, hm.trans hm'⟩

theorem has_iff (h : SameVotes d d') : d'.Has ctx r ↔ d.Has ctx r := by
  obtain ⟨m, rfl, hm⟩ := h
  show (_ ∨ r ∈ m ∨ _) ↔ (_ ∨ _ ∨ _)
  rw [hm.mem_iff]

theorem cached (h : SameVotes d d') (hc : d.Cached ctx) : d'.Cached ctx := by
  obtain ⟨m, rfl, hm⟩ := h
  have hmem : ∀ r, r ∈ m ↔ r ∈ d.recentBlocks := fun r => hm.mem_iff
  refine ⟨⟨fun a r => ?_, fun r info hr => ?_⟩, hc.storeKeyed, fun b hb => ?_, fun r hr => ?_,
    fun r hr hgc => ?_, fun r hr => ?_⟩
  · exact (hc.refs a r).trans (and_congr_right fun _ => (hmem r).symm)
  · obtain ⟨info', hinfo', hvotes⟩ := hm.get hr
    have hblock : info'.block = info.block := congrArg Prod.fst hvotes
    rw [← hblock]
    exact hc.keyed r info' hinfo'
  · exact (hmem _).mpr (hc.buffered b hb)
  · exact hc.persisted r ((hmem r).mp hr)
  · exact (hmem r).mpr (hc.stored r hr hgc)
  · exact hc.positive r (hr.imp_left (hmem r).mp)

end SameVotes

theorem setCommitted_sameVotes (h : d.setCommitted r = .ok (d', first)) : SameVotes d d' := by
  unfold setCommitted at h
  simp only [bind_eq_ok, expect_eq_ok] at h
  obtain ⟨info, hinfo, h⟩ := h
  split at h
  · cases h
    exact .refl
  · cases h
    exact ⟨_, rfl, .insert hinfo rfl⟩

theorem linkTargets_sameVotes
    (h : linkTargets gcRound fuel d targets linked = .ok (d', linked')) : SameVotes d d' := by
  induction fuel generalizing d targets linked with
  | zero =>
    cases targets with
    | nil =>
      cases h
      exact .refl
    | cons r rest => cases h
  | succ fuel ih =>
    cases targets with
    | nil =>
      cases h
      exact .refl
    | cons r rest =>
      unfold linkTargets at h
      split at h
      · exact ih h
      · simp only [bind_eq_ok, expect_eq_ok] at h
        obtain ⟨info, hinfo, h⟩ := h
        split at h
        · exact ih h
        · refine SameVotes.trans ⟨_, rfl, ?_⟩ (ih h)
          exact .insert hinfo rfl

theorem linkCausalHistory_sameVotes (h : d.linkCausalHistory ctx r = .ok (d', linked)) : SameVotes d d' :=
  linkTargets_sameVotes h

/-! ### Commits and flushes -/

/-- A commit that does not lower the leader round keeps the cache complete. -/
theorem addCommit_cached (hc : d.Cached ctx)
    (hround : d.lastCommitRound ≤ commit.round) (h : d.addCommit commit = .ok d') :
    d'.Cached ctx ∧ (∀ r, d'.Has ctx r ↔ d.Has ctx r) := by
  unfold addCommit at h
  rw [bind_eq_ok] at h
  obtain ⟨new, _, h⟩ := h
  cases new with
  | false =>
    cases h
    exact ⟨hc, fun _ => .rfl⟩
  | true =>
    cases h
    refine ⟨⟨⟨hc.refs, hc.keyed⟩, hc.storeKeyed, hc.buffered, hc.persisted, fun r hr hgc => ?_,
      hc.positive⟩, fun _ => .rfl⟩
    exact hc.stored r hr ((ctx.calculateGcRound_mono hround).trans_lt hgc)

theorem writeBuffered_cached (hc : d.Cached ctx) :
    d.writeBuffered.Cached ctx ∧ ∀ r, d.writeBuffered.Has ctx r ↔ d.Has ctx r := by
  have hmem : ∀ r, r ∈ d.writeBuffered.store.blocks ↔ r ∈ d.store.blocks ∨ r ∈ d.blocksToWrite.map (·.reference) :=
    fun r => mem_foldl_insert _ _ _ _ r
  have hbuffered : ∀ r ∈ d.blocksToWrite.map (·.reference), r ∈ d.recentBlocks := by
    intro r hr
    obtain ⟨b, hb, rfl⟩ := List.mem_map.mp hr
    exact hc.buffered b hb
  refine ⟨⟨⟨hc.refs, hc.keyed⟩, fun r b hr => ?_, fun b hb => ?_, fun r hr => ?_, fun r hr hgc => ?_,
    fun r hr => ?_⟩, fun r => ?_⟩
  · rcases get_foldl_insert _ _ _ _ hr with hr | ⟨c, _, hcr, rfl⟩
    · exact hc.storeKeyed r b hr
    · exact hcr
  · cases hb
  · exact .inl ((hmem r).mpr (hc.persisted r hr))
  · rcases (hmem r).mp hr with hr | hr
    · exact hc.stored r hr hgc
    · exact hbuffered r hr
  · rcases hr with hr | hr
    · exact hc.positive r (.inl hr)
    · rcases (hmem r).mp hr with hr | hr
      · exact hc.positive r (.inr hr)
      · exact hc.positive r (.inl (hbuffered r hr))
  · show (_ ∨ r ∈ d.recentBlocks ∨ r ∈ d.writeBuffered.store.blocks) ↔ (_ ∨ _ ∨ _)
    rw [hmem]
    constructor
    · rintro (hg | hr | hr | hr)
      · exact .inl hg
      · exact .inr (.inl hr)
      · exact .inr (.inr hr)
      · exact .inr (.inl (hbuffered r hr))
    · rintro (hg | hr | hr)
      · exact .inl hg
      · exact .inr (.inl hr)
      · exact .inr (.inr (.inl hr))

theorem evictionRound_le (lastRound gcRound cachedRounds : Nat) :
    evictionRound lastRound gcRound cachedRounds ≤ gcRound :=
  min_le_left _ _

section
variable (hi : d.Indexed)
include hi

theorem mem_evicted :
    r ∈ (d.recentRefsByAuthority a).toList.takeWhile (fun r => r.round ≤ bound) ↔
      (r.author = a ∧ r ∈ d.recentBlocks) ∧ r.round ≤ bound := by
  rw [mem_takeWhile_of_pairwise (BTreeSet.pairwise_toList _), Std.ExtTreeSet.mem_toList, hi.refs, decide_eq_true_eq]
  intro x y hxy hy
  rw [decide_eq_true_eq] at hy ⊢
  exact (BlockRef.round_le_of_le hxy.le).trans hy

/-- Eviction takes out the blocks of one authority up to its eviction round. -/
theorem get_evictAuthority (a : Nat) (r : BlockRef) :
    (d.evictAuthority ctx a).recentBlocks[r]? =
      if r.author = a ∧ r.round ≤ d.calculateAuthorityEvictionRound ctx a then none else d.recentBlocks[r]? := by
  show (List.foldl _ _ _)[r]? = _
  rw [get_foldl_erase]
  simp only [mem_evicted hi]
  by_cases hr : r.author = a ∧ r.round ≤ d.calculateAuthorityEvictionRound ctx a
  · by_cases hmem : r ∈ d.recentBlocks
    · rw [if_pos ⟨⟨hr.1, hmem⟩, hr.2⟩, if_pos hr]
    · rw [if_neg (fun h => hmem h.1.2), if_pos hr]
      exact not_mem_iff_get.mp hmem
  · rw [if_neg (fun h => hr ⟨h.1.1, h.2⟩), if_neg hr]

theorem mem_evictAuthority : r ∈ (d.evictAuthority ctx a).recentBlocks ↔
      r ∈ d.recentBlocks ∧ ¬(r.author = a ∧ r.round ≤ d.calculateAuthorityEvictionRound ctx a) := by
  rw [mem_iff_get, mem_iff_get, get_evictAuthority hi]
  by_cases hr : r.author = a ∧ r.round ≤ d.calculateAuthorityEvictionRound ctx a
  · simp [hr]
  · simp [hr]

theorem evictAuthority_indexed (a : Nat) : (d.evictAuthority ctx a).Indexed := by
  refine ⟨fun authority r => ?_, fun r info hr => ?_⟩
  · rw [mem_evictAuthority hi]
    show r ∈ Function.update d.recentRefsByAuthority a _ authority ↔ _
    by_cases ha : authority = a
    · subst ha
      rw [Function.update_self, BTreeSet.mem_foldl_erase, mem_evicted hi, hi.refs]
      constructor
      · rintro ⟨⟨hra, hr⟩, hkept⟩
        exact ⟨hra, hr, fun hev => hkept ⟨⟨hra, hr⟩, hev.2⟩⟩
      · rintro ⟨hra, hr, hkept⟩
        exact ⟨⟨hra, hr⟩, fun hev => hkept ⟨hra, hev.2⟩⟩
    · rw [Function.update_of_ne ha, hi.refs]
      constructor
      · rintro ⟨hra, hr⟩
        exact ⟨hra, hr, fun hev => ha (hra.symm.trans hev.1)⟩
      · rintro ⟨hra, hr, _⟩
        exact ⟨hra, hr⟩
  · rw [get_evictAuthority hi] at hr
    split at hr
    · cases hr
    · exact hi.keyed r info hr

end

/-- With an empty buffer, what is evicted is in the store. -/
theorem evictAuthority_cached (hc : d.Cached ctx) (hbuffer : d.blocksToWrite = []) (a : Nat) :
    (d.evictAuthority ctx a).Cached ctx ∧ ∀ r, (d.evictAuthority ctx a).Has ctx r ↔ d.Has ctx r := by
  have hmem : ∀ r, r ∈ (d.evictAuthority ctx a).recentBlocks ↔ r ∈ d.recentBlocks ∧
      ¬(r.author = a ∧ r.round ≤ d.calculateAuthorityEvictionRound ctx a) :=
    fun r => mem_evictAuthority hc.toIndexed
  have hstored : ∀ r ∈ d.recentBlocks, r ∈ d.store.blocks := by
    intro r hr
    rcases hc.persisted r hr with hs | hw
    · exact hs
    · rw [hbuffer] at hw
      cases hw
  refine ⟨⟨evictAuthority_indexed hc.toIndexed a, hc.storeKeyed, fun b hb => ?_,
    fun r hr => .inl (hstored r ((hmem r).mp hr).1), fun r hr hgc => ?_, fun r hr => ?_⟩, fun r => ?_⟩
  · rw [show (d.evictAuthority ctx a).blocksToWrite = [] from hbuffer] at hb
    cases hb
  · refine (hmem r).mpr ⟨hc.stored r hr hgc, fun hev => ?_⟩
    have hle := evictionRound_le (lastRoundOf (d.recentRefsByAuthority a)) (d.gcRound ctx)
      ctx.parameters.dagStateCachedRounds
    exact absurd (hgc.trans_le (hev.2.trans hle)) (lt_irrefl _)
  · exact hc.positive r (hr.imp_left fun hr => ((hmem r).mp hr).1)
  · show (_ ∨ r ∈ (d.evictAuthority ctx a).recentBlocks ∨ r ∈ d.store.blocks) ↔ (_ ∨ _ ∨ _)
    rw [hmem]
    constructor
    · rintro (hg | ⟨hr, _⟩ | hr)
      · exact .inl hg
      · exact .inr (.inl hr)
      · exact .inr (.inr hr)
    · rintro (hg | hr | hr)
      · exact .inl hg
      · exact .inr (.inr (hstored r hr))
      · exact .inr (.inr hr)

theorem evictAuthorities_cached (hc : d.Cached ctx) (hbuffer : d.blocksToWrite = [])
    (authorities : List Nat) : (authorities.foldl (evictAuthority ctx) d).Cached ctx ∧
      ∀ r, (authorities.foldl (evictAuthority ctx) d).Has ctx r ↔ d.Has ctx r := by
  induction authorities generalizing d with
  | nil => exact ⟨hc, fun _ => .rfl⟩
  | cons a rest ih =>
    obtain ⟨hc', hhas⟩ := evictAuthority_cached hc hbuffer a
    obtain ⟨hc'', hhas'⟩ := ih hc' hbuffer
    exact ⟨hc'', fun r => (hhas' r).trans (hhas r)⟩

theorem flush_cached (hc : d.Cached ctx) :
    (d.flush ctx).Cached ctx ∧ ∀ r, (d.flush ctx).Has ctx r ↔ d.Has ctx r := by
  unfold flush
  split
  · exact ⟨hc, fun _ => .rfl⟩
  · obtain ⟨hw, hhas⟩ := writeBuffered_cached hc
    obtain ⟨he, hhas'⟩ := evictAuthorities_cached hw rfl (List.range ctx.committee.size)
    exact ⟨⟨⟨he.refs, he.keyed⟩, he.storeKeyed, he.buffered, he.persisted, he.stored, he.positive⟩,
      fun r => (hhas' r).trans (hhas r)⟩

theorem lastCommit_evictAuthorities (authorities : List Nat) :
    (authorities.foldl (evictAuthority ctx) d).lastCommit = d.lastCommit := by
  induction authorities generalizing d with
  | nil => rfl
  | cons a rest ih => exact ih

/-! ### Recovery -/

/-- Stored blocks are under their own refs, by known authorities, above the genesis round. -/
def StoredBlocks (ctx : Context) (store : Store) : Prop :=
  ∀ (r : BlockRef) b, store.blocks[r]? = some b →
    b.reference = r ∧ b.round ≠ GENESIS_ROUND ∧ b.author < ctx.committee.size

theorem mem_recoveredBlocks (hstore : StoredBlocks ctx d.store) :
    b ∈ d.recoveredBlocks ctx ↔
      d.store.blocks[b.reference]? = some b ∧ d.storedEvictionRound ctx b.author < b.round := by
  unfold recoveredBlocks Store.scanBlocksByAuthor
  simp only [List.mem_flatMap, List.mem_range, List.mem_map, List.mem_filter, decide_eq_true_eq,
    Prod.exists, mem_toList_iff]
  constructor
  · rintro ⟨a, _, r, _, ⟨hr, rfl, hlt⟩, rfl⟩
    obtain ⟨rfl, _⟩ := hstore r _ hr
    exact ⟨hr, hlt⟩
  · rintro ⟨hr, hlt⟩
    exact ⟨b.author, (hstore _ b hr).2.2, b.reference, b, ⟨hr, rfl, hlt⟩, rfl⟩

/-- Recovering a list of blocks caches these. -/
theorem updateBlocksMetadata_spec (h : blocks.foldlM (updateBlockMetadata ctx) d = .ok d') (hi : d.Indexed) :
    d'.Indexed ∧ (∀ r, r ∈ d'.recentBlocks ↔ r ∈ d.recentBlocks ∨ r ∈ blocks.map (·.reference)) ∧
      d'.store = d.store ∧ d'.lastCommit = d.lastCommit ∧ d'.blocksToWrite = d.blocksToWrite := by
  induction blocks generalizing d with
  | nil =>
    cases h
    exact ⟨hi, fun r => by simp, rfl, rfl, rfl⟩
  | cons b rest ih =>
    obtain ⟨t, ht, hrest⟩ := foldlM_cons_eq_ok.mp h
    replace ht := updateBlockMetadata_sat.ok ht
    obtain ⟨hi', hmem, hs, hl, hw⟩ := ih hrest (ht.indexed hi)
    have hmem' := fun r => ht.mem_iff (r := r)
    obtain ⟨m, roundInfo, rfl, _⟩ := ht
    refine ⟨hi', fun r => ?_, hs, hl, hw⟩
    rw [hmem, hmem', List.map_cons, List.mem_cons, eq_comm (a := r), or_assoc, or_left_comm]

theorem recoverCommitStatus_sameVotes
    (h : recoverCommitStatus gcRound index d = .ok (d', more)) : SameVotes d d' := by
  unfold recoverCommitStatus at h
  split at h
  · cases h
    exact .refl
  · split at h
    · cases h
      exact .refl
    · rw [bind_eq_ok] at h
      obtain ⟨t, ht, h⟩ := h
      cases h
      refine foldlM_inv (P := SameVotes d) ?_ .refl ht
      intro s r s' _ hs hstep
      simp only [bind_eq_ok, Prod.exists] at hstep
      obtain ⟨_, _, hset, _, _, hstep⟩ := hstep
      cases hstep
      exact hs.trans (setCommitted_sameVotes hset)

theorem recoverCommitStatuses_sameVotes (h : recoverCommitStatuses gcRound index d = .ok d') : SameVotes d d' := by
  induction index generalizing d with
  | zero =>
    simp only [recoverCommitStatuses, bind_eq_ok, Prod.exists] at h
    obtain ⟨_, _, hstep, h⟩ := h
    cases h
    exact recoverCommitStatus_sameVotes hstep
  | succ index ih =>
    simp only [recoverCommitStatuses, bind_eq_ok, Prod.exists] at h
    obtain ⟨_, _, hstep, h⟩ := h
    split at h
    · exact (recoverCommitStatus_sameVotes hstep).trans (ih h)
    · cases h
      exact recoverCommitStatus_sameVotes hstep

theorem recoverCommittedFlags_sameVotes (h : d.recoverCommittedFlags ctx = .ok d') : SameVotes d d' := by
  unfold recoverCommittedFlags at h
  split at h
  · exact recoverCommitStatuses_sameVotes h
  · cases h
    exact .refl

theorem recoverIncludedFlags_sameVotes (h : d.recoverIncludedFlags ctx = .ok d') : SameVotes d d' := by
  refine foldlM_inv (P := SameVotes d) ?_ .refl h
  intro s b s' _ hs hstep
  simp only [bind_eq_ok, Prod.exists] at hstep
  obtain ⟨_, _, hlink, hstep⟩ := hstep
  cases hstep
  exact hs.trans (linkCausalHistory_sameVotes hlink)

/-- A recovered state has exactly the stored blocks. -/
theorem new_cached {store : Store} (hstore : StoredBlocks ctx store) (h : new ctx store = .ok d) :
    d.Cached ctx ∧ d.store = store ∧ ∀ r, d.Has ctx r ↔ (ctx.genesis r).isSome ∨ r ∈ store.blocks := by
  simp only [new, recoveredCommits, bind_eq_ok] at h
  obtain ⟨_, ⟨⟨rounds, scoring⟩, _, hcommits⟩, d₁, hblocks, d₂, hstatus, hlink⟩ := h
  cases hcommits
  obtain ⟨hindexed, hmem, hs, hl, hw⟩ := updateBlocksMetadata_spec hblocks
    ⟨fun a r => by simp, fun r info hr => by simp at hr⟩
  replace hs : d₁.store = store := hs
  have hrecovered : ∀ r, r ∈ d₁.recentBlocks → r ∈ store.blocks := by
    intro r hr
    rcases (hmem r).mp hr with hr | hr
    · simp at hr
    · obtain ⟨b, hb, rfl⟩ := List.mem_map.mp hr
      rw [List.mem_insertionSort, mem_recoveredBlocks hstore] at hb
      exact mem_of_get hb.1
  have hcached : d₁.Cached ctx := by
    refine ⟨hindexed, fun r b hr => ?_, fun b hb => ?_, fun r hr => ?_, fun r hr hgc => ?_, fun r hr => ?_⟩
    · rw [hs] at hr
      exact (hstore r b hr).1
    · rw [hw] at hb
      cases hb
    · rw [hs]
      exact .inl (hrecovered r hr)
    · rw [hs] at hr
      obtain ⟨b, hb⟩ := mem_iff_get.mp hr
      obtain ⟨rfl, _⟩ := hstore r b hb
      refine (hmem _).mpr (.inr (List.mem_map_of_mem ?_))
      rw [List.mem_insertionSort, mem_recoveredBlocks hstore]
      refine ⟨hb, (evictionRound_le _ _ _).trans_lt ?_⟩
      unfold gcRound lastCommitRound at hgc
      rw [hl] at hgc
      exact hgc
    · have hr' : r ∈ store.blocks := by
        rcases hr with hr | hr
        · exact hrecovered r hr
        · exact hs ▸ hr
      obtain ⟨b, hb⟩ := mem_iff_get.mp hr'
      obtain ⟨rfl, hpos, _⟩ := hstore r b hb
      exact hpos
  have hsame : SameVotes d₁ d :=
    (recoverCommittedFlags_sameVotes hstatus).trans (recoverIncludedFlags_sameVotes hlink)
  refine ⟨hsame.cached hcached, ?_, fun r => hsame.has_iff.trans ?_⟩
  · obtain ⟨m, rfl, _⟩ := hsame
    exact hs
  · show (_ ∨ r ∈ d₁.recentBlocks ∨ r ∈ d₁.store.blocks) ↔ _
    rw [hs]
    constructor
    · rintro (hg | hr | hr)
      · exact .inl hg
      · exact .inr (hrecovered r hr)
      · exact .inr hr
    · rintro (hg | hr)
      · exact .inl hg
      · exact .inr (.inr hr)

end Sui.Consensus.DagState
