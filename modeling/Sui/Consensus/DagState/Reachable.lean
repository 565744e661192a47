import Sui.Consensus.DagState.Counted

/-! States of the DAG that can be reached.

A state is recovered from a store and then changed by accepting blocks, commits of
cached leaders, marks, links and flushes. In every such state the cache is complete
above the gc round, and the votes are counted exactly (`Reachable.ready`, `votes_counted`). -/
namespace Sui.Consensus.DagState

open Sui.Lib BTreeMap Exec List

variable (ctx : Context)

/-- Ready to accept blocks. -/
structure Ready (d : DagState) : Prop where
  cached : d.Cached ctx
  counted : ctx.protocolConfig.enableV3 = true → d.Counted ctx
  next : ctx.protocolConfig.enableV3 = true → d.gcRound ctx < d.nextRound ctx

inductive Reachable : DagState → Prop
  | new {store d} : StoredBlocks ctx store → DagState.new ctx store = .ok d → Reachable d
  | acceptBlock {d d'} (b) : Reachable d → d.acceptBlock ctx b = .ok d' → Reachable d'
  | setCommitted {d d' r first} : Reachable d → d.setCommitted r = .ok (d', first) → Reachable d'
  | linkCausalHistory {d d' r linked} : Reachable d → d.linkCausalHistory ctx r = .ok (d', linked) →
      Reachable d'
  | addCommit {d d' commit} : Reachable d → commit.leader ∈ d.recentBlocks →
      d.lastCommitRound ≤ commit.round → d.addCommit commit = .ok d' → Reachable d'
  | addFinalizedCommit {d} (commitRef rejected) : Reachable d →
      Reachable (d.addFinalizedCommit commitRef rejected)
  | flush {d} : Reachable d → Reachable (d.flush ctx)

variable {ctx} {d d' : DagState} {blocks : List VerifiedBlock} {store : Store}

/-! ### Steps -/

theorem acceptBlock_ready (h : d.Ready ctx) (hok : d.acceptBlock ctx b = .ok d') : d'.Ready ctx := by
  have hcached := ((acceptBlock_sat h.cached).ok hok).1
  unfold acceptBlock at hok
  simp only [bind_eq_ok] at hok
  obtain ⟨_, _, hok⟩ := hok
  split at hok
  · cases hok
    exact h
  · rename_i hcontains
    simp only [bind_eq_ok] at hok
    obtain ⟨_, _, t, ht, hok⟩ := hok
    cases hok
    have hnew : b.reference ∉ d.recentBlocks := fun hmem =>
      hcontains (containsBlock_of_mem h.cached hmem)
    refine ⟨hcached, fun hv3 => ?_, fun hv3 => ?_⟩
    · have hc := (updateBlockMetadata_counted hv3 (h.counted hv3) hnew ht).1
      exact ⟨hc.roundInfo, hc.parents, hc.children, hc.childrenStake⟩
    · have hmono := (updateBlockMetadata_counted hv3 (h.counted hv3) hnew ht).2
      have hgc : t.gcRound ctx = d.gcRound ctx := by
        obtain ⟨m, roundInfo, rfl, _⟩ := updateBlockMetadata_sat.ok ht
        rfl
      show t.gcRound ctx < t.nextRound ctx
      rw [hgc]
      exact (h.next hv3).trans_le hmono

theorem acceptBlocks_ready (h : d.Ready ctx) (hok : d.acceptBlocks ctx blocks = .ok d') : d'.Ready ctx :=
  foldlM_inv (fun _ _ _ _ hs hstep => acceptBlock_ready hs hstep) h hok

theorem sameVotes_ready (hs : SameVotes d d') (h : d.Ready ctx) : d'.Ready ctx := by
  refine ⟨hs.cached h.cached, fun hv3 => hs.counted (h.counted hv3), fun hv3 => ?_⟩
  obtain ⟨m, rfl, _⟩ := hs
  exact h.next hv3

/-- The leader of a commit is cached, so the gc round stays below the next round. -/
theorem addCommit_ready (h : d.Ready ctx)
    (hleader : commit.leader ∈ d.recentBlocks) (hround : d.lastCommitRound ≤ commit.round)
    (hok : d.addCommit commit = .ok d') : d'.Ready ctx := by
  have hcached := (addCommit_cached h.cached hround hok).1
  unfold addCommit at hok
  rw [bind_eq_ok] at hok
  obtain ⟨new, _, hok⟩ := hok
  cases new with
  | false =>
    cases hok
    exact h
  | true =>
    cases hok
    refine ⟨hcached, fun hv3 => ?_, fun hv3 => ?_⟩
    · exact (h.counted hv3).evict (ctx.calculateGcRound_mono hround) rfl fun r => .inl rfl
    · have hold := h.next hv3
      have hgc : ctx.calculateGcRound commit.round ≤ commit.leader.round := Nat.sub_le _ _
      show ctx.calculateGcRound commit.round < nextRoundOf (ctx.calculateGcRound commit.round) d.roundInfo
      by_cases hne : d.roundInfo = []
      · rw [hne]
        exact Nat.lt_succ_self _
      · have hsame : nextRoundOf (ctx.calculateGcRound commit.round) d.roundInfo = d.nextRound ctx := by
          unfold nextRound nextRoundOf
          cases hl : d.roundInfo.getLast? with
          | none => exact absurd (getLast?_eq_none_iff.mp hl) hne
          | some info => rfl
        rw [hsame]
        by_cases hlow : d.gcRound ctx < commit.leader.round
        · exact hgc.trans_lt ((h.counted hv3).roundInfo.reached _ hleader hlow)
        · omega

theorem evictAuthorities_get {refs : List Nat} (hc : d.Cached ctx) (hbuffer : d.blocksToWrite = [])
    (r : BlockRef) : (refs.foldl (evictAuthority ctx) d).recentBlocks[r]? = d.recentBlocks[r]? ∨
      ((refs.foldl (evictAuthority ctx) d).recentBlocks[r]? = none ∧ r.round ≤ d.gcRound ctx) := by
  induction refs generalizing d with
  | nil => exact .inl rfl
  | cons a rest ih =>
    rw [foldl_cons]
    rcases ih (evictAuthority_cached hc hbuffer a).1 hbuffer with heq | ⟨hnone, hle⟩
    · rw [heq, get_evictAuthority hc.toIndexed]
      split
      · rename_i hev
        exact .inr ⟨rfl, hev.2.trans (evictionRound_le _ _ _)⟩
      · exact .inl rfl
    · exact .inr ⟨hnone, hle⟩

theorem roundInfo_evictAuthorities (authorities : List Nat) :
    (authorities.foldl (evictAuthority ctx) d).roundInfo = d.roundInfo := by
  induction authorities generalizing d with
  | nil => rfl
  | cons a rest ih => exact ih

theorem flush_ready (h : d.Ready ctx) : (d.flush ctx).Ready ctx := by
  have hcached := (flush_cached h.cached).1
  by_cases hnone : d.blocksToWrite.isEmpty ∧ d.commitsToWrite.isEmpty ∧ d.commitInfoToWrite.isEmpty ∧
      d.finalizedCommitsToWrite.isEmpty
  · unfold flush
    rw [if_pos hnone]
    exact h
  · have hgc : ((range ctx.committee.size).foldl (evictAuthority ctx) d.writeBuffered).gcRound ctx =
        d.gcRound ctx := by
      unfold gcRound lastCommitRound
      rw [lastCommit_evictAuthorities]
      rfl
    have hcounted : ctx.protocolConfig.enableV3 = true →
        ((range ctx.committee.size).foldl (evictAuthority ctx) d.writeBuffered).Counted ctx := by
      intro hv3
      refine (h.counted hv3).evict (le_of_eq hgc.symm) (roundInfo_evictAuthorities _) fun r => ?_
      rw [hgc]
      exact evictAuthorities_get (d := d.writeBuffered) (writeBuffered_cached h.cached).1 rfl r
    refine ⟨hcached, fun hv3 => ?_, fun hv3 => ?_⟩
    · unfold flush
      rw [if_neg hnone]
      have hc := hcounted hv3
      exact ⟨hc.roundInfo.drop.1, hc.parents, hc.children, hc.childrenStake⟩
    · unfold flush
      rw [if_neg hnone]
      exact (hcounted hv3).roundInfo.drop.2

/-! ### Recovery -/

/-- The stored blocks of one authority are scanned once each. -/
theorem nodup_scanBlocksByAuthor (hstore : StoredBlocks ctx store) (authority startRound : Nat) :
    ((store.scanBlocksByAuthor authority startRound).map (·.reference)).Nodup := by
  unfold Store.scanBlocksByAuthor
  rw [map_map, List.Nodup, pairwise_map]
  apply List.Pairwise.filter
  refine Std.ExtTreeMap.distinct_keys_toList.imp_of_mem ?_
  intro p q hp hq hne heq
  have hp' := (hstore p.1 p.2 (mem_toList_iff.mp hp)).1
  have hq' := (hstore q.1 q.2 (mem_toList_iff.mp hq)).1
  apply hne
  rw [← hp', ← hq', show p.2.reference = q.2.reference from heq]
  exact compare_eq_iff_eq.mpr rfl

theorem nodup_recoveredBlocks (hstore : StoredBlocks ctx d.store) :
    ((d.recoveredBlocks ctx).map (·.reference)).Nodup := by
  unfold recoveredBlocks
  rw [map_flatMap, nodup_flatMap]
  refine ⟨fun a _ => nodup_scanBlocksByAuthor hstore a _, ?_⟩
  refine nodup_range.imp fun {a a'} hne => ?_
  intro r hr hr'
  have hauthor : ∀ a start, r ∈ (d.store.scanBlocksByAuthor a start).map (·.reference) → r.author = a := by
    intro a start hmem
    simp only [Store.scanBlocksByAuthor, mem_map, mem_filter, decide_eq_true_eq,
      Prod.exists, mem_toList_iff] at hmem
    obtain ⟨b, ⟨k, b', ⟨hk, ha, _⟩, rfl⟩, rfl⟩ := hmem
    rw [(hstore k b' hk).1]
    exact ha
  exact hne ((hauthor a _ hr).symm.trans (hauthor a' _ hr'))

/-- Recovering new blocks keeps the counts. -/
theorem updateBlocksMetadata_counted (hv3 : ctx.protocolConfig.enableV3 = true)
    (hnodup : (blocks.map (·.reference)).Nodup)
    (hnew : ∀ b ∈ blocks, b.reference ∉ d.recentBlocks) (h : d.Counted ctx)
    (hok : blocks.foldlM (updateBlockMetadata ctx) d = .ok d') :
    d'.Counted ctx ∧ d.nextRound ctx ≤ d'.nextRound ctx := by
  induction blocks generalizing d with
  | nil =>
    cases hok
    exact ⟨h, le_rfl⟩
  | cons b rest ih =>
    obtain ⟨t, ht, hrest⟩ := foldlM_cons_eq_ok.mp hok
    rw [map_cons, nodup_cons] at hnodup
    obtain ⟨hcount, hmono⟩ := updateBlockMetadata_counted hv3 h (hnew b (.head _)) ht
    obtain ⟨hcount', hmono'⟩ := ih hnodup.2 (fun c hc hmem => by
      rcases (updateBlockMetadata_sat.ok ht).mem_iff.mp hmem with heq | hmem
      · exact hnodup.1 (heq ▸ mem_map_of_mem hc)
      · exact hnew c (.tail _ hc) hmem) hcount hrest
    exact ⟨hcount', hmono.trans hmono'⟩

theorem new_ready (hstore : StoredBlocks ctx store) (h : DagState.new ctx store = .ok d) : d.Ready ctx := by
  have hcached := (new_cached hstore h).1
  simp only [new, recoveredCommits, bind_eq_ok] at h
  obtain ⟨d₀, ⟨⟨rounds, scoring⟩, _, hcommits⟩, d₁, hblocks, d₂, hstatus, hlink⟩ := h
  have hsame : SameVotes d₁ d :=
    (recoverCommittedFlags_sameVotes hstatus).trans (recoverIncludedFlags_sameVotes hlink)
  have hgc : d₁.gcRound ctx = d₀.gcRound ctx := by
    cases hcommits
    have hl := (updateBlocksMetadata_spec hblocks ⟨fun a r => by simp, fun r info hr => by simp at hr⟩).2.2.2.1
    rw [gcRound, lastCommitRound, hl]
    rfl
  have hcount : ctx.protocolConfig.enableV3 = true → d₁.Counted ctx ∧ d₀.gcRound ctx + 1 ≤ d₁.nextRound ctx := by
    intro hv3
    cases hcommits
    refine updateBlocksMetadata_counted hv3 ?_ (fun b _ => by simp) ?_ hblocks
    · exact ((perm_insertionSort _ _).map _).nodup_iff.mpr (nodup_recoveredBlocks hstore)
    · refine ⟨⟨fun i info hi => by simp at hi, fun hne => absurd rfl hne, fun r hr => by simp at hr,
        forall_mem_nil _, forall_mem_nil _⟩, fun c info hc => by simp at hc, fun r info hr => by simp at hr,
        fun r info hr => by simp at hr⟩
  refine ⟨hcached, fun hv3 => hsame.counted (hcount hv3).1, fun hv3 => ?_⟩
  have hnext := (hcount hv3).2
  rw [← hgc] at hnext
  obtain ⟨m, rfl, _⟩ := hsame
  exact hnext

theorem Reachable.ready (h : Reachable ctx d) : d.Ready ctx := by
  induction h with
  | new hstore hok => exact new_ready hstore hok
  | acceptBlock b _ hok ih => exact acceptBlock_ready ih hok
  | setCommitted _ hok ih => exact sameVotes_ready (setCommitted_sameVotes hok) ih
  | linkCausalHistory _ hok ih => exact sameVotes_ready (linkCausalHistory_sameVotes hok) ih
  | addCommit _ hleader hround hok ih => exact addCommit_ready ih hleader hround hok
  | addFinalizedCommit _ _ _ ih =>
    obtain ⟨hc, hcount, hnext⟩ := ih
    refine ⟨⟨⟨hc.refs, hc.keyed⟩, hc.storeKeyed, hc.buffered, hc.persisted, hc.stored, hc.positive⟩,
      fun hv3 => ?_, hnext⟩
    exact ⟨(hcount hv3).roundInfo, (hcount hv3).parents, (hcount hv3).children, (hcount hv3).childrenStake⟩
  | flush _ ih => exact flush_ready ih

/-! ### Votes -/

/-- The blocks of a round are listed in its info. -/
theorem RoundsCounted.exists_info {gcRound : Nat} {S : BlockRef → Prop} {roundInfo : List RoundInfo}
    (h : RoundsCounted ctx gcRound S roundInfo) (hr : S r)
    (hgc : gcRound < r.round) : ∃ info ∈ roundInfo, info.round = r.round := by
  have hlt := h.reached r hr hgc
  by_cases hne : roundInfo = []
  · subst hne
    exact absurd hlt (Nat.not_lt.mpr hgc)
  have hfront := h.front hne
  rw [h.nextRound_eq hne] at hlt
  have hi : r.round - frontRoundOf roundInfo < roundInfo.length := by omega
  have hround := h.rounds _ _ (getElem?_eq_getElem hi)
  exact ⟨_, getElem_mem hi, by omega⟩

/-- **Votes are counted exactly in every reachable state**: above the gc round, the children of a
block are the cached blocks of the next round that link to it, a round has just its cached blocks,
and their stakes are those of the distinct authors. -/
theorem votes_counted (ctx : Context) (d : DagState) (h : Reachable ctx d)
    (hv3 : ctx.protocolConfig.enableV3 = true) :
    (∀ (r : BlockRef) info, d.recentBlocks[r]? = some info → d.gcRound ctx < r.round →
      (∀ c, c ∈ info.children ↔ ∃ child, d.recentBlocks[c]? = some child ∧
        r ∈ child.block.ancestors ∧ r.round + 1 = c.round) ∧
      info.childrenStake.stake = ctx.committee.stakeOf (info.children.image (·.author)) ∧
      ∃ round ∈ d.roundInfo, round.round = r.round) ∧
    ∀ round ∈ d.roundInfo, d.gcRound ctx < round.round →
      (∀ r, r ∈ round.blocks ↔ r ∈ d.recentBlocks ∧ r.round = round.round) ∧
      round.totalStake.stake = ctx.committee.stakeOf (round.blocks.image (·.author)) := by
  have hstake : ∀ {s blocks}, Tallies ctx s blocks → s.stake = ctx.committee.stakeOf (blocks.image (·.author)) :=
    fun htallies => htallies.1 ▸ htallies.2
  obtain ⟨hrounds, -, hchildren, hstakes⟩ := h.ready.counted hv3
  refine ⟨fun r info hr hgc => ⟨hchildren r info hr hgc, hstake (hstakes r info hr), ?_⟩,
    fun round hround hgc => ⟨hrounds.blocks round hround hgc, hstake (hrounds.totalStake round hround)⟩⟩
  exact hrounds.exists_info (mem_of_get hr) hgc

/-- The four authorities under the third version of the rule. -/
def v3Context : Context := { fourContext with protocolConfig := { gcDepth := 2, enableV3 := true } }

theorem Reachable.acceptBlocks (h : Reachable ctx d) (hrun : d.acceptBlocks ctx blocks = .ok d') :
    Reachable ctx d' := by
  induction blocks generalizing d with
  | nil =>
    cases hrun
    exact h
  | cons b rest ih =>
    obtain ⟨t, ht, hrest⟩ := foldlM_cons_eq_ok.mp hrun
    exact ih (.acceptBlock b h ht) hrest

/-- The four blocks of the first round, and two of the second that vote for each of them. -/
theorem votes_counted_second : ∃ d info, Reachable v3Context d ∧
    d.recentBlocks[(fourBlock 1 3 0).reference]? = some info ∧ info.childrenStake.stake = 2 ∧
    (fourBlock 2 1 0).reference ∈ info.children ∧
    info.childrenStake.stake = v3Context.committee.stakeOf (info.children.image (·.author)) := by
  let blocks := (List.range 4).map (fourBlock 1 · 0) ++ (List.range 2).map (fourBlock 2 · 0)
  have hcheck : check (DagState.new v3Context {} >>= fun d => d.acceptBlocks v3Context blocks) (fun d =>
      d.gcRound v3Context = 0 && (d.recentBlocks[(fourBlock 1 3 0).reference]?).any fun info =>
        decide (info.childrenStake.stake = 2 ∧ (fourBlock 2 1 0).reference ∈ info.children)) = true := by
    decide +kernel
  obtain ⟨d, hrun, hd⟩ := exists_of_check hcheck
  obtain ⟨start, hstart, hd'⟩ := bind_eq_ok.mp hrun
  have hreach : Reachable v3Context d := Reachable.acceptBlocks (.new (fun r b hr => by simp at hr) hstart) hd'
  obtain ⟨hgc, hinfo⟩ := Bool.and_eq_true_iff.mp hd
  obtain ⟨info, hinfo, hvotes⟩ := Option.any_eq_true _ _ |>.mp hinfo
  obtain ⟨hstake, hchild⟩ := of_decide_eq_true hvotes
  have hcounted := (votes_counted v3Context d hreach rfl).1 _ info hinfo
    (of_decide_eq_true hgc ▸ Nat.zero_lt_one)
  exact ⟨d, info, hreach, hinfo, hstake, hchild, hcounted.2.1⟩

end Sui.Consensus.DagState
