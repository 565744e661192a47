import Sui.Consensus.LeaderScheduleV3.Recovery

/-! The schedule rebuilt by `fromStore`.

The store returns the sub-dags of the history as `loadCommittedSubdagFromStore`
rebuilds them: the same leaders, blocks, timestamps and refs, with flags about
finalization that the schedule never reads (`content`). `fromStore_recovers` says
that the rebuilt schedule is the live one, and that the live one fails on no valid
history except by overflow of a score. -/
namespace Sui.Consensus

/-- A sub-dag as the linearizer builds it, before finalization marks it. -/
def CommittedSubDag.content (c : CommittedSubDag) : CommittedSubDag :=
  { leader := c.leader, blocks := c.blocks, timestampMs := c.timestampMs, commitRef := c.commitRef }

namespace CommittedSubDag

@[simp] theorem content_leader (c : CommittedSubDag) : c.content.leader = c.leader := rfl
@[simp] theorem content_blocks (c : CommittedSubDag) : c.content.blocks = c.blocks := rfl
@[simp] theorem content_commitRef (c : CommittedSubDag) : c.content.commitRef = c.commitRef := rfl

end CommittedSubDag

namespace LeaderScheduleV3

open Sui.Lib Exec List

variable (shuffle : Seed → List (Nat × Nat) → List (Nat × Nat)) (ctx : Context)

/-! ### What the schedule reads of a sub-dag -/

/-- The schedule with the finalization flags of its pending commits cleared. -/
def content {n : Nat} (s : LeaderScheduleV3 n) : LeaderScheduleV3 n :=
  { s with pendingCommits := s.pendingCommits.map CommittedSubDag.content }

theorem content_lastPending (s : LeaderScheduleV3 n) (f : CommittedSubDag → α)
    (hf : ∀ c : CommittedSubDag, f c.content = f c) :
    s.content.pendingCommits.getLast?.map f = s.pendingCommits.getLast?.map f := by
  simp only [content, getLast?_map, Option.map_map]
  congr 1
  funext c
  exact hf c

theorem refreshCurrentSchedule_content (s : LeaderScheduleV3 ctx.committee.size) :
    refreshCurrentSchedule shuffle ctx s.content = (refreshCurrentSchedule shuffle ctx s).content := by
  have hidx : s.content.nextCommitIndex = s.nextCommitIndex := by
    unfold nextCommitIndex
    rw [content_lastPending s _ fun _ => rfl]
  have hround : s.content.minNextLeaderRound = s.minNextLeaderRound := by
    unfold minNextLeaderRound
    rw [content_lastPending s _ fun _ => rfl]
  have hsel : selectAllowedLeadersWithFixedConfig shuffle ctx s.content =
      selectAllowedLeadersWithFixedConfig shuffle ctx s := by
    unfold selectAllowedLeadersWithFixedConfig
    simp only [content, getLast?_map]
    cases s.pendingCommits.getLast? with
    | none => rfl
    | some c => rfl
  unfold refreshCurrentSchedule computeNextCommitLeaderSchedule
  rw [hidx, hround, hsel]
  split <;> rfl

theorem takeUntilLeaderRoundAbove_content (upper : Nat) (cs : List CommittedSubDag) :
    takeUntilLeaderRoundAbove upper (cs.map CommittedSubDag.content) =
      (takeUntilLeaderRoundAbove upper cs).map CommittedSubDag.content := by
  induction cs with
  | nil => rfl
  | cons c rest ih =>
    simp only [map_cons, takeUntilLeaderRoundAbove, ih]
    show (if upper < c.leader.round then _ else _) = _
    split <;> simp

theorem scanCommits_content (pending : List CommittedSubDag) (c : CommittedSubDag) (upper : Nat) :
    scanCommitsUntilLeaderRoundAbove (pending.map CommittedSubDag.content) c.content upper =
      (scanCommitsUntilLeaderRoundAbove pending c upper).map (List.map CommittedSubDag.content) := by
  have hlist : (pending.map CommittedSubDag.content).drop 1 ++ [c.content] =
      (pending.drop 1 ++ [c]).map CommittedSubDag.content := by simp
  unfold scanCommitsUntilLeaderRoundAbove
  simp only [hlist, takeUntilLeaderRoundAbove_content]
  generalize takeUntilLeaderRoundAbove upper (pending.drop 1 ++ [c]) = out
  have hlast : assert ((out.map CommittedSubDag.content).getLast?.any
      fun c => upper < c.leader.round) .scanIncomplete =
        assert (out.getLast?.any fun c => upper < c.leader.round) .scanIncomplete := by
    apply assert_congr
    cases h : out.getLast? with
    | none =>
      rw [getLast?_map, h]
      exact Iff.rfl
    | some last =>
      rw [getLast?_map, h]
      exact Iff.rfl
  rw [hlast]
  cases assert (out.getLast?.any fun c => upper < c.leader.round) .scanIncomplete with
  | error p => rfl
  | ok u => rfl

theorem blocksAtRound_content (cs : List CommittedSubDag) (round : Nat) :
    blocksAtRound (cs.map CommittedSubDag.content) round = blocksAtRound cs round := by
  simp only [blocksAtRound, flatMap_map]
  rfl

theorem scoreCommit_content (pending : List CommittedSubDag) (c₃ c₂ c₁ c : CommittedSubDag) :
    scoreCommit ctx (pending.map CommittedSubDag.content) c₃.content c₂.content c₁.content c.content =
      scoreCommit ctx pending c₃ c₂ c₁ c := by
  unfold scoreCommit
  simp only [scanCommits_content, CommittedSubDag.content_leader, CommittedSubDag.content_blocks]
  cases hv : scanCommitsUntilLeaderRoundAbove pending c (c₃.leader.round + 1) with
  | error p => rfl
  | ok voting =>
    cases hc : scanCommitsUntilLeaderRoundAbove pending c (c₃.leader.round + 2) with
    | error p => rfl
    | ok certifying =>
      simp only [Except.map, bind_ok rfl, blocksAtRound_content]
      rfl

theorem checkConsecutive_content (s : LeaderScheduleV3 n) (c : CommittedSubDag) :
    checkConsecutive s.content c.content = checkConsecutive s c := by
  unfold checkConsecutive
  simp only [content, getLast?_map]
  cases s.pendingCommits.getLast? with
  | none => rfl
  | some last => rfl

variable {s : LeaderScheduleV3 ctx.committee.size} {commits : List TrustedCommit}
  {loaded : List CommittedSubDag} {c : CommittedSubDag} {store : Store}
  {cs ds : List CommittedSubDag} {history : List CommittedSubDag}
  {s' r : LeaderScheduleV3 ctx.committee.size} {p : Panic}

/-- Schedules that differ in flags only stay so when they add commits that do. -/
theorem addCommit_congr (h : Windowed ctx s) (hr : Windowed ctx r) (hsr : s.content = r.content)
    (hcd : c.content = d.content) (hs : addCommit shuffle ctx s c = .ok s') :
    ∃ r', addCommit shuffle ctx r d = .ok r' ∧ s'.content = r'.content := by
  have hfields := hsr
  simp only [content, LeaderScheduleV3.mk.injEq] at hfields
  obtain ⟨_, _, _, hpend, hent, hcur⟩ := hfields
  obtain ⟨hc, hcases⟩ := addCommit_cases shuffle ctx h hs
  have hc' : checkConsecutive r d = .ok () := by
    rw [← checkConsecutive_content, ← hsr, ← hcd, checkConsecutive_content, hc]
  rcases hcases with ⟨hlt, rfl⟩ | ⟨c₃, c₂, c₁, e, hp, he, hf, rfl⟩
  · have hlt' : r.pendingCommits.length < MAX_PENDING_COMMITS := by
      have := congrArg length hpend
      rw [length_map, length_map] at this
      omega
    refine ⟨_, addCommit_warmup shuffle ctx hc' hlt', ?_⟩
    rw [← refreshCurrentSchedule_content, ← refreshCurrentSchedule_content]
    congr 1
    simp_all [content]
  · have hpend' := hpend
    rw [hp] at hpend'
    obtain ⟨d₃, d₂, d₁, hq⟩ : ∃ d₃ d₂ d₁, r.pendingCommits = [d₃, d₂, d₁] := by
      apply length_eq_three.mp
      simpa using (congrArg length hpend').symm
    rw [hq] at hpend'
    simp only [map_cons, map_nil, cons.injEq, and_true] at hpend'
    obtain ⟨h₃, h₂, h₁⟩ := hpend'
    have he' : scoreCommit ctx r.pendingCommits d₃ d₂ d₁ d = .ok e := by
      rw [← he, ← scoreCommit_content, ← scoreCommit_content ctx s.pendingCommits, h₃, h₂, h₁, hcd, hpend]
    refine ⟨_, addCommit_scored shuffle ctx hr.totalled hc' hq he' (hent ▸ hf), ?_⟩
    rw [← refreshCurrentSchedule_content, ← refreshCurrentSchedule_content]
    congr 1
    simp_all [content, setWindow]

theorem addCommits_congr (h : Windowed ctx s) (hr : Windowed ctx r) (hsr : s.content = r.content)
    (hcd : cs.map CommittedSubDag.content = ds.map CommittedSubDag.content)
    (hs : addCommits shuffle ctx s cs = .ok s') :
    ∃ r', addCommits shuffle ctx r ds = .ok r' ∧ s'.content = r'.content := by
  induction cs generalizing ds s r with
  | nil =>
    cases hs
    obtain rfl : ds = [] := by simpa using hcd.symm
    exact ⟨r, rfl, hsr⟩
  | cons c rest ih =>
    cases ds with
    | nil => simp at hcd
    | cons d rest' =>
      simp only [map_cons, cons.injEq] at hcd
      obtain ⟨t, ht, hrest⟩ := foldlM_cons_eq_ok.mp hs
      obtain ⟨u, hu, htu⟩ := addCommit_congr shuffle ctx h hr hsr hcd.1 ht
      obtain ⟨r', hr', hfin⟩ := ih (addCommit_windowed shuffle ctx h ht)
        (addCommit_windowed shuffle ctx hr hu) htu hcd.2 hrest
      exact ⟨r', foldlM_cons_eq_ok.mpr ⟨u, hu, hr'⟩, hfin⟩

/-! ### Failing -/

theorem takeUntilLeaderRoundAbove_last (cs : List CommittedSubDag)
    (h : upper < c.leader.round) : ((takeUntilLeaderRoundAbove upper (cs ++ [c])).getLast?.any
      fun c => upper < c.leader.round) = true := by
  induction cs with
  | nil => simp [takeUntilLeaderRoundAbove, h]
  | cons d rest ih =>
    simp only [cons_append, takeUntilLeaderRoundAbove]
    split
    · simpa
    · have hne : takeUntilLeaderRoundAbove upper (rest ++ [c]) ≠ [] := by
        intro hnil
        simp [hnil] at ih
      rw [getLast?_cons, getLast?_eq_some_getLast hne] at *
      simpa using ih

/-- A history the commit rule can produce: consecutive commits, each of a later
leader than the one before and holding its own leader. -/
structure ValidHistory (history : List CommittedSubDag) : Prop where
  numbered : Numbered history
  increasing : history.Pairwise fun c d => c.leader.round < d.leader.round
  leaders : ∀ c ∈ history, c.leader ∈ c.blocks.map (·.reference)

/-- Three valid pending commits and their successor are scored, unless a score overflows. -/
theorem scoreCommit_eq_error
    (h : scoreCommit ctx pending c₃ c₂ c₁ c = .error p) (h₃ : c₃.leader.round < c₂.leader.round)
    (h₂ : c₂.leader.round < c₁.leader.round) (h₁ : c₁.leader.round < c.leader.round)
    (hl : c₃.leader ∈ c₃.blocks.map (·.reference)) : p = .scoreOverflow := by
  have hmem : c₃.leader ∈ ((c₃.blocks.filter fun b => b.round = c₃.leader.round).map (·.reference)).toFinset := by
    obtain ⟨b, hb, hbl⟩ := mem_map.mp hl
    simp only [mem_toFinset, mem_map, mem_filter, decide_eq_true_eq]
    exact ⟨b, ⟨hb, by rw [← hbl, VerifiedBlock.reference_round]⟩, hbl⟩
  have hscan : ∀ k, k ≤ 2 → scanCommitsUntilLeaderRoundAbove pending c (c₃.leader.round + k) =
      .ok (takeUntilLeaderRoundAbove (c₃.leader.round + k) (pending.drop 1 ++ [c])) := by
    intro k hk
    unfold scanCommitsUntilLeaderRoundAbove
    have hlast := takeUntilLeaderRoundAbove_last (pending.drop 1)
      (show c₃.leader.round + k < c.leader.round by omega)
    rw [bind_ok (assert_of hlast)]
    rfl
  unfold scoreCommit at h
  simp only [bind_ok (assert_of (And.intro h₃ (And.intro h₂ h₁))),
    bind_ok (assert_of (Finset.ne_empty_of_mem hmem)), bind_ok (assert_of hmem),
    bind_ok (hscan 1 (by decide)), bind_ok (hscan 2 (by decide)), bind_eq_error,
    pure_ne_error, and_false, exists_false, or_false] at h
  exact (assert_eq_error.mp h).2.symm

/-- What can go wrong once the checks on the new commit have passed. -/
theorem addCommit_eq_error (h : Windowed ctx s) (hs : addCommit shuffle ctx s c = .error p) :
    checkConsecutive s c = .error p ∨ p = .scoreOverflow ∨
      ∃ c₃ c₂ c₁, s.pendingCommits = [c₃, c₂, c₁] ∧ scoreCommit ctx s.pendingCommits c₃ c₂ c₁ c = .error p := by
  rcases bind_eq_error.mp hs with hc | ⟨_, hc, hs⟩
  · exact .inl hc
  refine .inr ?_
  rcases Nat.lt_or_ge s.pendingCommits.length MAX_PENDING_COMMITS with hlt | hge
  · have hok := addCommit_warmup shuffle ctx hc hlt
    unfold addCommit at hok
    rw [bind_ok hc] at hok
    rw [hok] at hs
    cases hs
  · have hlen : s.pendingCommits.length = 3 := le_antisymm h.pending hge
    obtain ⟨c₃, c₂, c₁, hp⟩ := length_eq_three.mp hlen
    have hev := evictWhileFull_of_totalled (windowSize_pos ctx) (s.scoresEntries.length + 1)
      h.totalled (Nat.le_succ _)
    simp only [hp, bind_eq_error, hev] at hs
    rcases hs with he | ⟨e, _, he | ⟨t, _, he | ⟨u, _, he⟩⟩⟩
    · exact .inr ⟨c₃, c₂, c₁, hp, hp ▸ he⟩
    · cases he
    · exact .inl (pushEntry_eq_error he)
    · exact absurd he pure_ne_error

/-- Eviction subtracts what the totals hold, whatever commit comes next. -/
theorem addCommit_ne_underflow (h : Windowed ctx s)
    (c : CommittedSubDag) : addCommit shuffle ctx s c ≠ .error .scoreUnderflow := by
  intro hs
  rcases addCommit_eq_error shuffle ctx h hs with hc | hc | ⟨c₃, c₂, c₁, _, hc⟩
  · unfold checkConsecutive at hc
    split at hc
    · simp at hc
    · cases hc
  · cases hc
  · simp only [scoreCommit, scanCommitsUntilLeaderRoundAbove, bind_eq_error, assert_eq_error, pure_ne_error] at hc
    simp at hc

theorem live_append_singleton (history : List CommittedSubDag) (c : CommittedSubDag) :
    live shuffle ctx (history ++ [c]) = live shuffle ctx history >>= (addCommit shuffle ctx · c) := by
  unfold live addCommits
  rw [foldlM_append]
  simp

theorem ValidHistory.init (h : ValidHistory (history ++ [c])) : ValidHistory history := by
  refine ⟨?_, (pairwise_append.mp h.increasing).1, ?_⟩
  · intro i d hd
    exact h.numbered i d (List.getElem?_append_left (List.getElem?_eq_some_iff.mp hd).1 ▸ hd)
  · intro d hd
    exact h.leaders d (mem_append_left _ hd)

theorem addCommit_pending (h : Windowed ctx s) (hs : addCommit shuffle ctx s c = .ok s') :
    s'.pendingCommits = (s.pendingCommits ++ [c]).rtake MAX_PENDING_COMMITS := by
  obtain ⟨_, ⟨hlt, rfl⟩ | ⟨c₃, c₂, c₁, e, hp, _, _, rfl⟩⟩ := addCommit_cases shuffle ctx h hs
  · rw [refreshCurrentSchedule_pending, rtake_of_length_le]
    rw [length_append, length_singleton]
    omega
  · rw [refreshCurrentSchedule_pending, hp]
    rfl

theorem ValidHistory.checkConsecutive (h : ValidHistory (history ++ [c]))
    (hp : s.pendingCommits = history.rtake MAX_PENDING_COMMITS) :
    LeaderScheduleV3.checkConsecutive s c = .ok () := by
  have hc := h.numbered history.length c (by simp)
  unfold LeaderScheduleV3.checkConsecutive
  rw [hp, getLast_rtake _ (by decide), List.getLast?_eq_getElem?]
  split
  · rename_i last hlast
    have hi := (List.getElem?_eq_some_iff.mp hlast).1
    have hl := h.numbered _ last (List.getElem?_append_left hi ▸ hlast)
    apply assert_of
    omega
  · rfl

/-- On a valid history the live instance holds its last commits, or a score has overflowed. -/
theorem live_of_valid (h : ValidHistory history) :
    live shuffle ctx history = .error .scoreOverflow ∨
      ∃ s, live shuffle ctx history = .ok s ∧ s.pendingCommits = history.rtake MAX_PENDING_COMMITS := by
  induction history using reverseRecOn with
  | nil => exact .inr ⟨_, rfl, rfl⟩
  | append_singleton init c ih =>
    rw [live_append_singleton]
    rcases ih h.init with herr | ⟨s, hs, hp⟩
    · rw [herr]
      exact .inl rfl
    rw [bind_ok hs]
    have hw : Windowed ctx s := addCommits_windowed shuffle ctx (new_windowed shuffle ctx) hs
    cases hstep : addCommit shuffle ctx s c with
    | ok s' =>
      refine .inr ⟨s', rfl, ?_⟩
      rw [addCommit_pending shuffle ctx hw hstep, hp, ← rtake_append_singleton, rtake_rtake]
      rfl
    | error p =>
      left
      congr 1
      rcases addCommit_eq_error shuffle ctx hw hstep with hc | hc | ⟨c₃, c₂, c₁, hp', hc⟩
      · rw [h.checkConsecutive ctx hp] at hc
        cases hc
      · exact hc
      · have hsub : [c₃, c₂, c₁, c].Sublist (init ++ [c]) := by
          rw [show [c₃, c₂, c₁, c] = [c₃, c₂, c₁] ++ [c] from rfl, ← hp', hp]
          exact (drop_sublist _ _).append (List.Sublist.refl _)
        have hinc := h.increasing.sublist hsub
        simp only [pairwise_cons, mem_cons, forall_eq_or_imp] at hinc
        exact scoreCommit_eq_error ctx hc hinc.1.1 hinc.2.1.1 hinc.2.2.1.1 (h.leaders c₃ (hsub.subset (.head _)))

/-! ### The store -/

/-- The store holds the commits `commits`, numbered from one, and rebuilds the
sub-dags `loaded` from them. -/
structure Holds (store : Store) (commits : List TrustedCommit) (loaded : List CommittedSubDag) :
    Prop where
  table : store.commits.toList.map (·.2) = commits
  keyed : ∀ p ∈ store.commits.toList, p.1 = p.2.reference
  numbered : ∀ i c, commits[i]? = some c → c.index = i + 1
  loads : List.Forall₂ (fun c d => loadCommittedSubdagFromStore store c = .ok d) commits loaded

theorem filter_index_eq_drop (commits : List TrustedCommit) (k start : Nat)
    (hnum : ∀ i c, commits[i]? = some c → c.index = k + i + 1) :
    (commits.filter fun c => start ≤ c.index ∧ c.index ≤ k + commits.length) = commits.drop (start - 1 - k) := by
  induction commits generalizing k with
  | nil => simp
  | cons c rest ih =>
    have hc : c.index = k + 1 := hnum 0 c rfl
    have hrest := ih (k + 1) fun i d hd => by
      have := hnum (i + 1) d hd
      omega
    have hlen : k + (c :: rest).length = k + 1 + rest.length := by
      rw [length_cons]
      omega
    rw [hlen, filter_cons, hrest, hc]
    by_cases hs : start ≤ k + 1
    · rw [if_pos (by simp [hs]), show start - 1 - (k + 1) = 0 by omega,
        show start - 1 - k = 0 by omega, drop_zero, drop_zero]
    · rw [if_neg (by simp [hs]), show start - 1 - k = start - 1 - (k + 1) + 1 by omega, drop_succ_cons]

theorem Holds.scanCommits (h : Holds store commits loaded) (start : Nat) :
    store.scanCommits ⟨start, commits.length⟩ = commits.drop (start - 1) := by
  have hkey : ∀ p ∈ store.commits.toList,
      (start ≤ p.1.index ∧ p.1.index ≤ commits.length) = (start ≤ p.2.index ∧ p.2.index ≤ commits.length) := by
    intro p hp
    rw [h.keyed p hp]
    rfl
  have hfilter := filter_index_eq_drop commits 0 start (by simpa using h.numbered)
  rw [Nat.zero_add, Nat.sub_zero] at hfilter
  unfold Store.scanCommits
  rw [← hfilter, ← h.table, filter_map]
  congr 1
  apply filter_congr
  intro p hp
  simp only [Function.comp_apply, h.table, decide_eq_decide]
  exact Iff.of_eq (hkey p hp)

theorem foldlM_loads
    (h : List.Forall₂ (fun c d => loadCommittedSubdagFromStore store c = .ok d) commits loaded)
    (s : LeaderScheduleV3 ctx.committee.size) :
    commits.foldlM (fun s commit => do
      let subdag ← loadCommittedSubdagFromStore store commit
      addCommit shuffle ctx s subdag) s = addCommits shuffle ctx s loaded := by
  induction h generalizing s with
  | nil => rfl
  | cons hload _ ih =>
    simp only [foldlM_cons, bind_ok hload]
    congr 1
    funext t
    exact ih t

/-- `fromStore` replays the stored sub-dags from `replayStart` on. -/
theorem fromStore_eq (h : Holds store commits loaded) :
    fromStore shuffle ctx store loaded.length =
      live shuffle ctx (loaded.drop (replayStart ctx loaded.length - 1)) := by
  unfold fromStore
  by_cases h₀ : loaded.length = 0
  · rw [if_pos h₀, length_eq_zero_iff.mp h₀, drop_nil]
    rfl
  · rw [if_neg h₀, ← h.loads.length_eq]
    simp only [h.scanCommits]
    exact foldlM_loads shuffle ctx (forall₂_drop _ h.loads) _

theorem Holds.valid (h : Holds store commits loaded)
    (hinc : loaded.Pairwise fun c d => c.leader.round < d.leader.round) : ValidHistory loaded := by
  have hspec : ∀ (i : Nat) d, loaded[i]? = some d → ∃ c, commits[i]? = some c ∧
      loadCommittedSubdagFromStore store c = .ok d := by
    intro i d hd
    obtain ⟨hi, rfl⟩ := List.getElem?_eq_some_iff.mp hd
    have hi' : i < commits.length := h.loads.length_eq ▸ hi
    exact ⟨commits[i], List.getElem?_eq_getElem hi', h.loads.get hi' hi⟩
  refine ⟨?_, hinc, ?_⟩
  · intro i d hd
    obtain ⟨c, hc, hload⟩ := hspec i d hd
    rw [(loadCommittedSubdagFromStore_spec hload).1]
    exact h.numbered i c hc
  · intro d hd
    obtain ⟨i, hi⟩ := mem_iff_getElem?.mp hd
    obtain ⟨c, _, hload⟩ := hspec i d hi
    exact (loadCommittedSubdagFromStore_spec hload).2.2.1

section
variable (h : cs.map CommittedSubDag.content = ds.map CommittedSubDag.content)
include h

theorem getElem_of_content_eq {i : Nat}
    {d : CommittedSubDag} (hd : ds[i]? = some d) : ∃ c, cs[i]? = some c ∧ c.content = d.content := by
  have := congrArg (·[i]?) h
  simpa [hd] using this

theorem ValidHistory.congr (hv : ValidHistory cs) : ValidHistory ds := by
  refine ⟨?_, ?_, ?_⟩
  · intro i d hd
    obtain ⟨c, hc, hcd⟩ := getElem_of_content_eq h hd
    rw [← CommittedSubDag.content_commitRef, ← hcd]
    exact hv.numbered i c hc
  · have hmap : (cs.map CommittedSubDag.content).Pairwise fun c d => c.leader.round < d.leader.round := by
      rw [pairwise_map]
      exact hv.increasing
    rw [h, pairwise_map] at hmap
    exact hmap
  · intro d hd
    obtain ⟨i, hi⟩ := mem_iff_getElem?.mp hd
    obtain ⟨c, hc, hcd⟩ := getElem_of_content_eq h hi
    rw [← CommittedSubDag.content_leader, ← CommittedSubDag.content_blocks, ← hcd]
    exact hv.leaders c (mem_of_getElem? hc)

end

/-- Recovery is exact. For a store that holds a history of commits of increasing
leader rounds, `fromStore` ends in the state of the live instance, up to the flags
of pending commits that only finalization sets, and exactly in it when the live
instance was given the sub-dags as stored. The live instance itself can only fail
by a score that exceeds 64 bits. In every state that any run reaches the totals are
the sums of the retained entries, so no eviction underflows. -/
theorem fromStore_recovers {store : Store} {commits : List TrustedCommit}
    {loaded history : List CommittedSubDag} (hstore : Holds store commits loaded)
    (hsame : loaded.map CommittedSubDag.content = history.map CommittedSubDag.content)
    (hinc : history.Pairwise fun c d => c.leader.round < d.leader.round) :
    (live shuffle ctx history = .error .scoreOverflow ∨
      ∃ s r, live shuffle ctx history = .ok s ∧
        fromStore shuffle ctx store history.length = .ok r ∧
        r.content = s.content ∧ (loaded = history → r = s)) ∧
    ∀ past s, live shuffle ctx past = .ok s →
      s.Totalled ∧ ∀ c, addCommit shuffle ctx s c ≠ .error .scoreUnderflow := by
  have hnew := new_windowed shuffle ctx
  refine ⟨?_, ?_⟩
  · have hinc' : loaded.Pairwise fun c d => c.leader.round < d.leader.round := by
      have hmap : (history.map CommittedSubDag.content).Pairwise fun c d => c.leader.round < d.leader.round := by
        rw [pairwise_map]
        exact hinc
      rw [← hsame, pairwise_map] at hmap
      exact hmap
    have hloaded := hstore.valid hinc'
    have hvalid := hloaded.congr hsame
    have hlen : loaded.length = history.length := by simpa using congrArg length hsame
    rcases live_of_valid shuffle ctx hvalid with herr | ⟨s, hs, _⟩
    · exact .inl herr
    · obtain ⟨r, hr, hsr⟩ := addCommits_congr shuffle ctx hnew hnew rfl hsame.symm hs
      have hrec : fromStore shuffle ctx store history.length = .ok r := by
        rw [← hlen, fromStore_eq shuffle ctx hstore]
        exact live_drop_replayStart shuffle hloaded.numbered hr
      refine .inr ⟨s, r, hs, hrec, hsr.symm, ?_⟩
      intro heq
      have hr' : live shuffle ctx history = .ok r := heq ▸ hr
      rw [hs] at hr'
      exact (Except.ok.inj hr').symm
  · intro past s hs
    have hw := addCommits_windowed shuffle ctx hnew hs
    exact ⟨hw.totalled, addCommit_ne_underflow shuffle ctx hw⟩

/-! A committee of one, committing a block a round: with a window of one and an
interval of two, recovery after seven commits replays the last five. -/

def soloContext : Context where
  committee := ⟨0, [⟨1⟩], 1, 1, 1, 1⟩
  ownIndex := 0
  protocolConfig :=
    { gcDepth := 2, leaderScheduleWindowSizeConfig := 1, leaderScheduleUpdateIntervalConfig := 2 }
  parameters := { dagStateCachedRounds := 1 }

def soloBlock (round : Nat) : VerifiedBlock :=
  { round, author := 0, ancestors := [⟨round - 1, 0, 0⟩] }

def soloCommit (round : Nat) : TrustedCommit :=
  ⟨⟨round, 0, 0, (soloBlock round).reference, [(soloBlock round).reference]⟩, round⟩

def soloSubDag (round : Nat) : CommittedSubDag :=
  { leader := (soloBlock round).reference, blocks := [soloBlock round], timestampMs := 0,
    commitRef := ⟨round, round⟩, decidedWithLocalBlocks := false }

def soloStore : Store :=
  ({} : Store).write
    { blocks := (List.range 7).map fun i => soloBlock (i + 1)
      commits := (List.range 7).map fun i => soloCommit (i + 1) }

def soloHistory : List CommittedSubDag := (List.range 7).map fun i => soloSubDag (i + 1)

theorem soloStore_holds : Holds soloStore ((List.range 7).map fun i => soloCommit (i + 1)) soloHistory := by
  refine ⟨by decide, by decide, ?_, ?_⟩
  · intro i c h
    obtain ⟨hi, rfl⟩ := List.getElem?_eq_some_iff.mp h
    rw [getElem_map, getElem_range]
    rfl
  · exact .cons rfl (.cons rfl (.cons rfl (.cons rfl (.cons rfl (.cons rfl (.cons rfl .nil))))))

theorem fromStore_recovers_solo :
    replayStart soloContext soloHistory.length = 3 ∧
      ∃ s, live (fun _ l => l) soloContext soloHistory = .ok s ∧
        fromStore (fun _ l => l) soloContext soloStore soloHistory.length = .ok s := by
  have h := (fromStore_recovers (fun _ l => l) soloContext soloStore_holds rfl (by decide)).1
  refine ⟨by decide, ?_⟩
  rcases h with herr | ⟨s, r, hs, hr, _, heq⟩
  · exact absurd herr (by decide)
  · exact ⟨s, hs, heq rfl ▸ hr⟩

end LeaderScheduleV3

end Sui.Consensus
