import Sui.Consensus.LeaderScheduleV3.Window

/-! Recovering the schedule from storage.

A replay that starts late sees a suffix of what the live instance holds: after `j`
replayed commits its pending commits and its entries are the last `j` and `j - 3`
of the live ones (`Suffix`). Once a window and the three pending commits have been
replayed nothing older is left in the live instance either, and at an interval
boundary the selected leaders agree too. `replayStart` leaves exactly that much
before the last boundary. -/
namespace Sui.Consensus.LeaderScheduleV3

open Sui.Lib Exec List

variable (shuffle : Seed → List (Nat × Nat) → List (Nat × Nat)) (ctx : Context)

/-! ### A late replay holds a suffix -/

/-- After `j` replayed commits, `r` holds the newest part of what `s` holds. -/
structure Suffix (j : Nat) (s r : LeaderScheduleV3 ctx.committee.size) : Prop where
  pending : r.pendingCommits = s.pendingCommits.rtake j
  pendingFull : min j MAX_PENDING_COMMITS ≤ s.pendingCommits.length
  entries : r.scoresEntries = s.scoresEntries.rtake (j - MAX_PENDING_COMMITS)
  entriesFull : min (j - MAX_PENDING_COMMITS) ctx.protocolConfig.leaderScheduleWindowSize ≤
    s.scoresEntries.length

theorem rtake_of_length_le {l : List α} (h : l.length ≤ k) : l.rtake k = l := by
  unfold rtake
  rw [Nat.sub_eq_zero_of_le h, drop_zero]

theorem rtake_append_singleton (l : List α) (x : α) (k : Nat) : (l ++ [x]).rtake (k + 1) = l.rtake k ++ [x] := by
  unfold rtake
  rw [length_append, length_singleton, Nat.add_sub_add_right, drop_append_of_le_length (Nat.sub_le _ _)]

theorem rtake_rtake (l : List α) (k m : Nat) : (l.rtake k).rtake m = l.rtake (min k m) := by
  unfold rtake
  rw [drop_drop, length_drop]
  congr 1
  omega

theorem getLast_rtake (l : List α) (hk : 0 < k) : (l.rtake k).getLast? = l.getLast? := by
  unfold rtake
  rw [getLast?_drop]
  split
  · have : l.length = 0 := by omega
    rw [length_eq_zero_iff.mp this]
    rfl
  · rfl

variable {ctx}

variable {s r : LeaderScheduleV3 ctx.committee.size} {c : CommittedSubDag} {j : Nat}

theorem Suffix.checkConsecutive (h : Suffix ctx j s r) (hs : LeaderScheduleV3.checkConsecutive s c = .ok ()) :
    LeaderScheduleV3.checkConsecutive r c = .ok () := by
  unfold LeaderScheduleV3.checkConsecutive at hs ⊢
  rw [h.pending]
  rcases Nat.eq_zero_or_pos j with rfl | hj
  · simp [rtake]
  · rw [getLast_rtake _ hj]
    exact hs

/-- Before the replay has three commits pending it only collects them. -/
theorem Suffix.warmup (hj : j < MAX_PENDING_COMMITS) (hs : Windowed ctx s) (h : Suffix ctx j s r)
    (hstep : addCommit shuffle ctx s c = .ok s') :
    ∃ r', addCommit shuffle ctx r c = .ok r' ∧ Suffix ctx (j + 1) s' r' := by
  have hnone : j + 1 - MAX_PENDING_COMMITS = 0 := by omega
  have hempty : r.scoresEntries = [] := by
    rw [h.entries, show j - MAX_PENDING_COMMITS = 0 by omega]
    simp [rtake]
  have hlen : r.pendingCommits.length < MAX_PENDING_COMMITS := by
    rw [h.pending, rtake, length_drop]
    omega
  obtain ⟨hc, hcases⟩ := addCommit_cases shuffle ctx hs hstep
  refine ⟨_, addCommit_warmup shuffle ctx (h.checkConsecutive hc) hlen, ?_, ?_, ?_, ?_⟩
  · rw [refreshCurrentSchedule_pending]
    simp only
    rw [h.pending, ← rtake_append_singleton]
    rcases hcases with ⟨_, rfl⟩ | ⟨c₃, c₂, c₁, e, hp, _, _, rfl⟩
    · rw [refreshCurrentSchedule_pending]
    · rw [refreshCurrentSchedule_pending, hp]
      simp only [MAX_PENDING_COMMITS] at hj
      interval_cases j <;> rfl
  · rcases hcases with ⟨_, rfl⟩ | ⟨c₃, c₂, c₁, e, hp, _, _, rfl⟩
    · simp only [refreshCurrentSchedule_pending, length_append, length_singleton]
      have := h.pendingFull
      omega
    · simp only [refreshCurrentSchedule_pending, length_cons, length_nil, MAX_PENDING_COMMITS]
      omega
  · rw [refreshCurrentSchedule_entries, hnone]
    simp [rtake, hempty]
  · rw [hnone]
    simp

/-- From then on both score the same commits, and the live window holds the replay's. -/
theorem Suffix.scored (hj : MAX_PENDING_COMMITS ≤ j) (hs : Windowed ctx s) (hr : Windowed ctx r)
    (h : Suffix ctx j s r) (hstep : addCommit shuffle ctx s c = .ok s') :
    ∃ r', addCommit shuffle ctx r c = .ok r' ∧ Suffix ctx (j + 1) s' r' := by
  have hpend : r.pendingCommits = s.pendingCommits := by
    rw [h.pending, rtake_of_length_le (hs.pending.trans hj)]
  have hfull : s.pendingCommits.length = MAX_PENDING_COMMITS := by
    have h₁ := h.pendingFull
    have h₂ := hs.pending
    omega
  obtain ⟨hc, ⟨hlt, _⟩ | ⟨c₃, c₂, c₁, e, hp, he, hf, rfl⟩⟩ := addCommit_cases shuffle ctx hs hstep
  · omega
  have hslide : slide ctx r.scoresEntries e =
      (slide ctx s.scoresEntries e).rtake (j + 1 - MAX_PENDING_COMMITS) := by
    unfold slide
    rw [h.entries, show j + 1 - MAX_PENDING_COMMITS = j - MAX_PENDING_COMMITS + 1 by omega,
      ← rtake_append_singleton, rtake_rtake, rtake_rtake, Nat.min_comm]
  have hfit : Fits (slide ctx r.scoresEntries e) := by
    rw [hslide]
    exact hf.sublist (drop_sublist _ _)
  refine ⟨_, addCommit_scored shuffle ctx hr.totalled (h.checkConsecutive hc) (hpend.trans hp)
    (by rw [hpend]; exact he) hfit, ?_, ?_, ?_, ?_⟩
  · simp only [refreshCurrentSchedule_pending]
    rw [rtake_of_length_le]
    simp only [length_cons, length_nil, MAX_PENDING_COMMITS] at hj ⊢
    omega
  · simp only [refreshCurrentSchedule_pending, length_cons, length_nil, MAX_PENDING_COMMITS]
    omega
  · simp only [refreshCurrentSchedule_entries, setWindow]
    exact hslide
  · simp only [refreshCurrentSchedule_entries, setWindow, slide, rtake, length_drop,
      length_append, length_singleton]
    have := h.entriesFull
    omega

theorem Suffix.addCommits (hs : Windowed ctx s) (hr : Windowed ctx r)
    (h : Suffix ctx j s r) (hrun : addCommits shuffle ctx s cs = .ok s') :
    ∃ r', LeaderScheduleV3.addCommits shuffle ctx r cs = .ok r' ∧ Suffix ctx (j + cs.length) s' r' := by
  induction cs generalizing s r j with
  | nil =>
    cases hrun
    exact ⟨r, rfl, h⟩
  | cons c rest ih =>
    obtain ⟨t, hstep, hrest⟩ := foldlM_cons_eq_ok.mp hrun
    have hnext : ∃ r', addCommit shuffle ctx r c = .ok r' ∧ Suffix ctx (j + 1) t r' := by
      rcases Nat.lt_or_ge j MAX_PENDING_COMMITS with hj | hj
      · exact h.warmup shuffle hj hs hstep
      · exact h.scored shuffle hj hs hr hstep
    obtain ⟨u, hu, hsuf⟩ := hnext
    obtain ⟨r', hr', hsuf'⟩ := ih (addCommit_windowed shuffle ctx hs hstep)
      (addCommit_windowed shuffle ctx hr hu) hsuf hrest
    refine ⟨r', foldlM_cons_eq_ok.mpr ⟨u, hu, hr'⟩, ?_⟩
    rw [length_cons, show j + (rest.length + 1) = j + 1 + rest.length by omega]
    exact hsuf'

section
variable (hs : Windowed ctx s) (hr : Windowed ctx r) (h : Suffix ctx j s r)
  (hj : ctx.protocolConfig.leaderScheduleWindowSize + MAX_PENDING_COMMITS ≤ j)
include hs h hj

/-- After a window and the pending commits the replay holds what the live instance holds. -/
theorem Suffix.holdsAll : r.pendingCommits = s.pendingCommits ∧ r.scoresEntries = s.scoresEntries := by
  rw [h.pending, h.entries]
  exact ⟨rtake_of_length_le (hs.pending.trans ((Nat.le_add_left _ _).trans hj)),
    rtake_of_length_le (hs.window.trans (Nat.le_sub_of_add_le hj))⟩

include hr in
/-- With the same schedule it has caught up. -/
theorem Suffix.caughtUp (hcur : r.currentSchedule = s.currentSchedule) : r = s := by
  obtain ⟨hp, he⟩ := h.holdsAll hs hj
  obtain ⟨r₁, r₂, r₃⟩ := hr.totalled
  obtain ⟨s₁, s₂, s₃⟩ := hs.totalled
  cases r
  cases s
  simp_all

end

/-! ### The boundary -/

theorem refreshCurrentSchedule_boundary
    (h : (s.nextCommitIndex - 1) % ctx.protocolConfig.leaderScheduleUpdateInterval = 0) :
    (refreshCurrentSchedule shuffle ctx s).currentSchedule =
      computeNextCommitLeaderSchedule shuffle ctx (refreshCurrentSchedule shuffle ctx s) := by
  unfold refreshCurrentSchedule
  rw [if_pos h]
  rfl

/-- A commit on the boundary leaves a schedule selected from the state it leaves. -/
theorem addCommit_boundary (h : Windowed ctx s) (hs : addCommit shuffle ctx s c = .ok s')
    (hb : c.commitRef.index % ctx.protocolConfig.leaderScheduleUpdateInterval = 0) :
    s'.currentSchedule = computeNextCommitLeaderSchedule shuffle ctx s' := by
  obtain ⟨_, ⟨_, rfl⟩ | ⟨c₃, c₂, c₁, e, _, _, _, rfl⟩⟩ := addCommit_cases shuffle ctx h hs
  · apply refreshCurrentSchedule_boundary
    simpa [nextCommitIndex] using hb
  · apply refreshCurrentSchedule_boundary
    simpa [nextCommitIndex] using hb

/-- The selection reads the totals and the pending commits only. -/
theorem computeNextCommitLeaderSchedule_congr
    (ht : r.totalScoresPerAuthority = s.totalScoresPerAuthority) (hp : r.pendingCommits = s.pendingCommits) :
    computeNextCommitLeaderSchedule shuffle ctx r = computeNextCommitLeaderSchedule shuffle ctx s := by
  simp only [computeNextCommitLeaderSchedule, nextCommitIndex, minNextLeaderRound,
    selectAllowedLeadersWithFixedConfig, ht, hp]

/-- A replay of a window and the pending commits that ends on a boundary ends in
the live state, wherever the live instance started. -/
theorem addCommits_forget
    (hs : Windowed ctx s)
    (hlen : ctx.protocolConfig.leaderScheduleWindowSize + MAX_PENDING_COMMITS = (cs ++ [c]).length)
    (hb : c.commitRef.index % ctx.protocolConfig.leaderScheduleUpdateInterval = 0)
    (hrun : addCommits shuffle ctx s (cs ++ [c]) = .ok s') : live shuffle ctx (cs ++ [c]) = .ok s' := by
  have hnew := new_windowed shuffle ctx
  have h₀ : Suffix ctx 0 s (new shuffle ctx 0) := by
    refine ⟨?_, Nat.zero_le _, ?_, Nat.zero_le _⟩
    · simp [rtake, new]
    · simp [rtake, new]
  obtain ⟨r', hr', hsuf⟩ := h₀.addCommits shuffle hs hnew hrun
  have hws := addCommits_windowed shuffle ctx hs hrun
  have hwr := addCommits_windowed shuffle ctx hnew hr'
  obtain ⟨t, ht, htc⟩ := foldlM_append_eq_ok.mp hrun
  obtain ⟨u, hu, huc⟩ := foldlM_append_eq_ok.mp hr'
  simp only [foldlM_cons, foldlM_nil, bind_eq_ok, pure_eq_ok, exists_eq_right] at htc huc
  have hcs := addCommit_boundary shuffle (addCommits_windowed shuffle ctx hs ht) htc hb
  have hcr := addCommit_boundary shuffle (addCommits_windowed shuffle ctx hnew hu) huc hb
  have hj : ctx.protocolConfig.leaderScheduleWindowSize + MAX_PENDING_COMMITS ≤ 0 + (cs ++ [c]).length := by omega
  obtain ⟨hpend, hent⟩ := hsuf.holdsAll hws hj
  have hscores : r'.totalScoresPerAuthority = s'.totalScoresPerAuthority := by
    rw [hwr.totalled.scores, hws.totalled.scores, hent]
  have hcur : r'.currentSchedule = s'.currentSchedule := by
    rw [hcs, hcr, computeNextCommitLeaderSchedule_congr shuffle hscores hpend]
  rw [← hsuf.caughtUp hws hwr hj hcur]
  exact hr'

/-- The commits of a history are numbered from one. -/
def Numbered (history : List CommittedSubDag) : Prop :=
  ∀ i c, history[i]? = some c → c.commitRef.index = i + 1

/-- Replaying from `replayStart` on ends in the live state. -/
theorem live_drop_replayStart (hnum : Numbered h) (hlive : live shuffle ctx h = .ok s) :
    live shuffle ctx (h.drop (replayStart ctx h.length - 1)) = .ok s := by
  generalize hp : replayStart ctx h.length - 1 = p
  rcases Nat.eq_zero_or_pos p with rfl | hpos
  · rwa [drop_zero]
  obtain ⟨w, hwdef⟩ : ∃ w, ctx.protocolConfig.leaderScheduleWindowSize = w := ⟨_, rfl⟩
  obtain ⟨b, hbdef⟩ : ∃ b, h.length / ctx.protocolConfig.leaderScheduleUpdateInterval *
      ctx.protocolConfig.leaderScheduleUpdateInterval = b := ⟨_, rfl⟩
  have hble : b ≤ h.length := hbdef ▸ Nat.div_mul_le_self _ _
  have hwb : p + (w + 3) = b := by
    simp only [replayStart, MAX_PENDING_COMMITS, hwdef, hbdef] at hp
    omega
  have hc : b - 1 < h.length := by omega
  have hsplit : h = h.take p ++ ((h.drop p).take (w + 2) ++ [h[b - 1]]) ++ h.drop b := by
    have h₁ : (h.drop p).take (w + 3) = (h.drop p).take (w + 2) ++ [h[b - 1]] := by
      rw [show w + 3 = w + 2 + 1 from rfl, take_add_one, getElem?_drop,
        show p + (w + 2) = b - 1 by omega, getElem?_eq_getElem hc]
      rfl
    rw [← h₁, ← take_add, hwb, take_append_drop]
  have hdrop : h.drop p = ((h.drop p).take (w + 2) ++ [h[b - 1]]) ++ h.drop b := by
    conv_lhs => rw [hsplit]
    rw [append_assoc, drop_left' (by rw [length_take]; omega)]
  have hrun := hlive
  unfold live addCommits at hrun
  rw [hsplit, foldlM_append_eq_ok] at hrun
  obtain ⟨t, ht, hrest⟩ := hrun
  obtain ⟨u, hu, ht⟩ := foldlM_append_eq_ok.mp ht
  have hidx : h[b - 1].commitRef.index = b := by
    have := hnum (b - 1) h[b - 1] (getElem?_eq_getElem hc)
    omega
  have hmid := addCommits_forget shuffle (addCommits_windowed shuffle ctx (new_windowed shuffle ctx) hu)
    (by rw [length_append, length_take, length_drop, length_singleton, hwdef, MAX_PENDING_COMMITS]; omega)
    (by rw [hidx, ← hbdef]; exact Nat.mul_mod_left _ _) ht
  rw [hdrop]
  exact foldlM_append_eq_ok.mpr ⟨t, hmid, hrest⟩

end Sui.Consensus.LeaderScheduleV3
