import Sui.Consensus.LeaderScheduleV3.Basic

/-! The sliding window of scores.

In every state a schedule reaches, the totals are the sums of the retained entries
(`Totalled`), at most a window of them, with at most three commits pending
(`Windowed`). So eviction never subtracts too much, and adding a commit has a
closed form: the window becomes the last entries of the old one and the new entry
(`addCommit_cases`). -/
namespace Sui.Consensus.LeaderScheduleV3

open Sui.Lib Exec List

section Totals
variable {n : Nat} {s : LeaderScheduleV3 n} {e : ScoresEntry n}

/-- The totals are the sums of the retained entries. -/
structure Totalled (s : LeaderScheduleV3 n) : Prop where
  scores : s.totalScoresPerAuthority = (s.scoresEntries.map (·.scoreContributions)).sum
  leaders : s.totalNumLeaders = (s.scoresEntries.map (·.numLeaders)).sum
  stakes : s.totalLeaderStakes = (s.scoresEntries.map (·.leaderStakes)).sum

/-- The schedule with the given entries and their totals. -/
def setWindow (s : LeaderScheduleV3 n) (entries : List (ScoresEntry n)) : LeaderScheduleV3 n :=
  { s with
    totalScoresPerAuthority := (entries.map (·.scoreContributions)).sum
    totalNumLeaders := (entries.map (·.numLeaders)).sum
    totalLeaderStakes := (entries.map (·.leaderStakes)).sum
    scoresEntries := entries }

theorem setWindow_totalled (s : LeaderScheduleV3 n) (es : List (ScoresEntry n)) :
    (s.setWindow es).Totalled := ⟨rfl, rfl, rfl⟩

theorem Totalled.setWindow_self (h : s.Totalled) : s.setWindow s.scoresEntries = s := by
  obtain ⟨h₁, h₂, h₃⟩ := h
  cases s
  simp_all [setWindow]

@[simp] theorem setWindow_setWindow (s : LeaderScheduleV3 n) (es fs : List (ScoresEntry n)) :
    (s.setWindow es).setWindow fs = s.setWindow fs := rfl

/-- The totals of the entries fit their 64 bits. -/
structure Fits (entries : List (ScoresEntry n)) : Prop where
  scores : (entries.map (·.scoreContributions)).sum ≤ fun _ => U64_MAX
  leaders : (entries.map (·.numLeaders)).sum ≤ U64_MAX
  stakes : (entries.map (·.leaderStakes)).sum ≤ U64_MAX

theorem Fits.sublist (h : Fits fs) (hs : es.Sublist fs) : Fits es := by
  obtain ⟨h₁, h₂, h₃⟩ := h
  refine ⟨le_trans ?_ h₁, le_trans ?_ h₂, le_trans ?_ h₃⟩
  · exact (hs.map _).sum_le_sum fun _ _ => zero_le
  · exact (hs.map _).sum_le_sum fun _ _ => zero_le
  · exact (hs.map _).sum_le_sum fun _ _ => zero_le

/-- Eviction takes the oldest entry off the totals: they contain it. -/
theorem evictOldest_of_totalled (h : s.Totalled) (he : s.scoresEntries = e :: rest) :
    evictOldest s = .ok (s.setWindow rest) := by
  have h₁ : s.totalScoresPerAuthority = e.scoreContributions + (rest.map (·.scoreContributions)).sum := by
    rw [h.scores, he, map_cons, sum_cons]
  have h₂ : s.totalNumLeaders = e.numLeaders + (rest.map (·.numLeaders)).sum := by
    rw [h.leaders, he, map_cons, sum_cons]
  have h₃ : s.totalLeaderStakes = e.leaderStakes + (rest.map (·.leaderStakes)).sum := by
    rw [h.stakes, he, map_cons, sum_cons]
  have hle : e.scoreContributions ≤ e.scoreContributions + (rest.map (·.scoreContributions)).sum := le_self_add
  unfold evictOldest
  rw [he]
  simp only [checkedSub, h₁, h₂, h₃, if_pos hle, if_pos (Nat.le_add_right _ _), add_tsub_cancel_left]
  rfl

theorem evictWhileFull_of_totalled (hw : 0 < windowSize) (fuel : Nat)
    (h : s.Totalled) (hf : s.scoresEntries.length ≤ fuel) :
    evictWhileFull windowSize fuel s =
      .ok (s.setWindow (s.scoresEntries.drop (s.scoresEntries.length + 1 - windowSize))) := by
  induction fuel generalizing s with
  | zero =>
    have he : s.scoresEntries = [] := length_eq_zero_iff.mp (Nat.le_zero.mp hf)
    rw [evictWhileFull, he, drop_nil, ← he, h.setWindow_self]
  | succ fuel ih =>
    unfold evictWhileFull
    by_cases hfull : s.scoresEntries.length ≥ windowSize
    · rw [if_pos hfull]
      cases he : s.scoresEntries with
      | nil =>
        rw [he, length_nil] at hfull
        omega
      | cons e rest =>
        rw [he, length_cons] at hf hfull
        have hstep := evictOldest_of_totalled h he
        have hrest : (s.setWindow rest).scoresEntries.length ≤ fuel := Nat.le_of_succ_le_succ hf
        rw [bind_ok hstep, ih (setWindow_totalled s rest) hrest, setWindow_setWindow]
        congr 2
        show rest.drop (rest.length + 1 - windowSize) = _
        rw [length_cons, show rest.length + 1 + 1 - windowSize =
          (rest.length + 1 - windowSize) + 1 by omega, drop_succ_cons]
    · rw [if_neg hfull, show s.scoresEntries.length + 1 - windowSize = 0 by omega, drop_zero, h.setWindow_self]

theorem pushEntry_of_fits (h : s.Totalled) (hf : Fits (s.scoresEntries ++ [e])) :
    pushEntry s e = .ok (s.setWindow (s.scoresEntries ++ [e])) := by
  obtain ⟨f₁, f₂, f₃⟩ := hf
  simp only [map_append, map_cons, map_nil, sum_append, sum_cons,
    sum_nil, add_zero, ← h.scores, ← h.leaders, ← h.stakes] at f₁ f₂ f₃
  simp only [pushEntry, checkedAdd, if_pos f₁, if_pos f₂, if_pos f₃]
  simp only [setWindow, map_append, map_cons, map_nil, sum_append,
    sum_cons, sum_nil, add_zero, h.scores, h.leaders, h.stakes]
  rfl

theorem pushEntry_eq_ok (h : s.Totalled) (hs : pushEntry s e = .ok s') : Fits (s.scoresEntries ++ [e]) := by
  simp only [pushEntry, checkedAdd, bind_eq_ok] at hs
  obtain ⟨_, h₁, _, h₂, _, h₃, _⟩ := hs
  have f₁ : s.totalScoresPerAuthority + e.scoreContributions ≤ fun _ => U64_MAX := by
    by_contra hn
    simp [if_neg hn] at h₁
  have f₂ : s.totalNumLeaders + e.numLeaders ≤ U64_MAX := by
    by_contra hn
    simp [if_neg hn] at h₂
  have f₃ : s.totalLeaderStakes + e.leaderStakes ≤ U64_MAX := by
    by_contra hn
    simp [if_neg hn] at h₃
  rw [h.scores] at f₁
  rw [h.leaders] at f₂
  rw [h.stakes] at f₃
  exact ⟨by simpa using f₁, by simpa using f₂, by simpa using f₃⟩

theorem pushEntry_eq_error (hs : pushEntry s e = .error p) : p = .scoreOverflow := by
  have hadd : ∀ {M : Type} [Add M] [LE M] [DecidableLE M] (m a b : M) (p : Panic),
      checkedAdd m a b = .error p → p = .scoreOverflow := by
    intro M _ _ _ m a b p h
    unfold checkedAdd at h
    split at h <;> cases h
    rfl
  simp only [pushEntry, bind_eq_error] at hs
  rcases hs with h | ⟨_, _, h | ⟨_, _, h | ⟨_, _, h⟩⟩⟩
  · exact hadd _ _ _ _ h
  · exact hadd _ _ _ _ h
  · exact hadd _ _ _ _ h
  · exact absurd h pure_ne_error

end Totals

/-! ### Adding a commit -/

variable (shuffle : Seed → List (Nat × Nat) → List (Nat × Nat)) (ctx : Context)

/-- What every state of a run keeps. -/
structure Windowed (s : LeaderScheduleV3 ctx.committee.size) : Prop where
  totalled : s.Totalled
  pending : s.pendingCommits.length ≤ MAX_PENDING_COMMITS
  window : s.scoresEntries.length ≤ ctx.protocolConfig.leaderScheduleWindowSize

theorem windowSize_pos : 0 < ctx.protocolConfig.leaderScheduleWindowSize :=
  Nat.zero_lt_one.trans_le (le_max_right _ _)

theorem new_windowed : Windowed ctx (new shuffle ctx 0) :=
  ⟨⟨rfl, rfl, rfl⟩, Nat.zero_le _, Nat.zero_le _⟩

@[simp] theorem refreshCurrentSchedule_pending (s : LeaderScheduleV3 ctx.committee.size) :
    (refreshCurrentSchedule shuffle ctx s).pendingCommits = s.pendingCommits := by
  unfold refreshCurrentSchedule
  split <;> rfl

@[simp] theorem refreshCurrentSchedule_entries (s : LeaderScheduleV3 ctx.committee.size) :
    (refreshCurrentSchedule shuffle ctx s).scoresEntries = s.scoresEntries := by
  unfold refreshCurrentSchedule
  split <;> rfl

variable {s : LeaderScheduleV3 ctx.committee.size}

theorem refreshCurrentSchedule_totalled (h : s.Totalled) : (refreshCurrentSchedule shuffle ctx s).Totalled := by
  obtain ⟨h₁, h₂, h₃⟩ := h
  unfold refreshCurrentSchedule
  split
  · exact ⟨h₁, h₂, h₃⟩
  · exact ⟨h₁, h₂, h₃⟩

/-- The window after one more entry. -/
def slide (es : List (ScoresEntry ctx.committee.size)) (e : ScoresEntry ctx.committee.size) :
    List (ScoresEntry ctx.committee.size) :=
  (es ++ [e]).rtake ctx.protocolConfig.leaderScheduleWindowSize

theorem slide_eq (es : List (ScoresEntry ctx.committee.size)) (e : ScoresEntry ctx.committee.size) :
    slide ctx es e = es.drop (es.length + 1 - ctx.protocolConfig.leaderScheduleWindowSize) ++ [e] := by
  have hw := windowSize_pos ctx
  unfold slide List.rtake
  rw [length_append, length_singleton, drop_append_of_le_length (by omega)]

/-- With fewer than three commits pending, a commit is only appended. -/
theorem addCommit_warmup
    (hc : checkConsecutive s c = .ok ()) (hp : s.pendingCommits.length < MAX_PENDING_COMMITS) :
    addCommit shuffle ctx s c = .ok (refreshCurrentSchedule shuffle ctx
      { s with pendingCommits := s.pendingCommits ++ [c] }) := by
  unfold addCommit
  rw [bind_ok hc]
  split
  · rename_i hpend
    rw [hpend] at hp
    simp only [length_cons, MAX_PENDING_COMMITS] at hp
    omega
  · rfl

/-- With three commits pending the oldest is scored and the window slides. -/
theorem addCommit_scored (h : s.Totalled) (hc : checkConsecutive s c = .ok ())
    (hp : s.pendingCommits = [c₃, c₂, c₁]) (he : scoreCommit ctx s.pendingCommits c₃ c₂ c₁ c = .ok e)
    (hf : Fits (slide ctx s.scoresEntries e)) :
    addCommit shuffle ctx s c = .ok (refreshCurrentSchedule shuffle ctx
      { s.setWindow (slide ctx s.scoresEntries e) with pendingCommits := [c₂, c₁, c] }) := by
  have hev := evictWhileFull_of_totalled (windowSize_pos ctx) (s.scoresEntries.length + 1) h (Nat.le_succ _)
  have hpush := pushEntry_of_fits (setWindow_totalled s _) (e := e) (by
    rw [slide_eq] at hf
    exact hf)
  unfold addCommit
  rw [hp] at he
  simp only [bind_ok hc, hp, bind_ok he, bind_ok hev, bind_ok hpush]
  rw [slide_eq]
  rfl

/-- All that adding a commit can do to a windowed schedule. -/
theorem addCommit_cases (h : Windowed ctx s) (hs : addCommit shuffle ctx s c = .ok s') :
    checkConsecutive s c = .ok () ∧
      ((s.pendingCommits.length < MAX_PENDING_COMMITS ∧
        s' = refreshCurrentSchedule shuffle ctx
          { s with pendingCommits := s.pendingCommits ++ [c] }) ∨
      ∃ c₃ c₂ c₁ e, s.pendingCommits = [c₃, c₂, c₁] ∧
        scoreCommit ctx s.pendingCommits c₃ c₂ c₁ c = .ok e ∧
        Fits (slide ctx s.scoresEntries e) ∧
        s' = refreshCurrentSchedule shuffle ctx
          { s.setWindow (slide ctx s.scoresEntries e) with pendingCommits := [c₂, c₁, c] }) := by
  have hrun := hs
  obtain ⟨_, hc, hs⟩ := bind_eq_ok.mp hs
  refine ⟨hc, ?_⟩
  rcases Nat.lt_or_ge s.pendingCommits.length MAX_PENDING_COMMITS with hlt | hge
  · rw [addCommit_warmup shuffle ctx hc hlt] at hrun
    exact .inl ⟨hlt, (Except.ok.inj hrun).symm⟩
  · have hlen : s.pendingCommits.length = 3 := le_antisymm h.pending hge
    obtain ⟨c₃, c₂, c₁, hp⟩ := length_eq_three.mp hlen
    simp only [hp, bind_eq_ok] at hs
    obtain ⟨e, he, t, ht, u, hu, _⟩ := hs
    have hev := evictWhileFull_of_totalled (windowSize_pos ctx) (s.scoresEntries.length + 1)
      h.totalled (Nat.le_succ _)
    rw [hev] at ht
    cases ht
    have hf : Fits (slide ctx s.scoresEntries e) := by
      rw [slide_eq]
      exact pushEntry_eq_ok (setWindow_totalled s _) hu
    rw [← hp] at he
    rw [addCommit_scored shuffle ctx h.totalled hc hp he hf] at hrun
    exact .inr ⟨c₃, c₂, c₁, e, hp, he, hf, (Except.ok.inj hrun).symm⟩

theorem addCommit_windowed (h : Windowed ctx s) (hs : addCommit shuffle ctx s c = .ok s') : Windowed ctx s' := by
  obtain ⟨_, ⟨hlt, rfl⟩ | ⟨c₃, c₂, c₁, e, hp, _, _, rfl⟩⟩ := addCommit_cases shuffle ctx h hs
  · refine ⟨refreshCurrentSchedule_totalled shuffle ctx ⟨h.totalled.1, h.totalled.2, h.totalled.3⟩, ?_, ?_⟩
    · simp only [refreshCurrentSchedule_pending, length_append, length_singleton]
      exact hlt
    · simpa using h.window
  · refine ⟨refreshCurrentSchedule_totalled shuffle ctx ⟨rfl, rfl, rfl⟩, ?_, ?_⟩
    · simp [MAX_PENDING_COMMITS]
    · simp only [refreshCurrentSchedule_entries, setWindow, slide, List.rtake, length_drop]
      omega

theorem addCommits_windowed (h : Windowed ctx s) (hs : addCommits shuffle ctx s cs = .ok s') : Windowed ctx s' :=
  foldlM_inv (fun _ _ _ _ ht hstep => addCommit_windowed shuffle ctx ht hstep) h hs

end Sui.Consensus.LeaderScheduleV3
