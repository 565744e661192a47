import Sui.Consensus.Committer.Decide
import Sui.Consensus.Committer.Universal

/-! Agreement of the commit rule.

The committer's statuses on a view, from some round up, obey the commit rule round
by round (`Statuses`). Two views may decide different slots, but never one slot
differently: by induction from the top, since the anchors of an indirect decision
are themselves agreed on (`Statuses.agree`). The decided sequences are therefore
prefixes of one another (`tryDecide_agreement`). -/
namespace Sui.Consensus

open Sui.Lib Exec BaseCommitter List BaseCommitterOptions UniversalCommitterBuilder

/-! ### The rule, slot by slot -/

/-- What the commit rule allows for the leader of round `k` on the blocks `S`, when
the leaders above have the statuses `later`. -/
inductive RuleStatus (ctx : Context) (U S : Set VerifiedBlock) (slot : Slot)
    (later : List LeaderStatus) : LeaderStatus → Prop
  | directSkip : HasQuorum ctx (blames S slot) → RuleStatus ctx U S slot later (.skip slot)
  | directCommit (l : VerifiedBlock) : l ∈ S → l.slot = slot →
      HasQuorum ctx (certificates ctx U S l) → RuleStatus ctx U S slot later (.commit l)
  | indirectCommit (anchor l : VerifiedBlock) : findAnchor (later.drop 2) = some anchor →
      l ∈ S → l.slot = slot → CertifiedFrom ctx U S anchor l →
      RuleStatus ctx U S slot later (.commit l)
  | indirectSkip (anchor : VerifiedBlock) : findAnchor (later.drop 2) = some anchor →
      (∀ l ∈ S, l.slot = slot → ¬CertifiedFrom ctx U S anchor l) →
      RuleStatus ctx U S slot later (.skip slot)
  | undecided : RuleStatus ctx U S slot later (.undecided slot)

/-- The statuses of the leaders of rounds `k`, `k + 1` and so on. -/
inductive Statuses (ctx : Context) (U S : Set VerifiedBlock) (schedule : LeaderSchedule) :
    Nat → List LeaderStatus → Prop
  | nil (k : Nat) : Statuses ctx U S schedule k []
  | cons {k : Nat} {s : LeaderStatus} {later : List LeaderStatus} :
      Statuses ctx U S schedule (k + 1) later → RuleStatus ctx U S ⟨k, schedule k 0⟩ later s →
      Statuses ctx U S schedule k (s :: later)

section Rule
variable {ctx : Context} {U S : Set VerifiedBlock} {schedule : LeaderSchedule} {faulty : Finset Nat}

variable {later L : List LeaderStatus} {k : Nat} {l : VerifiedBlock} {L' : List LeaderStatus}
  {slot : Slot} {s : LeaderStatus} {a : VerifiedBlock}

theorem RuleStatus.round (h : RuleStatus ctx U S slot later s) : s.round = slot.round := by
  cases h with
  | directSkip => rfl
  | directCommit l _ hslot => exact congrArg Slot.round hslot
  | indirectCommit _ l _ _ hslot => exact congrArg Slot.round hslot
  | indirectSkip => rfl
  | undecided => rfl

theorem RuleStatus.commit_mem (h : RuleStatus ctx U S slot later (.commit l)) : l ∈ S := by
  cases h with
  | directCommit _ hl => exact hl
  | indirectCommit _ _ _ hl => exact hl

section
variable (h : Statuses ctx U S schedule k L)
include h

theorem Statuses.round (hs : L[i]? = some s) : s.round = k + i := by
  induction h generalizing i with
  | nil => simp at hs
  | cons _ hrule ih =>
    cases i with
    | zero =>
      cases hs
      exact hrule.round
    | succ i =>
      rw [List.getElem?_cons_succ] at hs
      rw [ih hs]
      omega

theorem Statuses.commit_mem (hl : .commit l ∈ L) : l ∈ S ∧ k ≤ l.round := by
  induction h with
  | nil => cases hl
  | cons _ hrule ih =>
    rcases mem_cons.mp hl with rfl | hmem
    · exact ⟨hrule.commit_mem, Nat.le_of_eq hrule.round.symm⟩
    · exact ⟨(ih hmem).1, Nat.le_of_succ_le (ih hmem).2⟩

theorem Statuses.drop (n : Nat) : Statuses ctx U S schedule (k + n) (L.drop n) := by
  induction n generalizing k L with
  | zero => exact h
  | succ n ih =>
    cases h with
    | nil =>
      rw [drop_nil]
      exact .nil _
    | cons hlater _ =>
      rw [drop_succ_cons, show k + (n + 1) = k + 1 + n by omega]
      exact ih hlater

end

theorem findAnchor_mem (h : findAnchor L = some a) : .commit a ∈ L := by
  induction L with
  | nil => cases h
  | cons s rest ih =>
    cases s with
    | commit b =>
      cases h
      exact (.head _) ..
    | skip slot => exact mem_cons_of_mem _ (ih h)
    | undecided slot => cases h

/-- An anchor is a committed block at least a wave up. -/
theorem Statuses.anchor_mem (h : Statuses ctx U S schedule (k + 1) later)
    (ha : findAnchor (later.drop 2) = some a) : a ∈ S ∧ k + 3 ≤ a.round :=
  (h.drop 2).commit_mem (findAnchor_mem ha)

/-! ### Two views -/

/-- Two statuses do not contradict each other. -/
def Agree (s s' : LeaderStatus) : Prop := s.isDecided → s'.isDecided → s = s'

/-- The statuses of each round do not contradict each other. -/
def AgreeAll (L L' : List LeaderStatus) : Prop :=
  ∀ (i : Nat) s s', L[i]? = some s → L'[i]? = some s' → Agree s s'

theorem AgreeAll.tail (h : AgreeAll (s :: L)
    (s' :: L')) : AgreeAll L L' := fun i t t' ht ht' => h (i + 1) t t' ht ht'

theorem AgreeAll.drop (h : AgreeAll L L') (n : Nat) : AgreeAll (L.drop n) (L'.drop n) := by
  intro i t t' ht ht'
  rw [List.getElem?_drop] at ht ht'
  exact h _ t t' ht ht'

/-- Views that agree on all statuses agree on the anchor. -/
theorem findAnchor_agree (h : AgreeAll L L')
    (ha : findAnchor L = some a) (ha' : findAnchor L' = some a') : a = a' := by
  induction L generalizing L' with
  | nil => cases ha
  | cons s rest ih =>
    cases L' with
    | nil => cases ha'
    | cons s' rest' =>
      have hhead : Agree s s' := h 0 s s' rfl rfl
      cases s with
      | commit b =>
        cases s' with
        | commit b' =>
          cases ha
          cases ha'
          exact LeaderStatus.commit.inj (hhead rfl rfl)
        | skip _ => exact absurd (hhead rfl rfl) (by simp)
        | undecided _ => cases ha'
      | skip _ =>
        cases s' with
        | commit _ => exact absurd (hhead rfl rfl) (by simp)
        | skip _ => exact ih h.tail ha ha'
        | undecided _ => cases ha'
      | undecided _ => cases ha

section
variable (hU : Universe ctx U faulty)
include hU

theorem RuleStatus.certified (h : RuleStatus ctx U S slot later (.commit l)) :
    l.slot = slot ∧ ∃ c, Certifies ctx U c l := by
  cases h with
  | directCommit _ _ hslot hq =>
    obtain ⟨c, _, _, hc⟩ := hq.nonempty hU
    exact ⟨hslot, c, hc⟩
  | indirectCommit _ _ _ _ hslot hcf =>
    obtain ⟨c, _, _, _, hc⟩ := hcf
    exact ⟨hslot, c, hc⟩

/-- No view skips what another one commits. -/
theorem RuleStatus.not_skip (hS : S ⊆ U) (hv : View ctx U floor d) (hfloor : floor ≤ k - 1)
    (hlater' : Statuses ctx U d.blocks schedule (k + 1) later') (hagree : AgreeAll later later')
    (h : RuleStatus ctx U S ⟨k, schedule k 0⟩ later (.commit l))
    (h' : RuleStatus ctx U d.blocks ⟨k, schedule k 0⟩ later' (.skip ⟨k, schedule k 0⟩)) : False := by
  have hlS := hS h.commit_mem
  obtain ⟨hslot, c, hc⟩ := h.certified hU
  have hround : l.round = k := congrArg Slot.round hslot
  have hpos := (hU.verified l hlS).round
  have hfl : floor < l.round := by omega
  cases h' with
  | directSkip hb => exact not_certifies_of_blamed hU hv.blocks_subset hb hslot hc
  | indirectSkip anchor' ha' hnone =>
    obtain ⟨haS', har'⟩ := hlater'.anchor_mem ha'
    have hcf : CertifiedFrom ctx U d.blocks anchor' l := by
      cases h with
      | directCommit _ _ _ hq => exact exists_certificate hU hv hS hfl hq haS' (by omega)
      | indirectCommit anchor _ ha _ _ hcf =>
        have heq : anchor = anchor' := findAnchor_agree (hagree.drop 2) ha ha'
        subst heq
        obtain ⟨c, hcS, hcr, hreach, hcl⟩ := hcf
        obtain ⟨hreach', hcd⟩ := hv.reach_transfer hU hS haS' hreach (by omega)
        exact ⟨c, hcd, hcr, hreach', hcl⟩
    obtain ⟨c', hc'd, _, _, hcl'⟩ := id hcf
    exact hnone l (mem_blocks_of_certifies hU hv hc'd hlS hfl hcl') hslot hcf

/-- Two views agree on every slot that both decide. -/
theorem Statuses.agree
    (hv : View ctx U floor d) (hv' : View ctx U floor' d') (hfloor : floor ≤ k - 1) (hfloor' : floor' ≤ k - 1)
    (h : Statuses ctx U d.blocks schedule k L) (h' : Statuses ctx U d'.blocks schedule k L') : AgreeAll L L' := by
  induction L generalizing k L' with
  | nil =>
    intro i s s' hs _
    simp at hs
  | cons s later ih =>
    cases h with
    | cons hlater hrule =>
    cases h' with
    | nil =>
      intro i s s' _ hs'
      simp at hs'
    | @cons _ s' later' hlater' hrule' =>
    have htail : AgreeAll later later' := ih (by omega) (by omega) hlater hlater'
    have htail' : AgreeAll later' later := fun i t t' ht ht' hd hd' =>
      (htail i t' t ht' ht hd' hd).symm
    intro i t t' ht ht'
    cases i with
    | succ i => exact htail i t t' ht ht'
    | zero =>
      cases ht
      cases ht'
      intro hd hd'
      cases s with
      | undecided _ => cases hd
      | commit l =>
        cases s' with
        | undecided _ => cases hd'
        | commit l' =>
          obtain ⟨hslot, c, hc⟩ := hrule.certified hU
          obtain ⟨hslot', c', hc'⟩ := hrule'.certified hU
          congr 1
          exact hU.refs l (hv.blocks_subset hrule.commit_mem) l' (hv'.blocks_subset hrule'.commit_mem)
            (certifies_unique hU hc hc' (hslot.trans hslot'.symm))
        | skip slot =>
          have heq : slot = ⟨k, schedule k 0⟩ := by cases hrule' <;> rfl
          subst heq
          exact (hrule.not_skip hU hv.blocks_subset hv' hfloor' hlater' htail hrule').elim
      | skip slot =>
        have heq : slot = ⟨k, schedule k 0⟩ := by cases hrule <;> rfl
        subst heq
        cases s' with
        | undecided _ => cases hd'
        | commit l' =>
          exact (hrule'.not_skip hU hv'.blocks_subset hv hfloor hlater htail' hrule).elim
        | skip slot' =>
          have heq' : slot' = ⟨k, schedule k 0⟩ := by cases hrule' <;> rfl
          rw [heq']

end

end Rule

/-! ### What the committer runs -/

namespace UniversalCommitter

variable {ctx : Context} {U : Set VerifiedBlock} {faulty : Finset Nat} {d : DagState}
  {schedule : LeaderSchedule} {lastDecided : Slot} {round : Nat}

/-- The committer of the pipeline that elects a leader in a round. -/
def stage (round : Nat) : BaseCommitterOptions := { roundOffset := round % 3 }

theorem electLeader_stage (round : Nat) :
    electLeader schedule (stage round) round = some ⟨round, schedule round 0⟩ := by
  unfold electLeader
  rw [if_neg]
  · rfl
  · simp only [stage, leaderRound, waveNumber, DEFAULT_WAVE_LENGTH, ne_eq, not_not]
    omega

theorem electLeader_other (ho : offset < 3) (hne : offset ≠ round % 3) :
    electLeader schedule { roundOffset := offset } round = none := by
  unfold electLeader
  rw [if_pos]
  simp only [leaderRound, waveNumber, DEFAULT_WAVE_LENGTH, ne_eq]
  omega

theorem decisionRound_stage (round : Nat) :
    (stage round).decisionRound ((stage round).waveNumber round) = round + 2 := by
  simp only [stage, decisionRound, waveNumber, DEFAULT_WAVE_LENGTH]
  omega

/-- A committer without a leader in the round changes nothing. -/
theorem decideLeader_other (ho : offset < 3) (hne : offset ≠ round % 3) (p : Progress) :
    decideLeader ctx schedule d lastDecided round p { roundOffset := offset } = .ok p := by
  unfold decideLeader
  rw [electLeader_other ho hne]
  split <;> rfl

/-- Of the pipeline's committers one acts in each round. -/
theorem decideRound_eq (p : Progress) (round : Nat) :
    decideRound ctx schedule d lastDecided (build 1 true) p round =
      decideLeader ctx schedule d lastDecided round p (stage round) := by
  have hbuild : (build 1 true).reverse = [{ roundOffset := 2 }, { roundOffset := 1 }, { roundOffset := 0 }] := rfl
  unfold decideRound
  rw [hbuild]
  simp only [foldlM_cons, foldlM_nil]
  have hmod : round % 3 = 0 ∨ round % 3 = 1 ∨ round % 3 = 2 := by omega
  rcases hmod with h | h | h
  · rw [bind_ok (decideLeader_other (by omega) (by omega) p),
      bind_ok (decideLeader_other (by omega) (by omega) p), stage, h]
    exact bind_pure _
  · rw [bind_ok (decideLeader_other (by omega) (by omega) p), stage, h]
    cases hstep : decideLeader ctx schedule d lastDecided round p { roundOffset := 1 } with
    | error e => rfl
    | ok q => exact bind_ok (decideLeader_other (by omega) (by omega) q) _
  · rw [stage, h]
    cases hstep : decideLeader ctx schedule d lastDecided round p { roundOffset := 2 } with
    | error e => rfl
    | ok q =>
      exact (bind_ok (decideLeader_other (by omega) (by omega) q) _).trans
        (bind_ok (decideLeader_other (by omega) (by omega) q) _)

/-- Statuses listed by round: those at least a wave up are all but the first two. -/
theorem Statuses.filter_eq_drop (h : Statuses ctx U S schedule (k + 1) L) :
    (L.filter fun x => k + 3 ≤ x.round) = L.drop 2 := by
  have hlow : ∀ {n : Nat} {M : List LeaderStatus}, Statuses ctx U S schedule n M → k + 3 ≤ n →
      (M.filter fun x => k + 3 ≤ x.round) = M := by
    intro n M hM hn
    rw [filter_eq_self]
    intro x hx
    obtain ⟨i, hi⟩ := mem_iff_getElem?.mp hx
    have := hM.round hi
    simp only [decide_eq_true_eq]
    omega
  cases h with
  | nil => rfl
  | cons h₁ r₁ =>
    have hr₁ := r₁.round
    rw [filter_cons_of_neg (by simp only [decide_eq_true_eq]; rw [hr₁]; simp only; omega)]
    cases h₁ with
    | nil => rfl
    | cons h₂ r₂ =>
      have hr₂ := r₂.round
      rw [filter_cons_of_neg (by simp only [decide_eq_true_eq]; rw [hr₂]; simp only; omega)]
      exact hlow h₂ (by omega)

/-- One round: the last decided leader ends the loop, and any other one gets a status
the rule allows. -/
theorem decideLeader_eq (hU : Universe ctx U faulty) (hv : View ctx U floor d)
    (hfloor : floor ≤ round - 1) (hcommit : d.lastCommitRound ≤ round)
    (hlater : Statuses ctx U d.blocks schedule (round + 1) (leaders.map (·.1)))
    (hne : (⟨round, schedule round 0⟩ : Slot) ≠ lastDecided) :
    ∃ s decision, decideLeader ctx schedule d lastDecided round { leaders } (stage round) =
        .ok { leaders := (s, decision) :: leaders } ∧
      RuleStatus ctx U d.blocks ⟨round, schedule round 0⟩ (leaders.map (·.1)) s := by
  have ho : (stage round).decisionRound
      ((stage round).waveNumber (⟨round, schedule round 0⟩ : Slot).round) = round + 2 :=
    decisionRound_stage round
  obtain ⟨status, hstatus, hcases⟩ := tryDirectDecide_eq hU hv ho hfloor hcommit
  unfold decideLeader
  simp only [Bool.false_eq_true, if_false, electLeader_stage, if_neg hne, bind_ok hstatus]
  rcases hcases with ⟨rfl, hb⟩ | ⟨l, hl, hslot, rfl, hq⟩ | rfl
  · exact ⟨_, _, rfl, .directSkip hb⟩
  · exact ⟨_, _, rfl, .directCommit l hl hslot hq⟩
  · have hwave : (stage round).waveLength = 3 := rfl
    unfold tryIndirectDecide
    simp only [hwave, Statuses.filter_eq_drop hlater]
    cases hanchor : findAnchor ((leaders.map (·.1)).drop 2) with
    | none => exact ⟨_, _, rfl, .undecided⟩
    | some anchor =>
      obtain ⟨ha, har⟩ := hlater.anchor_mem hanchor
      obtain ⟨s, hs, hcases⟩ := decideLeaderFromAnchor_eq hU hv ho hfloor ha har
      refine ⟨s, .indirect, bind_ok hs _, ?_⟩
      rcases hcases with ⟨l, hl, hslot, rfl, hcf⟩ | ⟨rfl, hnone⟩
      · exact .indirectCommit anchor l hanchor hl hslot hcf
      · exact .indirectSkip anchor hanchor hnone

/-- The rounds above the last decided one are all given a status. -/
theorem decideRounds_above (hU : Universe ctx U faulty) (hv : View ctx U floor d)
    (hfloor : floor ≤ lastDecided.round - 1) (hcommit : d.lastCommitRound ≤ lastDecided.round)
    (n : Nat) (hstart : lastDecided.round < start) :
    ∃ leaders, (List.range' start n).reverse.foldlM
        (decideRound ctx schedule d lastDecided (build 1 true)) {} =
        .ok { leaders } ∧ Statuses ctx U d.blocks schedule start (leaders.map (·.1)) := by
  induction n generalizing start with
  | zero => exact ⟨[], rfl, .nil _⟩
  | succ n ih =>
    obtain ⟨leaders, hrun, hstat⟩ := ih (Nat.lt_succ_of_lt hstart)
    have hne : (⟨start, schedule start 0⟩ : Slot) ≠ lastDecided := by
      rintro rfl
      exact lt_irrefl _ hstart
    obtain ⟨s, decision, hstep, hrule⟩ := decideLeader_eq hU hv (by omega) (by omega) hstat hne
    refine ⟨(s, decision) :: leaders, ?_, .cons hstat hrule⟩
    rw [List.range'_succ, reverse_cons, foldlM_append, bind_ok hrun]
    simp only [foldlM_cons, foldlM_nil, decideRound_eq, hstep]
    rfl

/-- The first round to decide: that of the last decided leader is left out if the
schedule still elects that leader, or if a round has one leader by configuration. -/
def firstRound (ctx : Context) (schedule : LeaderSchedule) (lastDecided : Slot) : Nat :=
  if (⟨lastRound ctx lastDecided, schedule (lastRound ctx lastDecided) 0⟩ : Slot) = lastDecided then
    lastDecided.round + 1
  else lastRound ctx lastDecided

theorem le_firstRound (ctx : Context) (schedule : LeaderSchedule) (lastDecided : Slot) :
    lastDecided.round ≤ firstRound ctx schedule lastDecided := by
  have hlast : lastDecided.round ≤ lastRound ctx lastDecided := by
    unfold lastRound
    split <;> omega
  unfold firstRound
  split
  · exact Nat.le_succ _
  · exact hlast

theorem tryDecide_eq (hU : Universe ctx U faulty) (hv : View ctx U floor d)
    (hfloor : floor ≤ lastDecided.round - 1) (hcommit : d.lastCommitRound ≤ lastDecided.round) :
    ∃ leaders, tryDecide ctx schedule d lastDecided (build 1 true) =
        .ok (takeDecided leaders) ∧
      Statuses ctx U d.blocks schedule (firstRound ctx schedule lastDecided) (leaders.map (·.1)) := by
  unfold tryDecide
  have hlast : lastRound ctx lastDecided = lastDecided.round ∨
      lastRound ctx lastDecided = lastDecided.round + 1 := by
    unfold lastRound
    split
    · exact .inr rfl
    · exact .inl rfl
  unfold firstRound
  generalize lastRound ctx lastDecided = start at hlast
  simp only
  generalize d.highestAcceptedRound - 2 + 1 - start = n
  rcases hlast with rfl | rfl
  · cases n with
    | zero => exact ⟨[], rfl, .nil _⟩
    | succ n =>
      obtain ⟨leaders, hrun, hstat⟩ := decideRounds_above hU hv hfloor hcommit n
        (Nat.lt_succ_self lastDecided.round)
      rw [List.range'_succ, reverse_cons, foldlM_append, bind_ok hrun]
      simp only [foldlM_cons, foldlM_nil, decideRound_eq]
      by_cases hslot : (⟨lastDecided.round, schedule lastDecided.round 0⟩ : Slot) = lastDecided
      · refine ⟨leaders, ?_, by rw [if_pos hslot]; exact hstat⟩
        unfold decideLeader
        simp only [Bool.false_eq_true, if_false, electLeader_stage, if_pos hslot]
        rfl
      · obtain ⟨s, decision, hstep, hrule⟩ := decideLeader_eq hU hv hfloor hcommit hstat hslot
        rw [hstep, if_neg hslot]
        exact ⟨(s, decision) :: leaders, rfl, .cons hstat hrule⟩
  · obtain ⟨leaders, hrun, hstat⟩ := decideRounds_above hU hv hfloor hcommit n (Nat.lt_succ_self lastDecided.round)
    have hne : (⟨lastDecided.round + 1, schedule (lastDecided.round + 1) 0⟩ : Slot) ≠ lastDecided := by
      intro heq
      have := congrArg Slot.round heq
      simp only at this
      omega
    rw [bind_ok hrun, if_neg hne]
    exact ⟨leaders, rfl, hstat⟩

/-! ### The decided prefix -/

/-- A decision without how it was reached. -/
def decisionOf : DecidedLeader → LeaderStatus
  | .commit b _ => .commit b
  | .skip s => .skip s

/-- Sequences that agree round by round have decided prefixes that extend one another. -/
theorem takeDecided_prefix (h : Statuses ctx U S schedule k (leaders.map (·.1)))
    (h' : Statuses ctx U S' schedule k (leaders'.map (·.1)))
    (hagree : AgreeAll (leaders.map (·.1)) (leaders'.map (·.1))) :
    (takeDecided leaders).map decisionOf <+: (takeDecided leaders').map decisionOf ∨
      (takeDecided leaders').map decisionOf <+: (takeDecided leaders).map decisionOf := by
  induction leaders generalizing k leaders' with
  | nil => exact .inl nil_prefix
  | cons p rest ih =>
    cases leaders' with
    | nil => exact .inr nil_prefix
    | cons p' rest' =>
      obtain ⟨s, decision⟩ := p
      obtain ⟨s', decision'⟩ := p'
      cases h with
      | cons hlater hrule =>
      cases h' with
      | cons hlater' hrule' =>
      have htail := ih hlater hlater' hagree.tail
      have hround : s.round = k := hrule.round
      have hround' : s'.round = k := hrule'.round
      have hhead : Agree s s' := hagree 0 s s' rfl rfl
      simp only [takeDecided, hround, hround']
      by_cases hk : k = GENESIS_ROUND
      · rw [if_pos hk, if_pos hk]
        exact htail
      rw [if_neg hk, if_neg hk]
      cases s with
      | undecided _ => exact .inl nil_prefix
      | commit b =>
        cases s' with
        | undecided _ => exact .inr nil_prefix
        | commit b' =>
          cases hhead rfl rfl
          simpa [LeaderStatus.intoDecidedLeader, decisionOf] using htail
        | skip _ => exact absurd (hhead rfl rfl) (by simp)
      | skip slot =>
        cases s' with
        | undecided _ => exact .inr nil_prefix
        | commit _ => exact absurd (hhead rfl rfl) (by simp)
        | skip slot' =>
          cases hhead rfl rfl
          simpa [LeaderStatus.intoDecidedLeader, decisionOf] using htail

/-- **Agreement.** For a committee of the two-thirds protocol, blocks that pass
verification, equivocation by authors of at most a third of the stake, one leader a
round and any fixed schedule: on two views with the same last decided slot the
pipelined committer returns, without a panic, sequences of which one extends the
other. A view is closed under ancestors above its gc round, and from the last decided
round on. -/
theorem tryDecide_agreement {epoch : Nat} {authorities : List Authority}
    (hcommittee : Committee.new epoch authorities = .ok ctx.committee)
    (hleaders : ctx.protocolConfig.numLeadersPerRound.getD 1 = 1) {verifySignature : VerifiedBlock → Bool}
    (hverified : ∀ b ∈ U, SignedBlockVerifier.verifyBlock ctx verifySignature b = .ok ())
    (hrefs : ∀ b ∈ U, ∀ c ∈ U, b.reference = c.reference → b = c)
    (hfaulty : ctx.committee.stakeOf faulty ≤ (ctx.committee.totalStake - 1) / 3)
    (hhonest : ∀ b ∈ U, ∀ c ∈ U, b.author ∉ faulty → b.author = c.author → b.round = c.round → b = c)
    (schedule : LeaderSchedule) (lastDecided : Slot) {d d' : DagState}
    (hv : View ctx U (min (d.gcRound ctx) (lastDecided.round - 1)) d)
    (hv' : View ctx U (min (d'.gcRound ctx) (lastDecided.round - 1)) d')
    (hcommit : d.lastCommitRound ≤ lastDecided.round) (hcommit' : d'.lastCommitRound ≤ lastDecided.round) :
    ∃ decided decided',
      tryDecide ctx schedule d lastDecided (UniversalCommitterBuilder.build
        (ctx.protocolConfig.numLeadersPerRound.getD 1) true) = .ok decided ∧
      tryDecide ctx schedule d' lastDecided (UniversalCommitterBuilder.build
        (ctx.protocolConfig.numLeadersPerRound.getD 1) true) = .ok decided' ∧
      (decided.map decisionOf <+: decided'.map decisionOf ∨
        decided'.map decisionOf <+: decided.map decisionOf) := by
  have hU : Universe ctx U faulty :=
    ⟨fun b hb => SignedBlockVerifier.verifyBlock_spec (hverified b hb), hrefs, hhonest,
      _, (Committee.new_spec hcommittee).1, hfaulty⟩
  have hfloor : min (d.gcRound ctx) (lastDecided.round - 1) ≤ lastDecided.round - 1 := min_le_right _ _
  have hfloor' : min (d'.gcRound ctx) (lastDecided.round - 1) ≤ lastDecided.round - 1 := min_le_right _ _
  obtain ⟨leaders, hrun, hstat⟩ : ∃ leaders, tryDecide ctx schedule d lastDecided _ = _ ∧ _ :=
    tryDecide_eq hU hv hfloor hcommit
  obtain ⟨leaders', hrun', hstat'⟩ : ∃ leaders, tryDecide ctx schedule d' lastDecided _ = _ ∧ _ :=
    tryDecide_eq hU hv' hfloor' hcommit'
  have hfirst := le_firstRound ctx schedule lastDecided
  rw [hleaders]
  refine ⟨_, _, hrun, hrun', ?_⟩
  exact takeDecided_prefix hstat hstat' (hstat.agree hU hv hv' (by omega) (by omega) hstat')

/-! Four authorities, the last of which equivocates in the first round. Three rounds
commit the leader of the first, two rounds decide nothing. -/

def fourBlocks (rounds : Nat) : List VerifiedBlock :=
  fourBlock 1 3 7 :: (List.range rounds).flatMap fun r =>
    (List.range 4).map fun a => fourBlock (r + 1) a 0

theorem tryDecide_agreement_four :
    tryDecide fourContext (fun r _ => r % 4) (.ofBlocks (fourBlocks 3)) ⟨0, 0⟩
        (UniversalCommitterBuilder.build 1 true) = .ok [.commit (fourBlock 1 1 0) true] ∧
      ∃ decided decided',
        tryDecide fourContext (fun r _ => r % 4) (.ofBlocks (fourBlocks 3)) ⟨0, 0⟩
          (UniversalCommitterBuilder.build 1 true) = .ok decided ∧
        tryDecide fourContext (fun r _ => r % 4) (.ofBlocks (fourBlocks 2)) ⟨0, 0⟩
          (UniversalCommitterBuilder.build 1 true) = .ok decided' ∧
        (decided.map decisionOf <+: decided'.map decisionOf ∨
          decided'.map decisionOf <+: decided.map decisionOf) := by
  have hverify : ∀ b ∈ fourBlocks 3,
      SignedBlockVerifier.verifyBlock fourContext (fun _ => true) b = .ok () := by decide
  have hrefs : ∀ b ∈ fourBlocks 3, ∀ c ∈ fourBlocks 3, b.reference = c.reference → b = c := by
    decide
  have honest : ∀ b ∈ fourBlocks 3, ∀ c ∈ fourBlocks 3, b.author ∉ ({3} : Finset Nat) →
      b.author = c.author → b.round = c.round → b = c := by decide
  have hnew : Committee.new 0 [⟨1⟩, ⟨1⟩, ⟨1⟩, ⟨1⟩] = .ok fourContext.committee := by decide
  have hview : View fourContext {b | b ∈ fourBlocks 3} 0 (.ofBlocks (fourBlocks 3)) :=
    View.ofBlocks (fun _ h => h) (by decide)
  have hview' : View fourContext {b | b ∈ fourBlocks 3} 0 (.ofBlocks (fourBlocks 2)) :=
    View.ofBlocks (by decide) (by decide)
  exact ⟨by decide, tryDecide_agreement hnew (by decide) hverify hrefs (by decide) honest
    (fun r _ => r % 4) ⟨0, 0⟩ hview hview' (by decide) (by decide)⟩

end UniversalCommitter

end Sui.Consensus
