import Sui.SuiSystem.Rewards

/-! Leaving and joining at the end of an epoch.

The second half of an epoch change lets validators leave, those who asked for it and those with too
little stake, and takes in those that wait. Indices are taken from the largest to the smallest, so
that the ones still to come stay in range while the list shrinks.

`Turn` holds throughout. The stake that is removed is counted against the stake at the beginning, and
what is left is the stake of the validators that are active then. -/
namespace Sui.SuiSystem

open Sui.Lib BTreeMap Exec List Validator NoAccess

/-! ### Stake -/

/-- The stake of all of them. -/
def stakes (validators : List Validator) : Nat := (validators.map Validator.totalStake).sum

@[simp] theorem stakes_nil : stakes [] = 0 := rfl

@[simp] theorem stakes_cons (v : Validator) (l : List Validator) : stakes (v :: l) = v.totalStake + stakes l := by
  simp [stakes]

@[simp] theorem stakes_append (l l' : List Validator) : stakes (l ++ l') = stakes l + stakes l' := by
  simp [stakes]

variable {v : Validator} {o : Objects} {epoch : Nat}

theorem stakes_perm (h : l.Perm l') : stakes l = stakes l' :=
  (h.map totalStake).sum_eq

theorem stakes_congr (h : List.Forall₂ R l l') (hR : ∀ v w, R v w → w.totalStake = v.totalStake) :
    stakes l' = stakes l := by
  unfold stakes
  rw [forall₂_map_eq h fun v _ w hvw => hR v w hvw]

theorem calculateTotalStakes_sat (validators : List Validator) :
    Sat (ValidatorSet.calculateTotalStakes validators) (fun total => total = stakes validators)
      NoAccess := by
  refine Sat.foldlM (P := fun done total => total = stakes done) rfl fun done v rest total _ htotal => ?_
  refine add.mono fun sum hsum => ?_
  rw [hsum.1, htotal, stakes_append, stakes_cons, stakes_nil, Nat.add_zero]

/-! ### Reports of a validator that leaves -/

theorem cleanReportRecordsLeavingValidator_sat (records : ReportRecords) (leaving : Address) :
    Sat (ValidatorSet.cleanReportRecordsLeavingValidator records leaving)
      (fun cleaned => ∀ (a : Address) reporters, cleaned[a]? = some reporters →
        a ≠ leaving ∧ leaving ∉ reporters ∧ ∃ old, records[a]? = some old ∧ ∀ b ∈ reporters, b ∈ old)
      NoAccess := by
  have hnodup : (records.erase leaving).keys.Nodup :=
    (records.erase leaving).ordered_keys.imp fun hlt heq => by simp [heq] at hlt
  -- what was visited is clean, and the rest as it was
  refine Sat.mono (Sat.foldlM (P := fun done (r : ReportRecords) =>
    (∀ a ∈ done, ∀ reporters, r[a]? = some reporters → leaving ∉ reporters ∧
      ∃ old, (records.erase leaving)[a]? = some old ∧ ∀ b ∈ reporters, b ∈ old) ∧
    ∀ a ∉ done, r[a]? = (records.erase leaving)[a]?) ⟨?_, fun _ _ => rfl⟩
    fun done reported rest r hxs ⟨hclean, hsame⟩ => ?_) fun cleaned ⟨hclean, hsame⟩ a reporters ha => ?_
  · exact nofun
  · have hnew : reported ∉ done := by
      rw [hxs, nodup_append] at hnodup
      exact fun hd => hnodup.2.2 reported hd reported (.head _) rfl
    have hmem : reported ∈ records.erase leaving := by
      rw [← Std.ExtTreeMap.mem_keys, hxs]
      exact mem_append_right _ (.head _)
    obtain ⟨old, hold⟩ := mem_iff_get.mp hmem
    rw [bind_unwrap ((hsame reported hnew).trans hold)]
    -- only the entry that is visited changes
    have hvisit {r' : ReportRecords} (hother : ∀ a, reported ≠ a → r'[a]? = r[a]?)
        (hthis : ∀ reporters, r'[reported]? = some reporters → leaving ∉ reporters ∧ ∀ b ∈ reporters, b ∈ old) :
        (∀ a ∈ done ++ [reported], ∀ reporters, r'[a]? = some reporters → leaving ∉ reporters ∧
          ∃ old, (records.erase leaving)[a]? = some old ∧ ∀ b ∈ reporters, b ∈ old) ∧
        ∀ a ∉ done ++ [reported], r'[a]? = (records.erase leaving)[a]? := by
      refine ⟨fun a ha reporters hr => ?_, fun a ha => ?_⟩
      · by_cases hne : reported = a
        · subst hne
          obtain ⟨hnot, hsub⟩ := hthis reporters hr
          exact ⟨hnot, old, hold, hsub⟩
        · rcases mem_concat.mp ha with ha | ha
          · exact hclean a ha reporters (hother a hne ▸ hr)
          · exact absurd ha.symm hne
      · rw [mem_append, mem_singleton, not_or] at ha
        rw [hother a (Ne.symm ha.2), hsame a ha.1]
    split
    · have hrest : leaving ∉ old.erase leaving := fun hm =>
        (BTreeSet.mem_erase_iff.mp hm).1 rfl
      show (_ ∧ _)
      split
      · refine hvisit (fun a hne => ?_) fun reporters hr => ?_
        · rw [get_erase, if_neg hne]
        · rw [get_erase, if_pos rfl] at hr
          cases hr
      · refine hvisit (fun a hne => get_insert_of_ne _ _ hne) fun reporters hr => ?_
        rw [get_insert_self] at hr
        cases hr
        exact ⟨hrest, fun b hb => (BTreeSet.mem_erase_iff.mp hb).2⟩
    · rename_i hnot
      refine hvisit (fun _ _ => rfl) fun reporters hr => ?_
      rw [hsame reported hnew, hold] at hr
      cases hr
      exact ⟨hnot, fun b hb => hb⟩
  · have hmem : a ∈ (records.erase leaving).keys := by
      by_contra hnot
      rw [hsame a hnot] at ha
      exact hnot (Std.ExtTreeMap.mem_keys.mpr (mem_of_get ha))
    obtain ⟨hnot, old, hold, hsub⟩ := hclean a hmem reporters ha
    obtain ⟨hne, hold⟩ := erase_eq_some.mp hold
    exact ⟨Ne.symm hne, hnot, old, hold, hsub⟩

/-! ### Leaving -/

/-- The second half of an epoch change. -/
structure Turn (o : Objects) (epoch : Nat) (vs : ValidatorSet) (waiting : List Validator)
    (records : ReportRecords) : Prop where
  standing : Standing vs waiting o (turning epoch)
  settled : ∀ v ∈ vs.activeValidators, v.stakingPool.pendingStake = 0
  mentions : Mentions vs.activeValidators vs.atRiskValidators records

/-- The queues are as they were, and pools only become inactive. -/
structure Departs (vs vs' : ValidatorSet) : Prop where
  pending : vs'.pendingActiveValidators = vs.pendingActiveValidators
  removals : vs'.pendingRemovals = vs.pendingRemovals
  mappings : ∀ i ∈ vs'.stakingPoolMappings, i ∈ vs.stakingPoolMappings
  inactive : ∀ i ∈ vs'.inactiveValidators, i ∈ vs.inactiveValidators ∨ i ∈ vs.stakingPoolMappings

namespace Departs
variable {vs vs' : ValidatorSet}

theorem refl : Departs vs vs := ⟨rfl, rfl, fun _ hi => hi, fun _ hi => .inl hi⟩

theorem trans (h : Departs vs vs') (h' : Departs vs' vs'') : Departs vs vs'' where
  pending := h'.pending.trans h.pending
  removals := h'.removals.trans h.removals
  mappings i hi := h.mappings i (h'.mappings i hi)
  inactive i hi := by
    rcases h'.inactive i hi with hi | hi
    · exact h.inactive i hi
    · exact .inr (h.mappings i hi)

end Departs

theorem Validator.deactivate_eq (h : v.stakingPool.isInactive = false) (epoch : Nat) :
    v.deactivate epoch = .ok { v with stakingPool := { v.stakingPool with deactivationEpoch := some epoch } } := by
  unfold deactivate StakingPool.deactivateStakingPool ensure
  rw [require_of h]
  rfl

namespace Turn
variable {o : Objects} {epoch : Nat} {vs : ValidatorSet} {waiting : List Validator}
  {records : ReportRecords}

theorem removeActiveValidator_sat (h : Turn o epoch vs waiting records) (hv : vs.activeValidators[i]? = some v) :
    Sat (vs.removeActiveValidator i records epoch)
      (fun r => r.1 = v.totalStake ∧ r.2.1.activeValidators = vs.activeValidators.eraseIdx i ∧
        Turn o epoch r.2.1 waiting r.2.2 ∧ Departs vs r.2.1) NoAccess := by
  obtain ⟨hi, hget⟩ := List.getElem?_eq_some_iff.mp hv
  have hmem : v ∈ vs.activeValidators := mem_of_getElem? hv
  have hsound := h.standing.active v hmem
  have hmember : (vs.roster waiting).Member v.suiAddress v.stakingPoolId :=
    .inl (Standing.mem_listed (mem_append_left _ hmem))
  have hmapped : vs.stakingPoolMappings[v.stakingPoolId]? = some v.suiAddress :=
    h.standing.roster.indexed.mpr hmember
  have hretired : v.stakingPoolId ∉ vs.inactiveValidators := by
    have hnone := h.standing.roster.not_retired hmember
    exact not_mem_iff_get.mpr (Option.map_eq_none_iff.mp hnone)
  have hperm : vs.activeValidators.Perm (v :: vs.activeValidators.eraseIdx i) := by
    rw [← hget]
    exact (getElem_cons_eraseIdx_perm hi).symm
  -- every other validator is still there
  have hstays {a : Address} (ha : a ∈ vs.activeValidators.map suiAddress)
      (hne : a ≠ v.suiAddress) : a ∈ (vs.activeValidators.eraseIdx i).map suiAddress := by
    rcases mem_cons.mp ((hperm.map suiAddress).mem_iff.mp ha) with ha | ha
    · exact absurd ha hne
    · exact ha
  unfold ValidatorSet.removeActiveValidator vectorRemove ValidatorSet.processValidatorDeparture
    tableRemove tableAdd
  simp only [bind_assoc, pure_bind]
  refine (vectorGet_sat hi).bind fun u hu => ?_
  obtain rfl : u = v := Option.some.inj (hu.symm.trans hv)
  refine add.bind fun newEpoch _ => ?_
  rw [bind_unwrap hmapped]
  refine (cleanReportRecordsLeavingValidator_sat records u.suiAddress).bind fun cleaned hcleaned => ?_
  have hdeactivate := deactivate_eq hsound.holds.2 newEpoch
  rw [bind_ok hdeactivate, bind_require hretired]
  obtain ⟨-, hinactive⟩ := hsound.deactivate rfl (h.settled u hmem) hdeactivate
  refine ⟨rfl, rfl, ⟨⟨?_, fun w hw => ?_, h.standing.waiting, h.standing.candidates, fun j w hw => ?_⟩,
    fun w hw => ?_, fun a ha => ?_, fun a reporters ha => ?_, fun a reporters ha b hb => ?_⟩,
    rfl, rfl, fun j hj => ?_, fun j hj => ?_⟩
  · show Roster.Consistent ⟨(vs.activeValidators.eraseIdx i ++ waiting).map key, _,
      fun j => (vs.stakingPoolMappings.erase u.stakingPoolId)[j]?,
      fun j => (vs.inactiveValidators.insert u.stakingPoolId _)[j]?.map stakingPoolId⟩
    rw [lookup_erase, lookup_map_insert]
    exact h.standing.roster.leave ((hperm.append_right waiting).map key)
  · exact h.standing.active w (mem_of_mem_eraseIdx hw)
  · have hw : (vs.inactiveValidators.insert u.stakingPoolId _)[j]? = some w := hw
    rcases insert_eq_some.mp hw with ⟨-, rfl⟩ | ⟨-, hw⟩
    · exact hinactive
    · exact h.standing.inactive j w hw
  · exact h.settled w (mem_of_mem_eraseIdx hw)
  · obtain ⟨hne, ha⟩ := BTreeMap.mem_erase_iff.mp ha
    exact hstays (h.mentions.atRisk a ha) (Ne.symm hne)
  · obtain ⟨hne, -, old, hold, -⟩ := hcleaned a reporters ha
    exact hstays (h.mentions.reported a old hold) hne
  · obtain ⟨-, hnot, old, hold, hsub⟩ := hcleaned a reporters ha
    exact hstays (h.mentions.reporters a old hold b (hsub b hb)) fun heq => hnot (heq ▸ hb)
  · exact (BTreeMap.mem_erase_iff.mp hj).2
  · rcases BTreeMap.mem_insert_iff.mp hj with rfl | hj
    · exact .inr (mem_of_get hmapped)
    · exact .inl hj

end Turn

/-- In a descending list the elements still to come are smaller than the one that is taken. -/
theorem below_of_descending {xs done rest : List Nat} (h : xs.Pairwise (· > ·))
    (hxs : xs = done ++ x :: rest) : x ∉ done ∧ ∀ i ∈ xs, i ∉ done ++ [x] → i < x := by
  subst hxs
  obtain ⟨-, hrest, hdone⟩ := pairwise_append.mp h
  refine ⟨fun hx => Nat.lt_irrefl x (hdone x hx x (.head _)), fun i hi hnot => ?_⟩
  rw [mem_append, mem_singleton, not_or] at hnot
  rcases mem_append.mp hi with hi | hi
  · exact absurd hi hnot.1
  · rcases mem_cons.mp hi with hi | hi
    · exact absurd hi hnot.2
    · exact (pairwise_cons.mp hrest).1 i hi

namespace Turn
variable {o : Objects} {epoch : Nat} {vs : ValidatorSet} {waiting : List Validator}
  {records : ReportRecords}

section
variable (h : Turn o epoch vs waiting records)
include h

theorem processPendingRemovals_sat
    (hnodup : vs.pendingRemovals.Nodup) (hrange : ∀ i ∈ vs.pendingRemovals, i < vs.activeValidators.length) :
    Sat (vs.processPendingRemovals records epoch)
      (fun r => Turn o epoch r.1 waiting r.2 ∧ Departs { vs with pendingRemovals := [] } r.1)
      NoAccess := by
  have hperm : (vs.pendingRemovals.insertionSort (· ≤ ·)).Perm vs.pendingRemovals := perm_insertionSort ..
  have hdescending : (vs.pendingRemovals.insertionSort (· ≤ ·)).reverse.Pairwise (· > ·) := by
    rw [pairwise_reverse]
    have hsorted := pairwise_insertionSort (· ≤ ·) vs.pendingRemovals
    have hne := hperm.nodup_iff.mpr hnodup
    exact (hsorted.and hne).imp fun hab => lt_of_le_of_ne hab.1 hab.2
  refine Sat.mono (Sat.foldlM (P := fun done (r : ValidatorSet × ReportRecords) =>
    Turn o epoch r.1 waiting r.2 ∧ Departs { vs with pendingRemovals := [] } r.1 ∧
      ∀ i ∈ (vs.pendingRemovals.insertionSort (· ≤ ·)).reverse, i ∉ done →
        i < r.1.activeValidators.length)
    ⟨⟨h.standing.congr rfl rfl rfl rfl, h.settled, h.mentions⟩, .refl, fun i hi _ => ?_⟩
    fun done index rest r hxs ⟨hturn, hdeparts, hlater⟩ => ?_) fun r hr => ⟨hr.1, hr.2.1⟩
  · exact hrange i (hperm.mem_iff.mp (mem_reverse.mp hi))
  · obtain ⟨hnew, hbelow⟩ := below_of_descending hdescending hxs
    have hmem : index ∈ (vs.pendingRemovals.insertionSort (· ≤ ·)).reverse := hxs ▸ mem_append_right _ (.head _)
    have hindex := hlater index hmem hnew
    refine (hturn.removeActiveValidator_sat (List.getElem?_eq_getElem hindex)).bind fun r' hr' => ?_
    obtain ⟨-, hactive, hturn', hdeparts'⟩ := hr'
    refine ⟨hturn', hdeparts.trans hdeparts', fun i hi hdone => ?_⟩
    have hlt := hbelow i hi hdone
    rw [hactive, length_eraseIdx_of_lt hindex]
    omega

/-- An active validator stays or leaves; the stake that leaves is counted. -/
theorem reviewActiveValidator_sat
    (thresholds : ValidatorSet.Thresholds) (hindex : index < vs.activeValidators.length) :
    Sat (vs.reviewActiveValidator thresholds epoch index records)
      (fun r => Turn o epoch r.2.1 waiting r.2.2 ∧ Departs vs r.2.1 ∧
        r.1 + stakes r.2.1.activeValidators = stakes vs.activeValidators ∧
        index ≤ r.2.1.activeValidators.length) NoAccess := by
  have hremove {vs' : ValidatorSet} (h' : Turn o epoch vs' waiting records) (hdeparts : Departs vs vs')
      (hactive : vs'.activeValidators = vs.activeValidators) :
      Sat (vs'.removeActiveValidator index records epoch)
        (fun r => Turn o epoch r.2.1 waiting r.2.2 ∧ Departs vs r.2.1 ∧
          r.1 + stakes r.2.1.activeValidators = stakes vs.activeValidators ∧
          index ≤ r.2.1.activeValidators.length) NoAccess := by
    have hget : vs'.activeValidators[index]? = some vs.activeValidators[index] := by
      rw [hactive, List.getElem?_eq_getElem hindex]
    refine (h'.removeActiveValidator_sat hget).mono fun r hr => ?_
    obtain ⟨hstake, herased, hturn, hdeparts'⟩ := hr
    refine ⟨hturn, hdeparts.trans hdeparts', ?_, ?_⟩
    · rw [hstake, herased, hactive, ← stakes_cons]
      exact stakes_perm (getElem_cons_eraseIdx_perm hindex)
    · rw [herased, hactive, length_eraseIdx_of_lt hindex]
      omega
  refine (vectorGet_sat hindex).bind fun v hv => ?_
  have haddress : v.suiAddress ∈ vs.activeValidators.map suiAddress := mem_map_of_mem (mem_of_getElem? hv)
  refine mulDiv.bind fun votingPower _ => ?_
  split
  · -- the validator is safe
    refine ⟨⟨h.standing.congr rfl rfl rfl rfl, h.settled, fun a ha => ?_, h.mentions.reported,
      h.mentions.reporters⟩, ⟨rfl, rfl, fun _ hi => hi, fun _ hi => .inl hi⟩, Nat.zero_add _, hindex.le⟩
    exact h.mentions.atRisk a (BTreeMap.mem_erase_iff.mp ha).2
  · split
    · -- the validator is at risk
      have hperiod : Sat (vs.newLowStakePeriod v.suiAddress) (fun _ => True) NoAccess := by
        unfold ValidatorSet.newLowStakePeriod
        split
        · exact add.mono fun _ _ => trivial
        · exact trivial
      refine hperiod.bind fun period _ => ?_
      have hrisk : Turn o epoch
          { vs with atRiskValidators := vs.atRiskValidators.insert v.suiAddress period } waiting records := by
        refine ⟨h.standing.congr rfl rfl rfl rfl, h.settled, fun a ha => ?_, h.mentions.reported,
          h.mentions.reporters⟩
        rcases BTreeMap.mem_insert_iff.mp ha with rfl | ha
        · exact haddress
        · exact h.mentions.atRisk a ha
      have hdeparts : Departs vs { vs with atRiskValidators := vs.atRiskValidators.insert v.suiAddress period } :=
        ⟨rfl, rfl, fun _ hi => hi, fun _ hi => .inl hi⟩
      split
      · exact hremove hrisk hdeparts rfl
      · exact ⟨hrisk, hdeparts, Nat.zero_add _, hindex.le⟩
    · exact hremove h .refl rfl

end

end Turn

/-! ### Joining -/

/-- A preactive pool has no rates, so that its activation can record the first one. -/
theorem Sound.activate_ok (h : Sound o (turning epoch) .preactive v) :
    ∃ w, v.activate epoch = .ok w ∧ w.key = v.key ∧ Sound o (turning epoch) .active w ∧
      w.stakingPool.pendingStake = 0 ∧ w.totalStake = v.totalStake := by
  have hnew : epoch ∉ v.stakingPool.exchangeRates := h.books.history.fresh h.holds.1 epoch
  have hpreactive : StakingPool.isPreactive { v.stakingPool with
      exchangeRates := v.stakingPool.exchangeRates.insert epoch .initial } = true := h.holds.1
  have hinactive : StakingPool.isInactive { v.stakingPool with
      exchangeRates := v.stakingPool.exchangeRates.insert epoch .initial } = false := h.holds.2
  have hactivate : v.activate epoch = .ok { v with stakingPool := { v.stakingPool with
      activationEpoch := some epoch
      exchangeRates := v.stakingPool.exchangeRates.insert epoch .initial } } := by
    unfold activate StakingPool.activateStakingPool StakingPool.addExchangeRate ensure
    rw [bind_require hnew, pure_bind, bind_require hpreactive, bind_require hinactive]
    rfl
  have hbooks := h.books.activate (Nat.le_succ epoch) h.books.started hactivate
  exact ⟨_, hactivate, rfl, ⟨⟨rfl, h.holds.2⟩, hbooks, h.staged⟩, h.books.settled (.inl h.holds.1), rfl⟩

namespace Turn
variable {o : Objects} {epoch : Nat} {vs : ValidatorSet} {waiting : List Validator}
  {records : ReportRecords} {v : Validator}

theorem reviewPendingValidator_sat (h : Turn o epoch vs (v :: waiting) records)
    (thresholds : ValidatorSet.Thresholds) :
    Sat (vs.reviewPendingValidator thresholds epoch v)
      (fun r => Turn o epoch r.2 waiting records ∧ Departs vs r.2 ∧
        r.1 + stakes r.2.activeValidators = stakes vs.activeValidators + v.totalStake) NoAccess := by
  have hsound := h.standing.waiting v (.head _)
  have hwaiting : ∀ w ∈ waiting, Sound o (turning epoch) .preactive w := fun w hw =>
    h.standing.waiting w (.tail _ hw)
  refine mulDiv.bind fun votingPower _ => ?_
  split
  · obtain ⟨w, hw, hkey, hactive, hzero, hstake⟩ := hsound.activate_ok
    rw [bind_ok hw]
    refine ⟨⟨⟨?_, forall_mem_concat.mpr ⟨h.standing.active, hactive⟩, hwaiting, h.standing.candidates,
      h.standing.inactive⟩, forall_mem_concat.mpr ⟨h.settled, hzero⟩, ?_⟩,
      ⟨rfl, rfl, fun _ hi => hi, fun _ hi => .inl hi⟩, ?_⟩
    · show Roster.Consistent ⟨(vs.activeValidators ++ [w] ++ waiting).map key, _, _, _⟩
      rw [append_assoc, map_append, singleton_append, map_cons, hkey, ← map_cons, ← map_append]
      exact h.standing.roster
    · refine h.mentions.mono fun a ha => ?_
      rw [map_append]
      exact mem_append_left _ ha
    · rw [Nat.zero_add, stakes_append, stakes_cons, stakes_nil, Nat.add_zero, hstake]
  · have hlisted : (v.suiAddress, v.stakingPoolId) ∈ (vs.roster (v :: waiting)).listed :=
      Standing.mem_listed (mem_append_right _ (.head _))
    have hfree : v.suiAddress ∉ vs.validatorCandidates := by
      have hnone := h.standing.roster.reserve_of_listed (mem_map_of_mem hlisted)
      exact not_mem_iff_get.mpr (Option.map_eq_none_iff.mp hnone)
    unfold tableAdd
    rw [bind_require hfree, pure_bind]
    refine ⟨⟨⟨?_, h.standing.active, hwaiting, fun a u hu => ?_, h.standing.inactive⟩, h.settled,
      h.mentions⟩, ⟨rfl, rfl, fun _ hi => hi, fun _ hi => .inl hi⟩, Nat.add_comm ..⟩
    · show Roster.Consistent ⟨_, fun a => (vs.validatorCandidates.insert v.suiAddress v)[a]?.map key, _, _⟩
      rw [lookup_map_insert]
      exact h.standing.roster.demote (perm_middle.map key)
    · have hu : (vs.validatorCandidates.insert v.suiAddress v)[a]? = some u := hu
      rcases insert_eq_some.mp hu with ⟨-, rfl⟩ | ⟨-, hu⟩
      · exact hsound
      · exact h.standing.candidates a u hu

end Turn

theorem ValidatorSet.getVotingPowerThresholds_sat (vs : ValidatorSet) (epoch : Nat) :
    Sat (vs.getVotingPowerThresholds epoch) (fun _ => True) NoAccess := by
  have hstart : Sat (vs.admissionStartEpoch epoch) (fun _ => True) NoAccess := by
    unfold admissionStartEpoch
    split
    · exact trivial
    · exact add.mono fun _ _ => trivial
  refine hstart.bind fun startEpoch _ => ?_
  refine add.bind fun phase2 _ => ?_
  split
  · exact trivial
  · refine add.bind fun phase3 _ => ?_
    split <;> exact trivial

namespace Turn
variable {o : Objects} {epoch : Nat} {vs : ValidatorSet} {records : ReportRecords}

theorem updateValidatorPositions_sat (h : Turn o epoch vs vs.pendingActiveValidators records)
    (lowStakeGracePeriod : Nat) :
    Sat (vs.updateValidatorPositionsAndCalculateTotalStake lowStakeGracePeriod records epoch)
      (fun r => r.1 = stakes r.2.1.activeValidators ∧ Turn o epoch r.2.1 [] r.2.2 ∧
        Departs { vs with pendingActiveValidators := [] } r.2.1) NoAccess := by
  -- those who wait are taken from the end
  have hstart : Turn o epoch { vs with pendingActiveValidators := [] }
      vs.pendingActiveValidators.reverse records := by
    obtain ⟨⟨hroster, ha, hw, hc, hi⟩, hsettled, hmentions⟩ := h
    refine ⟨⟨?_, ha, fun v hv => hw v (mem_reverse.mp hv), hc, hi⟩, hsettled, hmentions⟩
    exact hroster.perm (((reverse_perm _).append_left _).map key)
  refine (calculateTotalStakes_sat _).bind fun pendingTotal hpending => ?_
  refine (calculateTotalStakes_sat _).bind fun activeTotal hactive => ?_
  refine add.bind fun initial hinitial => ?_
  refine (ValidatorSet.getVotingPowerThresholds_sat _ _).bind fun ⟨minJoining, low, veryLow⟩ _ => ?_
  have hdescending : (List.range vs.activeValidators.length).reverse.Pairwise (· > ·) := by
    rw [pairwise_reverse]
    exact pairwise_lt_range
  refine Sat.bind (Sat.foldlM (P := fun done (r : Nat × ValidatorSet × ReportRecords) =>
    Turn o epoch r.2.1 vs.pendingActiveValidators.reverse r.2.2 ∧
      Departs { vs with pendingActiveValidators := [] } r.2.1 ∧
      r.1 + stakes r.2.1.activeValidators = stakes vs.activeValidators ∧
      ∀ i ∈ (List.range vs.activeValidators.length).reverse, i ∉ done → i < r.2.1.activeValidators.length)
    ⟨hstart, .refl, Nat.zero_add _, fun i hi _ => mem_range.mp (mem_reverse.mp hi)⟩
    fun done index rest r hxs hr => ?_) fun r hr => ?_
  · obtain ⟨hturn, hdeparts, hsum, hlater⟩ := hr
    obtain ⟨hnew, hbelow⟩ := below_of_descending hdescending hxs
    have hindex := hlater index (hxs ▸ mem_append_right _ (.head _)) hnew
    refine (hturn.reviewActiveValidator_sat _ hindex).bind fun r' hr' => ?_
    obtain ⟨hturn', hdeparts', hsum', hle⟩ := hr'
    refine add.bind fun removed hremoved => ?_
    refine ⟨hturn', hdeparts.trans hdeparts', ?_, fun i hi hdone => ?_⟩
    · rw [hremoved.1, Nat.add_assoc, hsum', hsum]
    · exact (hbelow i hi hdone).trans_le hle
  · obtain ⟨hturn, hdeparts, hsum, -⟩ := hr
    refine Sat.bind (Sat.foldlM (P := fun done (q : Nat × ValidatorSet) =>
      ∃ rest, vs.pendingActiveValidators.reverse = done ++ rest ∧ Turn o epoch q.2 rest r.2.2 ∧
        Departs { vs with pendingActiveValidators := [] } q.2 ∧
        q.1 + stakes q.2.activeValidators = stakes vs.activeValidators + stakes done)
      ⟨_, rfl, hturn, hdeparts, hsum⟩ fun done v rest q hxs hq => ?_) fun q hq => ?_
    · obtain ⟨rest', hrest', hturn, hdeparts, hsum⟩ := hq
      obtain rfl : rest' = v :: rest := append_cancel_left (hrest'.symm.trans hxs)
      refine (hturn.reviewPendingValidator_sat _).bind fun q' hq' => ?_
      obtain ⟨hturn', hdeparts', hsum'⟩ := hq'
      refine add.bind fun removed hremoved => ?_
      refine ⟨rest, by rw [hxs, append_assoc, singleton_append], hturn', hdeparts.trans hdeparts', ?_⟩
      show removed + stakes q'.2.activeValidators = _
      rw [stakes_append, stakes_cons, stakes_nil, hremoved.1]
      omega
    · obtain ⟨rest, hrest, hturn, hdeparts, hsum⟩ := hq
      obtain rfl : rest = [] := append_right_eq_self.mp hrest.symm
      refine sub.bind fun total htotal => ?_
      refine ⟨?_, hturn, hdeparts⟩
      show total = stakes q.2.activeValidators
      have hactive : activeTotal = stakes vs.activeValidators := hactive
      rw [htotal.1, hinitial.1, hactive, hpending]
      omega

end Turn

/-! ### The whole epoch change -/

/-- What an epoch change leaves. -/
structure Changed (o : Objects) (epoch : Nat) (vs : ValidatorSet) (r : ValidatorSet.EpochChange) :
    Prop where
  standing : Standing r.validators [] ⟨r.stakes + o.staked, o.fungible⟩ fun _ => epoch + 1
  total : r.validators.totalStake = stakes r.validators.activeValidators
  pending : r.validators.pendingActiveValidators = []
  removals : r.validators.pendingRemovals = []
  mentions : Mentions r.validators.activeValidators r.validators.atRiskValidators r.records
  mappings : ∀ i ∈ r.validators.stakingPoolMappings, i ∈ vs.stakingPoolMappings
  inactive : ∀ i ∈ r.validators.inactiveValidators,
    i ∈ vs.inactiveValidators ∨ i ∈ vs.stakingPoolMappings
  stakes : ∀ x ∈ r.stakes, x.poolId ∈ vs.activeValidators.map Validator.stakingPoolId

theorem Validator.effectuateStagedMetadata_sat (h : v.metadata.Staged) :
    Sat v.effectuateStagedMetadata
      (fun w => ∃ metadata, w = { v with metadata } ∧ metadata.suiAddress = v.metadata.suiAddress ∧
        metadata.Staged) NoAccess := by
  unfold effectuateStagedMetadata ValidatorMetadata.effectuateStaged
  cases hkey : v.metadata.nextEpochProtocolPubkeyBytes with
  | none => exact ⟨_, rfl, rfl, nofun⟩
  | some key =>
    obtain ⟨proof, hproof⟩ := Option.isSome_iff_exists.mp (h (by rw [hkey]; rfl))
    rw [hproof]
    exact ⟨_, rfl, rfl, nofun⟩

/-- Voting power and metadata may change, but nothing of the pool. -/
structure SamePool (v w : Validator) : Prop where
  key : w.key = v.key
  pool : w.stakingPool = v.stakingPool
  nextEpochStake : w.nextEpochStake = v.nextEpochStake
  staged : v.metadata.Staged → w.metadata.Staged

theorem SamePool.revalued (h : VotingPower.Revalued v w) : SamePool v w := by
  obtain ⟨_, rfl⟩ := h
  exact ⟨rfl, rfl, rfl, fun h => h⟩

theorem SamePool.suiAddress (h : SamePool v w) : w.suiAddress = v.suiAddress := congrArg Prod.fst h.key

theorem Standing.samePool {ws l : List Validator} (h : Standing vs ws o epochs)
    (hl : List.Forall₂ SamePool vs.activeValidators l) : Standing { vs with activeValidators := l } ws o epochs := by
  refine h.mapActive (forall₂_iff_get.mpr ⟨hl.length_eq, fun i hi hi' => ?_⟩) fun _ _ _ hv => hv
  have hw := (forall₂_iff_get.mp hl).2 i hi hi'
  have hv := h.active _ (get_mem vs.activeValidators ⟨i, hi⟩)
  exact ⟨hw.key, hv.update hw.pool hw.nextEpochStake (hw.staged hv.staged)⟩

theorem Standing.advanceEpoch_sat (h : Standing vs vs.pendingActiveValidators o fun _ => epoch)
    (hnodup : vs.pendingRemovals.Nodup) (hrange : ∀ i ∈ vs.pendingRemovals, i < vs.activeValidators.length)
    (hmentions : Mentions vs.activeValidators vs.atRiskValidators records)
    (computationReward storageFundReward rewardSlashingRate lowStakeGracePeriod : Nat) :
    Sat (vs.advanceEpoch computationReward storageFundReward records rewardSlashingRate
      lowStakeGracePeriod epoch) (Changed o epoch vs) NoAccess := by
  refine add.bind fun newEpoch _ => ?_
  refine (ValidatorSet.computeUnadjustedRewardDistribution_sat ..).bind fun unadjusted hunadjusted => ?_
  refine (ValidatorSet.computeSlashedValidators_sat (by exact hmentions)).bind fun slashed hslashed => ?_
  refine (ValidatorSet.sumVotingPowerByAddresses_sat hslashed.2).bind fun slashedPower _ => ?_
  refine (ValidatorSet.getValidatorIndices_sat hslashed.1 hslashed.2).bind fun indices hindices => ?_
  refine (ValidatorSet.computeRewardAdjustments_sat hindices.1
    (fun i hi => hunadjusted.1.symm ▸ hindices.2 i hi)
    (fun i hi => hunadjusted.2.symm ▸ hindices.2 i hi) _).bind fun adjustments _ => ?_
  refine (ValidatorSet.computeAdjustedRewardDistribution_sat hunadjusted.1 hunadjusted.2 ..).bind
    fun amounts hamounts => ?_
  refine (h.distributeReward_sat hamounts.1 hamounts.2 ..).bind fun d hd => ?_
  have hactive : ∀ v ∈ d.validators.map adjustStakeAndGasPrice,
      Sound ⟨d.stakes + o.staked, o.fungible⟩ (fun _ => epoch) .active v := by
    intro v hv
    obtain ⟨u, hu, rfl⟩ := mem_map.mp hv
    exact (hd.standing.active u hu).adjusted
  refine (Sat.mapM fun v hv => (hactive v hv).processPendingStakesAndWithdraws_sat).bind
    fun active hprocessed => ?_
  -- the active validators are in the next epoch now
  have hfrom : List.Forall₂ (fun v w => w.key = v.key ∧
      Sound ⟨d.stakes + o.staked, o.fungible⟩ (turning epoch) .active w ∧
      w.stakingPool.pendingStake = 0) d.validators active :=
    (forall₂_map_left_iff).mp hprocessed
  have hkeys : active.map key = vs.activeValidators.map key :=
    (forall₂_map_eq hfrom fun v _ w hvw => hvw.1).trans hd.keys
  have hlength : active.length = vs.activeValidators.length := by
    have := congrArg List.length hkeys
    rwa [length_map, length_map] at this
  have hsound := forall₂_right hfrom (P := fun _ => True) (fun _ _ => trivial) fun _ _ hvw _ => hvw.2
  have hstanding : Standing { vs with activeValidators := active } vs.pendingActiveValidators
      ⟨d.stakes + o.staked, o.fungible⟩ (turning epoch) := by
    refine hd.standing.mapActive (hfrom.imp fun v w hvw => ⟨hvw.1, hvw.2.1⟩) fun status hne v hv => ?_
    cases status with
    | active => exact absurd rfl hne
    | preactive => exact hv.congr rfl rfl
    | inactive => exact hv.skipEpoch rfl
  have haddresses : active.map suiAddress = vs.activeValidators.map suiAddress := by
    have := congrArg (List.map Prod.fst) hkeys
    rwa [map_map, map_map] at this
  have hturn : Turn ⟨d.stakes + o.staked, o.fungible⟩ epoch { vs with activeValidators := active }
      vs.pendingActiveValidators records :=
    ⟨hstanding, fun v hv => (hsound v hv).2, hmentions.mono fun a ha => haddresses ▸ ha⟩
  refine (ValidatorSet.emitValidatorEpochEvents_sat (fun v hv => (hsound v hv).1.books.history.activated)
    (hamounts.1.trans hlength.symm) (hamounts.2.trans hlength.symm) ..).bind fun events _ => ?_
  have hself : Turn ⟨d.stakes + o.staked, o.fungible⟩ epoch { vs with
      votingPowerAdmissionStartEpoch := some (vs.votingPowerAdmissionStartEpoch.getD epoch)
      activeValidators := active } vs.pendingActiveValidators records :=
    ⟨hturn.standing.congr rfl rfl rfl rfl, hturn.settled, hturn.mentions⟩
  refine (hself.processPendingRemovals_sat hnodup
    fun i hi => (hrange i hi).trans_eq hlength.symm).bind fun r hr => ?_
  obtain ⟨hturn, hremoved⟩ := hr
  have hpending : r.1.pendingActiveValidators = vs.pendingActiveValidators := hremoved.pending
  rw [← hpending] at hturn
  refine (hturn.updateValidatorPositions_sat lowStakeGracePeriod).bind fun q hq => ?_
  obtain ⟨htotal, hturn, hupdated⟩ := hq
  refine (VotingPower.setVotingPower_sat q.2.1.activeValidators q.1).bind fun revalued hrevalued => ?_
  have hstaged : ∀ v ∈ revalued, v.metadata.Staged := by
    refine forall₂_right hrevalued (fun v hv => (hturn.standing.active v hv).staged) ?_
    intro v w ⟨_, hw⟩ hv
    rw [hw]
    exact hv
  refine (Sat.mapM fun v hv => (effectuateStagedMetadata_sat (hstaged v hv))).bind fun final hfinal => ?_
  -- voting power and metadata leave the pools as they are
  have hrevalued := hrevalued.imp fun v w hvw => SamePool.revalued hvw
  have hfinal := hfinal.imp fun v w ⟨metadata, hw, haddress, hmeta⟩ =>
    (hw ▸ ⟨Prod.ext haddress rfl, rfl, rfl, fun _ => hmeta⟩ : SamePool v w)
  have hend := (hturn.standing.samePool hrevalued).samePool hfinal
  have hfinalAddresses : final.map suiAddress = q.2.1.activeValidators.map suiAddress := by
    rw [forall₂_map_eq hfinal fun _ _ _ h => h.suiAddress, forall₂_map_eq hrevalued fun _ _ _ h => h.suiAddress]
  have hfinalStakes : stakes final = stakes q.2.1.activeValidators := by
    rw [stakes_congr hfinal fun _ _ h => congrArg StakingPool.suiBalance h.pool,
      stakes_congr hrevalued fun _ _ h => congrArg StakingPool.suiBalance h.pool]
  refine ⟨?_, htotal.trans hfinalStakes.symm, hupdated.pending, ?_, ?_, fun i hi => ?_, fun i hi => ?_, hd.stakes⟩
  · refine (hend.keep fun status v hv => ?_).congr rfl rfl rfl rfl
    cases status with
    | preactive => exact hv.skipEpoch rfl
    | active | inactive => exact hv.congr rfl rfl
  · exact hupdated.removals.trans hremoved.removals
  · exact hturn.mentions.mono fun a ha => hfinalAddresses ▸ ha
  · exact hremoved.mappings i (hupdated.mappings i hi)
  · rcases hupdated.inactive i hi with hi | hi
    · exact hremoved.inactive i hi
    · exact .inr (hremoved.mappings i hi)

end Sui.SuiSystem
