import Sui.SuiSystem.Requests

/-! Rewards at the end of an epoch.

The first half of an epoch change computes what each active validator gets, distributes it and
processes the pools. The computations look validators up by the addresses in the report records,
which are those of active validators; no lookup fails. Afterwards the active validators are in the
next epoch, with nothing pending, while those that wait and the candidates are still in the old
one. -/
namespace Sui.SuiSystem

open Sui.Lib BTreeMap Exec List NoAccess Validator

/-! ### Amounts -/

namespace ValidatorSet
variable {validators : List Validator}

theorem findValidator_of_mem (h : a ∈ validators.map suiAddress) : ∃ i, findValidator validators a = some i := by
  cases hi : findValidator validators a with
  | none => exact absurd h (findValidator_eq_none.mp hi)
  | some i => exact ⟨i, rfl⟩

theorem findValidator_lt (h : findValidator validators a = some i) : i < validators.length := by
  obtain ⟨v, hv, -⟩ := findValidator_eq_some h
  exact (List.getElem?_eq_some_iff.mp hv).1

theorem sumVotingPowerByAddresses_sat
    (h : ∀ a ∈ addresses, a ∈ validators.map suiAddress) :
    Sat (sumVotingPowerByAddresses validators addresses) (fun _ => True) NoAccess := by
  refine Sat.foldlM_keep trivial fun a ha sum _ => ?_
  obtain ⟨i, hi⟩ := findValidator_of_mem (h a ha)
  unfold getValidatorRef
  rw [bind_unwrap hi]
  refine (vectorGet_sat (findValidator_lt hi)).bind fun v _ => ?_
  exact add.mono fun _ _ => trivial

theorem computeUnadjustedRewardDistribution_sat (totalVotingPower stakingReward storageReward : Nat) :
    Sat (computeUnadjustedRewardDistribution validators totalVotingPower stakingReward storageReward)
      (fun r => r.1.length = validators.length ∧ r.2.length = validators.length) NoAccess := by
  refine div.bind fun share _ => ?_
  refine (Sat.mapM fun v _ => mulDiv).bind fun amounts hamounts => ?_
  exact ⟨hamounts.length_eq.symm, length_map ..⟩

/-- Slashed validators are distinct and active. -/
theorem computeSlashedValidators_sat {vs : ValidatorSet} {records : ReportRecords}
    (h : Mentions vs.activeValidators vs.atRiskValidators records) :
    Sat (vs.computeSlashedValidators records)
      (fun slashed => slashed.Nodup ∧ ∀ a ∈ slashed, a ∈ vs.activeValidators.map suiAddress) NoAccess := by
  have hactive {a : Address} {reporters : BTreeSet Address} (hr : (a, reporters) ∈ records.toList) :
      a ∈ vs.activeValidators.map suiAddress :=
    h.reported a reporters (mem_toList_iff.mp hr)
  have hloop : Sat (vs.computeSlashedValidators records)
      (fun slashed => slashed.Sublist (records.toList.map Prod.fst)) NoAccess := by
    refine Sat.foldlM (P := fun done (slashed : List Address) => slashed.Sublist (done.map Prod.fst))
      (List.Sublist.refl _) fun done r rest slashed hxs hslashed => ?_
    have hr : r ∈ records.toList := hxs ▸ mem_append_right _ (.head _)
    obtain ⟨i, hi⟩ := findValidator_of_mem (hactive hr)
    have hfound : vs.isActiveValidatorBySuiAddress r.1 = true := by
      rw [isActiveValidatorBySuiAddress, hi]
      rfl
    have hreporters : ∀ b ∈ r.2.toList, b ∈ vs.activeValidators.map suiAddress :=
      fun b hb => h.reporters r.1 r.2 (mem_toList_iff.mp hr) b (Std.ExtTreeSet.mem_toList.mp hb)
    rw [map_append]
    refine (Sat.require fun hnot => absurd hfound hnot).bind fun _ _ => ?_
    refine (sumVotingPowerByAddresses_sat hreporters).bind fun votes _ => ?_
    split
    · exact hslashed.append (List.Sublist.refl _)
    · exact hslashed.trans (sublist_append_left ..)
  refine hloop.mono fun slashed hslashed => ⟨?_, fun a ha => ?_⟩
  · refine hslashed.nodup ?_
    rw [Std.ExtTreeMap.map_fst_toList_eq_keys]
    exact records.ordered_keys.imp fun hlt heq => by simp [heq] at hlt
  · obtain ⟨r, hr, rfl⟩ := mem_map.mp (hslashed.subset ha)
    exact hactive hr

theorem nodup_of_forall₂
    (h : List.Forall₂ R xs ys) (hR : ∀ a b c, R a c → R b c → a = b) (hxs : xs.Nodup) : ys.Nodup := by
  induction h with
  | nil => exact nodup_nil
  | @cons x y xs ys hxy hrest ih =>
    obtain ⟨hx, hxs⟩ := nodup_cons.mp hxs
    refine nodup_cons.mpr ⟨fun hy => hx ?_, ih hxs⟩
    obtain ⟨a, ha, hay⟩ := exists_left_of_forall₂ hrest hy
    exact hR x a y hxy hay ▸ ha

theorem getValidatorIndices_sat (hnodup : addresses.Nodup) (h : ∀ a ∈ addresses, a ∈ validators.map suiAddress) :
    Sat (getValidatorIndices validators addresses)
      (fun indices => indices.Nodup ∧ ∀ i ∈ indices, i < validators.length) NoAccess := by
  have hmap : Sat (getValidatorIndices validators addresses)
      (List.Forall₂ (fun a i => findValidator validators a = some i) addresses) NoAccess := by
    refine Sat.mapM fun a ha => ?_
    obtain ⟨i, hi⟩ := findValidator_of_mem (h a ha)
    exact Sat.of_eq (unwrap_eq_ok.mpr hi) hi
  refine hmap.mono fun indices hindices => ⟨?_, fun i hi => ?_⟩
  · refine nodup_of_forall₂ hindices (fun a b i ha hb => ?_) hnodup
    obtain ⟨v, hv, rfl⟩ := findValidator_eq_some ha
    obtain ⟨w, hw, rfl⟩ := findValidator_eq_some hb
    exact congrArg suiAddress (Option.some.inj (hv.symm.trans hw))
  · obtain ⟨a, -, ha⟩ := exists_left_of_forall₂ hindices hi
    exact findValidator_lt ha

theorem computeRewardAdjustments_sat
    (hnodup : indices.Nodup) (hstaking : ∀ i ∈ indices, i < stakingAmounts.length)
    (hstorage : ∀ i ∈ indices, i < storageAmounts.length) (rewardSlashingRate : Nat) :
    Sat (computeRewardAdjustments indices rewardSlashingRate stakingAmounts storageAmounts)
      (fun _ => True) NoAccess := by
  have hloop : Sat (computeRewardAdjustments indices rewardSlashingRate stakingAmounts storageAmounts)
      (fun a => (∀ i ∈ a.staking, i ∈ indices) ∧ ∀ i ∈ a.storageFund, i ∈ indices) NoAccess := by
    refine Sat.foldlM (P := fun done (a : Adjustments) => (∀ i ∈ a.staking, i ∈ done) ∧
      ∀ i ∈ a.storageFund, i ∈ done) ⟨fun i hi => ?_, fun i hi => ?_⟩
      fun done index rest a hxs ha => ?_
    · exact absurd hi Std.ExtTreeMap.not_mem_empty
    · exact absurd hi Std.ExtTreeMap.not_mem_empty
    · have hindex : index ∈ indices := hxs ▸ mem_append_right _ (.head _)
      have hnew : index ∉ done := by
        rw [hxs, nodup_append] at hnodup
        exact fun hd => hnodup.2.2 index hd index (.head _) rfl
      have hstakingNew : index ∉ a.staking := fun hm => hnew (ha.1 index hm)
      have hstorageNew : index ∉ a.storageFund := fun hm => hnew (ha.2 index hm)
      have hkeep {m : BTreeMap Nat Nat} (hm : ∀ i ∈ m, i ∈ done) (adjustment : Nat) :
          ∀ i ∈ m.insert index adjustment, i ∈ done ++ [index] := by
        intro i hi
        rcases BTreeMap.mem_insert_iff.mp hi with rfl | hi
        · exact mem_append_right _ (mem_singleton.mpr rfl)
        · exact mem_append_left _ (hm i hi)
      unfold tableAdd
      simp only [bind_assoc, pure_bind]
      refine (vectorGet_sat (hstaking index hindex)).bind fun stakingReward _ => ?_
      refine mulDiv.bind fun adjustment _ => ?_
      rw [bind_require hstakingNew]
      refine add.bind fun totalStaking _ => ?_
      refine (vectorGet_sat (hstorage index hindex)).bind fun storageReward _ => ?_
      refine mulDiv.bind fun adjustment' _ => ?_
      rw [bind_require hstorageNew]
      refine add.bind fun totalStorageFund _ => ?_
      exact ⟨hkeep ha.1 adjustment, hkeep ha.2 adjustment'⟩
  exact hloop.mono fun _ _ => trivial

theorem adjustReward_sat (reward : Nat) (adjustment : Option Nat) (h : Sat share (fun _ => True) NoAccess) :
    Sat (adjustReward reward adjustment share) (fun _ => True) NoAccess := by
  cases adjustment with
  | some adjustment => exact sub.mono fun _ _ => trivial
  | none => exact h.bind fun _ _ => add.mono fun _ _ => trivial

theorem computeAdjustedRewardDistribution_sat (hstaking : stakingAmounts.length = validators.length)
    (hstorage : storageAmounts.length = validators.length)
    (totalVotingPower slashedVotingPower : Nat) (adjustments : Adjustments) :
    Sat (computeAdjustedRewardDistribution validators totalVotingPower slashedVotingPower
        stakingAmounts storageAmounts adjustments)
      (fun r => r.1.length = validators.length ∧ r.2.length = validators.length) NoAccess := by
  refine sub.bind fun unslashed _ => ?_
  refine sub.bind fun numUnslashed _ => ?_
  refine (Sat.mapM (R := fun _ _ => True) fun i hi => ?_).bind fun amounts hamounts => ?_
  · have hi := mem_range.mp hi
    refine (vectorGet_sat hi).bind fun v _ => ?_
    refine (vectorGet_sat (hstaking ▸ hi)).bind fun stakingReward _ => ?_
    refine (adjustReward_sat _ _ (mulDiv.mono fun _ _ => trivial)).bind fun _ _ => ?_
    refine (vectorGet_sat (hstorage ▸ hi)).bind fun storageReward _ => ?_
    exact (adjustReward_sat _ _ (div.mono fun _ _ => trivial)).bind fun _ _ => trivial
  · have hlength : amounts.length = validators.length := by
      rw [← hamounts.length_eq, length_range]
    exact ⟨(length_map ..).trans hlength, (length_map ..).trans hlength⟩

end ValidatorSet

/-! ### Distribution -/

/-- Stake that is there or not. -/
def withStake (x : Option StakedSui) (o : Objects) : Objects :=
  ⟨x.elim o.staked (· ::ₘ o.staked), o.fungible⟩

variable {o : Objects} {epoch : Nat} {vs : ValidatorSet}

theorem Validator.rewardsStake_poolId {v : Validator} (h : v.rewardsStake reward epoch = some x) :
    x.poolId = v.stakingPoolId := by
  unfold rewardsStake at h
  split at h
  · cases h
    rfl
  · cases h

theorem Sound.rewarded
    (h : Sound o (fun _ => epoch) .active v) (validatorReward stakerReward : Nat) :
    o.AgreeOff v.stakingPoolId (withStake (v.rewardsStake validatorReward epoch) o) ∧
      Sound (withStake (v.rewardsStake validatorReward epoch) o) (fun _ => epoch) .active
        (v.rewarded validatorReward stakerReward) := by
  have hbooks := h.books.rewarded h.holds.1 h.holds.2 validatorReward stakerReward
  have hprofile : SameProfile v (v.rewarded validatorReward stakerReward) := ⟨rfl, rfl, rfl, rfl⟩
  have hstake : (o.ledger epoch v).validator.rewardsStake validatorReward (o.ledger epoch v).epoch =
      v.rewardsStake validatorReward epoch := rfl
  rw [hstake] at hbooks
  cases hx : v.rewardsStake validatorReward epoch with
  | none =>
    rw [hx] at hbooks
    exact ⟨fun _ _ => rfl, h.of_books hprofile rfl hbooks⟩
  | some x =>
    rw [hx] at hbooks
    have hid := rewardsStake_poolId hx
    refine ⟨fun id hne => ?_, h.of_books hprofile (Objects.of_cons hid) hbooks⟩
    simp [withStake, Objects.of, hid, hne.symm]

/-- What is known while the rewards are distributed. -/
structure Distributing (vs : ValidatorSet) (waiting : List Validator) (o : Objects) (epoch : Nat)
    (d : ValidatorSet.Distribution) : Prop where
  standing : Standing { vs with activeValidators := d.validators } waiting
    ⟨d.stakes + o.staked, o.fungible⟩ fun _ => epoch
  keys : d.validators.map Validator.key = vs.activeValidators.map Validator.key
  stakes : ∀ x ∈ d.stakes, x.poolId ∈ vs.activeValidators.map Validator.stakingPoolId

namespace Distributing
variable {vs : ValidatorSet} {waiting : List Validator} {o : Objects} {epoch : Nat}
  {d : ValidatorSet.Distribution}

theorem length (h : Distributing vs waiting o epoch d) : d.validators.length = vs.activeValidators.length := by
  have hlength := congrArg List.length h.keys
  rwa [length_map, length_map] at hlength

/-- One validator gets its rewards. -/
theorem reward (h : Distributing vs waiting o epoch d)
    (hv : d.validators[i]? = some v) (validatorReward stakerReward stakingRewards storageReward : Nat) :
    Distributing vs waiting o epoch
      { validators := d.validators.set i (v.rewarded validatorReward stakerReward)
        stakingRewards, storageFundReward := storageReward
        stakes := (v.rewardsStake validatorReward epoch).toList ++ d.stakes } := by
  have hmem : v ∈ d.validators := mem_of_getElem? hv
  obtain ⟨hagree, hsound⟩ := (h.standing.active v hmem).rewarded validatorReward stakerReward
  have hobjects : withStake (v.rewardsStake validatorReward epoch) ⟨d.stakes + o.staked, o.fungible⟩ =
      ⟨((v.rewardsStake validatorReward epoch).toList ++ d.stakes : List StakedSui) + o.staked, o.fungible⟩ := by
    cases v.rewardsStake validatorReward epoch with
    | none => rfl
    | some x =>
      show Objects.mk (x ::ₘ (d.stakes + o.staked)) _ = _
      rw [← Multiset.cons_add]
      rfl
  rw [hobjects] at hagree hsound
  refine ⟨?_, ?_, fun x hx => ?_⟩
  · have hpointwise := h.standing.setActive hv (v.rewarded validatorReward stakerReward)
    refine h.standing.pointwise hpointwise fun status u w hu hs => ?_
    rcases hu with ⟨hid, rfl⟩ | ⟨rfl, rfl⟩
    · exact ⟨rfl, hs.congr (hagree _ hid) rfl⟩
    · refine ⟨rfl, ?_⟩
      -- the validator has no other status than that of its place
      cases status with
      | active => exact hsound
      | preactive => cases hs.holds.1.symm.trans (h.standing.active u hmem).holds.1
      | inactive => cases hs.holds.symm.trans (h.standing.active u hmem).holds.2
  · exact Eq.trans (map_set_eq hv key rfl : (d.validators.set i (v.rewarded ..)).map key = _) h.keys
  · rcases mem_append.mp hx with hx | hx
    · have hid := rewardsStake_poolId (Option.mem_toList.mp hx)
      have hkey : v.key ∈ vs.activeValidators.map key := h.keys ▸ mem_map_of_mem hmem
      obtain ⟨u, hu, hkey⟩ := mem_map.mp hkey
      have huv : u.stakingPoolId = v.stakingPoolId := congrArg Prod.snd hkey
      rw [hid, ← huv]
      exact mem_map_of_mem hu
    · exact h.stakes x hx

end Distributing

theorem Standing.distributeReward_sat {waiting : List Validator} (h : Standing vs waiting o fun _ => epoch)
    (hstaking : stakingAmounts.length = vs.activeValidators.length)
    (hstorage : storageAmounts.length = vs.activeValidators.length) (stakingRewards storageReward : Nat) :
    Sat (ValidatorSet.distributeReward vs.activeValidators stakingAmounts storageAmounts stakingRewards
      storageReward epoch) (Distributing vs waiting o epoch) NoAccess := by
  refine (NoAccess.ensure rfl).bind fun _ _ => ?_
  refine Sat.foldlM_keep ⟨?_, rfl, nofun⟩ fun i hi d hd => ?_
  · have hnone : (⟨([] : List StakedSui) + o.staked, o.fungible⟩ : Objects) = o := by
      rw [Multiset.coe_nil, Multiset.zero_add]
    rw [hnone]
    exact h
  · have hi := mem_range.mp hi
    refine (vectorGet_sat (hd.length.symm ▸ hi)).bind fun v hv => ?_
    refine (vectorGet_sat (hstaking ▸ hi)).bind fun stakingAmount _ => ?_
    refine NoAccess.split.bind fun remaining _ => ?_
    refine mulDiv.bind fun commission _ => ?_
    refine NoAccess.split.bind fun stakerReward _ => ?_
    refine (vectorGet_sat (hstorage ▸ hi)).bind fun storageAmount _ => ?_
    refine NoAccess.split.bind fun remainingStorage _ => ?_
    refine add.bind fun validatorReward _ => ?_
    have hsound := hd.standing.active v (mem_of_getElem? hv)
    refine (Validator.distributeReward_sat NoAccess.overflow hsound.books.noRecord hsound.holds.1
      hsound.holds.2 validatorReward stakerReward epoch).bind fun r hr => ?_
    subst hr
    exact hd.reward hv validatorReward stakerReward remaining remainingStorage

/-! ### Processing the pools -/

/-- In the middle of an epoch change the active validators are in the next epoch, and so are those
that leave. -/
def turning (epoch : Nat) : Status → Nat
  | .preactive => epoch
  | .active | .inactive => epoch + 1

/-- The active validators change, and what is known of the others. -/
theorem Standing.mapActive {waiting active : List Validator} {o o' : Objects}
    {epochs epochs' : Status → Nat} (h : Standing vs waiting o epochs)
    (hactive : List.Forall₂ (fun v w => w.key = v.key ∧ Sound o' epochs' .active w)
      vs.activeValidators active)
    (hrest : ∀ status ≠ .active, ∀ v, Sound o epochs status v → Sound o' epochs' status v) :
    Standing { vs with activeValidators := active } waiting o' epochs' where
  roster := by
    have hkeys := forall₂_map_eq (f := key) hactive fun v _ w hvw => hvw.1
    show Roster.Consistent ⟨(active ++ waiting).map key, _, _, _⟩
    rw [map_append, hkeys, ← map_append]
    exact h.roster
  active := forall₂_right hactive (P := fun _ => True) (fun _ _ => trivial) fun _ _ hvw _ => hvw.2
  waiting v hv := hrest .preactive nofun v (h.waiting v hv)
  candidates a v hv := hrest .preactive nofun v (h.candidates a v hv)
  inactive i v hv := hrest .inactive nofun v (h.inactive i v hv)

namespace Sound
variable {o : Objects} {epoch : Nat}

theorem adjusted (h : Sound o (fun _ => epoch) .active v) :
    Sound o (fun _ => epoch) .active v.adjustStakeAndGasPrice :=
  h.update rfl rfl h.staged

theorem processPendingStakesAndWithdraws_sat (h : Sound o (fun _ => epoch) .active v) :
    Sat (v.processPendingStakesAndWithdraws epoch)
      (fun w => w.key = v.key ∧ Sound o (turning epoch) .active w ∧ w.stakingPool.pendingStake = 0)
      NoAccess := by
  have hbalance : v.stakingPool.pendingTotalSuiWithdraw ≤
      v.stakingPool.suiBalance + v.stakingPool.pendingStake := by
    have heq := h.books.balance
    simp only [Objects.ledger, Ledger.pool] at heq
    omega
  refine (StakingPool.processPendingStakesAndWithdraws_sat overflow h.books.history h.holds.1
    h.holds.2 h.books.noRecord hbalance).bind fun pool hpool => ?_
  subst hpool
  refine ⟨rfl, ⟨h.holds, ?_, h.staged⟩, rfl⟩
  exact (h.books.processed h.holds.1 (v := { v with stakingPool := v.stakingPool.processed epoch }) rfl rfl).1

end Sound

theorem ValidatorSet.emitValidatorEpochEvents_sat
    (hactivated : ∀ v ∈ validators, v.stakingPool.Activated) (hstaking : stakingAmounts.length = validators.length)
    (hstorage : storageAmounts.length = validators.length) (newEpoch : Nat) (records : ReportRecords)
    (slashed : List Address) :
    Sat (emitValidatorEpochEvents newEpoch validators stakingAmounts storageAmounts records slashed)
      (fun _ => True) NoAccess := by
  refine (Sat.mapM (R := fun _ _ => True) fun i hi => ?_).mono fun _ _ => trivial
  have hi := mem_range.mp hi
  refine (vectorGet_sat hi).bind fun v hv => ?_
  refine (vectorGet_sat (hstaking ▸ hi)).bind fun stakingAmount _ => ?_
  refine (vectorGet_sat (hstorage ▸ hi)).bind fun storageAmount _ => ?_
  exact ((hactivated v (mem_of_getElem? hv)).lookup_sat newEpoch).bind fun _ _ => trivial

end Sui.SuiSystem
