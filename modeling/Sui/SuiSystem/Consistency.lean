import Sui.SuiSystem.EpochChange

/-! The validator set is consistent.

The genesis establishes the invariant of the system (`System.Initial.invariant`) and every step keeps
it (`System.Step.invariant`). In any reachable state the tables of the validator set therefore agree
with each other, and an epoch change finds every entry that it looks for (`System.consistency`). -/
namespace Sui.SuiSystem

open Sui.Lib BTreeMap Exec List Validator Objects

/-! ### The genesis -/

/-- The validators of the genesis with their stakes, before they are activated. -/
structure Founded (validators : List Validator) (stakes : List StakedSui) (nextId : Nat) : Prop where
  nodup : (validators.map Validator.suiAddress).Nodup
  ids : (validators.map Validator.stakingPoolId).Nodup
  below : ∀ v ∈ validators, v.stakingPoolId < nextId
  books : ∀ v ∈ validators, Ledger.Genesis (Objects.ledger ⟨stakes, 0⟩ 0 v)
  staged : ∀ v ∈ validators, v.metadata.Staged
  stakes : ∀ x ∈ stakes, x.poolId < nextId

namespace Founded
variable {validators : List Validator} {stakes : List StakedSui} {nextId : Nat} {v w : Validator}

theorem nil : Founded [] [] 0 where
  nodup := nodup_nil
  ids := nodup_nil
  below _ hv := absurd hv not_mem_nil
  books _ hv := absurd hv not_mem_nil
  staged _ hv := absurd hv not_mem_nil
  stakes _ hx := absurd hx not_mem_nil

/-- A validator with the next id joins, and nothing is staked yet. -/
theorem append (h : Founded validators [] nextId) {v : Validator}
    (hgenesis : Ledger.Genesis (ledger ⟨0, 0⟩ 0 v)) (hstaged : v.metadata.Staged)
    (hid : v.stakingPoolId = nextId) (haddress : ∀ u ∈ validators, u.suiAddress ≠ v.suiAddress) :
    Founded (validators ++ [v]) [] (nextId + 2) where
  nodup := by
    rw [map_append, map_singleton, ← concat_eq_append, nodup_concat, mem_map]
    exact ⟨fun ⟨u, hu, heq⟩ => haddress u hu heq, h.nodup⟩
  ids := by
    rw [map_append, map_singleton, ← concat_eq_append, nodup_concat, mem_map, hid]
    exact ⟨fun ⟨u, hu, heq⟩ => (h.below u hu).ne heq, h.ids⟩
  below := by
    refine forall_mem_concat.mpr ⟨fun u hu => Nat.lt_add_right 2 (h.below u hu), ?_⟩
    rw [hid]
    omega
  books := forall_mem_concat.mpr ⟨h.books, hgenesis⟩
  staged := forall_mem_concat.mpr ⟨h.staged, hstaged⟩
  stakes _ hx := absurd hx not_mem_nil

theorem stake (h : Founded validators stakes nextId)
    (hv : validators[i]? = some v) (hw : v.requestAddStakeAtGenesis amount 0 = .ok (x, w)) :
    Founded (validators.set i w) (x :: stakes) nextId := by
  have hmem := mem_of_getElem? hv
  obtain ⟨hbooks, hpre, -⟩ := (h.books v hmem).books
  obtain ⟨hxeq, hweq⟩ := Prod.mk.inj ((requestAddStakeAtGenesis_sat hbooks.noRecord hpre amount 0).ok hw)
  have hx : x.poolId = v.stakingPoolId := congrArg StakedSui.poolId hxeq
  have hprofile : SameProfile v w := hweq ▸ .added v amount
  have hid : w.stakingPoolId = v.stakingPoolId := hprofile.id
  have hmetadata : w.metadata = v.metadata := hprofile.metadata
  have hset : List.Forall₂ (Replace v w) validators (validators.set i w) := forall₂_set h.ids hv
  have haddresses := map_set_eq hv suiAddress (congrArg ValidatorMetadata.suiAddress hmetadata)
  have hids := map_set_eq hv stakingPoolId hid
  refine ⟨haddresses ▸ h.nodup, hids ▸ h.ids, ?_, ?_, ?_, forall_mem_cons.mpr ⟨hx ▸ h.below v hmem, h.stakes⟩⟩
  · refine forall₂_right hset h.below fun u u' hu hlt => ?_
    rcases hu with ⟨-, rfl⟩ | ⟨rfl, rfl⟩
    · exact hlt
    · exact hid ▸ hlt
  · refine forall₂_right hset h.books fun u u' hu hgenesis => ?_
    rcases hu with ⟨hne, rfl⟩ | ⟨rfl, rfl⟩
    · -- the stake is of another pool
      have hof : of ⟨x ::ₘ (stakes : Multiset StakedSui), 0⟩ u'.stakingPoolId = of ⟨stakes, 0⟩ u'.stakingPoolId := by
        simp [of, hx, hne.symm]
      show Ledger.Genesis (ledger ⟨x ::ₘ (stakes : Multiset StakedSui), 0⟩ 0 u')
      unfold ledger at hgenesis ⊢
      rw [hof]
      exact hgenesis
    · have hof : of ⟨x ::ₘ (stakes : Multiset StakedSui), 0⟩ u.stakingPoolId =
          ⟨x ::ₘ (of ⟨stakes, 0⟩ u.stakingPoolId).staked, (of ⟨stakes, 0⟩ u.stakingPoolId).fungible⟩ :=
        of_cons (o := ⟨stakes, 0⟩) hx
      show Ledger.Genesis (ledger ⟨x ::ₘ (stakes : Multiset StakedSui), 0⟩ 0 u')
      unfold ledger
      rw [hid, hof]
      exact .stake hgenesis hw
  · refine forall₂_right hset h.staged fun u u' hu hstaged => ?_
    rcases hu with ⟨-, rfl⟩ | ⟨rfl, rfl⟩
    · exact hstaged
    · exact hmetadata ▸ hstaged

/-- An activated validator is sound among the active ones. -/
theorem activate (h : Founded validators stakes nextId) (hv : v ∈ validators)
    (hw : v.activate 0 = .ok w) : w.key = v.key ∧ Sound ⟨stakes, 0⟩ (fun _ => 0) .active w := by
  have hbooks := (Ledger.Initial.genesis (h.books v hv) hw).books
  obtain ⟨p, hp, hw⟩ := bind_eq_ok.mp hw
  obtain ⟨-, hinactive, rfl⟩ := (StakingPool.activateStakingPool_sat 0).ok hp
  cases hw
  exact ⟨rfl, ⟨rfl, hinactive⟩, hbooks, h.staged v hv⟩

end Founded

namespace Genesis
variable {validate : ValidatorMetadata → Bool}

theorem createValidators_spec (h : createValidators validate arguments = .ok validators) :
    Founded validators [] (2 * arguments.length) := by
  have hrun : Sat (createValidators validate arguments)
      (fun vs => vs.length = arguments.length ∧ Founded vs [] (2 * vs.length)) fun _ => True := by
    refine Sat.foldlM (P := fun done vs => vs.length = done.length ∧ Founded vs [] (2 * vs.length))
      ⟨rfl, ?_⟩ fun done a rest vs _ hvs => ?_
    · exact .nil
    · refine Sat.intro (fun vs' hvs' => ?_) fun _ _ => trivial
      obtain ⟨hlength, hfounded⟩ := hvs
      obtain ⟨v, hv, hvs'⟩ := bind_eq_ok.mp hvs'
      obtain ⟨_, hunique, hvs'⟩ := bind_eq_ok.mp hvs'
      cases hvs'
      have hunique := require_eq_ok.mp hunique
      have hv := ValidatorArguments.create_eq hv
      have hnext : 2 * (vs ++ [v]).length = 2 * vs.length + 2 := by
        rw [length_append, length_singleton]
        omega
      refine ⟨by simp [hlength], ?_⟩
      rw [hnext]
      refine hfounded.append ?_ ?_ ?_ fun u hu => ?_
      · rw [hv]
        exact .new ..
      · rw [hv]
        exact nofun
      · rw [hv]
        rfl
      · have hu := all_eq_true.mp hunique u hu
        rw [Bool.and_eq_true, bne_iff_ne] at hu
        rw [hv]
        exact hu.1
  obtain ⟨hlength, hfounded⟩ := hrun.ok h
  exact hlength ▸ hfounded

theorem allocateTokens_spec {allocations : List TokenAllocation} {validators validators' : List Validator}
    {stakes : List StakedSui} (hfounded : Founded validators [] nextId)
    (h : allocateTokens allocations validators = .ok (validators', stakes)) :
    Founded validators' stakes nextId := by
  have hrun : Sat (allocateTokens allocations validators) (fun r => Founded r.1 r.2 nextId) fun _ => True := by
    refine Sat.foldlM_keep hfounded fun allocation _ r hr => ?_
    dsimp only
    split
    · exact hr
    · refine Sat.intro (fun r' hr' => ?_) fun _ _ => trivial
      obtain ⟨i, _, hr'⟩ := bind_eq_ok.mp hr'
      obtain ⟨v, hv, hr'⟩ := bind_eq_ok.mp hr'
      obtain ⟨⟨x, w⟩, hw, hr'⟩ := bind_eq_ok.mp hr'
      cases hr'
      exact hr.stake (unwrap_eq_ok.mp hv) hw
  exact hrun.ok h

end Genesis

/-- The table finds the address of each pool of the list, and nothing else. -/
theorem ValidatorSet.new_spec (h : ValidatorSet.new validators = .ok vs) :
    ∃ totalStake activeValidators stakingPoolMappings,
      vs = { totalStake, activeValidators, stakingPoolMappings } ∧
      List.Forall₂ VotingPower.Revalued validators activeValidators ∧
      ∀ i a, stakingPoolMappings[i]? = some a ↔ (a, i) ∈ validators.map Validator.key := by
  obtain ⟨total, -, h⟩ := bind_eq_ok.mp h
  obtain ⟨mappings, hmappings, h⟩ := bind_eq_ok.mp h
  obtain ⟨active, hactive, h⟩ := bind_eq_ok.mp h
  cases h
  refine ⟨total, active, mappings, rfl, (VotingPower.setVotingPower_sat validators total).ok hactive, ?_⟩
  have hrun : Sat (validators.foldlM (fun mappings v =>
        tableAdd mappings v.stakingPoolId v.suiAddress) ∅)
      (fun m : BTreeMap Nat Address => ∀ i a, m[i]? = some a ↔ (a, i) ∈ validators.map key)
      fun _ => True := by
    refine Sat.foldlM (P := fun done (m : BTreeMap Nat Address) =>
      ∀ i a, m[i]? = some a ↔ (a, i) ∈ done.map key) (fun i a => ?_)
      fun done v rest m _ hm => ?_
    · simp
    · refine Sat.intro (fun m' hm' => ?_) fun _ _ => trivial
      obtain ⟨_, hnew, hm'⟩ := bind_eq_ok.mp hm'
      cases hm'
      have hnew := not_mem_iff_get.mp (require_eq_ok.mp hnew)
      intro i a
      rw [get_insert, map_append, mem_append, ← hm i a]
      simp only [map_cons, map_nil, mem_singleton, key, Prod.mk.injEq]
      split
      · rename_i hi
        subst hi
        simp [hnew, eq_comm]
      · rename_i hi
        simp [Ne.symm hi]
  exact hrun.ok hmappings

namespace System
variable {validate : ValidatorMetadata → Bool} {s s' : System}

theorem Initial.invariant (h : Initial validate s) : s.Invariant := by
  obtain @⟨arguments, allocations, parameters, _, stakedSuis, _, h⟩ := h
  obtain ⟨created, hcreated, h⟩ := bind_eq_ok.mp h
  obtain ⟨⟨allocated, _⟩, hallocated, h⟩ := bind_eq_ok.mp h
  obtain ⟨activated, hactivated, h⟩ := bind_eq_ok.mp h
  obtain ⟨vs, hvs, h⟩ := bind_eq_ok.mp h
  cases h
  have hfounded := Genesis.allocateTokens_spec (Genesis.createValidators_spec hcreated) hallocated
  have hkeep : List.Forall₂ (fun v w => w.key = v.key ∧ Sound ⟨stakedSuis, 0⟩ (fun _ => 0) .active w)
      allocated activated := by
    refine (Sat.mapM (E := fun _ => True) fun v hv => ?_).ok hactivated
    exact Sat.intro (fun w hw => hfounded.activate hv hw) fun _ _ => trivial
  obtain ⟨total, active, mappings, rfl, hrevalued, hmappings⟩ := ValidatorSet.new_spec hvs
  have hactivated : activated.map key = allocated.map key := forall₂_map_eq hkeep fun v _ w hw => hw.1
  have hactive : active.map key = activated.map key := by
    refine forall₂_map_eq hrevalued fun v _ w hw => ?_
    obtain ⟨_, rfl⟩ := hw
    rfl
  have hsound : ∀ v ∈ active, Sound ⟨stakedSuis, 0⟩ (fun _ => 0) .active v := by
    have hstart := forall₂_right hkeep (P := fun _ => True) (fun _ _ => trivial) fun _ _ hw _ => hw.2
    refine forall₂_right hrevalued hstart fun v w hw hv => ?_
    obtain ⟨_, rfl⟩ := hw
    exact hv.update rfl rfl hv.staged
  have hbelow : ∀ i ∈ mappings, i < 2 * arguments.length := fun i hi => by
    obtain ⟨a, ha⟩ := BTreeMap.mem_iff_get.mp hi
    have hmem := (hmappings i a).mp ha
    rw [hactivated] at hmem
    obtain ⟨v, hv, hkey⟩ := mem_map.mp hmem
    obtain ⟨-, rfl⟩ := Prod.mk.inj hkey
    exact hfounded.below v hv
  -- the other tables are empty
  refine ⟨⟨⟨?_, fun hk => ?_, fun hk => ?_, fun {i a} => ?_, fun hk => ?_, fun hk => ?_⟩, hsound,
      fun v hv => absurd hv not_mem_nil,
      fun a v hv => ?_, fun i v hv => ?_⟩,
    nodup_nil, fun i hi => absurd hi not_mem_nil, ⟨fun a ha => ?_, fun a r hr => ?_, fun a r hr => ?_⟩,
    hbelow, fun i hi => ?_, hfounded.stakes, fun y hy => absurd hy (Multiset.notMem_zero y)⟩
  · show (((active ++ []).map key).map Prod.fst).Nodup
    rw [append_nil, hactive, hactivated, map_map]
    exact hfounded.nodup
  · cases hk
  · cases hk
  · show mappings[i]? = some a ↔ (a, i) ∈ (active ++ []).map key ∨ none = some (a, i)
    rw [append_nil, hactive, hmappings]
    simp
  · cases hk
  · cases hk
  · cases hv
  · cases hv
  · exact absurd ha Std.ExtTreeMap.not_mem_empty
  · cases hr
  · cases hr
  · exact absurd hi Std.ExtTreeMap.not_mem_empty

/-! ### Runs -/

theorem Invariant.advanceEpoch_sat (h : s.Invariant)
    (computationReward storageFundReward rewardSlashingRate : Nat) :
    Sat (s.state.advanceEpoch computationReward storageFundReward rewardSlashingRate)
      (fun r => Invariant { s with state := r.2, staked := r.1 + s.staked } ∧
        r.2.validators.totalStake = stakes r.2.validators.activeValidators ∧
        r.2.validators.pendingActiveValidators = [] ∧ r.2.validators.pendingRemovals = [])
      NoAccess := by
  refine (h.standing.advanceEpoch_sat h.removalsNodup h.removalsInRange h.mentions computationReward
    storageFundReward rewardSlashingRate _).bind fun r hr => ?_
  have hmapped {i : Nat} (hi : i ∈ s.validators.stakingPoolMappings) : i < s.nextId := h.below.mappings i hi
  refine ⟨⟨?_, ?_, fun i hi => ?_, hr.mentions, fun i hi => hmapped (hr.mappings i hi), fun i hi => ?_,
    fun x hx => ?_, h.below.fungible⟩, hr.total, hr.pending, hr.removals⟩
  · rw [hr.pending]
    exact hr.standing
  · rw [hr.removals]
    exact nodup_nil
  · have hi : i ∈ r.validators.pendingRemovals := hi
    rw [hr.removals] at hi
    exact absurd hi not_mem_nil
  · rcases hr.inactive i hi with hi | hi
    · exact h.below.inactive i hi
    · exact hmapped hi
  · rcases Multiset.mem_add.mp hx with hx | hx
    · obtain ⟨v, hv, hid⟩ := mem_map.mp (hr.stakes x hx)
      rw [← hid]
      exact h.member_below (.inl (Standing.mem_listed (mem_append_left _ hv)))
    · exact h.below.staked x hx

/-- **Every step keeps the invariant.** -/
theorem Step.invariant (h : Step validate s s') (hs : s.Invariant) : s'.Invariant := by
  cases h with
  | addCandidate h => exact hs.addCandidate h
  | removeCandidate h => exact hs.removeCandidate h
  | addValidator h => exact hs.addValidator h
  | removeValidator h => exact hs.removeValidator h
  | addStake h => exact hs.addStake h
  | withdrawStake hx h => exact hs.withdrawStake hx h
  | convert hx h => exact hs.convert hx h
  | redeem hy h => exact hs.redeem hy h
  | split hx h => exact hs.split hx h
  | join hx h => exact hs.join hx h
  | splitFungible hx h => exact hs.splitFungible hx h
  | joinFungible hx h => exact hs.joinFungible hx h
  | report h => exact hs.report h
  | undoReport h => exact hs.undoReport h
  | advanceEpoch h => exact ((hs.advanceEpoch_sat ..).ok h).1
  | safeMode => exact hs.safeMode
  | updateActive hv h => exact hs.update (hs.standing.setActive hv _) rfl rfl rfl h
  | @updatePending _ _ w hv h =>
    obtain ⟨hactive, hwaiting, hcandidates, hinactive, -⟩ := hs.standing.setWaiting hv w
    exact hs.update ⟨hactive, hwaiting, hcandidates, hinactive, rfl⟩ rfl rfl rfl h
  | updateCandidate hv h => exact hs.update (hs.standing.setCandidate hv _) rfl rfl rfl h

theorem Reachable.invariant (h : Reachable validate s) : s.Invariant := by
  obtain ⟨s₀, hinitial, hsteps⟩ := h
  induction hsteps with
  | refl => exact hinitial.invariant
  | tail _ hstep ih => exact hstep.invariant ih

end System

/-! ### What holds in every reachable state -/

/-- The lists and tables of a validator set agree with each other. -/
structure ValidatorSet.Arranged (vs : ValidatorSet) : Prop where
  nodup : ((vs.activeValidators ++ vs.pendingActiveValidators).map Validator.suiAddress).Nodup
  candidates : ∀ (a : Address) v, vs.validatorCandidates[a]? = some v → v.suiAddress = a ∧
    a ∉ (vs.activeValidators ++ vs.pendingActiveValidators).map Validator.suiAddress
  mappings : ∀ i, i ∈ vs.stakingPoolMappings ↔
    (∃ v ∈ vs.activeValidators ++ vs.pendingActiveValidators, v.stakingPoolId = i) ∨
      ∃ (a : Address) (v : Validator), vs.validatorCandidates[a]? = some v ∧ v.stakingPoolId = i
  inactive : ∀ i ∈ vs.stakingPoolMappings, i ∉ vs.inactiveValidators
  removals : vs.pendingRemovals.Nodup
  inRange : ∀ i ∈ vs.pendingRemovals, i < vs.activeValidators.length

/-- The state is as an epoch change leaves it. -/
structure SuiSystemState.Renewed (state : SuiSystemState) : Prop where
  total : state.validators.totalStake = stakes state.validators.activeValidators
  removals : state.validators.pendingRemovals = []
  pending : state.validators.pendingActiveValidators = []
  mentions : Mentions state.validators.activeValidators state.validators.atRiskValidators
    state.validatorReportRecords

namespace System
variable {validate : ValidatorMetadata → Bool} {s : System}

theorem Invariant.arranged (h : s.Invariant) : s.validators.Arranged where
  nodup := by
    have hnodup := h.standing.roster.nodup
    simp only [ValidatorSet.roster, map_map] at hnodup
    exact hnodup
  candidates a v hv := by
    obtain ⟨haddress, hreserve⟩ := h.standing.reserve_eq hv
    have hapart := h.standing.roster.apart hreserve
    simp only [ValidatorSet.roster, map_map] at hapart
    exact ⟨haddress, hapart⟩
  mappings i := by
    rw [BTreeMap.mem_iff_get]
    constructor
    · rintro ⟨a, ha⟩
      rcases h.standing.roster.indexed.mp ha with hlisted | hreserve
      · obtain ⟨v, hv, hkey⟩ := mem_map.mp hlisted
        exact .inl ⟨v, hv, congrArg Prod.snd hkey⟩
      · obtain ⟨v, hv, hkey⟩ := Option.map_eq_some_iff.mp hreserve
        exact .inr ⟨a, v, hv, congrArg Prod.snd hkey⟩
    · intro hmember
      rcases hmember with ⟨v, hv, rfl⟩ | ⟨a, v, hv, rfl⟩
      · exact ⟨v.suiAddress, h.standing.roster.indexed.mpr (.inl (Standing.mem_listed hv))⟩
      · exact ⟨a, h.standing.roster.indexed.mpr (.inr (h.standing.reserve_eq hv).2)⟩
  inactive i hi := by
    obtain ⟨a, ha⟩ := BTreeMap.mem_iff_get.mp hi
    have hretired := h.standing.roster.not_retired (h.standing.roster.indexed.mp ha)
    exact not_mem_iff_get.mpr (Option.map_eq_none_iff.mp hretired)
  removals := h.removalsNodup
  inRange := h.removalsInRange

/-- **In every reachable state the tables agree, and an epoch change fails no access.** It leaves a
total that is the stake of the active validators, empty queues, and only active validators at risk or
in the reports. -/
theorem consistency (h : Reachable validate s) :
    s.validators.Arranged ∧ ∀ computationReward storageFundReward rewardSlashingRate : Nat,
      Sat (s.state.advanceEpoch computationReward storageFundReward rewardSlashingRate)
        (fun r => r.2.Renewed) (fun e => isAccess e = false) := by
  have hinv := h.invariant
  refine ⟨hinv.arranged, fun computationReward storageFundReward rewardSlashingRate => ?_⟩
  refine (hinv.advanceEpoch_sat computationReward storageFundReward rewardSlashingRate).mono fun r hr => ?_
  obtain ⟨hnext, htotal, hpending, hremovals⟩ := hr
  exact ⟨htotal, hremovals, hpending, hnext.mentions⟩

/-- Two validators that share nothing, with stake from the genesis. -/
def founders : List ValidatorArguments :=
  [⟨1, [1], [2], [3], [4], [5], [6], [7], [8], [9], [10], [11], [12], 1000, 200⟩,
   ⟨2, [21], [22], [23], [24], [25], [26], [27], [28], [29], [30], [31], [32], 1000, 200⟩]

/-- A candidate gets stake and joins, and the first founder is to leave. -/
def turnover : Run System := do
  let (state, stakes, nextId) ← Genesis.create (fun _ => true) founders
    [⟨1000000, some 1⟩, ⟨3000000, some 2⟩, ⟨5, none⟩] ⟨4, 150, 7⟩
  let state ← state.requestAddValidatorCandidate (fun _ => true)
    ⟨3, [41], [42], [43], [44], [45], [46], [47], [48], [49], [50], [51], [52], 1000, 200⟩ nextId (nextId + 1)
  let (x, state) ← state.requestAddStake 1000000000 3
  let state ← state.requestAddValidator 3
  let state ← state.requestRemoveValidator 1
  return ⟨state, x ::ₘ stakes, 0, nextId + 2⟩

/-- The next epoch change succeeds, with the second founder and the candidate left. -/
theorem consistency_turnover : ∃ s : System, Reachable (fun _ => true) s ∧ s.validators.Arranged ∧
    s.validators.pendingActiveValidators.length = 1 ∧ s.validators.pendingRemovals = [0] ∧
    ∃ r, s.state.advanceEpoch 100 10 5000 = .ok r ∧ r.2.Renewed ∧
      r.2.validators.activeValidators.map Validator.suiAddress = [2, 3] := by
  have hcheck : check turnover (fun s => decide (s.validators.pendingActiveValidators.length = 1 ∧
      s.validators.pendingRemovals = [0]) && check (s.state.advanceEpoch 100 10 5000) fun r =>
        r.2.validators.activeValidators.map Validator.suiAddress == [2, 3]) = true := by
    decide +kernel
  obtain ⟨s, hrun, hs⟩ := exists_of_check hcheck
  obtain ⟨hwaits, hnext⟩ := Bool.and_eq_true_iff.mp hs
  obtain ⟨hpending, hremovals⟩ := of_decide_eq_true hwaits
  obtain ⟨r, hr, hleft⟩ := exists_of_check hnext
  have hreachable : Reachable (fun _ => true) s := by
    obtain ⟨⟨state, stakes, nextId⟩, hgenesis, hrun⟩ := bind_eq_ok.mp hrun
    obtain ⟨_, hcandidate, hrun⟩ := bind_eq_ok.mp hrun
    obtain ⟨⟨x, _⟩, hstake, hrun⟩ := bind_eq_ok.mp hrun
    obtain ⟨_, hjoin, hrun⟩ := bind_eq_ok.mp hrun
    obtain ⟨_, hleave, hrun⟩ := bind_eq_ok.mp hrun
    cases hrun
    exact ⟨_, .genesis hgenesis, (((Relation.ReflTransGen.single (.addCandidate hcandidate)).tail
      (.addStake hstake)).tail (.addValidator hjoin)).tail (.removeValidator hleave)⟩
  obtain ⟨harranged, hadvance⟩ := consistency hreachable
  exact ⟨s, hreachable, harranged, hpending, hremovals, r, hr, (hadvance 100 10 5000).ok hr, eq_of_beq hleft⟩

end System

end Sui.SuiSystem
