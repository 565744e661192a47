import Sui.SuiSystem.Standing

/-! Requests between epoch changes.

`System.Invariant` is what every reachable state satisfies: the validators stand in their places,
the requests to leave are distinct and in range, only active validators are at risk or reported,
and the ids that were given out are below the next one. This module shows it for the requests;
the epoch change is another matter. -/
namespace Sui.SuiSystem

open Sui.Lib BTreeMap Exec Multiset Objects Validator List

/-! ### What requests do to a validator -/

/-- Status, pool and metadata are as they were. -/
structure SameProfile (v w : Validator) : Prop where
  metadata : w.metadata = v.metadata
  id : w.stakingPool.id = v.stakingPool.id
  activation : w.stakingPool.activationEpoch = v.stakingPool.activationEpoch
  deactivation : w.stakingPool.deactivationEpoch = v.stakingPool.deactivationEpoch

namespace SameProfile
variable {v w : Validator}

theorem key (h : SameProfile v w) : w.key = v.key := by
  unfold Validator.key Validator.suiAddress Validator.stakingPoolId
  rw [h.metadata, h.id]

theorem holds (h : SameProfile v w) {status : Status} (hs : status.Holds v.stakingPool) :
    status.Holds w.stakingPool := by
  cases status <;>
    simpa only [Status.Holds, StakingPool.isPreactive, StakingPool.isInactive, h.activation,
      h.deactivation] using hs

theorem added (v : Validator) (amount : Nat) : SameProfile v (v.added amount) := by
  unfold Validator.added StakingPool.added
  split <;> exact ⟨rfl, rfl, rfl, rfl⟩

end SameProfile

namespace Sound
variable {o : Objects} {epoch : Nat} {status : Status} {v w : Validator}

/-- The books of the validator after the request, with the objects of its pool then. -/
theorem of_books (h : Sound o (fun _ => epoch) status v) (hprofile : SameProfile v w) {p : Objects}
    (ho : o'.of v.stakingPoolId = p) (hb : Ledger.Books ⟨w, epoch, p.staked, p.fungible⟩) :
    Sound o' (fun _ => epoch) status w where
  holds := hprofile.holds h.holds
  books := by
    have hid : w.stakingPoolId = v.stakingPoolId := hprofile.id
    unfold ledger
    rw [hid, ho]
    exact hb
  staged := by
    rw [hprofile.metadata]
    exact h.staged

theorem addStake (h : Sound o (fun _ => epoch) status v) {amount : Nat} {x : StakedSui}
    (hr : v.requestAddStake amount epoch = .ok (x, w)) :
    SameProfile v w ∧ x.poolId = v.stakingPoolId ∧
      Sound ⟨x ::ₘ o.staked, o.fungible⟩ (fun _ => epoch) status w := by
  obtain ⟨-, heq⟩ := (requestAddStake_sat .overflow h.books.noRecord amount epoch fun _ => NoUnderflow.code).ok hr
  have hbooks := (h.books.requestAddStake amount).ok hr
  have hx : x.poolId = v.stakingPoolId := congrArg (fun r => r.1.poolId) heq
  have hprofile : SameProfile v w := by
    obtain ⟨-, rfl⟩ := Prod.mk.inj heq
    exact .added v amount
  exact ⟨hprofile, hx, h.of_books hprofile (of_cons hx) hbooks⟩

section
variable {x : StakedSui} {fungible : Multiset FungibleStakedSui}
  (h : Sound ⟨x ::ₘ rest, fungible⟩ (fun _ => epoch) status v) (hx : x.poolId = v.stakingPoolId)
include h hx

theorem books_cons : Ledger.Books ⟨v, epoch, x ::ₘ (Objects.of ⟨rest, fungible⟩ v.stakingPoolId).staked,
    (Objects.of ⟨rest, fungible⟩ v.stakingPoolId).fungible⟩ := by
  have hbooks := h.books
  unfold ledger at hbooks
  rw [of_cons (o := ⟨rest, fungible⟩) hx] at hbooks
  exact hbooks

theorem withdrawStake {paid : Nat} (hr : v.requestWithdrawStake x epoch = .ok (paid, w)) :
    SameProfile v w ∧ Sound ⟨rest, fungible⟩ (fun _ => epoch) status w := by
  have hbooks := h.books_cons hx
  have hprofile : SameProfile v w := by
    rcases (hbooks.requestWithdrawStake_spec rfl).ok hr with ⟨-, hw⟩ | ⟨-, p, hp, hw⟩
    · subst hw
      exact ⟨rfl, rfl, rfl, rfl⟩
    · obtain ⟨_, _, -, -, -, rfl⟩ := hp
      dsimp only at hw
      subst hw
      unfold StakingPool.settled StakingPool.withdrawn
      split <;> exact ⟨rfl, rfl, rfl, rfl⟩
  exact ⟨hprofile, h.of_books hprofile rfl ((hbooks.requestWithdrawStake rfl).ok hr)⟩

theorem convert {y : FungibleStakedSui} (hr : v.convertToFungibleStakedSui x epoch = .ok (y, w)) :
    SameProfile v w ∧ y.poolId = v.stakingPoolId ∧ Sound ⟨rest, y ::ₘ fungible⟩ (fun _ => epoch) status w := by
  obtain ⟨p, hp, hw⟩ := (convertToFungibleStakedSui_sat h.books.history.activated x epoch).ok hr
  dsimp only at hp hw
  obtain ⟨-, -, -, _, -, -, hy, hpool⟩ := hp
  have hyid : y.poolId = v.stakingPoolId := by
    rw [hy]
    exact hx
  have hprofile : SameProfile v w := by
    subst hw hpool
    exact ⟨rfl, rfl, rfl, rfl⟩
  exact ⟨hprofile, hyid, h.of_books hprofile (of_consFungible (o := ⟨rest, fungible⟩) hyid)
    (((h.books_cons hx).convertToFungibleStakedSui rfl).ok hr)⟩

end

theorem redeem {y : FungibleStakedSui} {rest : Multiset FungibleStakedSui} {staked : Multiset StakedSui}
    (h : Sound ⟨staked, y ::ₘ rest⟩ (fun _ => epoch) status v) (hy : y.poolId = v.stakingPoolId)
    {paid : Nat} (hr : v.redeemFungibleStakedSui y epoch = .ok (paid, w)) :
    SameProfile v w ∧ Sound ⟨staked, rest⟩ (fun _ => epoch) status w := by
  have hcons := Objects.of_consFungible (o := ⟨staked, rest⟩) hy
  have hstaked := congrArg Objects.staked hcons
  have hfungible := congrArg Objects.fungible hcons
  obtain ⟨p, hp, hw⟩ := (h.books.redeemFungibleStakedSui_spec hfungible).ok hr
  dsimp only at hp hw
  have hbooks := (h.books.redeemFungibleStakedSui hfungible).ok hr
  have hprofile : SameProfile v w := by
    obtain ⟨_, _, _, -, -, -, -, -, -, -, hpool⟩ := hp
    subst hw hpool
    exact ⟨rfl, rfl, rfl, rfl⟩
  refine ⟨hprofile, h.of_books hprofile rfl ?_⟩
  unfold Objects.ledger at hbooks
  rw [hstaked] at hbooks
  exact hbooks

end Sound

/-! ### Finding validators -/

namespace ValidatorSet
variable {vs vs' : ValidatorSet}

theorem findValidator_eq_some (h : findValidator validators address = some i) :
    ∃ v, validators[i]? = some v ∧ v.suiAddress = address := by
  obtain ⟨hi, hv, -⟩ := findIdx?_eq_some_iff_getElem.mp h
  exact ⟨validators[i], getElem?_eq_getElem hi, beq_iff_eq.mp hv⟩

theorem findValidator_eq_none : findValidator validators address = none ↔ address ∉ validators.map suiAddress := by
  simp [findValidator, findIdx?_eq_none_iff]

/-- The queues and the validators at risk are as they were. -/
structure SameQueues (vs vs' : ValidatorSet) : Prop where
  pending : vs'.pendingActiveValidators = vs.pendingActiveValidators
  removals : vs'.pendingRemovals = vs.pendingRemovals
  atRisk : vs'.atRiskValidators = vs.atRiskValidators

end ValidatorSet

namespace Standing
open ValidatorSet
variable {vs vs' : ValidatorSet} {waiting : List Validator} {o : Objects} {epochs : Status → Nat}

theorem withCandidateOrActiveValidator_spec (h : Standing vs waiting o epochs)
    (hr : vs.withCandidateOrActiveValidator a f = .ok (r, vs')) :
    ∃ v w status, Sound o epochs status v ∧ f v = .ok (r, w) ∧
      (vs.roster waiting).Member a v.stakingPoolId ∧
      Pointwise (Replace v w) vs vs' waiting waiting ∧ SameQueues vs vs' := by
  unfold ValidatorSet.withCandidateOrActiveValidator at hr
  split at hr
  · obtain ⟨v, hv, hr⟩ := bind_eq_ok.mp hr
    have hv := unwrap_eq_ok.mp hv
    obtain ⟨⟨r', w⟩, hw, hr⟩ := bind_eq_ok.mp hr
    cases hr
    exact ⟨v, w, .preactive, h.candidates a v hv, hw, .inr (h.reserve_eq hv).2, h.setCandidate hv w,
      ⟨rfl, rfl, rfl⟩⟩
  · obtain ⟨i, hi, hr⟩ := bind_eq_ok.mp hr
    obtain ⟨v, hv, hr⟩ := bind_eq_ok.mp hr
    have hv : vs.activeValidators[i]? = some v := unwrap_eq_ok.mp hv
    obtain ⟨⟨r', w⟩, hw, hr⟩ := bind_eq_ok.mp hr
    cases hr
    obtain ⟨u, hu, rfl⟩ := findValidator_eq_some (unwrap_eq_ok.mp hi)
    obtain rfl : u = v := Option.some.inj (hu.symm.trans hv)
    have hmem := mem_of_getElem? hv
    exact ⟨u, w, .active, h.active u hmem, hw, .inl (mem_listed (mem_append_left waiting hmem)),
      h.setActive hv w, ⟨rfl, rfl, rfl⟩⟩

theorem withValidatorOfPool_spec (h : Standing vs waiting o epochs)
    (hr : vs.withValidatorOfPool poolId f = .ok (r, vs')) :
    ∃ v w status, Sound o epochs status v ∧ f v = .ok (r, w) ∧ v.stakingPoolId = poolId ∧
      Pointwise (Replace v w) vs vs' waiting waiting ∧ SameQueues vs vs' := by
  unfold ValidatorSet.withValidatorOfPool at hr
  split at hr
  · obtain ⟨a, ha, hr⟩ := bind_eq_ok.mp hr
    have hmember := h.roster.indexed.mp (unwrap_eq_ok.mp ha)
    obtain ⟨v, w, status, hs, hw, hv, hp, hq⟩ := h.withCandidateOrActiveValidator_spec hr
    exact ⟨v, w, status, hs, hw, h.roster.id_unique hv hmember, hp, hq⟩
  · obtain ⟨-, -, hr⟩ := bind_eq_ok.mp hr
    obtain ⟨v, hv, hr⟩ := bind_eq_ok.mp hr
    have hv := unwrap_eq_ok.mp hv
    obtain ⟨⟨r', w⟩, hw, hr⟩ := bind_eq_ok.mp hr
    cases hr
    exact ⟨v, w, .inactive, h.inactive _ v hv, hw, (h.retired_eq hv).1, h.setInactive hv w, ⟨rfl, rfl, rfl⟩⟩

end Standing

/-! ### The invariant -/

/-- Only active validators are at risk, reported or reporters. -/
structure Mentions (active : List Validator) (atRisk : BTreeMap Address Nat) (records : ReportRecords) :
    Prop where
  atRisk : ∀ a ∈ atRisk, a ∈ active.map Validator.suiAddress
  reported : ∀ (a : Address) reporters, records[a]? = some reporters →
    a ∈ active.map Validator.suiAddress
  reporters : ∀ (a : Address) reporters, records[a]? = some reporters → ∀ b ∈ reporters,
    b ∈ active.map Validator.suiAddress

theorem Mentions.mono {active active' : List Validator} {atRisk : BTreeMap Address Nat}
    {records : ReportRecords} (h : Mentions active atRisk records)
    (hsub : ∀ a ∈ active.map suiAddress, a ∈ active'.map suiAddress) :
    Mentions active' atRisk records where
  atRisk a ha := hsub a (h.atRisk a ha)
  reported a reporters hr := hsub a (h.reported a reporters hr)
  reporters a reporters hr b hb := hsub b (h.reporters a reporters hr b hb)

theorem ValidatorArguments.create_eq {validate : ValidatorMetadata → Bool} {a : ValidatorArguments}
    {v : Validator} (h : a.create validate poolId capId = .ok v) :
    v = .newFromMetadata a.newMetadata a.gasPrice a.commissionRate poolId capId := by
  unfold create new at h
  simp only [bind_eq_ok, pure_eq_ok] at h
  obtain ⟨-, -, -, -, -, -, -, -, -, -, rfl⟩ := h
  rfl

/-- Ids that were given out are below the next one. -/
structure Below (vs : ValidatorSet) (o : Objects) (nextId : Nat) : Prop where
  mappings : ∀ i ∈ vs.stakingPoolMappings, i < nextId
  inactive : ∀ i ∈ vs.inactiveValidators, i < nextId
  staked : ∀ x ∈ o.staked, x.poolId < nextId
  fungible : ∀ y ∈ o.fungible, y.poolId < nextId

namespace System

def objects (s : System) : Objects := ⟨s.staked, s.fungible⟩

abbrev validators (s : System) : ValidatorSet := s.state.validators

structure Invariant (s : System) : Prop where
  standing : Standing s.validators s.validators.pendingActiveValidators s.objects
    fun _ => s.state.epoch
  removalsNodup : s.validators.pendingRemovals.Nodup
  removalsInRange : ∀ i ∈ s.validators.pendingRemovals, i < s.validators.activeValidators.length
  mentions : Mentions s.validators.activeValidators s.validators.atRiskValidators
    s.state.validatorReportRecords
  below : Below s.validators s.objects s.nextId

namespace Invariant
variable {s : System}

theorem member_below (h : s.Invariant)
    (hm : (s.validators.roster s.validators.pendingActiveValidators).Member a i) : i < s.nextId :=
  h.below.mappings i (mem_of_get (h.standing.roster.indexed.mpr hm))

variable {fungible : Multiset FungibleStakedSui} {state : SuiSystemState}

section
variable (h : s.Invariant) {vs' : ValidatorSet} {v w : Validator} {waiting : List Validator}
  (hp : Pointwise (Replace v w) s.validators vs' s.validators.pendingActiveValidators waiting)
  (hpending : vs'.pendingActiveValidators = waiting)
  (hremovals : vs'.pendingRemovals = s.validators.pendingRemovals)
  (hrisk : vs'.atRiskValidators = s.validators.atRiskValidators)
include h hp hpending hremovals hrisk

/-- One validator changes, with the objects of its pool. -/
theorem replace (hkey : w.key = v.key)
    {staked : Multiset StakedSui} (ho : s.objects.AgreeOff v.stakingPoolId ⟨staked, fungible⟩)
    (hsound : ∀ status, Sound s.objects (fun _ => s.state.epoch) status v →
      Sound ⟨staked, fungible⟩ (fun _ => s.state.epoch) status w)
    (hstaked : ∀ x ∈ staked, x.poolId < s.nextId) (hfungible : ∀ y ∈ fungible, y.poolId < s.nextId) :
    Invariant { s with state := { s.state with validators := vs' }, staked, fungible } := by
  have hactive : vs'.activeValidators.map suiAddress = s.validators.activeValidators.map suiAddress := by
    refine forall₂_map_eq hp.active fun u _ u' hu => ?_
    rcases hu with ⟨-, rfl⟩ | ⟨rfl, rfl⟩
    · rfl
    · exact congrArg Prod.fst hkey
  refine ⟨hpending ▸ h.standing.replace hp hkey ho hsound, ?_, fun i hi => ?_, ?_, ?_, fun i hi => ?_, hstaked,
    hfungible⟩
  · exact hremovals ▸ h.removalsNodup
  · have hi : i ∈ vs'.pendingRemovals := hi
    rw [hremovals] at hi
    rw [← hp.active.length_eq]
    exact h.removalsInRange i hi
  · rw [hrisk]
    exact h.mentions.mono fun a ha => hactive ▸ ha
  · rw [hp.mappings]
    exact h.below.mappings
  · obtain ⟨u, hu⟩ := mem_iff_get.mp hi
    obtain ⟨u', hu', -⟩ := rel_right (hp.inactive i) hu
    exact h.below.inactive i (mem_of_get hu')

/-- One validator changes, and no object. -/
theorem update (hw : Updates v w) : Invariant { s with state := { s.state with validators := vs' } } := by
  refine h.replace hp hpending hremovals hrisk ?_ (fun _ _ => rfl) (fun status hs => ?_) h.below.staked
    h.below.fungible
  · exact Prod.ext hw.address (congrArg StakingPool.id hw.pool)
  · refine hs.update hw.pool hw.nextEpochStake fun hkey => ?_
    rcases hw.staged with ⟨hpubkey, hproof⟩ | hproof
    · rw [hproof]
      exact hs.staged (hpubkey ▸ hkey)
    · exact hproof

end

/-- Objects of one pool are split or joined. -/
theorem exchange (h : s.Invariant) (o : Objects) (id : Nat) (hoff : s.objects.AgreeOff id o)
    (hbooks : ∀ v : Validator, v.stakingPoolId = id → (s.objects.ledger s.state.epoch v).Books →
      (o.ledger s.state.epoch v).Books) (hid : id < s.nextId) :
    Invariant { s with staked := o.staked, fungible := o.fungible } where
  standing := h.standing.keep fun status v hs => by
    by_cases hv : v.stakingPoolId = id
    · exact ⟨hs.holds, hbooks v hv hs.books, hs.staged⟩
    · exact hs.congr (hoff _ hv) rfl
  removalsNodup := h.removalsNodup
  removalsInRange := h.removalsInRange
  mentions := h.mentions
  below := by
    refine ⟨h.below.mappings, h.below.inactive, fun x hx => ?_, fun y hy => ?_⟩
    · by_cases hx' : x.poolId = id
      · rwa [hx']
      · have hmem : x ∈ (o.of x.poolId).staked := mem_filter.mpr ⟨hx, rfl⟩
        rw [hoff _ hx'] at hmem
        exact h.below.staked x (mem_filter.mp hmem).1
    · by_cases hy' : y.poolId = id
      · rwa [hy']
      · have hmem : y ∈ (o.of y.poolId).fungible := mem_filter.mpr ⟨hy, rfl⟩
        rw [hoff _ hy'] at hmem
        exact h.below.fungible y (mem_filter.mp hmem).1

/-! ### Stake -/

section
variable (h : s.Invariant)
include h

theorem addStake (hr : s.state.requestAddStake amount address = .ok (x, state)) :
    Invariant { s with state, staked := x ::ₘ s.staked } := by
  obtain ⟨⟨x', vs'⟩, hvs, hr⟩ := bind_eq_ok.mp hr
  cases hr
  obtain ⟨-, -, hvs⟩ := bind_eq_ok.mp hvs
  obtain ⟨v, w, status, hs, hw, hv, hp, hq⟩ := h.standing.withCandidateOrActiveValidator_spec hvs
  obtain ⟨hprofile, hx, -⟩ := hs.addStake hw
  refine h.replace hp hq.pending hq.removals hq.atRisk hprofile.key (fun id hid => ?_)
    (fun _ hs => (hs.addStake hw).2.2) (forall_mem_cons.mpr ⟨?_, h.below.staked⟩) h.below.fungible
  · simp [objects, of, hx, hid.symm]
  · rw [hx]
    exact h.member_below hv

theorem withdrawStake {paid : Nat} (hx : s.staked = x ::ₘ rest)
    (hr : s.state.requestWithdrawStake x = .ok (paid, state)) : Invariant { s with state, staked := rest } := by
  obtain ⟨state₀, staked, fungible, nextId⟩ := s
  obtain rfl : staked = x ::ₘ rest := hx
  obtain ⟨⟨paid', vs'⟩, hvs, hr⟩ := bind_eq_ok.mp hr
  cases hr
  obtain ⟨v, w, status, hs, hw, hv, hp, hq⟩ := h.standing.withValidatorOfPool_spec hvs
  refine h.replace hp hq.pending hq.removals hq.atRisk (hs.withdrawStake hv.symm hw).1.key (fun id hid => ?_)
    (fun _ hs => (hs.withdrawStake hv.symm hw).2) (fun y hy => h.below.staked y (mem_cons_of_mem hy))
    h.below.fungible
  simp [objects, of, ← hv, hid.symm]

theorem convert (hx : s.staked = x ::ₘ rest) (hr : s.state.convertToFungibleStakedSui x = .ok (y, state)) :
    Invariant { s with state, staked := rest, fungible := y ::ₘ s.fungible } := by
  obtain ⟨state₀, staked, fungible, nextId⟩ := s
  obtain rfl : staked = x ::ₘ rest := hx
  obtain ⟨⟨y', vs'⟩, hvs, hr⟩ := bind_eq_ok.mp hr
  cases hr
  obtain ⟨v, w, status, hs, hw, hv, hp, hq⟩ := h.standing.withValidatorOfPool_spec hvs
  obtain ⟨hprofile, hy, -⟩ := hs.convert hv.symm hw
  refine h.replace hp hq.pending hq.removals hq.atRisk hprofile.key (fun id hid => ?_)
    (fun _ hs => (hs.convert hv.symm hw).2.2)
    (fun z hz => h.below.staked z (mem_cons_of_mem hz)) (forall_mem_cons.mpr ⟨?_, h.below.fungible⟩)
  · simp [objects, of, hy, ← hv, hid.symm]
  · rw [hy, hv]
    exact h.below.staked x (mem_cons_self x rest)

theorem redeem {paid : Nat} (hy : s.fungible = y ::ₘ rest)
    (hr : s.state.redeemFungibleStakedSui y = .ok (paid, state)) :
    Invariant { s with state, fungible := rest } := by
  obtain ⟨state₀, staked, fungible, nextId⟩ := s
  obtain rfl : fungible = y ::ₘ rest := hy
  obtain ⟨⟨paid', vs'⟩, hvs, hr⟩ := bind_eq_ok.mp hr
  cases hr
  obtain ⟨v, w, status, hs, hw, hv, hp, hq⟩ := h.standing.withValidatorOfPool_spec hvs
  refine h.replace hp hq.pending hq.removals hq.atRisk (hs.redeem hv.symm hw).1.key (fun id hid => ?_)
    (fun _ hs => (hs.redeem hv.symm hw).2) h.below.staked fun z hz => h.below.fungible z (mem_cons_of_mem hz)
  simp [objects, of, ← hv, hid.symm]

/-! ### Splitting and joining objects -/

theorem split (hx : s.staked = x ::ₘ rest) (hr : x.split amount = .ok (a, b)) :
    Invariant { s with staked := a ::ₘ b ::ₘ rest } := by
  obtain ⟨-, -, -, ha, hb⟩ := StakedSui.split_spec hr
  refine h.exchange ⟨a ::ₘ b ::ₘ rest, s.fungible⟩ x.poolId (fun id hid => ?_) (fun v hv hbooks => ?_)
    (h.below.staked x (by simp [objects, hx]))
  · simp [objects, of, hx, ha, hb, hid.symm]
  · have hstaked : (s.objects.ledger s.state.epoch v).staked = x ::ₘ rest.filter (·.poolId = x.poolId) := by
      simp [objects, ledger, of, hx, hv]
    simpa [objects, ledger, of, ha, hb, hv] using hbooks.split hstaked hr

theorem join (hx : s.staked = x ::ₘ y ::ₘ rest) (hr : x.join y = .ok z) :
    Invariant { s with staked := z ::ₘ rest } := by
  obtain ⟨-, -, -, hy, hz⟩ := StakedSui.join_spec hr
  refine h.exchange ⟨z ::ₘ rest, s.fungible⟩ x.poolId (fun id hid => ?_) (fun v hv hbooks => ?_)
    (h.below.staked x (by simp [objects, hx]))
  · simp [objects, of, hx, hy, hz, hid.symm]
  · have hstaked : (s.objects.ledger s.state.epoch v).staked = x ::ₘ y ::ₘ rest.filter (·.poolId = x.poolId) := by
      simp [objects, ledger, of, hx, hy, hv]
    simpa [objects, ledger, of, hz, hv] using hbooks.join hstaked hr

theorem splitFungible (hx : s.fungible = x ::ₘ rest) (hr : x.split amount = .ok (a, b)) :
    Invariant { s with fungible := a ::ₘ b ::ₘ rest } := by
  obtain ⟨-, ha, hb⟩ := FungibleStakedSui.split_spec hr
  refine h.exchange ⟨s.staked, a ::ₘ b ::ₘ rest⟩ x.poolId (fun id hid => ?_) (fun v hv hbooks => ?_)
    (h.below.fungible x (by simp [objects, hx]))
  · simp [objects, of, hx, ha, hb, hid.symm]
  · have hfungible : (s.objects.ledger s.state.epoch v).fungible = x ::ₘ rest.filter (·.poolId = x.poolId) := by
      simp [objects, ledger, of, hx, hv]
    simpa [objects, ledger, of, ha, hb, hv] using hbooks.splitFungible hfungible hr

theorem joinFungible (hx : s.fungible = x ::ₘ y ::ₘ rest) (hr : x.join y = .ok z) :
    Invariant { s with fungible := z ::ₘ rest } := by
  obtain ⟨-, hy, hz⟩ := FungibleStakedSui.join_spec hr
  refine h.exchange ⟨s.staked, z ::ₘ rest⟩ x.poolId (fun id hid => ?_) (fun v hv hbooks => ?_)
    (h.below.fungible x (by simp [objects, hx]))
  · simp [objects, of, hx, hy, hz, hid.symm]
  · have hfungible : (s.objects.ledger s.state.epoch v).fungible =
        x ::ₘ y ::ₘ rest.filter (·.poolId = x.poolId) := by
      simp [objects, ledger, of, hx, hy, hv]
    simpa [objects, ledger, of, hz, hv] using hbooks.joinFungible hfungible hr

/-! ### Candidates -/

theorem addCandidate {validate : ValidatorMetadata → Bool} {arguments : ValidatorArguments}
    (hr : s.state.requestAddValidatorCandidate validate arguments s.nextId (s.nextId + 1) = .ok state) :
    Invariant { s with state, nextId := s.nextId + 2 } := by
  obtain ⟨v, hv, hr⟩ := bind_eq_ok.mp hr
  obtain ⟨vs', hvs, hr⟩ := bind_eq_ok.mp hr
  cases hr
  have hv := ValidatorArguments.create_eq hv
  have hid : v.stakingPoolId = s.nextId := by rw [hv]; rfl
  unfold ValidatorSet.requestAddValidatorCandidate tableAdd at hvs
  simp only [bind_eq_ok, ensure, require_eq_ok, pure_eq_ok] at hvs
  obtain ⟨-, hcandidate, -, hactive, -, hpending, -, -, -, -, mappings, ⟨-, hnew, rfl⟩, candidates,
    ⟨-, -, rfl⟩, rfl⟩ := hvs
  have hinactive : s.nextId ∉ s.validators.inactiveValidators := fun hm =>
    Nat.lt_irrefl _ (h.below.inactive _ hm)
  -- the pool is new, so that nothing is outstanding from it
  have hsound : Sound s.objects (fun _ => s.state.epoch) .preactive v := by
    have hnone : s.objects.of v.stakingPoolId = ⟨0, 0⟩ := by
      have hstaked : s.staked.filter (fun x => x.poolId = v.stakingPoolId) = 0 := by
        rw [filter_eq_nil, hid]
        exact fun x hx => (h.below.staked x hx).ne
      have hfungible : s.fungible.filter (fun y => y.poolId = v.stakingPoolId) = 0 := by
        rw [filter_eq_nil, hid]
        exact fun y hy => (h.below.fungible y hy).ne
      unfold of objects
      rw [hstaked, hfungible]
    refine ⟨?_, ?_, ?_⟩
    · rw [hv]
      exact ⟨rfl, rfl⟩
    · unfold ledger
      rw [hnone, hv]
      exact .new ..
    · rw [hv]
      exact nofun
  refine ⟨⟨?_, h.standing.active, h.standing.waiting, fun a u hu => ?_, h.standing.inactive⟩,
    h.removalsNodup, h.removalsInRange, h.mentions, fun i hi => ?_, fun i hi => ?_, fun x hx => ?_,
    fun y hy => ?_⟩
  · have hlisted : v.suiAddress ∉
        ((s.validators.roster s.validators.pendingActiveValidators).listed.map Prod.fst) := by
      simp only [ValidatorSet.roster, List.map_map, List.map_append, List.mem_append]
      exact not_or.mpr ⟨ValidatorSet.findValidator_eq_none.mp hactive,
        ValidatorSet.findValidator_eq_none.mp hpending⟩
    have hreserve : (s.validators.roster s.validators.pendingActiveValidators).reserve v.suiAddress =
        none := by
      simp only [ValidatorSet.roster, not_mem_iff_get.mp hcandidate, Option.map_none]
    have hretired : (s.validators.roster s.validators.pendingActiveValidators).retired v.stakingPoolId =
        none := by
      simp only [ValidatorSet.roster, hid, not_mem_iff_get.mp hinactive, Option.map_none]
    show Roster.Consistent ⟨_,
      fun a => (s.validators.validatorCandidates.insert v.suiAddress v)[a]?.map key,
      fun i => (s.validators.stakingPoolMappings.insert v.stakingPoolId v.suiAddress)[i]?, _⟩
    rw [lookup_map_insert, lookup_insert]
    exact h.standing.roster.enrol hlisted hreserve (not_mem_iff_get.mp hnew) hretired
  · have hu : (s.validators.validatorCandidates.insert v.suiAddress v)[a]? = some u := hu
    rcases insert_eq_some.mp hu with ⟨-, rfl⟩ | ⟨-, hu⟩
    · exact hsound
    · exact h.standing.candidates a u hu
  · rcases mem_insert_iff.mp hi with rfl | hi
    · show v.stakingPoolId < s.nextId + 2
      omega
    · exact Nat.lt_add_right 2 (h.below.mappings i hi)
  · exact Nat.lt_add_right 2 (h.below.inactive i hi)
  · exact Nat.lt_add_right 2 (h.below.staked x hx)
  · exact Nat.lt_add_right 2 (h.below.fungible y hy)

theorem removeCandidate (hr : s.state.requestRemoveValidatorCandidate sender = .ok state) :
    Invariant { s with state } := by
  obtain ⟨vs', hvs, hr⟩ := bind_eq_ok.mp hr
  cases hr
  unfold ValidatorSet.requestRemoveValidatorCandidate tableRemove tableAdd at hvs
  simp only [bind_eq_ok, ensure, require_eq_ok, unwrap_eq_ok, pure_eq_ok, Prod.exists, Prod.mk.injEq] at hvs
  obtain ⟨-, -, _, _, ⟨v, hv, rfl, rfl⟩, -, -, _, _, ⟨_, -, -, rfl⟩, w, hw, _, ⟨-, -, rfl⟩, rfl⟩ := hvs
  have hsound := h.standing.candidates sender v hv
  obtain ⟨haddress, hreserve⟩ := h.standing.reserve_eq hv
  obtain ⟨hkey, hinactive⟩ := hsound.deactivate rfl (hsound.books.settled (.inl hsound.holds.1)) hw
  have hid : w.stakingPoolId = v.stakingPoolId := congrArg Prod.snd hkey
  refine ⟨⟨?_, h.standing.active, h.standing.waiting, fun a u hu => ?_, fun i u hu => ?_⟩,
    h.removalsNodup, h.removalsInRange, h.mentions, fun i hi => ?_, fun i hi => ?_, h.below.staked,
    h.below.fungible⟩
  · show Roster.Consistent ⟨_, fun a => (s.validators.validatorCandidates.erase sender)[a]?.map key,
      fun i => (s.validators.stakingPoolMappings.erase v.stakingPoolId)[i]?,
      fun i => (s.validators.inactiveValidators.insert v.stakingPoolId w)[i]?.map stakingPoolId⟩
    rw [lookup_map_erase, lookup_erase, lookup_map_insert, hid]
    exact h.standing.roster.dismiss hreserve
  · have hu : (s.validators.validatorCandidates.erase sender)[a]? = some u := hu
    exact h.standing.candidates a u (erase_eq_some.mp hu).2
  · have hu : (s.validators.inactiveValidators.insert v.stakingPoolId w)[i]? = some u := hu
    rcases insert_eq_some.mp hu with ⟨-, rfl⟩ | ⟨-, hu⟩
    · exact hinactive
    · exact h.standing.inactive i u hu
  · exact h.below.mappings i (mem_erase_iff.mp hi).2
  · rcases mem_insert_iff.mp hi with rfl | hi
    · exact h.member_below (.inr hreserve)
    · exact h.below.inactive i hi

theorem addValidator (hr : s.state.requestAddValidator sender = .ok state) : Invariant { s with state } := by
  obtain ⟨_, _, hr⟩ := bind_eq_ok.mp hr
  obtain ⟨_, _, hr⟩ := bind_eq_ok.mp hr
  obtain ⟨vs', hvs, hr⟩ := bind_eq_ok.mp hr
  cases hr
  unfold ValidatorSet.requestAddValidator tableRemove at hvs
  simp only [bind_eq_ok, ensure, require_eq_ok, unwrap_eq_ok, pure_eq_ok, Prod.exists, Prod.mk.injEq] at hvs
  obtain ⟨-, -, _, _, ⟨v, hv, rfl, rfl⟩, -, -, -, -, -, -, -, -, rfl⟩ := hvs
  have hsound := h.standing.candidates sender v hv
  obtain ⟨rfl, hreserve⟩ := h.standing.reserve_eq hv
  refine ⟨⟨?_, h.standing.active, forall_mem_concat.mpr ⟨h.standing.waiting, hsound⟩, fun a u hu => ?_,
      h.standing.inactive⟩, h.removalsNodup, h.removalsInRange, h.mentions, h.below.mappings, h.below.inactive,
    h.below.staked, h.below.fungible⟩
  · show Roster.Consistent ⟨(s.validators.activeValidators ++
        (s.validators.pendingActiveValidators ++ [v])).map key,
      fun a => (s.validators.validatorCandidates.erase v.suiAddress)[a]?.map key, _, _⟩
    rw [lookup_map_erase, ← append_assoc, map_append]
    exact h.standing.roster.promote hreserve
  · have hu : (s.validators.validatorCandidates.erase v.suiAddress)[a]? = some u := hu
    exact h.standing.candidates a u (erase_eq_some.mp hu).2

theorem removeValidator (hr : s.state.requestRemoveValidator sender = .ok state) : Invariant { s with state } := by
  obtain ⟨vs', hvs, rfl⟩ : ∃ vs', s.validators.requestRemoveValidator sender = .ok vs' ∧
      state = { s.state with validators := vs' } := by
    unfold SuiSystemState.requestRemoveValidator at hr
    split at hr
    · obtain ⟨_, _, hr⟩ := bind_eq_ok.mp hr
      obtain ⟨_, _, hr⟩ := bind_eq_ok.mp hr
      obtain ⟨vs', hvs, hr⟩ := bind_eq_ok.mp hr
      exact ⟨vs', hvs, (pure_eq_ok.mp hr).symm⟩
    · obtain ⟨vs', hvs, hr⟩ := bind_eq_ok.mp hr
      exact ⟨vs', hvs, (pure_eq_ok.mp hr).symm⟩
  unfold ValidatorSet.requestRemoveValidator at hvs
  simp only [bind_eq_ok, ensure, require_eq_ok, unwrap_eq_ok, pure_eq_ok] at hvs
  obtain ⟨index, hindex, -, hnew, rfl⟩ := hvs
  obtain ⟨v, hv, -⟩ := ValidatorSet.findValidator_eq_some hindex
  refine ⟨h.standing.congr rfl rfl rfl rfl, ?_,
    forall_mem_concat.mpr ⟨h.removalsInRange, (List.getElem?_eq_some_iff.mp hv).1⟩, h.mentions,
    h.below.mappings, h.below.inactive, h.below.staked, h.below.fungible⟩
  rw [← List.concat_eq_append, List.nodup_concat]
  exact ⟨hnew, h.removalsNodup⟩

end

/-! ### Reports and epochs that are skipped -/

theorem verifyActiveCap_spec (h : state.verifyActiveCap cap = .ok a) :
    a ∈ state.validators.activeValidators.map suiAddress := by
  unfold SuiSystemState.verifyActiveCap ValidatorSet.getValidatorRef at h
  simp only [bind_eq_ok, unwrap_eq_ok, pure_eq_ok] at h
  obtain ⟨-, ⟨i, hi, -⟩, -, -, rfl⟩ := h
  obtain ⟨v, hv, haddress⟩ := ValidatorSet.findValidator_eq_some hi
  rw [← haddress]
  exact mem_map_of_mem (mem_of_getElem? hv)

section
variable (h : s.Invariant)
include h

/-- The reports change, and mention only active validators. -/
theorem records {records : ReportRecords} (hrecords : ∀ (a : Address) reporters, records[a]? = some reporters →
      a ∈ s.validators.activeValidators.map suiAddress ∧ ∀ b ∈ reporters,
        b ∈ s.validators.activeValidators.map suiAddress) :
    Invariant { s with state := { s.state with validatorReportRecords := records } } :=
  ⟨h.standing, h.removalsNodup, h.removalsInRange,
    ⟨h.mentions.atRisk, fun a reporters hr => (hrecords a reporters hr).1,
      fun a reporters hr => (hrecords a reporters hr).2⟩, h.below⟩

theorem report {cap : UnverifiedValidatorOperationCap} {reportee : Address}
    (hr : s.state.reportValidator cap reportee = .ok state) : Invariant { s with state } := by
  unfold SuiSystemState.reportValidator at hr
  simp only [bind_eq_ok, ensure, require_eq_ok, pure_eq_ok] at hr
  obtain ⟨-, hactive, reporter, hcap, -, -, rfl⟩ := hr
  have hreportee : reportee ∈ s.validators.activeValidators.map suiAddress := by
    obtain ⟨i, hi⟩ := Option.isSome_iff_exists.mp hactive
    obtain ⟨v, hv, haddress⟩ := ValidatorSet.findValidator_eq_some hi
    rw [← haddress]
    exact mem_map_of_mem (mem_of_getElem? hv)
  refine h.records fun a reporters ha => ?_
  rcases insert_eq_some.mp ha with ⟨heq, rfl⟩ | ⟨-, ha⟩
  · refine ⟨heq ▸ hreportee, fun b hb => ?_⟩
    rcases BTreeSet.mem_insert_iff.mp hb with rfl | hb
    · exact verifyActiveCap_spec hcap
    · cases hold : s.state.validatorReportRecords[reportee]? with
      | none =>
        rw [hold] at hb
        exact absurd hb Std.ExtTreeSet.not_mem_empty
      | some old =>
        rw [hold] at hb
        exact h.mentions.reporters reportee old hold b hb
  · exact ⟨h.mentions.reported a reporters ha, h.mentions.reporters a reporters ha⟩

theorem undoReport {cap : UnverifiedValidatorOperationCap} {reportee : Address}
    (hr : s.state.undoReportValidator cap reportee = .ok state) : Invariant { s with state } := by
  unfold SuiSystemState.undoReportValidator at hr
  simp only [bind_eq_ok, ensure, require_eq_ok, unwrap_eq_ok, pure_eq_ok] at hr
  obtain ⟨reporter, -, old, hold, -, -, rfl⟩ := hr
  refine h.records fun a reporters ha => ?_
  split at ha
  · obtain ⟨-, ha⟩ := erase_eq_some.mp ha
    exact ⟨h.mentions.reported a reporters ha, h.mentions.reporters a reporters ha⟩
  · rcases insert_eq_some.mp ha with ⟨heq, rfl⟩ | ⟨-, ha⟩
    · refine ⟨heq ▸ h.mentions.reported reportee old hold, fun b hb => ?_⟩
      exact h.mentions.reporters reportee old hold b (BTreeSet.mem_erase_iff.mp hb).2
    · exact ⟨h.mentions.reported a reporters ha, h.mentions.reporters a reporters ha⟩

theorem safeMode : Invariant { s with state := { s.state with epoch := s.state.epoch + 1 } } :=
  ⟨h.standing.keep fun _ _ hs => hs.skipEpoch rfl, h.removalsNodup, h.removalsInRange, h.mentions, h.below⟩

end

end Invariant

end System

end Sui.SuiSystem
