import Sui.Lib.Roster
import Sui.SuiSystem.SystemState

/-! Validators in their places.

The active validators and those that wait are the listed members of a roster, the candidates its
reserve and the inactive validators its retired ids. `Standing` says that this roster is consistent
and that each validator is sound in its place: its pool has the status of the place, and its books
agree with the objects that are outstanding from it.

Most of what happens to a validator set changes validators one by one where they are. `Pointwise`
says so, and `Standing.pointwise` is all that has to be known about the tables then. -/
namespace Sui.SuiSystem

open Sui.Lib Sui.Lib.Exec List

/-- What the tables know a validator by. -/
def Validator.key (v : Validator) : Address × Nat := (v.suiAddress, v.stakingPoolId)

/-- A staged key comes with its proof of possession. -/
def ValidatorMetadata.Staged (m : ValidatorMetadata) : Prop :=
  m.nextEpochProtocolPubkeyBytes.isSome = true → m.nextEpochProofOfPossession.isSome = true

/-- The roster of a validator set. Those who wait are given apart, since an epoch change takes them
out of the set while it decides about them. -/
def ValidatorSet.roster (vs : ValidatorSet) (waiting : List Validator) : Roster Address Nat where
  listed := (vs.activeValidators ++ waiting).map Validator.key
  reserve a := vs.validatorCandidates[a]?.map Validator.key
  index i := vs.stakingPoolMappings[i]?
  retired i := vs.inactiveValidators[i]?.map Validator.stakingPoolId

/-! ### Objects -/

/-- The objects that are outstanding. -/
structure Objects where
  staked : Multiset StakedSui
  fungible : Multiset FungibleStakedSui

namespace Objects

/-- Those of one pool. -/
def of (o : Objects) (poolId : Nat) : Objects :=
  ⟨o.staked.filter fun x => x.poolId = poolId, o.fungible.filter fun y => y.poolId = poolId⟩

/-- The objects are the same, except for one pool. -/
def AgreeOff (poolId : Nat) (o o' : Objects) : Prop := ∀ id ≠ poolId, o'.of id = o.of id

def ledger (o : Objects) (epoch : Nat) (v : Validator) : Ledger :=
  ⟨v, epoch, (o.of v.stakingPoolId).staked, (o.of v.stakingPoolId).fungible⟩

variable {o : Objects} {x : StakedSui} {y : FungibleStakedSui} {id : Nat}

theorem of_cons (h : x.poolId = id) :
    of ⟨x ::ₘ o.staked, o.fungible⟩ id = ⟨x ::ₘ (o.of id).staked, (o.of id).fungible⟩ := by
  simp [of, h]

theorem of_consFungible (h : y.poolId = id) :
    of ⟨o.staked, y ::ₘ o.fungible⟩ id = ⟨(o.of id).staked, y ::ₘ (o.of id).fungible⟩ := by
  simp [of, h]

end Objects

/-! ### Soundness in a place -/

inductive Status
  | active
  | preactive
  | inactive
deriving DecidableEq

/-- The pool has the status. -/
def Status.Holds : Status → StakingPool → Prop
  | .active, pool => pool.isPreactive = false ∧ pool.isInactive = false
  | .preactive, pool => pool.isPreactive = true ∧ pool.isInactive = false
  | .inactive, pool => pool.isInactive = true

/-- A validator agrees with its place and with its objects. In the middle of an epoch change
validators with different status are in different epochs. -/
structure Sound (o : Objects) (epochs : Status → Nat) (status : Status) (v : Validator) : Prop where
  holds : status.Holds v.stakingPool
  books : (o.ledger (epochs status) v).Books
  staged : v.metadata.Staged

namespace Sound
variable {o o' : Objects} {epochs : Status → Nat} {status : Status} {v w : Validator}

section
variable (h : Sound o epochs status v)
include h

theorem congr (ho : o'.of v.stakingPoolId = o.of v.stakingPoolId)
    (he : epochs' status = epochs status) : Sound o' epochs' status v where
  holds := h.holds
  books := by
    unfold Objects.ledger
    rw [ho, he]
    exact h.books
  staged := h.staged

/-- The validator is skipped by an epoch change. -/
theorem skipEpoch (he : epochs' status = epochs status + 1) :
    Sound o epochs' status v where
  holds := h.holds
  books := by
    rw [he]
    exact h.books.skipEpoch
  staged := h.staged

/-- The pool is deactivated with nothing pending. -/
theorem deactivate (he : epochs .inactive = epochs status)
    (hzero : v.stakingPool.pendingStake = 0) (hw : v.deactivate epoch = .ok w) :
    w.key = v.key ∧ Sound o epochs .inactive w := by
  have hbooks := h.books.deactivate hzero hw
  obtain ⟨p, hp, hw⟩ := bind_eq_ok.mp hw
  obtain ⟨-, rfl⟩ := (StakingPool.deactivateStakingPool_sat epoch).ok hp
  cases hw
  refine ⟨rfl, rfl, ?_, h.staged⟩
  rw [he]
  exact hbooks

/-- Nothing of the pool changes. -/
theorem update (hpool : w.stakingPool = v.stakingPool)
    (hstake : w.nextEpochStake = v.nextEpochStake) (hstaged : w.metadata.Staged) :
    Sound o epochs status w where
  holds := hpool ▸ h.holds
  books := by
    have hid : w.stakingPoolId = v.stakingPoolId := congrArg StakingPool.id hpool
    unfold Objects.ledger
    rw [hid]
    exact h.books.update hpool hstake
  staged := hstaged

end

end Sound

/-! ### The set -/

structure Standing (vs : ValidatorSet) (waiting : List Validator) (o : Objects)
    (epochs : Status → Nat) : Prop where
  roster : (vs.roster waiting).Consistent
  active : ∀ v ∈ vs.activeValidators, Sound o epochs .active v
  waiting : ∀ v ∈ waiting, Sound o epochs .preactive v
  candidates : ∀ (a : Address) v, vs.validatorCandidates[a]? = some v → Sound o epochs .preactive v
  inactive : ∀ (i : Nat) v, vs.inactiveValidators[i]? = some v → Sound o epochs .inactive v

/-- Validators change one by one, and none of them its place. -/
structure Pointwise (R : Validator → Validator → Prop) (vs vs' : ValidatorSet)
    (waiting waiting' : List Validator) : Prop where
  active : List.Forall₂ R vs.activeValidators vs'.activeValidators
  waiting : List.Forall₂ R waiting waiting'
  candidates : ∀ a : Address, Option.Rel R vs.validatorCandidates[a]? vs'.validatorCandidates[a]?
  inactive : ∀ i : Nat, Option.Rel R vs.inactiveValidators[i]? vs'.inactiveValidators[i]?
  mappings : vs'.stakingPoolMappings = vs.stakingPoolMappings

theorem forall₂_map_eq
    (h : List.Forall₂ R xs ys) (hR : ∀ x ∈ xs, ∀ y, R x y → f y = f x) : ys.map f = xs.map f := by
  induction h with
  | nil => rfl
  | @cons x y xs ys hxy _ ih =>
    rw [map_cons, map_cons, hR x (.head _) y hxy, ih fun z hz => hR z (.tail _ hz)]

theorem exists_left_of_forall₂ (h : List.Forall₂ R xs ys) (hy : y ∈ ys) : ∃ x ∈ xs, R x y := by
  induction h with
  | nil => cases hy
  | @cons a b as bs hab _ ih =>
    rcases mem_cons.mp hy with rfl | hy
    · exact ⟨a, mem_cons_self .., hab⟩
    · obtain ⟨x, hx, hxy⟩ := ih hy
      exact ⟨x, mem_cons_of_mem _ hx, hxy⟩

theorem forall₂_right {R : α → α → Prop} {P Q : α → Prop} {xs ys : List α}
    (h : List.Forall₂ R xs ys) (hP : ∀ x ∈ xs, P x) (hR : ∀ x y, R x y → P x → Q y) : ∀ y ∈ ys, Q y := by
  intro y hy
  obtain ⟨x, hx, hxy⟩ := exists_left_of_forall₂ h hy
  exact hR x y hxy (hP x hx)

theorem rel_map_eq (h : Option.Rel R x y) (hR : ∀ a, x = some a → ∀ b, R a b → f b = f a) : y.map f = x.map f := by
  cases h with
  | none => rfl
  | some hab => exact congrArg some (hR _ rfl _ hab)

theorem rel_right (h : Option.Rel R x y) (hb : y = some b) : ∃ a, x = some a ∧ R a b := by
  cases h with
  | none => cases hb
  | some hab =>
    cases hb
    exact ⟨_, rfl, hab⟩

namespace Standing
variable {vs vs' : ValidatorSet} {waiting waiting' : List Validator} {o o' : Objects}
  {epochs : Status → Nat} {R : Validator → Validator → Prop}

/-- **What is changed one by one stays in its place.** -/
theorem pointwise (h : Standing vs waiting o epochs) (hp : Pointwise R vs vs' waiting waiting')
    (hR : ∀ status v w, R v w → Sound o epochs status v → w.key = v.key ∧ Sound o' epochs' status w) :
    Standing vs' waiting' o' epochs' := by
  have hkey {v w : Validator} {status : Status} (hv : Sound o epochs status v) (hvw : R v w) :
      w.key = v.key := (hR status v w hvw hv).1
  have hroster : vs'.roster waiting' = vs.roster waiting := by
    unfold ValidatorSet.roster
    congr 1
    · rw [map_append, map_append, forall₂_map_eq hp.active fun v hv w hvw => hkey (h.active v hv) hvw,
        forall₂_map_eq hp.waiting fun v hv w hvw => hkey (h.waiting v hv) hvw]
    · funext a
      exact rel_map_eq (hp.candidates a) fun v hv w hvw => hkey (h.candidates a v hv) hvw
    · rw [hp.mappings]
    · funext i
      exact rel_map_eq (hp.inactive i) fun v hv w hvw =>
        congrArg Prod.snd (hkey (h.inactive i v hv) hvw)
  refine ⟨hroster ▸ h.roster, ?_, ?_, fun a w hw => ?_, fun i w hw => ?_⟩
  · exact forall₂_right hp.active h.active fun v w hvw hv => (hR _ v w hvw hv).2
  · exact forall₂_right hp.waiting h.waiting fun v w hvw hv => (hR _ v w hvw hv).2
  · obtain ⟨v, hv, hvw⟩ := rel_right (hp.candidates a) hw
    exact (hR _ v w hvw (h.candidates a v hv)).2
  · obtain ⟨v, hv, hvw⟩ := rel_right (hp.inactive i) hw
    exact (hR _ v w hvw (h.inactive i v hv)).2

/-- The queues do not matter. -/
theorem congr (h : Standing vs waiting o epochs) (hactive : vs'.activeValidators = vs.activeValidators)
    (hcandidates : vs'.validatorCandidates = vs.validatorCandidates)
    (hmappings : vs'.stakingPoolMappings = vs.stakingPoolMappings)
    (hinactive : vs'.inactiveValidators = vs.inactiveValidators) : Standing vs' waiting o epochs := by
  obtain ⟨hroster, ha, hw, hc, hi⟩ := h
  refine ⟨?_, hactive ▸ ha, hw, hcandidates ▸ hc, hinactive ▸ hi⟩
  unfold ValidatorSet.roster at hroster ⊢
  rw [hactive, hcandidates, hmappings, hinactive]
  exact hroster

/-- No validator changes, but what is known of each. -/
theorem keep (h : Standing vs waiting o epochs)
    (hsound : ∀ status v, Sound o epochs status v → Sound o' epochs' status v) :
    Standing vs waiting o' epochs' where
  roster := h.roster
  active v hv := hsound _ v (h.active v hv)
  waiting v hv := hsound _ v (h.waiting v hv)
  candidates a v hv := hsound _ v (h.candidates a v hv)
  inactive i v hv := hsound _ v (h.inactive i v hv)

/-! ### Pools are told apart by their ids -/

theorem mem_listed (hv : v ∈ vs.activeValidators ++ waiting) :
    (v.suiAddress, v.stakingPoolId) ∈ (vs.roster waiting).listed :=
  mem_map_of_mem hv

section
variable (h : Standing vs waiting o epochs) {a : Address} {v : Validator}
include h

theorem reserve_eq (hv : vs.validatorCandidates[a]? = some v) :
    v.suiAddress = a ∧ (vs.roster waiting).reserve a = some (a, v.stakingPoolId) := by
  have hreserve : (vs.roster waiting).reserve a = some v.key := by
    simp only [ValidatorSet.roster, hv, Option.map_some]
  have haddress : v.suiAddress = a := h.roster.reserveKey hreserve
  rw [hreserve, Validator.key, haddress]
  exact ⟨rfl, rfl⟩

theorem retired_eq (hv : vs.inactiveValidators[i]? = some v) :
    v.stakingPoolId = i ∧ (vs.roster waiting).retired i = some i := by
  have hretired : (vs.roster waiting).retired i = some v.stakingPoolId := by
    simp only [ValidatorSet.roster, hv, Option.map_some]
  have hid := h.roster.retiredKey hretired
  exact ⟨hid, hid ▸ hretired⟩

theorem listed_ids_nodup : ((vs.activeValidators ++ waiting).map Validator.stakingPoolId).Nodup := by
  have hids := h.roster.ids_nodup
  simp only [ValidatorSet.roster, map_map] at hids
  exact hids

theorem listed_ne_candidate
    (hu : u ∈ vs.activeValidators ++ waiting) (hv : vs.validatorCandidates[a]? = some v) :
    u.stakingPoolId ≠ v.stakingPoolId :=
  h.roster.id_ne_of_reserve (mem_listed hu) (h.reserve_eq hv).2

theorem member_ne_inactive {i : Nat} {u v : Validator}
    (hu : (vs.roster waiting).Member a u.stakingPoolId) (hv : vs.inactiveValidators[i]? = some v) :
    u.stakingPoolId ≠ v.stakingPoolId := by
  obtain ⟨rfl, hretired⟩ := h.retired_eq hv
  intro hne
  rw [hne] at hu
  cases hretired.symm.trans (h.roster.not_retired hu)

end

end Standing

/-! ### One validator changes -/

/-- The validator `v₀` is replaced by `w₀`, and the validators of other pools are as they were. -/
def Replace (v₀ w₀ v w : Validator) : Prop :=
  v.stakingPoolId ≠ v₀.stakingPoolId ∧ w = v ∨ v = v₀ ∧ w = w₀

variable {v₀ w₀ : Validator}

theorem forall₂_keep (h : ∀ v ∈ l, v.stakingPoolId ≠ v₀.stakingPoolId) : List.Forall₂ (Replace v₀ w₀) l l :=
  forall₂_same.mpr fun v hv => .inl ⟨h v hv, rfl⟩

theorem map_set_eq {l : List Validator} (hv : l[i]? = some v₀) (f : Validator → α) (hf : f w₀ = f v₀) :
    (l.set i w₀).map f = l.map f := by
  obtain ⟨hi, rfl⟩ := List.getElem?_eq_some_iff.mp hv
  rw [map_set, hf, ← getElem_map f, set_getElem_self]
  rwa [length_map]

theorem forall₂_set (hnodup : (l.map Validator.stakingPoolId).Nodup) (hv : l[i]? = some v₀) :
    List.Forall₂ (Replace v₀ w₀) l (l.set i w₀) := by
  refine forall₂_iff_get.mpr ⟨(length_set ..).symm, fun j hj hj' => ?_⟩
  obtain ⟨hi, hget⟩ := List.getElem?_eq_some_iff.mp hv
  simp only [get_eq_getElem, getElem_set]
  split
  · rename_i hij
    subst hij
    exact .inr ⟨hget, rfl⟩
  · rename_i hij
    refine .inl ⟨fun hid => hij ?_, rfl⟩
    refine (List.getElem?_inj (by rwa [length_map]) hnodup).mp ?_
    rw [List.getElem?_map, List.getElem?_map, hv, List.getElem?_eq_getElem hj, Option.map_some,
      Option.map_some, hid]

theorem rel_keep (h : ∀ v, x = some v → v.stakingPoolId ≠ v₀.stakingPoolId) : Option.Rel (Replace v₀ w₀) x x := by
  cases x with
  | none => exact .none
  | some v => exact .some (.inl ⟨h v rfl, rfl⟩)

namespace Standing
variable {vs : ValidatorSet} {waiting : List Validator} {o o' : Objects} {epochs : Status → Nat}
  {v w : Validator}

section
variable (h : Standing vs waiting o epochs) {i : Nat}
include h

theorem setActive
    (hv : vs.activeValidators[i]? = some v) (w : Validator) :
    Pointwise (Replace v w) vs { vs with activeValidators := vs.activeValidators.set i w } waiting waiting := by
  have hmem : v ∈ vs.activeValidators := mem_of_getElem? hv
  have hlisted : v ∈ vs.activeValidators ++ waiting := mem_append_left _ hmem
  have hids := h.listed_ids_nodup
  rw [map_append, nodup_append] at hids
  refine ⟨forall₂_set hids.1 hv, forall₂_keep fun u hu => ?_, fun a => rel_keep fun u hu => ?_,
    fun j => rel_keep fun u hu => ?_, rfl⟩
  · exact (hids.2.2 _ (mem_map_of_mem hmem) _ (mem_map_of_mem hu)).symm
  · exact (h.listed_ne_candidate hlisted hu).symm
  · exact (h.member_ne_inactive (.inl (mem_listed hlisted)) hu).symm

theorem setWaiting (hv : waiting[i]? = some v)
    (w : Validator) : Pointwise (Replace v w) vs vs waiting (waiting.set i w) := by
  have hmem : v ∈ waiting := mem_of_getElem? hv
  have hlisted : v ∈ vs.activeValidators ++ waiting := mem_append_right _ hmem
  have hids := h.listed_ids_nodup
  rw [map_append, nodup_append] at hids
  refine ⟨forall₂_keep fun u hu => ?_, forall₂_set hids.2.1 hv, fun a => rel_keep fun u hu => ?_,
    fun j => rel_keep fun u hu => ?_, rfl⟩
  · exact hids.2.2 _ (mem_map_of_mem hu) _ (mem_map_of_mem hmem)
  · exact (h.listed_ne_candidate hlisted hu).symm
  · exact (h.member_ne_inactive (.inl (mem_listed hlisted)) hu).symm

theorem setCandidate {a : Address} (hv : vs.validatorCandidates[a]? = some v) (w : Validator) :
    Pointwise (Replace v w) vs { vs with validatorCandidates := vs.validatorCandidates.insert a w }
      waiting waiting := by
  obtain ⟨-, hreserve⟩ := h.reserve_eq hv
  refine ⟨forall₂_keep fun u hu => ?_, forall₂_keep fun u hu => ?_, fun b => ?_,
    fun j => rel_keep fun u hu => ?_, rfl⟩
  · exact h.listed_ne_candidate (mem_append_left _ hu) hv
  · exact h.listed_ne_candidate (mem_append_right _ hu) hv
  · rw [BTreeMap.get_insert]
    split
    · rename_i hab
      rw [← hab, hv]
      exact .some (.inr ⟨rfl, rfl⟩)
    · rename_i hab
      refine rel_keep fun u hu hid => hab ?_
      have hu := (h.reserve_eq hu).2
      rw [hid] at hu
      exact h.roster.name_unique (.inr hreserve) (.inr hu)
  · exact (h.member_ne_inactive (.inr hreserve) hu).symm

theorem setInactive
    (hv : vs.inactiveValidators[i]? = some v) (w : Validator) :
    Pointwise (Replace v w) vs { vs with inactiveValidators := vs.inactiveValidators.insert i w }
      waiting waiting := by
  refine ⟨forall₂_keep fun u hu => ?_, forall₂_keep fun u hu => ?_, fun b => rel_keep fun u hu => ?_,
    fun j => ?_, rfl⟩
  · exact h.member_ne_inactive (.inl (mem_listed (mem_append_left _ hu))) hv
  · exact h.member_ne_inactive (.inl (mem_listed (mem_append_right _ hu))) hv
  · exact h.member_ne_inactive (.inr (h.reserve_eq hu).2) hv
  · rw [BTreeMap.get_insert]
    split
    · rename_i hij
      rw [← hij, hv]
      exact .some (.inr ⟨rfl, rfl⟩)
    · rename_i hij
      refine rel_keep fun u hu hid => hij ?_
      rw [← (h.retired_eq hv).1, ← (h.retired_eq hu).1, hid]

/-- One validator changes, with the objects of its pool. -/
theorem replace (hp : Pointwise (Replace v w) vs vs' waiting waiting') (hkey : w.key = v.key)
    (ho : o.AgreeOff v.stakingPoolId o') (hsound : ∀ status, Sound o epochs status v → Sound o' epochs status w) :
    Standing vs' waiting' o' epochs := by
  refine h.pointwise hp fun status u u' hu hs => ?_
  rcases hu with ⟨hid, rfl⟩ | ⟨rfl, rfl⟩
  · exact ⟨rfl, hs.congr (ho _ hid) rfl⟩
  · exact ⟨hkey, hsound status hs⟩

end

end Standing

end Sui.SuiSystem
