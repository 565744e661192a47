import Sui.SuiSystem.PoolSpec
import Sui.SuiSystem.Validator

/-! The books of a staking pool.

The SUI of a pool is in its stakers' objects, in the principal of the fungible stake and in the
rewards pool, while the pool itself only counts. `Ledger` is a validator with everything that is
outstanding from its pool, and `Ledger.Step` is whatever may happen to it, an epoch that is
skipped in safe mode among the rest; a parameter says when that may be.

`Ledger.Books` says that the counters agree with what is outstanding. Every operation keeps it and
none underflows, so that it holds along every run (`Ledger.accounting`). -/
namespace Sui.SuiSystem

open Sui.Lib Sui.Lib.Exec Multiset StakingPool

/-- The stakers' principal. -/
def principals (staked : Multiset StakedSui) : Nat := (staked.map StakedSui.principal).sum

/-- The principal of stake that is not active yet. -/
def pendingPrincipals (epoch : Nat) (staked : Multiset StakedSui) : Nat :=
  principals (staked.filter fun x => epoch < x.stakeActivationEpoch)

def fungibleValues (fungible : Multiset FungibleStakedSui) : Nat :=
  (fungible.map FungibleStakedSui.value).sum

@[simp] theorem principals_zero : principals 0 = 0 := rfl

@[simp] theorem principals_cons (x : StakedSui) (staked : Multiset StakedSui) :
    principals (x ::ₘ staked) = x.principal + principals staked := by
  simp [principals]

@[simp] theorem pendingPrincipals_cons (epoch : Nat) (x : StakedSui) (staked : Multiset StakedSui) :
    pendingPrincipals epoch (x ::ₘ staked) =
      (if epoch < x.stakeActivationEpoch then x.principal else 0) + pendingPrincipals epoch staked := by
  unfold pendingPrincipals
  split
  · rename_i h
    rw [filter_cons_of_pos (p := fun x => epoch < StakedSui.stakeActivationEpoch x) _ h, principals_cons]
  · rename_i h
    rw [filter_cons_of_neg (p := fun x => epoch < StakedSui.stakeActivationEpoch x) _ h, Nat.zero_add]

/-- Nothing waits that has started. -/
theorem pendingPrincipals_eq_zero
    (h : ∀ x ∈ staked, x.stakeActivationEpoch ≤ epoch) : pendingPrincipals epoch staked = 0 := by
  have hnone : (staked.filter fun x => epoch < x.stakeActivationEpoch) = 0 := by
    rw [filter_eq_nil]
    exact fun x hx => Nat.not_lt.mpr (h x hx)
  rw [pendingPrincipals, hnone, principals_zero]

/-- Less waits in the next epoch. -/
theorem pendingPrincipals_succ_le (epoch : Nat) (staked : Multiset StakedSui) :
    pendingPrincipals (epoch + 1) staked ≤ pendingPrincipals epoch staked := by
  induction staked using Multiset.induction with
  | empty => exact le_rfl
  | cons x staked ih =>
    simp only [pendingPrincipals_cons]
    split <;> split <;> omega

@[simp] theorem fungibleValues_cons (y : FungibleStakedSui) (fungible : Multiset FungibleStakedSui) :
    fungibleValues (y ::ₘ fungible) = y.value + fungibleValues fungible := by
  simp [fungibleValues]

/-- A validator with the objects that are outstanding from its pool. -/
structure Ledger where
  validator : Validator
  epoch : Nat
  staked : Multiset StakedSui := 0
  fungible : Multiset FungibleStakedSui := 0

namespace Ledger

abbrev pool (s : Ledger) : StakingPool := s.validator.stakingPool

/-- All the SUI of the pool. -/
def held (s : Ledger) : Nat := principals s.staked + s.pool.fungiblePrincipal + s.pool.rewardsPool

/-- What is staked, with the stake of the validator's own reward if there is any. -/
def stakedWith (s : Ledger) (x : Option StakedSui) : Multiset StakedSui :=
  x.elim s.staked (· ::ₘ s.staked)

/-! ### Runs -/

/-- Validators of the genesis: stake is added before they are activated. -/
inductive Genesis : Ledger → Prop
  | new (metadata : ValidatorMetadata) (gasPrice commissionRate poolId capId : Nat) :
    Genesis ⟨.newFromMetadata metadata gasPrice commissionRate poolId capId, 0, 0, 0⟩
  | stake {s : Ledger} {amount : Nat} {x : StakedSui} {v : Validator} (h : Genesis s)
    (hv : s.validator.requestAddStakeAtGenesis amount s.epoch = .ok (x, v)) :
    Genesis { s with validator := v, staked := x ::ₘ s.staked }

inductive Initial : Ledger → Prop
  | genesis {s : Ledger} {v : Validator} (h : Genesis s) (hv : s.validator.activate 0 = .ok v) :
    Initial { s with validator := v }
  | candidate (metadata : ValidatorMetadata) (gasPrice commissionRate poolId capId epoch : Nat) :
    Initial ⟨.newFromMetadata metadata gasPrice commissionRate poolId capId, epoch, 0, 0⟩

inductive Step (maySkip : Ledger → Prop) (s : Ledger) : Ledger → Prop
  | addStake {amount : Nat} {x : StakedSui} {v : Validator}
    (h : s.validator.requestAddStake amount s.epoch = .ok (x, v)) :
    Step maySkip s { s with validator := v, staked := x ::ₘ s.staked }
  | withdrawStake {x : StakedSui} {rest : Multiset StakedSui} {paid : Nat} {v : Validator}
    (hx : s.staked = x ::ₘ rest)
    (h : s.validator.requestWithdrawStake x s.epoch = .ok (paid, v)) :
    Step maySkip s { s with validator := v, staked := rest }
  | convert {x : StakedSui} {rest : Multiset StakedSui} {y : FungibleStakedSui} {v : Validator}
    (hx : s.staked = x ::ₘ rest)
    (h : s.validator.convertToFungibleStakedSui x s.epoch = .ok (y, v)) :
    Step maySkip s { s with validator := v, staked := rest, fungible := y ::ₘ s.fungible }
  | redeem {y : FungibleStakedSui} {rest : Multiset FungibleStakedSui} {paid : Nat} {v : Validator}
    (hy : s.fungible = y ::ₘ rest)
    (h : s.validator.redeemFungibleStakedSui y s.epoch = .ok (paid, v)) :
    Step maySkip s { s with validator := v, fungible := rest }
  | split {x a b : StakedSui} {rest : Multiset StakedSui} {amount : Nat}
    (hx : s.staked = x ::ₘ rest) (h : x.split amount = .ok (a, b)) :
    Step maySkip s { s with staked := a ::ₘ b ::ₘ rest }
  | join {x y z : StakedSui} {rest : Multiset StakedSui}
    (hx : s.staked = x ::ₘ y ::ₘ rest) (h : x.join y = .ok z) :
    Step maySkip s { s with staked := z ::ₘ rest }
  | splitFungible {x a b : FungibleStakedSui} {rest : Multiset FungibleStakedSui} {amount : Nat}
    (hx : s.fungible = x ::ₘ rest) (h : x.split amount = .ok (a, b)) :
    Step maySkip s { s with fungible := a ::ₘ b ::ₘ rest }
  | joinFungible {x y z : FungibleStakedSui} {rest : Multiset FungibleStakedSui}
    (hx : s.fungible = x ::ₘ y ::ₘ rest) (h : x.join y = .ok z) :
    Step maySkip s { s with fungible := z ::ₘ rest }
  /-- A candidate that withdraws its candidacy. -/
  | removeCandidate {v : Validator} (hpre : s.validator.isPreactive = true)
    (h : s.validator.deactivate s.epoch = .ok v) : Step maySkip s { s with validator := v }
  /-- The end of an epoch for an active validator. -/
  | endEpoch {validatorReward stakerReward : Nat} {x : Option StakedSui} {v : Validator}
    (hpre : s.pool.isPreactive = false) (hin : s.pool.isInactive = false)
    (h : s.validator.endEpoch validatorReward stakerReward s.epoch = .ok (x, v)) :
    Step maySkip s { s with validator := v, epoch := s.epoch + 1, staked := s.stakedWith x }
  /-- The validator leaves, or is removed, at the end of the epoch. -/
  | depart {validatorReward stakerReward : Nat} {x : Option StakedSui} {v v' : Validator}
    (hpre : s.pool.isPreactive = false) (hin : s.pool.isInactive = false)
    (h : s.validator.endEpoch validatorReward stakerReward s.epoch = .ok (x, v))
    (hv : v.deactivate (s.epoch + 1) = .ok v') :
    Step maySkip s { s with validator := v', epoch := s.epoch + 1, staked := s.stakedWith x }
  | activate {v : Validator} (h : s.validator.activate s.epoch = .ok v) :
    Step maySkip s { s with validator := v, epoch := s.epoch + 1 }
  /-- The epoch ends without the pool: it is not active, or the epoch change is in safe mode. -/
  | skipEpoch (h : maySkip s) : Step maySkip s { s with epoch := s.epoch + 1 }
  /-- Quotes, voting power and metadata change. -/
  | update {v : Validator} (hpool : v.stakingPool = s.pool)
    (hstake : v.nextEpochStake = s.validator.nextEpochStake) : Step maySkip s { s with validator := v }

def Reachable (maySkip : Ledger → Prop) (s : Ledger) : Prop :=
  ∃ s₀, Initial s₀ ∧ Relation.ReflTransGen (Step maySkip) s₀ s

/-! ### The invariant -/

structure Books (s : Ledger) : Prop where
  balance : s.pool.suiBalance + s.pool.pendingStake = s.pool.pendingTotalSuiWithdraw + s.held
  nextEpochStake : s.validator.nextEpochStake = s.held
  pending : s.pool.isPreactive = false → pendingPrincipals s.epoch s.staked ≤ s.pool.pendingStake
  settled : s.pool.isPreactive = true ∨ s.pool.isInactive = true → s.pool.pendingStake = 0
  noRecord : s.pool.underflowSuiBalance = none
  supply : s.pool.fungibleSupply = fungibleValues s.fungible
  started : ∀ x ∈ s.staked, x.stakeActivationEpoch ≤ s.epoch + 1
  history : s.pool.History s.epoch

namespace Books
variable {s : Ledger}

variable {x : StakedSui} {rest : Multiset StakedSui}

section
variable (h : s.Books)
include h

/-- Stake that starts by the next epoch is added to the books. -/
theorem add (hin : s.pool.isInactive = false) (hx : x.principal = amount)
    (hact : x.stakeActivationEpoch = s.epoch + 1 ∨
      s.pool.isPreactive = true ∧ x.stakeActivationEpoch ≤ s.epoch) :
    Books { s with validator := s.validator.added amount, staked := x ::ₘ s.staked } := by
  obtain ⟨hbalance, hnext, hpending, hsettled, hnone, hsupply, hstarted, hhistory⟩ := h
  have hstarted' : ∀ y ∈ x ::ₘ s.staked, y.stakeActivationEpoch ≤ s.epoch + 1 :=
    forall_mem_cons.mpr ⟨by omega, hstarted⟩
  cases hpre : s.pool.isPreactive with
  | true =>
    rw [Validator.added, added_of_preactive hpre]
    refine ⟨?sui, ?next, fun h => absurd (hpre.symm.trans h) (by decide), fun _ => rfl, rfl, hsupply,
      hstarted', hhistory.congr rfl rfl⟩
    case sui | next =>
      simp [held, stakeProcessed, waiting, fungiblePrincipal, hnone, hx] at hbalance hnext ⊢
      omega
  | false =>
    rw [Validator.added, added_of_active hpre]
    refine ⟨?sui, ?next, fun _ => ?_, fun h => ?_, hnone, hsupply, hstarted', hhistory.congr rfl rfl⟩
    case sui | next =>
      simp [held, waiting, fungiblePrincipal, hx] at hbalance hnext ⊢
      omega
    · have hle := hpending hpre
      simp only [pendingPrincipals_cons, waiting, hx]
      split <;> omega
    · rcases h with h | h
      · exact absurd (hpre.symm.trans h) (by decide)
      · exact absurd (hin.symm.trans h) (by decide)

theorem requestAddStake (amount : Nat) :
    Sat (s.validator.requestAddStake amount s.epoch)
      (fun r => Books { s with validator := r.2, staked := r.1 ::ₘ s.staked }) NoUnderflow := by
  refine (Validator.requestAddStake_sat .overflow h.noRecord _ _ fun _ => .code).mono fun r hr => ?_
  obtain ⟨hin, rfl⟩ := hr
  exact h.add hin rfl (.inl rfl)

section
variable (hx : s.staked = x ::ₘ rest)
include hx

theorem rest_started : ∀ y ∈ rest, y.stakeActivationEpoch ≤ s.epoch + 1 :=
  (forall_mem_cons.mp (hx ▸ h.started)).2

/-- A withdrawal from the pending stake. -/
theorem withdrawDirect (hdirect : s.pool.Direct x s.epoch) :
    x.principal ≤ s.pool.pendingStake ∧
    Books { s with
      validator := s.validator.paid
        { s.pool with pendingStake := s.pool.pendingStake - x.principal } x.principal
      staked := rest } := by
  have hrest := h.rest_started hx
  obtain ⟨hbalance, hnext, hpending, hsettled, hnone, hsupply, -, hhistory⟩ := h
  simp only [held, fungiblePrincipal, hx, principals_cons] at hbalance hnext
  have hle := hpending hdirect.2
  simp only [hx, pendingPrincipals_cons, if_pos hdirect.1] at hle
  refine ⟨by omega, ?sui, ?next, fun _ => ?_, fun hs => ?_, hnone, hsupply, hrest, hhistory.congr rfl rfl⟩
  case sui | next =>
    simp only [held, fungiblePrincipal]
    omega
  · show pendingPrincipals s.epoch rest ≤ s.pool.pendingStake - x.principal
    omega
  · rw [hsettled hs, Nat.zero_sub]

/-- What a withdrawal through the pool pays is held. -/
theorem paid_le (hp : s.pool.Withdraws x s.epoch paid p) :
    x.principal ≤ paid ∧ paid ≤ s.validator.nextEpochStake := by
  obtain ⟨old, now, -, -, hpaid, -⟩ := hp
  have hnext := h.nextEpochStake
  simp only [held, hx, principals_cons] at hnext
  omega

/-- A withdrawal through the pool. -/
theorem withdraw (hp : s.pool.Withdraws x s.epoch paid p) :
    Books { s with validator := s.validator.paid p.settled paid, staked := rest } := by
  have hrest := h.rest_started hx
  obtain ⟨hbalance, hnext, hpending, hsettled, hnone, hsupply, -, hhistory⟩ := h
  obtain ⟨old, now, -, -, hpaid, rfl⟩ := hp
  simp only [held, StakingPool.fungiblePrincipal, hx, principals_cons] at hbalance hnext
  have hwaiting : s.pool.isPreactive = false → pendingPrincipals s.epoch rest ≤ s.pool.pendingStake := by
    intro hpre
    have hle := hpending hpre
    simp only [hx, pendingPrincipals_cons] at hle
    omega
  unfold StakingPool.settled
  split
  · rename_i hs
    have hzero := hsettled hs.symm
    have hfits : s.pool.pendingTotalSuiWithdraw + paid ≤ s.pool.suiBalance := by omega
    refine ⟨?sui, ?next, hwaiting, hsettled, if_pos (.inl hfits), hsupply, hrest, hhistory.congr rfl rfl⟩
    case sui | next =>
      simp only [held, StakingPool.fungiblePrincipal, StakingPool.withdrawn]
      omega
  · refine ⟨?sui, ?next, hwaiting, hsettled, hnone, hsupply, hrest, hhistory.congr rfl rfl⟩
    case sui | next =>
      simp only [held, StakingPool.fungiblePrincipal]
      omega

/-- What a withdrawal does to the validator. -/
theorem requestWithdrawStake_spec :
    Sat (s.validator.requestWithdrawStake x s.epoch)
      (fun r =>
        (s.pool.Direct x s.epoch ∧ r.2 = s.validator.paid
          { s.pool with pendingStake := s.pool.pendingStake - x.principal } x.principal) ∨
        (¬s.pool.Direct x s.epoch ∧ ∃ p, s.pool.Withdraws x s.epoch r.1 p ∧
          r.2 = s.validator.paid p.settled r.1)) NoUnderflow := by
  have hpending : s.pool.Direct x s.epoch → x.principal ≤ s.pool.pendingStake :=
    fun hdirect => (h.withdrawDirect hx hdirect).1
  refine (requestWithdrawStake_sat h.history.activated h.noRecord x _ hpending).bind fun r hr => ?_
  rcases hr with ⟨hdirect, rfl⟩ | ⟨hpool, p, hp, hr⟩
  · refine (U64.sub_sat le_rfl).bind fun _ _ => ?_
    have hle : x.principal ≤ s.validator.nextEpochStake := by
      rw [h.nextEpochStake, held, hx, principals_cons]
      omega
    refine (U64.sub_sat hle).bind_eq ?_
    exact .inl ⟨hdirect, rfl⟩
  · obtain ⟨hprincipal, hpaid⟩ := h.paid_le hx hp
    refine (U64.sub_sat hprincipal).bind fun _ _ => ?_
    refine (U64.sub_sat hpaid).bind_eq ?_
    exact .inr ⟨hpool, p, hp, by rw [hr]⟩

theorem requestWithdrawStake :
    Sat (s.validator.requestWithdrawStake x s.epoch)
      (fun r => Books { s with validator := r.2, staked := rest }) NoUnderflow := by
  refine (h.requestWithdrawStake_spec hx).mono fun r hr => ?_
  rcases hr with ⟨hdirect, hr⟩ | ⟨-, p, hp, hr⟩
  · rw [hr]
    exact (h.withdrawDirect hx hdirect).2
  · rw [hr]
    exact h.withdraw hx hp

theorem convert (hp : s.pool.Converts x s.epoch y p) :
    Books { s with
      validator := { s.validator with stakingPool := p }
      staked := rest
      fungible := y ::ₘ s.fungible } := by
  obtain ⟨hepoch, hpre, hin, old, -, -, rfl, rfl⟩ := hp
  have hrest := h.rest_started hx
  obtain ⟨hbalance, hnext, hpending, hsettled, hnone, hsupply, -, hhistory⟩ := h
  simp only [held, hx, principals_cons] at hbalance hnext
  refine ⟨?sui, ?next, fun _ => ?_, hsettled, hnone, ?_, hrest, hhistory.congr rfl rfl⟩
  case sui | next =>
    simp [held, fungiblePrincipal] at hbalance hnext ⊢
    omega
  · have hle := hpending hpre
    simp only [hx, pendingPrincipals_cons] at hle
    show pendingPrincipals s.epoch rest ≤ s.pool.pendingStake
    omega
  · rw [fungibleValues_cons, ← hsupply, Nat.add_comm]
    rfl

theorem convertToFungibleStakedSui :
    Sat (s.validator.convertToFungibleStakedSui x s.epoch)
      (fun r => Books { s with validator := r.2, staked := rest, fungible := r.1 ::ₘ s.fungible })
      NoUnderflow := by
  refine (Validator.convertToFungibleStakedSui_sat h.history.activated ..).mono fun r hr => ?_
  obtain ⟨p, hp, hr⟩ := hr
  rw [hr]
  exact h.convert hx hp

end

section
variable {y : FungibleStakedSui} {rest : Multiset FungibleStakedSui} (hy : s.fungible = y ::ₘ rest)
include hy

theorem redeem (hp : s.pool.Redeems y s.epoch paid p) :
    paid ≤ s.validator.nextEpochStake ∧
    Books { s with validator := s.validator.paid p paid, fungible := rest } := by
  obtain ⟨now, fromPrincipal, fromRewards, -, -, hprincipal, hrewards, -, rfl, -, rfl⟩ := hp
  obtain ⟨hbalance, hnext, hpending, hsettled, hnone, hsupply, hstarted, hhistory⟩ := h
  rw [hy, fungibleValues_cons] at hsupply
  simp only [held] at hbalance hnext
  refine ⟨by omega, ?sui, ?next, hpending, hsettled, hnone, ?_, hstarted, hhistory.congr rfl rfl⟩
  case sui | next =>
    simp [held, fungiblePrincipal] at hbalance hnext hprincipal ⊢
    omega
  · show s.pool.fungibleSupply - y.value = fungibleValues rest
    omega

/-- What a redemption does to the validator. -/
theorem redeemFungibleStakedSui_spec :
    Sat (s.validator.redeemFungibleStakedSui y s.epoch)
      (fun r => ∃ p, s.pool.Redeems y s.epoch r.1 p ∧ r.2 = s.validator.paid p r.1) NoUnderflow := by
  have hsupply : y.value ≤ s.pool.fungibleSupply := by
    rw [h.supply, hy, fungibleValues_cons]
    exact Nat.le_add_right ..
  refine (redeemFungibleStakedSui_sat h.history.activated y _ hsupply).bind fun r hr => ?_
  refine (U64.sub_sat (h.redeem hy hr).1).bind_eq ?_
  exact ⟨r.2, hr, rfl⟩

theorem redeemFungibleStakedSui :
    Sat (s.validator.redeemFungibleStakedSui y s.epoch)
      (fun r => Books { s with validator := r.2, fungible := rest }) NoUnderflow := by
  refine (h.redeemFungibleStakedSui_spec hy).mono fun r hr => ?_
  obtain ⟨p, hp, hr⟩ := hr
  rw [hr]
  exact (h.redeem hy hp).2

end

/-- The books depend on the stakers' objects through their sums. -/
theorem congr {staked : Multiset StakedSui} {fungible : Multiset FungibleStakedSui}
    (hp : principals staked = principals s.staked)
    (hpending : pendingPrincipals s.epoch staked = pendingPrincipals s.epoch s.staked)
    (hf : fungibleValues fungible = fungibleValues s.fungible)
    (hstarted : ∀ x ∈ staked, x.stakeActivationEpoch ≤ s.epoch + 1) :
    Books { s with staked, fungible } := by
  have hheld : s.held = held { s with staked, fungible } := by simp only [held, hp]
  exact ⟨h.balance.trans (by rw [hheld]), h.nextEpochStake.trans hheld, hpending ▸ h.pending, h.settled,
    h.noRecord, h.supply.trans hf.symm, hstarted, h.history⟩

theorem split {a b : StakedSui} (hx : s.staked = x ::ₘ rest) (hsplit : x.split amount = .ok (a, b)) :
    Books { s with staked := a ::ₘ b ::ₘ rest } := by
  obtain ⟨ha, hb, hsum, -⟩ := StakedSui.split_spec hsplit
  apply h.congr
  · simp only [hx, principals_cons]
    omega
  · simp only [hx, pendingPrincipals_cons, ha, hb]
    split <;> omega
  · rfl
  · have hstarted := h.started
    simp only [hx, forall_mem_cons, ha, hb] at hstarted ⊢
    exact ⟨hstarted.1, hstarted⟩

theorem join {y z : StakedSui} (hx : s.staked = x ::ₘ y ::ₘ rest) (hjoin : x.join y = .ok z) :
    Books { s with staked := z ::ₘ rest } := by
  obtain ⟨hy, hz, hsum, -⟩ := StakedSui.join_spec hjoin
  apply h.congr
  · simp only [hx, principals_cons]
    omega
  · simp only [hx, pendingPrincipals_cons, hy, hz]
    split <;> omega
  · rfl
  · have hstarted := h.started
    simp only [hx, forall_mem_cons, hz] at hstarted ⊢
    exact ⟨hstarted.1, hstarted.2.2⟩

theorem splitFungible {x a b : FungibleStakedSui} {rest : Multiset FungibleStakedSui}
    (hx : s.fungible = x ::ₘ rest) (hsplit : x.split amount = .ok (a, b)) :
    Books { s with fungible := a ::ₘ b ::ₘ rest } := by
  obtain ⟨hsum, -⟩ := FungibleStakedSui.split_spec hsplit
  apply h.congr rfl rfl _ h.started
  simp only [hx, fungibleValues_cons]
  omega

theorem joinFungible {x y z : FungibleStakedSui} {rest : Multiset FungibleStakedSui}
    (hx : s.fungible = x ::ₘ y ::ₘ rest) (hjoin : x.join y = .ok z) : Books { s with fungible := z ::ₘ rest } := by
  obtain ⟨hsum, -⟩ := FungibleStakedSui.join_spec hjoin
  apply h.congr rfl rfl _ h.started
  simp only [hx, fungibleValues_cons]
  omega

/-! ### Ends of epochs -/

/-- Processing the pool settles what waits; what is staked then is what was announced. -/
theorem processed (hpre : s.pool.isPreactive = false) (hv : v.stakingPool = s.pool.processed s.epoch)
    (hstake : v.nextEpochStake = s.validator.nextEpochStake) :
    Books { s with validator := v, epoch := s.epoch + 1 } ∧ v.totalStake = v.nextEpochStake := by
  obtain ⟨hbalance, hnext, hpending, hsettled, hnone, hsupply, hstarted, hhistory⟩ := h
  simp only [held, pool, StakingPool.fungiblePrincipal] at hbalance hnext
  refine ⟨⟨?sui, ?next, fun _ => ?_, fun _ => ?settled, ?noRecord, ?_, fun y hy => ?_, ?_⟩, ?_⟩
  case sui | next =>
    simp only [held, pool, StakingPool.fungiblePrincipal, hv, StakingPool.processed]
    omega
  case settled | noRecord => simp only [pool, hv, StakingPool.processed]
  · rw [pendingPrincipals_eq_zero hstarted]
    exact Nat.zero_le _
  · simp only [pool, hv, StakingPool.processed, StakingPool.fungibleSupply] at hsupply ⊢
    exact hsupply
  · exact Nat.le_succ_of_le (hstarted y hy)
  · show v.stakingPool.History (s.epoch + 1)
    rw [hv]
    exact hhistory.insert hpre rfl rfl
  · simp only [Validator.totalStake, pool, hv, StakingPool.processed]
    omega

section
variable (hpre : s.pool.isPreactive = false) (hin : s.pool.isInactive = false) (validatorReward stakerReward : Nat)
include hpre hin

/-- Both parts of the reward enter the books. -/
theorem rewarded :
    Books { s with
      validator := s.validator.rewarded validatorReward stakerReward
      staked := s.stakedWith (s.validator.rewardsStake validatorReward s.epoch) } := by
  obtain ⟨hbalance, hnext, hpending, hsettled, hnone, hsupply, hstarted, hhistory⟩ := h
  simp only [held, pool, fungiblePrincipal] at hbalance hnext
  have hle := hpending hpre
  simp only [pool] at hle
  have hsettled' (h : s.pool.isPreactive = true ∨ s.pool.isInactive = true) : False := by
    rw [hpre, hin] at h
    simp at h
  unfold Validator.rewardsStake
  split
  · refine ⟨?sui, ?next, fun _ => ?_, fun h => (hsettled' h).elim, hnone, hsupply,
      forall_mem_cons.mpr ⟨le_rfl, hstarted⟩, hhistory.congr rfl rfl⟩
    case sui | next =>
      simp only [held, pool, fungiblePrincipal, Validator.rewarded, stakedWith, Option.elim_some, principals_cons]
      omega
    · simp only [pool, Validator.rewarded, stakedWith, Option.elim_some, pendingPrincipals_cons]
      split <;> omega
  · refine ⟨?sui, ?next, fun _ => ?_, fun h => (hsettled' h).elim, hnone, hsupply, hstarted,
      hhistory.congr rfl rfl⟩
    case sui | next =>
      simp only [held, pool, fungiblePrincipal, Validator.rewarded, stakedWith, Option.elim_none]
      omega
    · simp only [pool, Validator.rewarded, stakedWith, Option.elim_none]
      omega

theorem ended :
    Books { s with
        validator := s.validator.ended validatorReward stakerReward s.epoch
        epoch := s.epoch + 1
        staked := s.stakedWith (s.validator.rewardsStake validatorReward s.epoch) } ∧
      (s.validator.ended validatorReward stakerReward s.epoch).totalStake =
        (s.validator.ended validatorReward stakerReward s.epoch).nextEpochStake :=
  (h.rewarded hpre hin validatorReward stakerReward).processed hpre rfl rfl

theorem endEpoch_spec (hover : E .overflow) :
    Sat (s.validator.endEpoch validatorReward stakerReward s.epoch)
      (fun r => r = (s.validator.rewardsStake validatorReward s.epoch,
        s.validator.ended validatorReward stakerReward s.epoch)) E := by
  have hbalance : s.pool.pendingTotalSuiWithdraw ≤ s.pool.suiBalance + s.pool.pendingStake := by
    rw [h.balance]
    exact Nat.le_add_right ..
  exact Validator.endEpoch_sat hover h.history hpre hin h.noRecord hbalance ..

theorem endEpoch :
    Sat (s.validator.endEpoch validatorReward stakerReward s.epoch)
      (fun r => Books { s with
          validator := r.2, epoch := s.epoch + 1, staked := s.stakedWith r.1 } ∧
        r.2.totalStake = r.2.nextEpochStake ∧ r.2.stakingPool.pendingStake = 0) NoUnderflow := by
  refine (h.endEpoch_spec hpre hin _ _ .overflow).mono fun r hr => ?_
  subst hr
  obtain ⟨hbooks, hstake⟩ := h.ended hpre hin validatorReward stakerReward
  exact ⟨hbooks, hstake, rfl⟩

end

theorem skipEpoch : Books { s with epoch := s.epoch + 1 } where
  balance := h.balance
  nextEpochStake := h.nextEpochStake
  pending hpre := (pendingPrincipals_succ_le s.epoch s.staked).trans (h.pending hpre)
  settled := h.settled
  noRecord := h.noRecord
  supply := h.supply
  started x hx := Nat.le_succ_of_le (h.started x hx)
  history := h.history.mono (Nat.le_succ _)

theorem update (hpool : v.stakingPool = s.pool)
    (hstake : v.nextEpochStake = s.validator.nextEpochStake) : Books { s with validator := v } := by
  obtain ⟨_, _, _, _, stakingPool, _, nextEpochStake, _, _⟩ := v
  obtain rfl : stakingPool = s.pool := hpool
  obtain rfl : nextEpochStake = s.validator.nextEpochStake := hstake
  exact ⟨h.balance, h.nextEpochStake, h.pending, h.settled, h.noRecord, h.supply, h.started,
    h.history.congr rfl rfl⟩

/-- A pool is deactivated with nothing pending. -/
theorem deactivate (hzero : s.pool.pendingStake = 0) {epoch : Nat} {v : Validator}
    (hv : s.validator.deactivate epoch = .ok v) : Books { s with validator := v } := by
  obtain ⟨p, hp, hv⟩ := bind_eq_ok.mp hv
  obtain ⟨-, rfl⟩ := (deactivateStakingPool_sat epoch).ok hp
  cases hv
  exact ⟨h.balance, h.nextEpochStake, h.pending, fun _ => hzero, h.noRecord, h.supply, h.started,
    h.history.congr rfl rfl⟩

/-- A pool is activated when all its stake has started by then. -/
theorem activate {epoch activationEpoch : Nat} (hle : activationEpoch ≤ epoch)
    (hstarted : ∀ x ∈ s.staked, x.stakeActivationEpoch ≤ epoch) {v : Validator}
    (hv : s.validator.activate activationEpoch = .ok v) : Books { s with validator := v, epoch } := by
  obtain ⟨p, hp, hv⟩ := bind_eq_ok.mp hv
  obtain ⟨hpre, -, rfl⟩ := (activateStakingPool_sat activationEpoch).ok hp
  cases hv
  refine ⟨h.balance, h.nextEpochStake, fun _ => ?_, fun _ => h.settled (.inl hpre), h.noRecord,
    h.supply, fun x hx => Nat.le_succ_of_le (hstarted x hx),
    h.history.activate hpre hle rfl rfl⟩
  rw [pendingPrincipals_eq_zero hstarted]
  exact Nat.zero_le _

end

end Books

/-! ### Every run keeps the books -/

variable {maySkip : Ledger → Prop}

/-- The books of an empty pool. -/
theorem Books.new (metadata : ValidatorMetadata) (gasPrice commissionRate poolId capId epoch : Nat) :
    Books ⟨.newFromMetadata metadata gasPrice commissionRate poolId capId, epoch, 0, 0⟩ where
  balance := rfl
  nextEpochStake := rfl
  pending _ := le_rfl
  settled _ := rfl
  noRecord := rfl
  supply := rfl
  started x hx := absurd hx (notMem_zero x)
  history := .new ..

theorem Genesis.books (h : Genesis s) :
    s.Books ∧ s.pool.isPreactive = true ∧ s.pool.isInactive = false ∧ s.epoch = 0 ∧
      ∀ x ∈ s.staked, x.stakeActivationEpoch ≤ 0 := by
  induction h with
  | new metadata gasPrice commissionRate poolId capId =>
    exact ⟨.new .., rfl, rfl, rfl, fun x hx => absurd hx (notMem_zero x)⟩
  | @stake s amount x v h hv ih =>
    obtain ⟨hbooks, hpre, hin, hepoch, hstarted⟩ := ih
    cases (Validator.requestAddStakeAtGenesis_sat hbooks.noRecord hpre amount s.epoch).ok hv
    have hbooks' := hbooks.add hin rfl (x := ⟨s.pool.id, 0, amount⟩) (.inr ⟨hpre, Nat.zero_le _⟩)
    rw [Validator.added, added_of_preactive hpre] at hbooks' ⊢
    exact ⟨hbooks', hpre, hin, hepoch, forall_mem_cons.mpr ⟨le_rfl, hstarted⟩⟩

theorem Initial.books {s : Ledger} (h : Initial s) : s.Books := by
  cases h with
  | genesis h hv =>
    obtain ⟨hbooks, -, -, -, hstarted⟩ := h.books
    exact hbooks.activate (Nat.zero_le _) (fun x hx => (hstarted x hx).trans (Nat.zero_le _)) hv
  | candidate => exact .new ..

/-- A step keeps the books. -/
theorem Step.books {s s' : Ledger} (h : Step maySkip s s') (hs : s.Books) : s'.Books := by
  cases h with
  | addStake h => exact (hs.requestAddStake _).ok h
  | withdrawStake hx h => exact (hs.requestWithdrawStake hx).ok h
  | convert hx h => exact (hs.convertToFungibleStakedSui hx).ok h
  | redeem hy h => exact (hs.redeemFungibleStakedSui hy).ok h
  | split hx h => exact hs.split hx h
  | join hx h => exact hs.join hx h
  | splitFungible hx h => exact hs.splitFungible hx h
  | joinFungible hx h => exact hs.joinFungible hx h
  | removeCandidate hpre h => exact hs.deactivate (hs.settled (.inl hpre)) h
  | endEpoch hpre hin h => exact ((hs.endEpoch hpre hin _ _).ok h).1
  | depart hpre hin h hv =>
    obtain ⟨hbooks, -, hzero⟩ := (hs.endEpoch hpre hin _ _).ok h
    exact hbooks.deactivate hzero hv
  | activate h => exact hs.activate (Nat.le_succ _) hs.started h
  | skipEpoch _ => exact hs.skipEpoch
  | update hpool hstake => exact hs.update hpool hstake

theorem Reachable.books (h : Reachable maySkip s) : s.Books := by
  obtain ⟨s₀, hinitial, hrun⟩ := h
  induction hrun with
  | refl => exact hinitial.books
  | tail _ hstep ih => exact hstep.books ih

/-- **The counters of a pool agree with what is outstanding from it along every run**, and with
the stake its validator announces for the next epoch. No operation underflows, and the stake right
after the end of an epoch is the announced one. -/
theorem accounting {s : Ledger} (h : Reachable maySkip s) :
    ((s.pool.suiBalance + s.pool.pendingStake : Int) - s.pool.pendingTotalSuiWithdraw =
        principals s.staked + s.pool.fungiblePrincipal + s.pool.rewardsPool) ∧
    ((s.pool.suiBalance + s.pool.pendingStake : Int) - s.pool.pendingTotalSuiWithdraw =
        s.validator.nextEpochStake) ∧
    (∀ amount, s.validator.requestAddStake amount s.epoch ≠ .error .underflow) ∧
    (∀ x ∈ s.staked, s.validator.requestWithdrawStake x s.epoch ≠ .error .underflow) ∧
    (∀ x ∈ s.staked, s.validator.convertToFungibleStakedSui x s.epoch ≠ .error .underflow) ∧
    (∀ y ∈ s.fungible, s.validator.redeemFungibleStakedSui y s.epoch ≠ .error .underflow) ∧
    (s.pool.isPreactive = false → s.pool.isInactive = false → ∀ validatorReward stakerReward,
      s.validator.endEpoch validatorReward stakerReward s.epoch ≠ .error .underflow ∧
      ∀ x v, s.validator.endEpoch validatorReward stakerReward s.epoch = .ok (x, v) →
        v.totalStake = v.nextEpochStake) := by
  have hbooks := h.books
  have hbalance := hbooks.balance
  have hnext := hbooks.nextEpochStake
  simp only [held] at hbalance hnext
  refine ⟨by omega, by omega, fun amount hu => ?_, fun x hx hu => ?_, fun x hx hu => ?_,
    fun y hy hu => ?_, fun hpre hin a b => ⟨fun hu => ?_, fun x v hv => ?_⟩⟩
  · exact (hbooks.requestAddStake amount).error hu rfl
  · obtain ⟨rest, hrest⟩ := exists_cons_of_mem hx
    exact (hbooks.requestWithdrawStake hrest).error hu rfl
  · obtain ⟨rest, hrest⟩ := exists_cons_of_mem hx
    exact (hbooks.convertToFungibleStakedSui hrest).error hu rfl
  · obtain ⟨rest, hrest⟩ := exists_cons_of_mem hy
    exact (hbooks.redeemFungibleStakedSui hrest).error hu rfl
  · exact (hbooks.endEpoch hpre hin a b).error hu rfl
  · exact ((hbooks.endEpoch hpre hin a b).ok hv).2.1

/-! ### Runs on fixed amounts -/

/-- Some of the steps, as they are executed. -/
inductive Action
  | addStake (amount : Nat)
  | withdrawStake (x : StakedSui)
  | convert (x : StakedSui)
  | endEpoch (validatorReward stakerReward : Nat)
  | depart (validatorReward stakerReward : Nat)
  | skipEpoch

/-- The end of the epoch for an active validator. -/
def ending (s : Ledger) (validatorReward stakerReward : Nat) : Option (Option StakedSui × Validator) :=
  if s.pool.isPreactive = false ∧ s.pool.isInactive = false then
    (s.validator.endEpoch validatorReward stakerReward s.epoch).toOption
  else none

/-- The ledger after an action, if that is a step. -/
def perform (maySkip : Ledger → Prop) [DecidablePred maySkip] (s : Ledger) : Action → Option Ledger
  | .addStake amount =>
    (s.validator.requestAddStake amount s.epoch).toOption.map fun r =>
      { s with validator := r.2, staked := r.1 ::ₘ s.staked }
  | .withdrawStake x =>
    if x ∈ s.staked then
      (s.validator.requestWithdrawStake x s.epoch).toOption.map fun r =>
        { s with validator := r.2, staked := s.staked.erase x }
    else none
  | .convert x =>
    if x ∈ s.staked then
      (s.validator.convertToFungibleStakedSui x s.epoch).toOption.map fun r =>
        { s with validator := r.2, staked := s.staked.erase x, fungible := r.1 ::ₘ s.fungible }
    else none
  | .endEpoch validatorReward stakerReward =>
    (s.ending validatorReward stakerReward).map fun r =>
      { s with validator := r.2, epoch := s.epoch + 1, staked := s.stakedWith r.1 }
  | .depart validatorReward stakerReward =>
    (s.ending validatorReward stakerReward).bind fun r => (r.2.deactivate (s.epoch + 1)).toOption.map fun v =>
      { s with validator := v, epoch := s.epoch + 1, staked := s.stakedWith r.1 }
  | .skipEpoch => if maySkip s then some { s with epoch := s.epoch + 1 } else none

theorem step_of_perform [DecidablePred maySkip] (h : s.perform maySkip action = some s') : Step maySkip s s' := by
  cases action with
  | addStake amount =>
    obtain ⟨r, hr, rfl⟩ := Option.map_eq_some_iff.mp h
    exact .addStake (toOption_eq_some.mp hr)
  | withdrawStake x =>
    obtain ⟨hx, h⟩ := Option.ite_none_right_eq_some.mp h
    obtain ⟨r, hr, rfl⟩ := Option.map_eq_some_iff.mp h
    exact .withdrawStake (cons_erase hx).symm (toOption_eq_some.mp hr)
  | convert x =>
    obtain ⟨hx, h⟩ := Option.ite_none_right_eq_some.mp h
    obtain ⟨r, hr, rfl⟩ := Option.map_eq_some_iff.mp h
    exact .convert (cons_erase hx).symm (toOption_eq_some.mp hr)
  | endEpoch validatorReward stakerReward =>
    obtain ⟨r, hr, rfl⟩ := Option.map_eq_some_iff.mp h
    obtain ⟨hactive, hr⟩ := Option.ite_none_right_eq_some.mp hr
    exact .endEpoch hactive.1 hactive.2 (toOption_eq_some.mp hr)
  | depart validatorReward stakerReward =>
    obtain ⟨r, hr, h⟩ := Option.bind_eq_some_iff.mp h
    obtain ⟨hactive, hr⟩ := Option.ite_none_right_eq_some.mp hr
    obtain ⟨v, hv, rfl⟩ := Option.map_eq_some_iff.mp h
    exact .depart hactive.1 hactive.2 (toOption_eq_some.mp hr) (toOption_eq_some.mp hv)
  | skipEpoch =>
    obtain ⟨hskip, h⟩ := Option.ite_none_right_eq_some.mp h
    cases h
    exact .skipEpoch hskip

/-- The ledger of a validator with one stake from the genesis. -/
def genesisLedger (amount : Nat) : Option Ledger :=
  let validator := Validator.newFromMetadata ⟨1, [1], [2], [3], [4], [5], [6], [7], [8], [9], [10],
    [11], [12], none, none, none, none, none, none, none, none⟩ 1000 200 7 8
  (validator.requestAddStakeAtGenesis amount 0).toOption.bind fun r =>
    (r.2.activate 0).toOption.map fun v => ⟨v, 0, r.1 ::ₘ 0, 0⟩

/-- The ledger after the actions, from the genesis. -/
def play (maySkip : Ledger → Prop) [DecidablePred maySkip] (amount : Nat) (actions : List Action) :
    Option Ledger :=
  genesisLedger amount >>= actions.foldlM (perform maySkip)

theorem initial_of_genesisLedger (h : genesisLedger amount = some s) : Initial s := by
  obtain ⟨r, hr, h⟩ := Option.bind_eq_some_iff.mp h
  obtain ⟨v, hv, rfl⟩ := Option.map_eq_some_iff.mp h
  exact .genesis (.stake (.new ..) (toOption_eq_some.mp hr)) (toOption_eq_some.mp hv)

theorem run_of_foldlM {R : Ledger → Ledger → Prop} {f : Ledger → Action → Option Ledger} {actions : List Action}
    (hf : ∀ s action s', f s action = some s' → R s s') (h : actions.foldlM f s = some s') :
    Relation.ReflTransGen R s s' := by
  induction actions generalizing s with
  | nil =>
    cases h
    exact .refl
  | cons action rest ih =>
    rw [List.foldlM_cons] at h
    obtain ⟨s₁, hs₁, hrest⟩ := Option.bind_eq_some_iff.mp h
    exact .head (hf _ _ _ hs₁) (ih hrest)

theorem exists_of_play [DecidablePred maySkip] (h : (play maySkip amount actions).any p = true) :
    ∃ s, Reachable maySkip s ∧ p s = true := by
  cases hplay : play maySkip amount actions with
  | none =>
    rw [hplay] at h
    cases h
  | some s =>
    rw [hplay] at h
    obtain ⟨s₀, hs₀, hrun⟩ := Option.bind_eq_some_iff.mp hplay
    exact ⟨s, ⟨s₀, initial_of_genesisLedger hs₀, run_of_foldlM (fun _ _ _ h => step_of_perform h) hrun⟩, h⟩

/-- Stake of 100 at the genesis, 50 more in the first epoch, and a reward at its end. -/
theorem accounting_first_reward : ∃ s : Ledger, Reachable (fun _ => True) s ∧
    s.pool.suiBalance = 163 ∧
    (s.pool.suiBalance + s.pool.pendingStake : Int) - s.pool.pendingTotalSuiWithdraw =
      principals s.staked + s.pool.fungiblePrincipal + s.pool.rewardsPool := by
  have hrun : ((play (fun _ => True) 100 [.addStake 50, .endEpoch 3 10]).any fun s =>
      s.pool.suiBalance == 163) = true := by
    decide +kernel
  obtain ⟨s, hreach, hs⟩ := exists_of_play hrun
  exact ⟨s, hreach, beq_iff_eq.mp hs, (accounting hreach).1⟩

end Ledger
end Sui.SuiSystem
