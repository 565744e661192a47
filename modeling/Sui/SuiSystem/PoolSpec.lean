import Sui.SuiSystem.Rates
import Sui.SuiSystem.Validator

/-! What the operations of a staking pool and of its validator do.

For each operation one statement says what it returns, in terms of the pool before it,
and that it does not underflow. Operations that take part in the end of an
epoch are stated for any set of aborts that has their own. -/
namespace Sui.SuiSystem

open Sui.Lib Sui.Lib.Exec PoolTokenExchangeRate

/-- The abort is not an underflow. -/
def NoUnderflow (a : Abort SystemError) : Prop := a ≠ .underflow

namespace NoUnderflow

theorem overflow : NoUnderflow .overflow := nofun

theorem code (e : SystemError) : NoUnderflow (.code e) := nofun

end NoUnderflow

theorem ensure_sat [Decidable c] (e : SystemError) : Sat (ensure c e) (fun _ => c) NoUnderflow :=
  Sat.require fun _ => .code e

theorem add_sat (a b : Nat) : Sat (U64.add a b) (fun c => c = a + b ∧ a + b < 2 ^ 64) NoUnderflow :=
  U64.add_sat .overflow

theorem getTokenAmount_sat (rate : PoolTokenExchangeRate) (amount : Nat) :
    Sat (rate.getTokenAmount amount) (fun t => t = rate.tokens amount) NoUnderflow :=
  rate.getTokenAmount_spec .overflow amount

theorem getSuiAmount_sat (rate : PoolTokenExchangeRate) (amount : Nat) :
    Sat (rate.getSuiAmount amount) (fun s => s = rate.sui amount) NoUnderflow :=
  rate.getSuiAmount_spec .overflow amount

/-! ### Staked objects -/

namespace StakedSui
variable {x y z a b : StakedSui}

/-- Both parts of a split are of the pool of the whole, and start with it. -/
theorem split_spec (h : x.split amount = .ok (a, b)) :
    a.stakeActivationEpoch = x.stakeActivationEpoch ∧
      b.stakeActivationEpoch = x.stakeActivationEpoch ∧ a.principal + b.principal = x.principal ∧
      a.poolId = x.poolId ∧ b.poolId = x.poolId := by
  unfold split at h
  simp only [bind_eq_ok, ensure, require_eq_ok, U64.sub_eq_ok, U64.split_eq_ok, pure_eq_ok, Prod.mk.injEq] at h
  obtain ⟨-, hle, -, -, -, -, -, -, p, ⟨rfl, -⟩, rfl, rfl⟩ := h
  exact ⟨rfl, rfl, Nat.sub_add_cancel hle, rfl, rfl⟩

theorem join_spec (h : x.join y = .ok z) :
    y.stakeActivationEpoch = x.stakeActivationEpoch ∧
      z.stakeActivationEpoch = x.stakeActivationEpoch ∧ z.principal = x.principal + y.principal ∧
      y.poolId = x.poolId ∧ z.poolId = x.poolId := by
  unfold join at h
  simp only [bind_eq_ok, ensure, require_eq_ok, U64.add_eq_ok, pure_eq_ok] at h
  obtain ⟨-, ⟨hpool, hact⟩, p, ⟨rfl, -⟩, rfl⟩ := h
  exact ⟨hact.symm, rfl, rfl, hpool.symm, rfl⟩

end StakedSui

namespace FungibleStakedSui
variable {x y z a b : FungibleStakedSui}

theorem split_spec (h : x.split amount = .ok (a, b)) :
    a.value + b.value = x.value ∧ a.poolId = x.poolId ∧ b.poolId = x.poolId := by
  unfold split at h
  simp only [bind_eq_ok, ensure, require_eq_ok, U64.sub_eq_ok, pure_eq_ok, Prod.mk.injEq] at h
  obtain ⟨-, hle, p, ⟨rfl, -⟩, rfl, rfl⟩ := h
  exact ⟨Nat.sub_add_cancel hle, rfl, rfl⟩

theorem join_spec (h : x.join y = .ok z) :
    z.value = x.value + y.value ∧ y.poolId = x.poolId ∧ z.poolId = x.poolId := by
  unfold join at h
  simp only [bind_eq_ok, ensure, require_eq_ok, U64.add_eq_ok, pure_eq_ok] at h
  obtain ⟨-, hpool, p, ⟨rfl, -⟩, rfl⟩ := h
  exact ⟨rfl, hpool.symm, rfl⟩

end FungibleStakedSui

/-! ### What the operations of a pool do -/

namespace StakingPool
variable {pool : StakingPool}

/-- The pool after its pending stake is processed. -/
def stakeProcessed (pool : StakingPool) : StakingPool :=
  { pool with
    suiBalance := pool.suiBalance + pool.pendingStake - pool.underflowSuiBalance.getD 0
    poolTokenBalance := PoolTokenExchangeRate.tokens ⟨pool.suiBalance, pool.poolTokenBalance⟩
      (pool.suiBalance + pool.pendingStake - pool.underflowSuiBalance.getD 0)
    pendingStake := 0
    underflowSuiBalance := none }

theorem processPendingStake_sat (hover : E .overflow)
    (h : pool.underflowSuiBalance.getD 0 ≤ pool.suiBalance + pool.pendingStake) :
    Sat pool.processPendingStake (fun p => p = pool.stakeProcessed) E := by
  refine (U64.add_sat hover).bind_eq_and fun _ => ?_
  refine (U64.sub_sat h).bind_eq ?_
  refine (getTokenAmount_spec _ hover _).bind_eq ?_
  exact rfl

/-- The pool with stake that waits for the end of the epoch. -/
def waiting (pool : StakingPool) (amount : Nat) : StakingPool :=
  { pool with pendingStake := pool.pendingStake + amount }

theorem process_waiting_sat (hover : E .overflow) (h : pool.underflowSuiBalance = none) (amount : Nat) :
    Sat (pool.waiting amount).processPendingStake (fun p => p = (pool.waiting amount).stakeProcessed) E :=
  processPendingStake_sat hover (by simp [waiting, h])

theorem requestAddStake_sat (hover : E .overflow) (stake activationEpoch : Nat)
    (hcode : ¬(pool.isInactive = false ∧ 0 < stake) → ∀ e, E (.code e)) :
    Sat (pool.requestAddStake stake activationEpoch)
      (fun r => r = (⟨pool.id, activationEpoch, stake⟩, pool.waiting stake) ∧ pool.isInactive = false) E := by
  refine (Sat.require fun h => hcode (fun hs => h hs.1) _).bind fun _ hinactive => ?_
  refine (Sat.require fun h => hcode (fun hs => h hs.2) _).bind fun _ _ => ?_
  refine (U64.add_sat hover).bind_eq_and fun _ => ?_
  exact ⟨rfl, hinactive⟩

/-- The pool with new stake, which a preactive pool processes right away. -/
def added (pool : StakingPool) (amount : Nat) : StakingPool :=
  if pool.isPreactive then (pool.waiting amount).stakeProcessed else pool.waiting amount

theorem added_of_preactive (h : pool.isPreactive = true) :
    pool.added amount = (pool.waiting amount).stakeProcessed :=
  if_pos h

theorem added_of_active (h : pool.isPreactive = false) : pool.added amount = pool.waiting amount :=
  if_neg (by rw [h]; decide)

/-- The pool after its pending withdrawals are processed. -/
def withdrawn (pool : StakingPool) : StakingPool :=
  { pool with
    suiBalance := pool.suiBalance - pool.pendingTotalSuiWithdraw
    poolTokenBalance := pool.poolTokenBalance - pool.pendingPoolTokenWithdraw
    pendingTotalSuiWithdraw := 0
    pendingPoolTokenWithdraw := 0
    underflowSuiBalance :=
      if pool.pendingTotalSuiWithdraw ≤ pool.suiBalance ∨ pool.isInactive then none
      else some (pool.pendingTotalSuiWithdraw - pool.suiBalance) }

theorem processPendingStakeWithdraw_eq (h : pool.underflowSuiBalance = none) :
    pool.processPendingStakeWithdraw = .ok pool.withdrawn := by
  unfold processPendingStakeWithdraw withdrawn
  by_cases hle : pool.pendingTotalSuiWithdraw ≤ pool.suiBalance
  · simp [hle, h, pure, Except.pure, bind, Except.bind]
  · have hzero : pool.suiBalance - pool.pendingTotalSuiWithdraw = 0 := by omega
    cases hi : pool.isInactive <;> simp [hle, h, hzero, pure, Except.pure, bind, Except.bind, require]

theorem withdrawRewards_sat (h : pool.Activated) (principal tokens epoch : Nat) :
    Sat (pool.withdrawRewards principal tokens epoch)
      (fun r => ∃ rate, pool.poolTokenExchangeRateAtEpoch epoch = .ok rate ∧
        r = (min (rate.sui tokens - principal) pool.rewardsPool,
          { pool with rewardsPool :=
              pool.rewardsPool - min (rate.sui tokens - principal) pool.rewardsPool }))
      NoUnderflow := by
  refine (h.lookup_sat epoch).bind fun rate hrate => ?_
  refine (getSuiAmount_sat ..).bind_eq ?_
  have hif : (if principal ≤ rate.sui tokens then rate.sui tokens - principal else 0) =
      rate.sui tokens - principal := by
    split <;> omega
  rw [hif]
  refine (U64.split_sat fun h => absurd (Nat.min_le_right ..) h).bind_eq_and fun _ => ?_
  exact ⟨rate, hrate, rfl⟩

/-- The pool after a withdrawal, which is processed at once unless the pool is active. -/
def settled (pool : StakingPool) : StakingPool :=
  if pool.isInactive ∨ pool.isPreactive then pool.withdrawn else pool

/-- A withdrawal that goes through the pool: the tokens of the principal are returned, and
rewards are paid for them at the rate of the epoch. -/
def Withdraws (pool : StakingPool) (x : StakedSui) (epoch paid : Nat) (p : StakingPool) : Prop :=
  ∃ old now, pool.poolTokenExchangeRateAtEpoch x.stakeActivationEpoch = .ok old ∧
    pool.poolTokenExchangeRateAtEpoch epoch = .ok now ∧
    paid = x.principal + min (now.sui (old.tokens x.principal) - x.principal) pool.rewardsPool ∧
    p = { pool with
      rewardsPool := pool.rewardsPool -
        min (now.sui (old.tokens x.principal) - x.principal) pool.rewardsPool
      pendingTotalSuiWithdraw := pool.pendingTotalSuiWithdraw + paid
      pendingPoolTokenWithdraw := pool.pendingPoolTokenWithdraw + old.tokens x.principal }

/-- Stake that is not active yet leaves the pending stake, except in a preactive pool. -/
def Direct (pool : StakingPool) (x : StakedSui) (epoch : Nat) : Prop :=
  epoch < x.stakeActivationEpoch ∧ pool.isPreactive = false

theorem requestWithdrawStake_sat (h : pool.Activated) (hnone : pool.underflowSuiBalance = none)
    (x : StakedSui) (epoch : Nat) (hpending : pool.Direct x epoch → x.principal ≤ pool.pendingStake) :
    Sat (pool.requestWithdrawStake x epoch)
      (fun r =>
        (pool.Direct x epoch ∧
          r = (x.principal, { pool with pendingStake := pool.pendingStake - x.principal })) ∨
        (¬pool.Direct x epoch ∧ ∃ p, pool.Withdraws x epoch r.1 p ∧ r.2 = p.settled)) NoUnderflow := by
  unfold requestWithdrawStake
  split
  · rename_i hdirect
    refine (U64.sub_sat (hpending hdirect)).bind_eq ?_
    exact .inl ⟨hdirect, rfl⟩
  · rename_i hpool
    unfold withdrawFromPrincipal
    simp only [bind_assoc, pure_bind]
    refine (ensure_sat _).bind fun _ _ => ?_
    refine (h.lookup_sat _).bind fun old hold => ?_
    refine (getTokenAmount_sat ..).bind_eq ?_
    refine (withdrawRewards_sat h ..).bind fun r hr => ?_
    obtain ⟨now, hnow, rfl⟩ := hr
    refine (add_sat ..).bind_eq_and fun _ => ?_
    refine (add_sat ..).bind_eq_and fun _ => ?_
    refine (add_sat ..).bind_eq_and fun _ => ?_
    split
    · rename_i hs
      rw [bind_ok (processPendingStakeWithdraw_eq (by exact hnone))]
      exact .inr ⟨hpool, _, ⟨old, now, hold, hnow, rfl, rfl⟩, (if_pos hs).symm⟩
    · rename_i hs
      exact .inr ⟨hpool, _, ⟨old, now, hold, hnow, rfl, rfl⟩, (if_neg hs).symm⟩

def fungiblePrincipal (pool : StakingPool) : Nat := (pool.fungibleStakedSuiData.map (·.principal)).getD 0

def fungibleSupply (pool : StakingPool) : Nat := (pool.fungibleStakedSuiData.map (·.totalSupply)).getD 0

theorem calculateFungibleStakedSuiWithdrawAmount_sat (rate : PoolTokenExchangeRate)
    (value principal totalSupply : Nat) :
    Sat (calculateFungibleStakedSuiWithdrawAmount rate value principal totalSupply)
      (fun r => r.1 + r.2 ≤ rate.sui value ∧
        r.1 = value * min principal (rate.sui totalSupply) / totalSupply) NoUnderflow := by
  refine (getSuiAmount_sat ..).bind_eq ?_
  refine (U64.sub_sat (Nat.min_le_right ..)).bind fun _ _ => ?_
  refine (U64.mulDiv_sat (fun _ => nofun) .overflow).bind fun _ hp => ?_
  refine (U64.mulDiv_sat (fun _ => nofun) .overflow).bind fun _ _ => ?_
  refine (getSuiAmount_sat ..).bind fun _ hexpected => ?_
  refine (add_sat ..).bind fun _ hsum => ?_
  refine (ensure_sat _).bind fun _ hle => ?_
  rw [hexpected, hsum.1] at hle
  exact ⟨hle, hp.1⟩

/-- A part of the supply takes less than all of the principal. -/
theorem share_lt (hv : value < supply) (hp : 0 < principal) :
    value * min principal total / supply < principal := by
  rcases Nat.eq_zero_or_pos (min principal total) with h | h
  · rw [h, Nat.mul_zero, Nat.zero_div]
    exact hp
  · calc value * min principal total / supply
        < min principal total := Nat.div_lt_of_lt_mul (Nat.mul_lt_mul_of_pos_right hv h)
      _ ≤ principal := Nat.min_le_left ..

/-- A redemption pays out of the principal and of the rewards, at most what the rate gives. -/
def Redeems (pool : StakingPool) (y : FungibleStakedSui) (epoch paid : Nat) (p : StakingPool) :
    Prop :=
  ∃ now fromPrincipal fromRewards, pool.poolTokenExchangeRateAtEpoch epoch = .ok now ∧
    pool.fungibleStakedSuiData ≠ none ∧
    fromPrincipal ≤ pool.fungiblePrincipal ∧ fromRewards ≤ pool.rewardsPool ∧
    (y.value < pool.fungibleSupply → 0 < pool.fungiblePrincipal →
      fromPrincipal < pool.fungiblePrincipal) ∧
    paid = fromPrincipal + fromRewards ∧ paid ≤ now.sui y.value ∧
    p = { pool with
      fungibleStakedSuiData :=
        some ⟨pool.fungibleSupply - y.value, pool.fungiblePrincipal - fromPrincipal⟩
      rewardsPool := pool.rewardsPool - fromRewards
      pendingTotalSuiWithdraw := pool.pendingTotalSuiWithdraw + paid
      pendingPoolTokenWithdraw := pool.pendingPoolTokenWithdraw + y.value }

theorem redeemFungibleStakedSui_sat (h : pool.Activated) (y : FungibleStakedSui) (epoch : Nat)
    (hy : y.value ≤ pool.fungibleSupply) :
    Sat (pool.redeemFungibleStakedSui y epoch) (fun r => pool.Redeems y epoch r.1 r.2)
      NoUnderflow := by
  refine (ensure_sat _).bind fun _ _ => ?_
  refine (h.lookup_sat _).bind fun now hnow => ?_
  refine (Sat.unwrap (fun _ => nofun)).bind fun data hdata => ?_
  have hsupply : pool.fungibleSupply = data.totalSupply := by simp [fungibleSupply, hdata]
  have hprincipal : pool.fungiblePrincipal = data.principal := by simp [fungiblePrincipal, hdata]
  refine (calculateFungibleStakedSuiWithdrawAmount_sat ..).bind fun amounts hamounts => ?_
  rw [hsupply] at hy
  refine (U64.sub_sat hy).bind_eq ?_
  refine (U64.split_sat (fun _ => nofun)).bind_eq_and fun hp => ?_
  refine (U64.split_sat (fun _ => nofun)).bind_eq_and fun hr => ?_
  refine (add_sat ..).bind_eq_and fun _ => ?_
  refine (add_sat ..).bind_eq_and fun _ => ?_
  refine (add_sat ..).bind_eq_and fun _ => ?_
  refine ⟨now, amounts.1, amounts.2, hnow, by simp [hdata], hprincipal ▸ hp, hr, fun hlt hpos => ?_, rfl,
    hamounts.1, by rw [hsupply, hprincipal]⟩
  rw [hamounts.2]
  rw [hprincipal] at hpos ⊢
  exact share_lt (hsupply ▸ hlt) hpos

/-- A conversion moves the principal to the pool and issues its tokens. -/
def Converts (pool : StakingPool) (x : StakedSui) (epoch : Nat) (y : FungibleStakedSui)
    (p : StakingPool) : Prop :=
  x.stakeActivationEpoch ≤ epoch ∧ pool.isPreactive = false ∧ pool.isInactive = false ∧
  ∃ old, pool.poolTokenExchangeRateAtEpoch x.stakeActivationEpoch = .ok old ∧
    0 < old.tokens x.principal ∧
    y = ⟨x.poolId, old.tokens x.principal⟩ ∧
    p = { pool with
      fungibleStakedSuiData := some ⟨pool.fungibleSupply + old.tokens x.principal,
        pool.fungiblePrincipal + x.principal⟩ }

theorem convertToFungibleStakedSui_sat (h : pool.Activated) (x : StakedSui) (epoch : Nat) :
    Sat (pool.convertToFungibleStakedSui x epoch) (fun r => pool.Converts x epoch r.1 r.2)
      NoUnderflow := by
  refine (ensure_sat _).bind fun _ _ => ?_
  refine (ensure_sat _).bind fun _ hepoch => ?_
  refine (ensure_sat _).bind fun _ hactive => ?_
  refine (h.lookup_sat _).bind fun old hold => ?_
  refine (getTokenAmount_sat ..).bind_eq ?_
  refine (ensure_sat _).bind fun _ hpos => ?_
  cases hdata : pool.fungibleStakedSuiData with
  | none =>
    refine ⟨hepoch, hactive.1, hactive.2, old, hold, hpos, rfl, ?_⟩
    simp [fungibleSupply, fungiblePrincipal, hdata]
  | some data =>
    refine (add_sat ..).bind_eq_and fun _ => ?_
    refine (add_sat ..).bind_eq_and fun _ => ?_
    refine ⟨hepoch, hactive.1, hactive.2, old, hold, hpos, rfl, ?_⟩
    simp [fungibleSupply, fungiblePrincipal, hdata]

/-- The tokens after the pending stake is processed. -/
def nextTokens (pool : StakingPool) : Nat :=
  PoolTokenExchangeRate.tokens
    ⟨pool.suiBalance - pool.pendingTotalSuiWithdraw,
      pool.poolTokenBalance - pool.pendingPoolTokenWithdraw⟩
    (pool.suiBalance + pool.pendingStake - pool.pendingTotalSuiWithdraw)

/-- An active pool after its pending stakes and withdrawals are processed. -/
def processed (pool : StakingPool) (epoch : Nat) : StakingPool :=
  { pool with
    suiBalance := pool.suiBalance + pool.pendingStake - pool.pendingTotalSuiWithdraw
    poolTokenBalance := pool.nextTokens
    pendingStake := 0
    pendingTotalSuiWithdraw := 0
    pendingPoolTokenWithdraw := 0
    exchangeRates := pool.exchangeRates.insert (epoch + 1)
      ⟨pool.suiBalance + pool.pendingStake - pool.pendingTotalSuiWithdraw, pool.nextTokens⟩
    underflowSuiBalance := none }

/-- What the balance misses of the withdrawals is recorded, and taken from the pending stake. -/
theorem withdrawn_balance (hactive : pool.isInactive = false)
    (h : pool.pendingTotalSuiWithdraw ≤ pool.suiBalance + pool.pendingStake) :
    pool.withdrawn.underflowSuiBalance.getD 0 ≤
        pool.withdrawn.suiBalance + pool.withdrawn.pendingStake ∧
      pool.withdrawn.suiBalance + pool.withdrawn.pendingStake -
          pool.withdrawn.underflowSuiBalance.getD 0 =
        pool.suiBalance + pool.pendingStake - pool.pendingTotalSuiWithdraw := by
  by_cases hle : pool.pendingTotalSuiWithdraw ≤ pool.suiBalance
  · simp [withdrawn, hle]
    omega
  · simp [withdrawn, hle, hactive]
    omega

theorem nextTokens_eq_zero_iff :
    pool.nextTokens = 0 ↔ pool.suiBalance + pool.pendingStake - pool.pendingTotalSuiWithdraw = 0 := by
  unfold nextTokens
  by_cases hle : pool.pendingTotalSuiWithdraw ≤ pool.suiBalance
  · have hsum : pool.suiBalance + pool.pendingStake - pool.pendingTotalSuiWithdraw =
        pool.suiBalance - pool.pendingTotalSuiWithdraw + pool.pendingStake := by omega
    rw [hsum]
    exact tokens_grow_eq_zero_iff _
  · have hzero : pool.suiBalance - pool.pendingTotalSuiWithdraw = 0 := by omega
    rw [tokens_of_isUnit _ (.inl hzero)]

variable {epoch : Nat}

/-- The check finds the rate that was just added. Its tokens are zero only when its SUI is, so
that it gives back the tokens it was made from. -/
theorem checkBalanceInvariants_sat (hover : E .overflow) (h : pool.History epoch)
    (hpre : pool.isPreactive = false) (hin : pool.isInactive = false) :
    Sat ((pool.processed epoch).checkBalanceInvariants (epoch + 1)) (fun _ => True) E := by
  obtain ⟨a, ha⟩ : ∃ a, pool.activationEpoch = some a :=
    Option.isSome_iff_exists.mp (Option.isNone_eq_false_iff.mp hpre)
  have hlookup := rateAt_insert_self (p := pool.processed epoch) ((h.begun ha).trans (Nat.le_succ _)) ha hin rfl
  unfold checkBalanceInvariants
  rw [bind_ok hlookup]
  refine (getTokenAmount_spec _ hover _).bind_eq ?_
  refine (Sat.require fun hne => ?_).mono fun _ _ => trivial
  refine absurd ?_ hne
  have hiff := pool.nextTokens_eq_zero_iff
  unfold tokens
  split
  · rename_i hunit
    rcases hunit with hs | ht
    · exact hs.trans (hiff.mpr hs).symm
    · exact (hiff.mp ht).trans ht.symm
  · rename_i hunit
    exact Nat.mul_div_cancel _ (Nat.pos_of_ne_zero fun hs => hunit (.inl hs))

theorem processPendingStakesAndWithdraws_sat (hover : E .overflow) (h : pool.History epoch)
    (hpre : pool.isPreactive = false) (hin : pool.isInactive = false) (hnone : pool.underflowSuiBalance = none)
    (hle : pool.pendingTotalSuiWithdraw ≤ pool.suiBalance + pool.pendingStake) :
    Sat (pool.processPendingStakesAndWithdraws epoch) (fun p => p = pool.processed epoch) E := by
  obtain ⟨hrecord, hbalance⟩ := withdrawn_balance hin hle
  refine (U64.add_sat hover).bind_eq_and fun _ => ?_
  rw [bind_ok (processPendingStakeWithdraw_eq hnone)]
  refine (processPendingStake_sat hover hrecord).bind fun p hp => ?_
  unfold stakeProcessed at hp
  rw [hbalance] at hp
  have hnew : epoch + 1 ∉ p.exchangeRates := by
    rw [hp]
    exact h.next_not_mem
  have heq : { p with
      exchangeRates := p.exchangeRates.insert (epoch + 1) ⟨p.suiBalance, p.poolTokenBalance⟩ } =
      pool.processed epoch := by
    rw [hp]
    rfl
  rw [addExchangeRate, bind_require hnew, pure_bind, heq]
  exact (checkBalanceInvariants_sat hover h hpre hin).bind fun _ _ => rfl

theorem deactivateStakingPool_sat (epoch : Nat) :
    Sat (pool.deactivateStakingPool epoch)
      (fun p => pool.isInactive = false ∧ p = { pool with deactivationEpoch := some epoch })
      NoUnderflow := by
  refine (ensure_sat _).bind fun _ h => ?_
  exact ⟨h, rfl⟩

theorem activateStakingPool_sat (epoch : Nat) :
    Sat (pool.activateStakingPool epoch)
      (fun p => pool.isPreactive = true ∧ pool.isInactive = false ∧
        p = { pool with
          activationEpoch := some epoch
          exchangeRates := pool.exchangeRates.insert epoch .initial }) NoUnderflow := by
  unfold activateStakingPool addExchangeRate
  simp only [bind_assoc, pure_bind]
  refine (Sat.require fun _ => nofun).bind fun _ _ => ?_
  refine (ensure_sat _).bind fun _ hpre => ?_
  refine (ensure_sat _).bind fun _ hin => ?_
  exact ⟨hpre, hin, rfl⟩

end StakingPool

/-! ### What the operations of a validator do -/

namespace Validator
variable {v : Validator}

/-- A validator with more stake. -/
abbrev added (v : Validator) (amount : Nat) : Validator :=
  { v with
    stakingPool := v.stakingPool.added amount
    nextEpochStake := v.nextEpochStake + amount }

/-- A validator whose pool has paid out stake. -/
abbrev paid (v : Validator) (stakingPool : StakingPool) (amount : Nat) : Validator :=
  { v with stakingPool, nextEpochStake := v.nextEpochStake - amount }

theorem requestAddStake_sat (hover : E .overflow)
    (hnone : v.stakingPool.underflowSuiBalance = none) (amount epoch : Nat)
    (hcode : ¬(v.stakingPool.isInactive = false ∧ 0 < amount) → ∀ e, E (.code e)) :
    Sat (v.requestAddStake amount epoch)
      (fun r => v.stakingPool.isInactive = false ∧
        r = (⟨v.stakingPool.id, epoch + 1, amount⟩, v.added amount)) E := by
  refine (Sat.require fun h => hcode (fun hs => h hs.2) _).bind fun _ _ => ?_
  refine (U64.add_sat hover).bind_eq_and fun _ => ?_
  refine (StakingPool.requestAddStake_sat hover _ _ hcode).bind_eq_and fun hin => ?_
  dsimp only
  have hpre : (v.stakingPool.waiting amount).isPreactive = v.stakingPool.isPreactive := rfl
  rw [hpre]
  split
  · rename_i h
    refine (StakingPool.process_waiting_sat hover hnone amount).bind fun p hp => ?_
    refine (U64.add_sat hover).bind_eq_and fun _ => ?_
    rw [hp, added, StakingPool.added_of_preactive h]
    exact ⟨hin, rfl⟩
  · rename_i h
    rw [pure_bind]
    refine (U64.add_sat hover).bind_eq_and fun _ => ?_
    rw [added, StakingPool.added, if_neg h]
    exact ⟨hin, rfl⟩

theorem requestAddStakeAtGenesis_sat (hnone : v.stakingPool.underflowSuiBalance = none)
    (hpre : v.stakingPool.isPreactive = true) (amount epoch : Nat) :
    Sat (v.requestAddStakeAtGenesis amount epoch)
      (fun r => r = (⟨v.stakingPool.id, 0, amount⟩, v.added amount)) NoUnderflow := by
  refine (ensure_sat _).bind fun _ _ => ?_
  refine (ensure_sat _).bind fun _ _ => ?_
  refine (StakingPool.requestAddStake_sat .overflow _ _ fun _ => .code).bind_eq_and fun _ => ?_
  refine (StakingPool.process_waiting_sat .overflow hnone amount).bind fun p hp => ?_
  refine (add_sat ..).bind_eq_and fun _ => ?_
  rw [hp, added, StakingPool.added_of_preactive hpre]
  exact rfl

theorem convertToFungibleStakedSui_sat (h : v.stakingPool.Activated) (x : StakedSui) (epoch : Nat) :
    Sat (v.convertToFungibleStakedSui x epoch)
      (fun r => ∃ p, v.stakingPool.Converts x epoch r.1 p ∧ r.2 = { v with stakingPool := p })
      NoUnderflow := by
  refine (StakingPool.convertToFungibleStakedSui_sat h ..).bind fun r hr => ?_
  exact ⟨r.2, hr, rfl⟩

theorem depositStakeRewards_sat (hover : E .overflow) (reward : Nat) :
    Sat (v.depositStakeRewards reward)
      (fun w => w = { v with
        stakingPool := { v.stakingPool with
          suiBalance := v.stakingPool.suiBalance + reward
          rewardsPool := v.stakingPool.rewardsPool + reward }
        nextEpochStake := v.nextEpochStake + reward }) E := by
  simp only [depositStakeRewards, StakingPool.depositRewards, bind_assoc, pure_bind]
  refine (U64.add_sat hover).bind_eq_and fun _ => ?_
  refine (U64.add_sat hover).bind_eq_and fun _ => ?_
  refine (U64.add_sat hover).bind_eq_and fun _ => ?_
  exact rfl

/-- An active validator with both parts of its reward. -/
def rewarded (v : Validator) (validatorReward stakerReward : Nat) : Validator :=
  { v with
    stakingPool := { v.stakingPool with
      pendingStake := v.stakingPool.pendingStake + validatorReward
      suiBalance := v.stakingPool.suiBalance + stakerReward
      rewardsPool := v.stakingPool.rewardsPool + stakerReward }
    nextEpochStake := v.nextEpochStake + validatorReward + stakerReward }

/-- The stake an active validator's own reward buys. -/
def rewardsStake (v : Validator) (validatorReward epoch : Nat) : Option StakedSui :=
  if 0 < validatorReward then some ⟨v.stakingPool.id, epoch + 1, validatorReward⟩ else none

theorem distributeReward_sat (hover : E .overflow) (hnone : v.stakingPool.underflowSuiBalance = none)
    (hpre : v.stakingPool.isPreactive = false) (hin : v.stakingPool.isInactive = false)
    (validatorReward stakerReward epoch : Nat) :
    Sat (v.distributeReward validatorReward stakerReward epoch)
      (fun r => r = (v.rewardsStake validatorReward epoch, v.rewarded validatorReward stakerReward)) E := by
  unfold distributeReward rewardsStake
  split
  · rename_i hpos
    refine (requestAddStake_sat hover hnone _ _ fun h => absurd ⟨hin, hpos⟩ h).bind fun r hr => ?_
    obtain ⟨-, rfl⟩ := hr
    refine (depositStakeRewards_sat hover _).bind fun w hw => ?_
    rw [hw, added, StakingPool.added_of_active hpre]
    exact rfl
  · rename_i h
    obtain rfl : validatorReward = 0 := by omega
    refine (depositStakeRewards_sat hover _).bind fun w hw => ?_
    rw [hw]
    exact rfl

/-- An active validator at the end of its epoch. -/
def ended (v : Validator) (validatorReward stakerReward epoch : Nat) : Validator :=
  let w := (v.rewarded validatorReward stakerReward).adjustStakeAndGasPrice
  { w with stakingPool := w.stakingPool.processed epoch }

/-- The end of an epoch succeeds for an active validator, up to overflows. -/
theorem endEpoch_sat (hover : E .overflow) (h : v.stakingPool.History epoch)
    (hpre : v.stakingPool.isPreactive = false) (hin : v.stakingPool.isInactive = false)
    (hnone : v.stakingPool.underflowSuiBalance = none) (hbalance : v.stakingPool.pendingTotalSuiWithdraw ≤
      v.stakingPool.suiBalance + v.stakingPool.pendingStake) (validatorReward stakerReward : Nat) :
    Sat (v.endEpoch validatorReward stakerReward epoch)
      (fun r => r = (v.rewardsStake validatorReward epoch, v.ended validatorReward stakerReward epoch)) E := by
  refine (distributeReward_sat hover hnone hpre hin ..).bind_eq ?_
  simp only [processPendingStakesAndWithdraws, bind_assoc, pure_bind]
  have hhistory : (v.rewarded validatorReward stakerReward).adjustStakeAndGasPrice.stakingPool.History
      epoch := h.congr rfl rfl
  refine (StakingPool.processPendingStakesAndWithdraws_sat hover hhistory hpre hin hnone ?_).bind fun p hp => ?_
  · show v.stakingPool.pendingTotalSuiWithdraw ≤
      v.stakingPool.suiBalance + stakerReward + (v.stakingPool.pendingStake + validatorReward)
    omega
  · subst hp
    exact rfl

end Validator

end Sui.SuiSystem
