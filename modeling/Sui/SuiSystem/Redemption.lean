import Sui.SuiSystem.Tokens

/-! Redeeming fungible stake.

A redemption computes what the whole supply is worth and pays the part that is redeemed out of the
principal and out of the rewards. Each of them rounds down, so that at most two MIST are lost
(`redemption_within_two`).

The rewards pool holds what earlier withdrawals left, which need not be enough (`redeem_fails`): stake
that is worth less than its principal, by rounding, leaves with its principal. As long as no stake is
(`Solid`), what leaves is paid no more than its tokens are worth, and the rest is worth no more than
what is left (`Secured`), so that fungible stake can be redeemed (`redeem_succeeds`). -/
namespace Sui.SuiSystem

open Sui.Lib Exec StakingPool

namespace PoolTokenExchangeRate
variable {rate : PoolTokenExchangeRate} {value principal supply : Nat}

/-- What a part of the supply takes from the principal. -/
def principalShare (rate : PoolTokenExchangeRate) (value principal supply : Nat) : Nat :=
  value * min principal (rate.sui supply) / supply

/-- What it takes from the rewards. -/
def rewardsShare (rate : PoolTokenExchangeRate) (value principal supply : Nat) : Nat :=
  value * (rate.sui supply - min principal (rate.sui supply)) / supply

/-- The part of what the supply is worth is worth no more than the part. -/
theorem sui_scale_le (hpos : 0 < supply) : value * rate.sui supply / supply ≤ rate.sui value := by
  unfold sui
  split
  · rw [Nat.mul_div_cancel _ hpos]
  · rename_i hunit
    have htokens : 0 < rate.poolTokenAmount := Nat.pos_of_ne_zero fun h => hunit (.inr h)
    rw [Nat.le_div_iff_mul_le htokens]
    refine Nat.le_of_mul_le_mul_right ?_ hpos
    have hpart := Nat.div_mul_le_self (value * (rate.suiAmount * supply / rate.poolTokenAmount)) supply
    have hwhole := Nat.div_mul_le_self (rate.suiAmount * supply) rate.poolTokenAmount
    nlinarith

/-- It is worth at most one less. -/
theorem le_sui_scale (hpos : 0 < supply) (hle : value ≤ supply) :
    rate.sui value ≤ value * rate.sui supply / supply + 1 := by
  unfold sui
  split
  · rw [Nat.mul_div_cancel _ hpos]
    exact Nat.le_succ _
  · rename_i hunit
    have htokens : 0 < rate.poolTokenAmount := Nat.pos_of_ne_zero fun h => hunit (.inr h)
    rw [← Nat.lt_succ_iff, Nat.div_lt_iff_lt_mul htokens]
    have hpart := Nat.lt_div_mul_add (a := value * (rate.suiAmount * supply / rate.poolTokenAmount)) hpos
    have hwhole := Nat.lt_div_mul_add (a := rate.suiAmount * supply) htokens
    refine Nat.lt_of_mul_lt_mul_right (a := supply) ?_
    nlinarith

theorem sui_mono (rate : PoolTokenExchangeRate) (h : a ≤ b) : rate.sui a ≤ rate.sui b := by
  obtain ⟨c, rfl⟩ := Nat.exists_eq_add_of_le h
  exact (Nat.le_add_right ..).trans (rate.sui_add_le a c)

theorem rewards_add_principal (rate : PoolTokenExchangeRate) (principal supply : Nat) :
    rate.sui supply - min principal (rate.sui supply) + min principal (rate.sui supply) =
      rate.sui supply := Nat.sub_add_cancel (Nat.min_le_right ..)

theorem shares_le (hpos : 0 < supply) :
    rate.principalShare value principal supply + rate.rewardsShare value principal supply ≤ rate.sui value := by
  refine (Nat.div_add_div_le_add_div ..).trans ?_
  rw [← Nat.mul_add, Nat.add_comm, rewards_add_principal]
  exact sui_scale_le hpos

theorem le_shares (hpos : 0 < supply) (hle : value ≤ supply) :
    rate.sui value ≤ rate.principalShare value principal supply +
      rate.rewardsShare value principal supply + 2 := by
  have hscale : rate.sui value ≤ _ := le_sui_scale hpos hle
  -- the two parts are rounded apart
  rw [← rewards_add_principal rate principal supply, Nat.mul_add, Nat.add_div hpos] at hscale
  unfold principalShare rewardsShare
  split at hscale <;> omega

theorem principalShare_le (hle : value ≤ supply) :
    rate.principalShare value principal supply ≤ min principal (rate.sui supply) :=
  Nat.div_le_of_le_mul (Nat.mul_le_mul_right _ hle)

theorem rewardsShare_le (hle : value ≤ supply) :
    rate.rewardsShare value principal supply ≤ rate.sui supply - min principal (rate.sui supply) :=
  Nat.div_le_of_le_mul (Nat.mul_le_mul_right _ hle)

/-- The whole supply is paid exactly. -/
theorem shares_whole (hpos : 0 < supply) :
    rate.principalShare supply principal supply + rate.rewardsShare supply principal supply = rate.sui supply := by
  rw [principalShare, rewardsShare, Nat.mul_div_cancel_left _ hpos, Nat.mul_div_cancel_left _ hpos,
    Nat.add_comm, rewards_add_principal]

theorem getSuiAmount_eq_ok (h : n < 2 ^ 64) :
    rate.getSuiAmount n = .ok m ↔ m = rate.sui n ∧ rate.sui n < 2 ^ 64 := by
  unfold getSuiAmount sui
  split
  · rw [pure_eq_ok, and_iff_left h, eq_comm]
  · rename_i hunit
    rw [U64.mulDiv_eq_ok]
    simp [show rate.poolTokenAmount ≠ 0 from fun h => hunit (.inr h)]

end PoolTokenExchangeRate

open PoolTokenExchangeRate

namespace StakingPool
variable {rate : PoolTokenExchangeRate} {value principal supply : Nat}

/-- Only an overflow keeps a part of the supply from being computed. -/
theorem calculateFungibleStakedSuiWithdrawAmount_eq_ok (hle : value ≤ supply) (hs : supply < 2 ^ 64) :
    calculateFungibleStakedSuiWithdrawAmount rate value principal supply = .ok amounts ↔
      amounts = (rate.principalShare value principal supply, rate.rewardsShare value principal supply) ∧
        0 < supply ∧ rate.sui supply < 2 ^ 64 := by
  simp only [calculateFungibleStakedSuiWithdrawAmount, ensure, bind_eq_ok, getSuiAmount_eq_ok hs,
    getSuiAmount_eq_ok (hle.trans_lt hs), U64.sub_eq_ok, U64.mulDiv_eq_ok, U64.add_eq_ok,
    require_eq_ok, pure_eq_ok]
  constructor
  · rintro ⟨_, ⟨rfl, hfits⟩, _, ⟨rfl, -⟩, _, ⟨rfl, hpos, -⟩, _, ⟨rfl, -⟩, -, -, -, -, -, -, rfl⟩
    exact ⟨rfl, Nat.pos_of_ne_zero hpos, hfits⟩
  · rintro ⟨rfl, hpos, hfits⟩
    have hprincipal : rate.principalShare value principal supply ≤ _ := principalShare_le hle
    have hrewards : rate.rewardsShare value principal supply ≤ _ := rewardsShare_le hle
    have hsum : rate.principalShare value principal supply + _ ≤ _ := shares_le hpos
    have hvalue := rate.sui_mono hle
    unfold principalShare rewardsShare at *
    exact ⟨_, ⟨rfl, hfits⟩, _, ⟨rfl, Nat.min_le_right ..⟩, _, ⟨rfl, hpos.ne', by omega⟩, _,
      ⟨rfl, hpos.ne', by omega⟩, _, ⟨rfl, by omega⟩, _, ⟨rfl, by omega⟩, (), hsum, rfl⟩

/-- Parts that are redeemed one after the other at one rate, and what is paid for them. -/
def redeemParts (rate : PoolTokenExchangeRate) : Nat → Nat → List Nat → Run Nat
  | _, _, [] => return 0
  | principal, supply, value :: rest => do
    let (principalAmount, rewardsAmount) ←
      calculateFungibleStakedSuiWithdrawAmount rate value principal supply
    let paid ← redeemParts rate (principal - principalAmount) (supply - value) rest
    return principalAmount + rewardsAmount + paid

theorem redeemParts_le (h : redeemParts rate principal supply parts = .ok paid) : paid ≤ rate.sui parts.sum := by
  induction parts generalizing principal supply paid with
  | nil =>
    cases h
    exact Nat.zero_le _
  | cons value rest ih =>
    obtain ⟨amounts, hamounts, h⟩ := bind_eq_ok.mp h
    obtain ⟨later, hlater, h⟩ := bind_eq_ok.mp h
    have hfirst := ((calculateFungibleStakedSuiWithdrawAmount_sat ..).ok hamounts).1
    have hrest := ih hlater
    have hadd := rate.sui_add_le value rest.sum
    rw [← pure_eq_ok.mp h, List.sum_cons]
    omega

/-- **A redemption is exact up to two MIST.** Whatever the rate, it is computed as soon as what the
supply is worth fits; it never takes more than there is of the principal and of the rewards, and
parts of the supply are not paid more than the whole. -/
theorem redemption_within_two (rate : PoolTokenExchangeRate) (principal : Nat) (hpos : 0 < supply)
    (hs : supply < 2 ^ 64) (hle : value ≤ supply) :
    ((∃ amounts, calculateFungibleStakedSuiWithdrawAmount rate value principal supply = .ok amounts) ↔
      ∃ whole, rate.getSuiAmount supply = .ok whole) ∧
    ∀ p r, calculateFungibleStakedSuiWithdrawAmount rate value principal supply = .ok (p, r) →
      ∃ amount whole, rate.getSuiAmount value = .ok amount ∧ rate.getSuiAmount supply = .ok whole ∧
        p + r ≤ amount ∧ amount ≤ p + r + 2 ∧ p ≤ principal ∧ r ≤ whole - min principal whole ∧
        (∃ p' r', calculateFungibleStakedSuiWithdrawAmount rate supply principal supply = .ok (p', r') ∧
          p' + r' = whole) ∧
        ∀ parts paid, parts.sum = value → redeemParts rate principal supply parts = .ok paid → paid ≤ whole := by
  constructor
  · simp [calculateFungibleStakedSuiWithdrawAmount_eq_ok hle hs, getSuiAmount_eq_ok hs, hpos]
  · intro p r h
    obtain ⟨heq, -, hfits⟩ := (calculateFungibleStakedSuiWithdrawAmount_eq_ok hle hs).mp h
    cases heq
    have hmono := rate.sui_mono hle
    refine ⟨_, _, (getSuiAmount_eq_ok (hle.trans_lt hs)).mpr ⟨rfl, hmono.trans_lt hfits⟩,
      (getSuiAmount_eq_ok hs).mpr ⟨rfl, hfits⟩, shares_le hpos, le_shares hpos hle,
      (principalShare_le hle).trans (Nat.min_le_left ..), rewardsShare_le hle,
      ⟨_, _, (calculateFungibleStakedSuiWithdrawAmount_eq_ok le_rfl hs).mpr ⟨rfl, hpos, hfits⟩,
        shares_whole hpos⟩, fun parts paid hsum hpaid => ?_⟩
    have hparts := redeemParts_le hpaid
    rw [hsum] at hparts
    exact hparts.trans hmono

/-- Two of three tokens, one after the other. -/
theorem redemption_within_two_parts : redeemParts ⟨10, 3⟩ 4 3 [1, 1] = .ok 5 ∧ 5 ≤ 10 := by
  obtain ⟨_, _, -, hwhole, -, -, -, -, -, hparts⟩ :=
    (redemption_within_two ⟨10, 3⟩ 4 (by decide) (by decide) (by decide : 2 ≤ 3)).2 2 4 rfl
  cases hwhole
  exact ⟨rfl, hparts [1, 1] 5 rfl rfl⟩

end StakingPool

/-! ### Balances fit -/

namespace StakingPool
variable {pool p : StakingPool}

def Fits (pool : StakingPool) : Prop := pool.suiBalance < 2 ^ 64 ∧ pool.poolTokenBalance < 2 ^ 64

theorem processPendingStake_fits (h : pool.processPendingStake = .ok p) : p.Fits := by
  simp only [processPendingStake, bind_eq_ok, U64.add_eq_ok, U64.sub_eq_ok, pure_eq_ok] at h
  obtain ⟨_, ⟨rfl, hsum⟩, _, ⟨rfl, -⟩, tokens, htokens, rfl⟩ := h
  have hsui := (Nat.sub_le (pool.suiBalance + pool.pendingStake) (pool.underflowSuiBalance.getD 0)).trans_lt hsum
  refine ⟨hsui, ?_⟩
  unfold getTokenAmount at htokens
  split at htokens
  · rw [← pure_eq_ok.mp htokens]
    exact hsui
  · obtain ⟨rfl, -, hfits⟩ := U64.mulDiv_eq_ok.mp htokens
    exact hfits

end StakingPool

namespace Validator
variable {v w : Validator}

theorem requestAddStake_fits (hfits : v.stakingPool.Fits) (h : v.requestAddStake amount epoch = .ok (x, w)) :
    w.stakingPool.Fits := by
  obtain ⟨_, -, h⟩ := bind_eq_ok.mp h
  obtain ⟨_, -, h⟩ := bind_eq_ok.mp h
  obtain ⟨⟨stakedSui, pool⟩, hpool, h⟩ := bind_eq_ok.mp h
  dsimp only at h
  split at h
  · obtain ⟨p, hp, h⟩ := bind_eq_ok.mp h
    obtain ⟨_, -, h⟩ := bind_eq_ok.mp h
    cases h
    exact processPendingStake_fits hp
  · simp only [StakingPool.requestAddStake, bind_eq_ok, pure_eq_ok, Prod.mk.injEq] at hpool h
    obtain ⟨-, -, -, -, _, -, -, rfl⟩ := hpool
    obtain ⟨_, rfl, _, -, -, rfl⟩ := h
    exact hfits

theorem requestAddStakeAtGenesis_fits (h : v.requestAddStakeAtGenesis amount epoch = .ok (x, w)) :
    w.stakingPool.Fits := by
  simp only [requestAddStakeAtGenesis, bind_eq_ok, pure_eq_ok, Prod.mk.injEq] at h
  obtain ⟨-, -, -, -, _, -, p, hp, _, -, -, rfl⟩ := h
  exact processPendingStake_fits hp

theorem endEpoch_fits (h : v.endEpoch validatorReward stakerReward epoch = .ok (x, w)) : w.stakingPool.Fits := by
  simp only [endEpoch, processPendingStakesAndWithdraws, StakingPool.processPendingStakesAndWithdraws,
    addExchangeRate, bind_eq_ok, pure_eq_ok, Prod.mk.injEq] at h
  obtain ⟨_, -, _, ⟨_, ⟨_, -, _, -, p, hp, _, ⟨-, -, rfl⟩, -, -, rfl⟩, rfl⟩, -, rfl⟩ := h
  exact (processPendingStake_fits hp : p.Fits)

end Validator

namespace Ledger
variable {s s' : Ledger} {y : FungibleStakedSui}

/-! ### Stake that is worth its principal -/

/-- The tokens of stake. -/
def tokensOf (s : Ledger) (x : StakedSui) : Nat := (s.pool.rateAt x.stakeActivationEpoch).tokens x.principal

/-- No stake that has started is worth less than its principal. -/
def Solid (s : Ledger) : Prop :=
  ∀ x ∈ s.staked, x.stakeActivationEpoch ≤ s.epoch → x.principal ≤ (s.pool.rateAt s.epoch).sui (s.tokensOf x)

instance (s : Ledger) : Decidable s.Solid :=
  inferInstanceAs (Decidable (∀ x ∈ s.staked, _ → _))

/-- What is known of pools whose stake was always worth its principal. -/
structure Secured (s : Ledger) : Prop where
  fits : s.pool.Fits
  staked : ∀ x ∈ s.staked, x.poolId = s.pool.id
  fungible : ∀ y ∈ s.fungible, y.poolId = s.pool.id
  deactivated : ∀ d, s.pool.deactivationEpoch = some d → d ≤ s.epoch
  /-- The tokens that are left are worth no more than the SUI that is left. -/
  worth : s.pool.isPreactive = false →
    (s.pool.rateAt s.epoch).sui (s.pool.poolTokenBalance - s.pool.pendingPoolTokenWithdraw) +
      s.pool.pendingTotalSuiWithdraw ≤ s.pool.suiBalance

/-- In an active pool where nothing is withdrawn, the rate is that of the balances. -/
theorem Covered.worth (h : s.Covered) (hpre : s.pool.isPreactive = false) (hin : s.pool.isInactive = false)
    (hsui : s.pool.pendingTotalSuiWithdraw = 0) :
    (s.pool.rateAt s.epoch).sui (s.pool.poolTokenBalance - s.pool.pendingPoolTokenWithdraw) +
      s.pool.pendingTotalSuiWithdraw ≤ s.pool.suiBalance := by
  rw [hsui, Nat.add_zero]
  refine (sui_mono _ (Nat.sub_le ..)).trans ?_
  rcases h.current hpre hin with ⟨hrate, hzero⟩ | ⟨hunit, heq⟩
  · rw [hrate]
    exact sui_le ⟨s.pool.suiBalance, s.pool.poolTokenBalance⟩ le_rfl hzero
  · rw [sui_of_isUnit _ hunit, heq]

/-- Tokens leave with no more than they are worth. -/
theorem worth_after {rate : PoolTokenExchangeRate} (h : rate.sui (balance - before) + taken ≤ total)
    (hle : before + leaving ≤ balance) (hpaid : paid ≤ rate.sui leaving) :
    rate.sui (balance - (before + leaving)) + (taken + paid) ≤ total := by
  have hadd := rate.sui_add_le (balance - (before + leaving)) leaving
  have heq : balance - (before + leaving) + leaving = balance - before := by omega
  rw [heq] at hadd
  omega

/-- Without a new rate the last one stays, in an inactive pool as well. -/
theorem rateAt_skip (hb : s.Books) (hpre : s.pool.isPreactive = false)
    (hd : ∀ d, s.pool.deactivationEpoch = some d → d ≤ s.epoch) :
    s.pool.rateAt (s.epoch + 1) = s.pool.rateAt s.epoch := by
  obtain ⟨a, ha⟩ : ∃ a, s.pool.activationEpoch = some a :=
    Option.isSome_iff_exists.mp (Option.isNone_eq_false_iff.mp hpre)
  cases hdate : s.pool.deactivationEpoch with
  | none => exact rateAt_succ hb.history ha (by simp [isInactive, hdate])
  | some d =>
    have hbegun := hb.history.begun ha
    have hle := hd d hdate
    unfold rateAt poolTokenExchangeRateAtEpoch
    simp only [ha, hdate, Option.getD_some]
    rw [if_neg (by omega), if_neg (by omega), Nat.min_eq_left (by omega), Nat.min_eq_left hle]

namespace Secured

theorem new (metadata : ValidatorMetadata) (gasPrice commissionRate poolId capId epoch : Nat) :
    Secured ⟨.newFromMetadata metadata gasPrice commissionRate poolId capId, epoch, 0, 0⟩ where
  fits := ⟨Nat.two_pow_pos 64, Nat.two_pow_pos 64⟩
  staked x hx := absurd hx (Multiset.notMem_zero x)
  fungible y hy := absurd hy (Multiset.notMem_zero y)
  deactivated d hd := by cases hd
  worth hpre := by cases hpre

variable (h : s.Secured)
include h

theorem add (hfits : (s.pool.added amount).Fits) (hx : x.poolId = s.pool.id) :
    Secured { s with validator := s.validator.added amount, staked := x ::ₘ s.staked } := by
  cases hpre : s.pool.isPreactive with
  | true =>
    rw [added_of_preactive hpre] at hfits
    rw [Validator.added, added_of_preactive hpre]
    exact ⟨hfits, Multiset.forall_mem_cons.mpr ⟨hx, h.staked⟩, h.fungible, h.deactivated,
      fun h => absurd (hpre.symm.trans h) (by decide)⟩
  | false =>
    rw [added_of_active hpre] at hfits
    rw [Validator.added, added_of_active hpre]
    exact ⟨hfits, Multiset.forall_mem_cons.mpr ⟨hx, h.staked⟩, h.fungible, h.deactivated, h.worth⟩

/-- Stake that is worth its principal leaves with what its tokens are worth, at most. -/
theorem withdraw (hc : s.Covered) (hsolid : s.Solid) (hx : s.staked = x ::ₘ rest)
    (hpool : ¬s.pool.Direct x s.epoch) (hp : s.pool.Withdraws x s.epoch paid p) :
    Secured { s with validator := s.validator.paid p.settled paid, staked := rest } := by
  obtain ⟨old, now, hold, hnow, hpaid, rfl⟩ := hp
  have hrest := (Multiset.forall_mem_cons.mp (hx ▸ h.staked)).2
  have hworth : s.pool.isPreactive = false → (s.pool.rateAt s.epoch).sui (s.pool.poolTokenBalance -
      (s.pool.pendingPoolTokenWithdraw + old.tokens x.principal)) + (s.pool.pendingTotalSuiWithdraw + paid) ≤
      s.pool.suiBalance := by
    intro hpre
    have hstarted : x.stakeActivationEpoch ≤ s.epoch := by
      by_contra hlt
      exact hpool ⟨by omega, hpre⟩
    obtain ⟨hle, -⟩ := hc.leaves hpre hx hstarted
    have hprincipal := hsolid x (hx ▸ Multiset.mem_cons_self ..) hstarted
    rw [tokensOf, rateAt_of_eq hold, rateAt_of_eq hnow] at hprincipal
    rw [rateAt_of_eq hold] at hle
    refine worth_after (h.worth hpre) (by omega) ?_
    rw [rateAt_of_eq hnow]
    omega
  unfold settled
  split
  · refine ⟨⟨(Nat.sub_le ..).trans_lt h.fits.1, (Nat.sub_le ..).trans_lt h.fits.2⟩, hrest, h.fungible,
      h.deactivated, fun hpre => ?_⟩
    have hafter := hworth hpre
    show (s.pool.rateAt s.epoch).sui (s.pool.poolTokenBalance - (s.pool.pendingPoolTokenWithdraw +
      old.tokens x.principal) - 0) + 0 ≤ s.pool.suiBalance - (s.pool.pendingTotalSuiWithdraw + paid)
    rw [Nat.sub_zero]
    omega
  · exact ⟨h.fits, hrest, h.fungible, h.deactivated, hworth⟩

theorem redeem (hb : s.Books) (hc : s.Covered) {rest : Multiset FungibleStakedSui} (hy : s.fungible = y ::ₘ rest)
    (hp : s.pool.Redeems y s.epoch paid p) :
    Secured { s with validator := s.validator.paid p paid, fungible := rest } := by
  obtain ⟨now, _, _, hnow, -, -, -, -, -, hpaid, rfl⟩ := hp
  refine ⟨h.fits, h.staked, (Multiset.forall_mem_cons.mp (hy ▸ h.fungible)).2, h.deactivated, fun hpre => ?_⟩
  have hcovers := hc.coversActive hpre
  have hsupply : y.value ≤ s.pool.fungibleSupply := by
    rw [hb.supply, hy, fungibleValues_cons]
    exact Nat.le_add_right ..
  have hle : s.pool.pendingPoolTokenWithdraw + y.value ≤ s.pool.poolTokenBalance := by omega
  exact worth_after (h.worth hpre) hle (rateAt_of_eq hnow ▸ hpaid)

theorem activate (hc : s.Covered) {epoch activationEpoch : Nat} (hle : s.epoch ≤ epoch)
    (hc' : Covered { s with validator := v, epoch }) (hv : s.validator.activate activationEpoch = .ok v) :
    Secured { s with validator := v, epoch } := by
  obtain ⟨p, hp, hv⟩ := bind_eq_ok.mp hv
  obtain ⟨hpre, hin, rfl⟩ := (activateStakingPool_sat activationEpoch).ok hp
  cases hv
  exact ⟨h.fits, h.staked, h.fungible, fun d hd => (h.deactivated d hd).trans hle,
    fun _ => hc'.worth rfl hin (hc.preactive hpre).2.1⟩

theorem deactivate {epoch : Nat} (hle : epoch ≤ s.epoch) (hepoch : s.pool.isPreactive = true ∨ s.epoch ≤ epoch)
    (hv : s.validator.deactivate epoch = .ok v) : Secured { s with validator := v } := by
  obtain ⟨p, hp, hv⟩ := bind_eq_ok.mp hv
  obtain ⟨hin, rfl⟩ := (deactivateStakingPool_sat epoch).ok hp
  cases hv
  refine ⟨h.fits, h.staked, h.fungible, fun d hd => ?_, fun hpre => ?_⟩
  · cases hd
    exact hle
  · rcases hepoch with hepoch | hepoch
    · exact absurd (hepoch.symm.trans hpre) (by decide)
    · have hworth := h.worth hpre
      rw [← rateAt_deactivate hin hepoch] at hworth
      exact hworth

theorem ended (hpre : s.pool.isPreactive = false) (hin : s.pool.isInactive = false)
    (hfits : (s.validator.ended validatorReward stakerReward s.epoch).stakingPool.Fits)
    (hc : Covered { s with
      validator := s.validator.ended validatorReward stakerReward s.epoch
      epoch := s.epoch + 1
      staked := s.stakedWith (s.validator.rewardsStake validatorReward s.epoch) }) :
    Secured { s with
      validator := s.validator.ended validatorReward stakerReward s.epoch
      epoch := s.epoch + 1
      staked := s.stakedWith (s.validator.rewardsStake validatorReward s.epoch) } := by
  refine ⟨hfits, ?_, h.fungible, fun d hd => Nat.le_succ_of_le (h.deactivated d hd), fun _ => hc.worth hpre hin rfl⟩
  show ∀ x ∈ s.stakedWith (s.validator.rewardsStake validatorReward s.epoch), x.poolId = s.pool.id
  unfold Validator.rewardsStake
  split
  · exact Multiset.forall_mem_cons.mpr ⟨rfl, h.staked⟩
  · exact h.staked

end Secured

theorem Genesis.secured (h : Genesis s) : s.Secured := by
  induction h with
  | new => exact .new ..
  | @stake s amount x v h hv ih =>
    obtain ⟨hbooks, hpre, -⟩ := h.books
    have hfits := Validator.requestAddStakeAtGenesis_fits hv
    cases (Validator.requestAddStakeAtGenesis_sat hbooks.noRecord hpre amount s.epoch).ok hv
    exact ih.add hfits rfl

theorem Initial.secured (h : Initial s) : s.Secured := by
  have hc := h.covered
  cases h with
  | genesis h hv => exact h.secured.activate h.covered le_rfl hc hv
  | candidate => exact .new ..

theorem Step.secured (h : Step NothingPending s s') (hb : s.Books) (hc : s.Covered) (hsolid : s.Solid)
    (hs : s.Secured) : s'.Secured := by
  have hc' := h.covered hb hc
  cases h with
  | @addStake amount x v h =>
    have hspec := Validator.requestAddStake_sat .overflow hb.noRecord amount s.epoch (fun _ => NoUnderflow.code)
    have hfits := Validator.requestAddStake_fits hs.fits h
    obtain ⟨-, hr⟩ := hspec.ok h
    cases hr
    exact hs.add hfits rfl
  | withdrawStake hx h =>
    rcases (hb.requestWithdrawStake_spec hx).ok h with ⟨hdirect, hr⟩ | ⟨hpool, p, hp, hr⟩
    · cases hr
      exact ⟨hs.fits, (Multiset.forall_mem_cons.mp (hx ▸ hs.staked)).2, hs.fungible, hs.deactivated, hs.worth⟩
    · dsimp only at hr
      subst hr
      exact hs.withdraw hc hsolid hx hpool hp
  | convert hx h =>
    obtain ⟨p, ⟨-, -, -, old, -, -, hy, rfl⟩, hr⟩ :=
      (Validator.convertToFungibleStakedSui_sat hb.history.activated ..).ok h
    obtain ⟨hid, hrest⟩ := Multiset.forall_mem_cons.mp (hx ▸ hs.staked)
    cases hr
    have hid : _ = s.pool.id := (congrArg FungibleStakedSui.poolId hy).trans hid
    exact ⟨hs.fits, hrest, Multiset.forall_mem_cons.mpr ⟨hid, hs.fungible⟩, hs.deactivated, hs.worth⟩
  | redeem hy h =>
    obtain ⟨p, hp, hr⟩ := (hb.redeemFungibleStakedSui_spec hy).ok h
    dsimp only at hr
    subst hr
    exact hs.redeem hb hc hy hp
  | split hx h =>
    obtain ⟨-, -, -, ha, hb⟩ := StakedSui.split_spec h
    have hids := hs.staked
    simp only [hx, Multiset.forall_mem_cons] at hids
    exact ⟨hs.fits, Multiset.forall_mem_cons.mpr ⟨ha.trans hids.1, Multiset.forall_mem_cons.mpr ⟨hb.trans hids.1, hids.2⟩⟩,
      hs.fungible, hs.deactivated, hs.worth⟩
  | join hx h =>
    obtain ⟨-, -, -, -, hz⟩ := StakedSui.join_spec h
    have hids := hs.staked
    simp only [hx, Multiset.forall_mem_cons] at hids
    exact ⟨hs.fits, Multiset.forall_mem_cons.mpr ⟨hz.trans hids.1, hids.2.2⟩, hs.fungible, hs.deactivated, hs.worth⟩
  | splitFungible hx h =>
    obtain ⟨-, ha, hb⟩ := FungibleStakedSui.split_spec h
    have hids := hs.fungible
    simp only [hx, Multiset.forall_mem_cons] at hids
    exact ⟨hs.fits, hs.staked, Multiset.forall_mem_cons.mpr ⟨ha.trans hids.1,
      Multiset.forall_mem_cons.mpr ⟨hb.trans hids.1, hids.2⟩⟩, hs.deactivated, hs.worth⟩
  | joinFungible hx h =>
    obtain ⟨-, -, hz⟩ := FungibleStakedSui.join_spec h
    have hids := hs.fungible
    simp only [hx, Multiset.forall_mem_cons] at hids
    exact ⟨hs.fits, hs.staked, Multiset.forall_mem_cons.mpr ⟨hz.trans hids.1, hids.2.2⟩, hs.deactivated, hs.worth⟩
  | removeCandidate hpre h => exact hs.deactivate le_rfl (.inl hpre) h
  | endEpoch hpre hin h =>
    have hfits := Validator.endEpoch_fits h
    cases (hb.endEpoch_spec hpre hin _ _ NoUnderflow.overflow).ok h
    exact hs.ended hpre hin hfits hc'
  | depart hpre hin h hv =>
    have hfits := Validator.endEpoch_fits h
    cases (hb.endEpoch_spec hpre hin _ _ NoUnderflow.overflow).ok h
    exact (hs.ended hpre hin hfits (hc.ended hb hpre hin _ _)).deactivate le_rfl (.inr le_rfl) hv
  | activate h => exact hs.activate hc (Nat.le_succ _) hc' h
  | skipEpoch _ =>
    refine ⟨hs.fits, hs.staked, hs.fungible, fun d hd => Nat.le_succ_of_le (hs.deactivated d hd), fun hpre => ?_⟩
    have hworth := hs.worth hpre
    rw [← rateAt_skip hb hpre hs.deactivated] at hworth
    exact hworth
  | @update v hpool hstake =>
    obtain ⟨_, _, _, _, stakingPool, _, _, _, _⟩ := v
    obtain rfl : stakingPool = s.pool := hpool
    exact ⟨hs.fits, hs.staked, hs.fungible, hs.deactivated, hs.worth⟩

/-! ### Redeeming -/

/-- Reached through states in which no stake was worth less than its principal, with an epoch skipped
only with no stake pending. -/
def SolidRun (s : Ledger) : Prop :=
  ∃ s₀, Initial s₀ ∧ Relation.ReflTransGen (fun s s' => s.Solid ∧ Step NothingPending s s') s₀ s

theorem SolidRun.reachable (h : SolidRun s) : Reachable NothingPending s := by
  obtain ⟨s₀, hinitial, hrun⟩ := h
  exact ⟨s₀, hinitial, Relation.ReflTransGen.mono (fun _ _ h => h.2) _ _ hrun⟩

theorem SolidRun.secured (h : SolidRun s) : s.Secured := by
  obtain ⟨s₀, hinitial, hrun⟩ := h
  induction hrun with
  | refl => exact hinitial.secured
  | @tail s s' hrun hstep ih =>
    have hreach : Reachable NothingPending s := SolidRun.reachable ⟨s₀, hinitial, hrun⟩
    exact hstep.2.secured hreach.books hreach.covered hstep.1 ih

/-- The principal that has started, and what waits. -/
theorem principals_eq (epoch : Nat) (staked : Multiset StakedSui) :
    principals (staked.filter fun x => x.stakeActivationEpoch < epoch + 1) + pendingPrincipals epoch staked =
      principals staked := by
  have hsplit := Multiset.filter_add_not (fun x => StakedSui.stakeActivationEpoch x < epoch + 1) staked
  have hwaits : staked.filter (fun x => ¬x.stakeActivationEpoch < epoch + 1) =
      staked.filter fun x => epoch < x.stakeActivationEpoch :=
    Multiset.filter_congr fun x _ => by omega
  rw [hwaits] at hsplit
  unfold pendingPrincipals principals
  rw [← Multiset.sum_add, ← Multiset.map_add, hsplit]

/-- What has started is worth its principal, all together. -/
theorem Solid.principals_le (h : s.Solid) :
    principals (s.staked.filter fun x => x.stakeActivationEpoch < s.epoch + 1) ≤
      (s.pool.rateAt s.epoch).sui (owedTokens s.pool.rateAt (s.epoch + 1) s.staked) := by
  let rate := s.pool.rateAt s.epoch
  let started := s.staked.filter fun x => x.stakeActivationEpoch < s.epoch + 1
  calc principals started
      ≤ ((started.map s.tokensOf).map rate.sui).sum := by
        rw [Multiset.map_map]
        refine Multiset.sum_map_le_sum_map _ _ fun x hx => ?_
        obtain ⟨hx, hstarted⟩ := Multiset.mem_filter.mp hx
        exact h x hx (Nat.le_of_lt_succ hstarted)
    _ ≤ rate.sui (started.map s.tokensOf).sum := sum_sui_le ..
    _ ≤ rate.sui (owedTokens s.pool.rateAt (s.epoch + 1) s.staked) :=
        sui_mono _ (sum_tokens_le_owedTokens ..)

/-- The rewards pool holds what the fungible stake is worth beyond its principal. -/
theorem Secured.sui_supply_le (h : s.Secured) (hb : s.Books) (hc : s.Covered) (hsolid : s.Solid)
    (hpre : s.pool.isPreactive = false) :
    (s.pool.rateAt s.epoch).sui s.pool.fungibleSupply ≤ s.pool.fungiblePrincipal + s.pool.rewardsPool := by
  have hcovers := hc.coversActive hpre
  have hworth := h.worth hpre
  have hmono : (s.pool.rateAt s.epoch).sui (s.pool.fungibleSupply + _) ≤ _ :=
    sui_mono _ (Nat.le_sub_of_add_le' hcovers)
  have hadd := (s.pool.rateAt s.epoch).sui_add_le s.pool.fungibleSupply
    (owedTokens s.pool.rateAt (s.epoch + 1) s.staked)
  have hstarted := hsolid.principals_le
  have hbalance := hb.balance
  have hwaits := hc.waits hpre
  rw [held, ← principals_eq s.epoch] at hbalance
  omega

/-- **Fungible stake can be redeemed as long as no stake is worth less than its principal**, and no
epoch is skipped with stake pending. -/
theorem redeem_succeeds (h : SolidRun s) (hsolid : s.Solid) (hy : y ∈ s.fungible)
    (hpos : 0 < s.pool.fungibleSupply) : ∃ r, s.pool.redeemFungibleStakedSui y s.epoch = .ok r := by
  have hb := h.reachable.books
  have hc := h.reachable.covered
  have hsecured := h.secured
  have hpre : s.pool.isPreactive = false := by
    by_contra hpre
    have hdata := (hc.preactive (eq_true_of_ne_false hpre)).2.2.2
    exact hpos.ne' (fungibleSupply_eq_zero hdata)
  obtain ⟨rest, hrest⟩ := Multiset.exists_cons_of_mem hy
  have hle : y.value ≤ s.pool.fungibleSupply := by
    rw [hb.supply, hrest, fungibleValues_cons]
    exact Nat.le_add_right ..
  obtain ⟨hsui, htokens⟩ := hsecured.fits
  have hcovers := hc.coversActive hpre
  have hworth := hsecured.worth hpre
  have hwhole := hsecured.sui_supply_le hb hc hsolid hpre
  have hmono : (s.pool.rateAt s.epoch).sui s.pool.fungibleSupply ≤ _ :=
    sui_mono _ (by omega : _ ≤ s.pool.poolTokenBalance - s.pool.pendingPoolTokenWithdraw)
  have hpart := (s.pool.rateAt s.epoch).sui_mono hle
  obtain ⟨rate, hrate⟩ := hb.history.activated.lookup s.epoch
  rw [rateAt_of_eq hrate] at hworth hwhole hmono hpart
  have hprincipal : rate.principalShare y.value s.pool.fungiblePrincipal _ ≤ _ := principalShare_le hle
  have hrewards : rate.rewardsShare y.value s.pool.fungiblePrincipal _ ≤ _ := rewardsShare_le hle
  have hpaid : rate.principalShare y.value s.pool.fungiblePrincipal _ + _ ≤ _ := shares_le hpos
  simp only [redeemFungibleStakedSui, ensure, bind_eq_ok, require_eq_ok, hrate, Except.ok.injEq, unwrap_eq_ok,
    U64.sub_eq_ok, U64.split_eq_ok, U64.add_eq_ok, pure_eq_ok]
  cases hdata : s.pool.fungibleStakedSuiData with
  | none => exact absurd (fungibleSupply_eq_zero hdata) hpos.ne'
  | some data =>
    simp only [fungibleSupply, fungiblePrincipal, hdata, Option.map_some, Option.getD_some] at *
    exact ⟨_, (), hsecured.fungible y hy, rate, rfl, data, rfl, _,
      (calculateFungibleStakedSuiWithdrawAmount_eq_ok hle (by omega)).mpr ⟨rfl, hpos, by omega⟩,
      _, ⟨rfl, hle⟩, _, ⟨rfl, by omega⟩, _, ⟨rfl, by omega⟩, _, ⟨rfl, by omega⟩, _, ⟨rfl, by omega⟩, _,
      ⟨rfl, by omega⟩, rfl⟩

/-- Stake joins at a rate of two, without rounding, before the stake of the genesis is converted. -/
theorem redeem_succeeds_joined : ∃ (s : Ledger) (y : FungibleStakedSui), SolidRun s ∧ y ∈ s.fungible ∧
    s.staked ≠ 0 ∧ ∃ r, s.pool.redeemFungibleStakedSui y s.epoch = .ok r := by
  let f s action := if Solid s then s.perform NothingPending action else none
  have hrun : ((genesisLedger 1000000000 >>= [Action.endEpoch 0 1000000000, .addStake 1000000000, .endEpoch 0 0,
      .convert ⟨7, 0, 1000000000⟩].foldlM f).any fun s => decide (s.Solid ∧ ⟨7, 1000000000⟩ ∈ s.fungible ∧
        s.staked ≠ 0 ∧ 0 < s.pool.fungibleSupply)) = true := by
    decide +kernel
  obtain ⟨s, hs, hp⟩ := Option.any_eq_true _ _ |>.mp hrun
  obtain ⟨s₀, hs₀, hsteps⟩ := Option.bind_eq_some_iff.mp hs
  obtain ⟨hsolid, hy, hstaked, hpos⟩ := of_decide_eq_true hp
  have hsolidRun : SolidRun s := ⟨s₀, initial_of_genesisLedger hs₀, run_of_foldlM (fun s action s' h => by
    obtain ⟨hsolid, h⟩ := Option.ite_none_right_eq_some.mp h
    exact ⟨hsolid, step_of_perform h⟩) hsteps⟩
  exact ⟨s, _, hsolidRun, hy, hstaked, redeem_succeeds hsolidRun hsolid hy hpos⟩

/-- Stake that joins after the first reward gets fewer tokens than its part of the pool, by rounding.
The tokens of the first stake are then worth more than it and the reward. -/
theorem redeem_fails : ∃ (s : Ledger) (y : FungibleStakedSui), Reachable (fun _ => False) s ∧
    y ∈ s.fungible ∧ y.poolId = s.pool.id ∧
    (s.pool.redeemFungibleStakedSui y s.epoch).map (fun _ => ()) = .error .notEnough := by
  let y : FungibleStakedSui := ⟨7, 1000000000⟩
  have hrun : ((play (fun _ => False) 1000000000 [.endEpoch 0 9000000000, .addStake 1000000009, .endEpoch 0 0,
      .convert ⟨7, 0, 1000000000⟩]).any fun s => decide (y ∈ s.fungible ∧ y.poolId = s.pool.id ∧
        (s.pool.redeemFungibleStakedSui y s.epoch).map (fun _ => ()) = .error .notEnough)) = true := by
    decide +kernel
  obtain ⟨s, hreach, hs⟩ := exists_of_play hrun
  exact ⟨s, y, hreach, of_decide_eq_true hs⟩

end Ledger
end Sui.SuiSystem
