import Sui.SuiSystem.Books

/-! Pool tokens cover the claims on them.

Stake is worth the tokens that the rate of its activation epoch gives for its principal, and
fungible stake is tokens. `owed` is the sum of both, by activation epoch; `Covered` says that the
pool has these tokens beside the ones whose withdrawal is pending. Every claim is rounded down
once, and so is the balance of the pool at every end of an epoch; the first is never below the
second because rounding loses less on a whole than on its parts.

An epoch that is skipped in safe mode with stake pending breaks this (`tokens_cover_fails`): the
stake starts without a rate of its own, is worth the tokens of an earlier rate and gets the fewer
ones of a later. With none pending it holds along every run (`tokens_cover`). -/
namespace Sui.SuiSystem

open Sui.Lib Sui.Lib.Exec Finset StakingPool PoolTokenExchangeRate

/-! ### Principal by activation epoch -/

/-- The principal that starts in an epoch. -/
def startingIn (e : Nat) (staked : Multiset StakedSui) : Nat :=
  principals (staked.filter fun x => x.stakeActivationEpoch = e)

@[simp] theorem startingIn_zero (e : Nat) : startingIn e 0 = 0 := rfl

@[simp] theorem startingIn_cons (e : Nat) (x : StakedSui) (staked : Multiset StakedSui) :
    startingIn e (x ::ₘ staked) =
      (if x.stakeActivationEpoch = e then x.principal else 0) + startingIn e staked := by
  unfold startingIn
  split
  · rename_i h
    rw [Multiset.filter_cons_of_pos (p := fun x => StakedSui.stakeActivationEpoch x = e) _ h, principals_cons]
  · rename_i h
    rw [Multiset.filter_cons_of_neg (p := fun x => StakedSui.stakeActivationEpoch x = e) _ h, Nat.zero_add]

/-- What waits starts in the next epoch. -/
theorem pendingPrincipals_eq_startingIn (h : ∀ x ∈ staked, x.stakeActivationEpoch ≤ epoch + 1) :
    pendingPrincipals epoch staked = startingIn (epoch + 1) staked := by
  unfold pendingPrincipals startingIn
  congr 1
  apply Multiset.filter_congr
  intro x hx
  have := h x hx
  constructor <;> intro <;> omega

/-- What has started and what waits are different parts of the principal. -/
theorem startingIn_add_pendingPrincipals_le (he : e ≤ epoch) (staked : Multiset StakedSui) :
    startingIn e staked + pendingPrincipals epoch staked ≤ principals staked := by
  induction staked using Multiset.induction with
  | empty => exact le_rfl
  | cons x staked ih =>
    simp only [startingIn_cons, pendingPrincipals_cons, principals_cons]
    split <;> split <;> omega

/-! ### Tokens by activation epoch -/

/-- The tokens of the stake that started in one of the first `n` epochs. -/
def owedTokens (rate : Nat → PoolTokenExchangeRate) (n : Nat) (staked : Multiset StakedSui) : Nat :=
  ∑ e ∈ Finset.range n, (rate e).tokens (startingIn e staked)

section OwedTokens
variable {rate : Nat → PoolTokenExchangeRate} {n : Nat} {staked : Multiset StakedSui} {x : StakedSui}

theorem owedTokens_congr (h : ∀ e < n, rate' e = rate e) : owedTokens rate' n staked = owedTokens rate n staked :=
  sum_congr rfl fun e he => by rw [h e (mem_range.mp he)]

theorem owedTokens_congr_staked (h : ∀ e < n, startingIn e staked' = startingIn e staked) :
    owedTokens rate n staked' = owedTokens rate n staked :=
  sum_congr rfl fun e he => by rw [h e (mem_range.mp he)]

theorem owedTokens_succ :
    owedTokens rate (n + 1) staked = owedTokens rate n staked + (rate n).tokens (startingIn n staked) :=
  sum_range_succ ..

/-- Stake leaves with no more than its part. -/
theorem owedTokens_cons_le (rate : Nat → PoolTokenExchangeRate) (staked : Multiset StakedSui)
    (hx : x.stakeActivationEpoch < n) :
    (rate x.stakeActivationEpoch).tokens x.principal + owedTokens rate n staked ≤
      owedTokens rate n (x ::ₘ staked) := by
  have hone : (rate x.stakeActivationEpoch).tokens x.principal =
      ∑ e ∈ range n, if x.stakeActivationEpoch = e then (rate e).tokens x.principal else 0 := by
    rw [sum_ite_eq, if_pos (mem_range.mpr hx)]
  unfold owedTokens
  rw [hone, ← sum_add_distrib]
  apply sum_le_sum
  intro e _
  rw [startingIn_cons]
  split
  · exact (rate e).tokens_add_le _ _
  · rw [Nat.zero_add, Nat.zero_add]

theorem owedTokens_cons_of_le (hx : n ≤ x.stakeActivationEpoch) :
    owedTokens rate n (x ::ₘ staked) = owedTokens rate n staked := by
  apply owedTokens_congr_staked
  intro e he
  rw [startingIn_cons, if_neg (by omega), Nat.zero_add]

/-- At unit rates tokens are principal. -/
theorem owedTokens_of_isUnit (hrate : ∀ e, (rate e).isUnit)
    (h : ∀ x ∈ staked, x.stakeActivationEpoch < n) : owedTokens rate n staked = principals staked := by
  have hsum : owedTokens rate n staked = ∑ e ∈ range n, startingIn e staked :=
    sum_congr rfl fun e _ => (rate e).tokens_of_isUnit (hrate e) _
  rw [hsum]
  induction staked using Multiset.induction with
  | empty => simp
  | cons x staked ih =>
    have hx := h x (Multiset.mem_cons_self x staked)
    simp only [startingIn_cons, sum_add_distrib, principals_cons, sum_ite_eq, if_pos (mem_range.mpr hx)]
    rw [ih (fun y hy => h y (Multiset.mem_cons_of_mem hy))
      (sum_congr rfl fun e _ => (rate e).tokens_of_isUnit (hrate e) _)]

/-- Nothing is owed for principal that is not there. -/
theorem owedTokens_eq_zero (h : ∀ e < n, startingIn e staked = 0) : owedTokens rate n staked = 0 := by
  apply sum_eq_zero
  intro e he
  rw [h e (mem_range.mp he), tokens_zero]

end OwedTokens

namespace Ledger

/-- The number of epochs whose stake has been processed: a preactive pool processes at once. -/
def processedEpochs (s : Ledger) : Nat := if s.pool.isPreactive then s.epoch + 2 else s.epoch + 1

/-- The tokens on which there is a claim. -/
def owed (s : Ledger) : Nat :=
  s.pool.fungibleSupply + owedTokens s.pool.rateAt s.processedEpochs s.staked

/-! ### The invariant -/

structure Covered (s : Ledger) : Prop where
  covers : s.pool.pendingPoolTokenWithdraw + s.owed ≤ s.pool.poolTokenBalance
  waits : s.pool.isPreactive = false → pendingPrincipals s.epoch s.staked = s.pool.pendingStake
  /-- A preactive pool has earned nothing. -/
  preactive : s.pool.isPreactive = true → s.pool.poolTokenBalance = s.pool.suiBalance ∧
    s.pool.pendingTotalSuiWithdraw = 0 ∧ s.pool.pendingPoolTokenWithdraw = 0 ∧
    s.pool.fungibleStakedSuiData = none
  /-- The rate of the epoch is that of the balances, or they are equal. -/
  current : s.pool.isPreactive = false → s.pool.isInactive = false →
    s.pool.rateAt s.epoch = ⟨s.pool.suiBalance, s.pool.poolTokenBalance⟩ ∧
      (s.pool.suiBalance = 0 → s.pool.poolTokenBalance = 0) ∨
    (s.pool.rateAt s.epoch).isUnit ∧ s.pool.poolTokenBalance = s.pool.suiBalance
  backed : 0 < s.pool.fungibleSupply → 0 < s.pool.fungiblePrincipal

variable {s : Ledger} {p : StakingPool}

theorem processedEpochs_of_preactive (h : s.pool.isPreactive = true) :
    s.processedEpochs = s.epoch + 2 := if_pos h

theorem processedEpochs_of_active (h : s.pool.isPreactive = false) :
    s.processedEpochs = s.epoch + 1 := if_neg (by rw [h]; decide)

theorem isUnit_of_initial (h : ∀ e, p.rateAt e = .initial) (e : Nat) : (p.rateAt e).isUnit := by
  rw [h e]
  exact initial_isUnit

theorem fungibleSupply_eq_zero (h : p.fungibleStakedSuiData = none) : p.fungibleSupply = 0 := by
  rw [fungibleSupply, h]
  rfl

/-- Tokens are owed only for principal, as long as all rates are initial. -/
theorem owed_of_initial (hdata : s.pool.fungibleStakedSuiData = none) (hrate : ∀ e, s.pool.rateAt e = .initial)
    (h : ∀ x ∈ s.staked, x.stakeActivationEpoch < s.processedEpochs) : s.owed = principals s.staked := by
  rw [owed, fungibleSupply_eq_zero hdata, Nat.zero_add, owedTokens_of_isUnit (isUnit_of_initial hrate) h]

/-- What a preactive pool owes. -/
theorem owed_of_preactive (hpre : s.pool.isPreactive = true) (hdata : s.pool.fungibleStakedSuiData = none)
    (h : ∀ x ∈ s.staked, x.stakeActivationEpoch ≤ s.epoch + 1) : s.owed = principals s.staked := by
  apply owed_of_initial hdata (rateAt_of_preactive hpre)
  intro x hx
  rw [processedEpochs_of_preactive hpre]
  exact Nat.lt_succ_of_le (h x hx)

namespace Covered
variable {s : Ledger} {x : StakedSui} {rest : Multiset StakedSui} {v : Validator} {p : StakingPool}
  {paid : Nat}

theorem update (h : s.Covered) (hpool : v.stakingPool = s.pool) : Covered { s with validator := v } := by
  obtain ⟨_, _, _, _, stakingPool, _, _, _, _⟩ := v
  obtain rfl : stakingPool = s.pool := hpool
  exact ⟨h.covers, h.waits, h.preactive, h.current, h.backed⟩

/-- A preactive pool, all of it. -/
theorem of_preactive (hb : s.Books) (hpre : s.pool.isPreactive = true)
    (htokens : s.pool.poolTokenBalance = s.pool.suiBalance)
    (hsui : s.pool.pendingTotalSuiWithdraw = 0) (hpool : s.pool.pendingPoolTokenWithdraw = 0)
    (hdata : s.pool.fungibleStakedSuiData = none) : s.Covered where
  covers := by
    have hbalance := hb.balance
    have hzero := hb.settled (.inl hpre)
    simp only [held] at hbalance
    rw [owed_of_preactive hpre hdata hb.started]
    omega
  waits h := absurd (hpre.symm.trans h) (by decide)
  preactive _ := ⟨htokens, hsui, hpool, hdata⟩
  current h := absurd (hpre.symm.trans h) (by decide)
  backed h := absurd (fungibleSupply_eq_zero hdata) h.ne'

/-- What a pool that was activated has to cover. -/
def CoversActive (s : Ledger) : Prop :=
  s.pool.pendingPoolTokenWithdraw +
    (s.pool.fungibleSupply + owedTokens s.pool.rateAt (s.epoch + 1) s.staked) ≤ s.pool.poolTokenBalance

theorem coversActive (h : s.Covered) (hpre : s.pool.isPreactive = false) :
    s.pool.pendingPoolTokenWithdraw +
      (s.pool.fungibleSupply + owedTokens s.pool.rateAt (s.epoch + 1) s.staked) ≤ s.pool.poolTokenBalance := by
  have hcovers := h.covers
  rw [owed, processedEpochs_of_active hpre] at hcovers
  exact hcovers

/-- Stake that has started leaves with its tokens. -/
theorem leaves (h : s.Covered) (hpre : s.pool.isPreactive = false) (hx : s.staked = x ::ₘ rest)
    (hstarted : x.stakeActivationEpoch ≤ s.epoch) :
    s.pool.pendingPoolTokenWithdraw + (s.pool.fungibleSupply +
      ((s.pool.rateAt x.stakeActivationEpoch).tokens x.principal +
        owedTokens s.pool.rateAt (s.epoch + 1) rest)) ≤ s.pool.poolTokenBalance ∧
    pendingPrincipals s.epoch rest = s.pool.pendingStake := by
  have hcovers := h.coversActive hpre
  have hwaits := h.waits hpre
  rw [hx] at hcovers
  rw [hx, pendingPrincipals_cons, if_neg hstarted.not_gt, Nat.zero_add] at hwaits
  have hleaves := owedTokens_cons_le s.pool.rateAt rest (Nat.lt_add_one_of_le hstarted)
  exact ⟨by omega, hwaits⟩

/-- A pool that was activated. -/
theorem of_active (hpre : s.pool.isPreactive = false) (hcovers : CoversActive s)
    (hwaits : pendingPrincipals s.epoch s.staked = s.pool.pendingStake) (hcurrent : s.pool.isInactive = false →
      s.pool.rateAt s.epoch = ⟨s.pool.suiBalance, s.pool.poolTokenBalance⟩ ∧
        (s.pool.suiBalance = 0 → s.pool.poolTokenBalance = 0) ∨
      (s.pool.rateAt s.epoch).isUnit ∧ s.pool.poolTokenBalance = s.pool.suiBalance)
    (hbacked : 0 < s.pool.fungibleSupply → 0 < s.pool.fungiblePrincipal) : s.Covered where
  covers := by
    rw [owed, processedEpochs_of_active hpre]
    exact hcovers
  waits _ := hwaits
  preactive h := absurd (hpre.symm.trans h) (by decide)
  current _ := hcurrent
  backed := hbacked

section
variable (h : s.Covered)
include h

theorem add (hb : s.Books) (hin : s.pool.isInactive = false) (hx : x.principal = amount)
    (hact : x.stakeActivationEpoch = s.epoch + 1 ∨
      s.pool.isPreactive = true ∧ x.stakeActivationEpoch ≤ s.epoch) :
    Covered { s with validator := s.validator.added amount, staked := x ::ₘ s.staked } := by
  have hbooks := hb.add hin hx hact
  cases hpre : s.pool.isPreactive with
  | true =>
    obtain ⟨htokens, hsui, hpool, hdata⟩ := h.preactive hpre
    rw [Validator.added, added_of_preactive hpre] at hbooks ⊢
    refine of_preactive hbooks hpre ?_ hsui hpool hdata
    show tokens ⟨s.pool.suiBalance, s.pool.poolTokenBalance⟩ _ = _
    rw [htokens, tokens_self]
    rfl
  | false =>
    have hx' : x.stakeActivationEpoch = s.epoch + 1 := by
      rcases hact with hact | ⟨hact, -⟩
      · exact hact
      · exact absurd (hpre.symm.trans hact) (by decide)
    rw [Validator.added, added_of_active hpre]
    refine of_active hpre ?_ ?_ (h.current hpre) h.backed
    · unfold CoversActive
      rw [owedTokens_cons_of_le (Nat.le_of_eq hx'.symm)]
      exact h.coversActive hpre
    · have hwaits := h.waits hpre
      simp only [pendingPrincipals_cons, hx, hx', if_pos (Nat.lt_succ_self _), hwaits]
      exact Nat.add_comm ..

/-- A withdrawal from the pending stake claims no tokens. -/
theorem withdrawDirect (hx : s.staked = x ::ₘ rest) (hdirect : s.pool.Direct x s.epoch) :
    Covered { s with
      validator := s.validator.paid
        { s.pool with pendingStake := s.pool.pendingStake - x.principal } x.principal
      staked := rest } := by
  obtain ⟨hlt, hpre⟩ := hdirect
  refine of_active hpre ?_ ?_ (h.current hpre) h.backed
  · have hcovers := h.coversActive hpre
    rw [hx, owedTokens_cons_of_le hlt] at hcovers
    exact hcovers
  · have hwaits := h.waits hpre
    rw [hx, pendingPrincipals_cons, if_pos hlt] at hwaits
    show pendingPrincipals s.epoch rest = s.pool.pendingStake - x.principal
    omega

/-- A withdrawal through the pool returns the tokens of its principal. -/
theorem withdraw (hb : s.Books) (hx : s.staked = x ::ₘ rest) (hpool : ¬s.pool.Direct x s.epoch)
    (hp : s.pool.Withdraws x s.epoch paid p) :
    Covered { s with validator := s.validator.paid p.settled paid, staked := rest } := by
  have hbooks := hb.withdraw hx hp
  obtain ⟨old, now, hold, hnow, hpaid, rfl⟩ := hp
  have hold' := rateAt_of_eq hold
  cases hpre : s.pool.isPreactive with
  | true =>
    obtain ⟨htokens, hsui, htoken, hdata⟩ := h.preactive hpre
    have hunit := isUnit_of_initial (rateAt_of_preactive hpre)
    have hp : old.tokens x.principal = x.principal := by
      rw [← hold']
      exact tokens_of_isUnit _ (hunit _) _
    have hs : now.sui x.principal = x.principal := by
      rw [← rateAt_of_eq hnow]
      exact sui_of_isUnit _ (hunit _) _
    -- without rewards the principal is paid, and as many tokens are returned
    rw [hp, hs, Nat.sub_self, Nat.zero_min] at hpaid
    simp only [hp, settled] at hbooks ⊢
    rw [if_pos (.inr hpre)] at hbooks ⊢
    refine of_preactive hbooks hpre ?_ rfl rfl hdata
    show s.pool.poolTokenBalance - (s.pool.pendingPoolTokenWithdraw + x.principal) =
      s.pool.suiBalance - (s.pool.pendingTotalSuiWithdraw + paid)
    omega
  | false =>
    obtain ⟨hcovers, hwaits⟩ := h.leaves hpre hx <| by
      by_contra hlt
      exact hpool ⟨by omega, hpre⟩
    rw [hold'] at hcovers
    unfold settled
    split
    · rename_i hin
      refine of_active hpre ?_ hwaits (fun h => ?_) h.backed
      · show 0 + (s.pool.fungibleSupply + owedTokens s.pool.rateAt (s.epoch + 1) rest) ≤
          s.pool.poolTokenBalance - (s.pool.pendingPoolTokenWithdraw + old.tokens x.principal)
        omega
      · rcases hin with hin | hin
        · exact absurd (hin.symm.trans h) (by decide)
        · exact absurd (hin.symm.trans hpre) (by decide)
    · refine of_active hpre ?_ hwaits (h.current hpre) h.backed
      show s.pool.pendingPoolTokenWithdraw + old.tokens x.principal +
        (s.pool.fungibleSupply + owedTokens s.pool.rateAt (s.epoch + 1) rest) ≤
        s.pool.poolTokenBalance
      omega

theorem convert (hx : s.staked = x ::ₘ rest) (hp : s.pool.Converts x s.epoch y p) :
    Covered { s with
      validator := { s.validator with stakingPool := p }
      staked := rest
      fungible := y ::ₘ s.fungible } := by
  obtain ⟨hepoch, hpre, -, old, hold, hpos, rfl, rfl⟩ := hp
  obtain ⟨hcovers, hwaits⟩ := h.leaves hpre hx hepoch
  rw [rateAt_of_eq hold] at hcovers
  refine of_active hpre ?_ hwaits (h.current hpre) fun _ => ?_
  · show s.pool.pendingPoolTokenWithdraw + (s.pool.fungibleSupply + old.tokens x.principal +
      owedTokens s.pool.rateAt (s.epoch + 1) rest) ≤ s.pool.poolTokenBalance
    omega
  · show 0 < s.pool.fungiblePrincipal + x.principal
    have hprincipal : 0 < x.principal := by
      apply Nat.pos_of_ne_zero
      intro hzero
      rw [hzero, tokens_zero] at hpos
      exact Nat.lt_irrefl 0 hpos
    omega

theorem redeem (hb : s.Books) {rest : Multiset FungibleStakedSui} (hy : s.fungible = y ::ₘ rest)
    (hp : s.pool.Redeems y s.epoch paid p) :
    Covered { s with validator := s.validator.paid p paid, fungible := rest } := by
  obtain ⟨now, fromPrincipal, fromRewards, -, hdata, hprincipal, -, hpart, -, -, rfl⟩ := hp
  have hpre : s.pool.isPreactive = false := by
    cases hpre : s.pool.isPreactive with
    | true => exact absurd (h.preactive hpre).2.2.2 hdata
    | false => rfl
  have hsupply : y.value ≤ s.pool.fungibleSupply := by
    rw [hb.supply, hy, fungibleValues_cons]
    exact Nat.le_add_right ..
  have hcovers := h.coversActive hpre
  refine of_active hpre ?_ (h.waits hpre) (h.current hpre) fun hleft => ?_
  · show s.pool.pendingPoolTokenWithdraw + y.value + (s.pool.fungibleSupply - y.value +
      owedTokens s.pool.rateAt (s.epoch + 1) s.staked) ≤ s.pool.poolTokenBalance
    omega
  · have hlt : y.value < s.pool.fungibleSupply := Nat.lt_of_sub_pos hleft
    have hprincipal := hpart hlt (h.backed (Nat.zero_lt_of_lt hlt))
    show 0 < s.pool.fungiblePrincipal - fromPrincipal
    omega

/-- Claims are by activation epoch: splitting and joining changes nothing. -/
theorem congr {staked : Multiset StakedSui} {fungible : Multiset FungibleStakedSui}
    (hstarting : ∀ e, startingIn e staked = startingIn e s.staked)
    (hpending : pendingPrincipals s.epoch staked = pendingPrincipals s.epoch s.staked) :
    Covered { s with staked, fungible } where
  covers := by
    have hcovers := h.covers
    have howed : owed { s with staked, fungible } = s.owed :=
      congrArg (s.pool.fungibleSupply + ·) (owedTokens_congr_staked fun e _ => hstarting e)
    rw [howed]
    exact hcovers
  waits hpre := hpending.trans (h.waits hpre)
  preactive := h.preactive
  current := h.current
  backed := h.backed

end

/-! ### Ends of epochs -/

/-- Pending stake is a part of the principal: what is withdrawn is in the balance. -/
theorem withdraw_le (hb : s.Books) (hwaits : pendingPrincipals s.epoch s.staked = s.pool.pendingStake) :
    s.pool.pendingTotalSuiWithdraw ≤ s.pool.suiBalance := by
  have hbalance := hb.balance
  have hle := startingIn_add_pendingPrincipals_le (Nat.le_refl s.epoch) s.staked
  simp only [held] at hbalance
  omega

/-- When everything is withdrawn nothing is owed. -/
theorem owed_eq_zero (hb : s.Books) (hwaits : pendingPrincipals s.epoch s.staked = s.pool.pendingStake)
    (hbacked : 0 < s.pool.fungibleSupply → 0 < s.pool.fungiblePrincipal)
    (hzero : s.pool.suiBalance - s.pool.pendingTotalSuiWithdraw = 0) :
    s.pool.fungibleSupply + owedTokens s.pool.rateAt (s.epoch + 1) s.staked = 0 := by
  have hbalance := hb.balance
  simp only [held] at hbalance
  have hsupply : s.pool.fungibleSupply = 0 := by
    by_contra hne
    have := hbacked (Nat.pos_of_ne_zero hne)
    have hle := startingIn_add_pendingPrincipals_le (Nat.le_refl s.epoch) s.staked
    omega
  have hstake : owedTokens s.pool.rateAt (s.epoch + 1) s.staked = 0 := by
    apply owedTokens_eq_zero
    intro e he
    have hle := startingIn_add_pendingPrincipals_le (Nat.le_of_lt_succ he) s.staked
    omega
  rw [hsupply, hstake]

/-- Processing the pool keeps the claims covered, those of the pending stake among them. -/
theorem processed (hb : s.Books) (hpre : s.pool.isPreactive = false)
    (hin : s.pool.isInactive = false) (hcovers : CoversActive s)
    (hwaits : pendingPrincipals s.epoch s.staked = s.pool.pendingStake)
    (hbacked : 0 < s.pool.fungibleSupply → 0 < s.pool.fungiblePrincipal)
    (hv : v.stakingPool = s.pool.processed s.epoch) : Covered { s with validator := v, epoch := s.epoch + 1 } := by
  obtain ⟨a, ha⟩ : ∃ a, s.pool.activationEpoch = some a :=
    Option.isSome_iff_exists.mp (Option.isNone_eq_false_iff.mp hpre)
  obtain ⟨_, _, _, _, stakingPool, _, _, _, _⟩ := v
  obtain rfl : stakingPool = s.pool.processed s.epoch := hv
  have hrates : ∀ e < s.epoch + 1, (s.pool.processed s.epoch).rateAt e = s.pool.rateAt e :=
    fun e he => rateAt_insert_of_lt he ha hin ha hin rfl
  have hrate : (s.pool.processed s.epoch).rateAt (s.epoch + 1) =
      ⟨s.pool.suiBalance + s.pool.pendingStake - s.pool.pendingTotalSuiWithdraw, s.pool.nextTokens⟩ :=
    rateAt_of_eq (rateAt_insert_self ((hb.history.begun ha).trans (Nat.le_succ _)) ha hin rfl)
  have hsum : s.pool.suiBalance + s.pool.pendingStake - s.pool.pendingTotalSuiWithdraw =
      s.pool.suiBalance - s.pool.pendingTotalSuiWithdraw + s.pool.pendingStake := by
    have := withdraw_le hb hwaits
    omega
  refine of_active hpre ?_ ?_ (fun _ => .inl ⟨hrate, fun hzero => ?_⟩) hbacked
  · show 0 + (s.pool.fungibleSupply +
      owedTokens (s.pool.processed s.epoch).rateAt (s.epoch + 1 + 1) s.staked) ≤ s.pool.nextTokens
    rw [Nat.zero_add, owedTokens_succ, owedTokens_congr hrates, hrate, ← Nat.add_assoc, nextTokens, hsum]
    apply covers_next
    · unfold CoversActive at hcovers
      omega
    · exact owed_eq_zero hb hwaits hbacked
    · rw [← pendingPrincipals_eq_startingIn hb.started, hwaits]
  · exact pendingPrincipals_eq_zero hb.started
  · exact s.pool.nextTokens_eq_zero_iff.mpr hzero

section
variable (h : s.Covered)
include h

theorem ended (hb : s.Books) (hpre : s.pool.isPreactive = false)
    (hin : s.pool.isInactive = false) (validatorReward stakerReward : Nat) :
    Covered { s with
      validator := s.validator.ended validatorReward stakerReward s.epoch
      epoch := s.epoch + 1
      staked := s.stakedWith (s.validator.rewardsStake validatorReward s.epoch) } := by
  have hbooks := hb.rewarded hpre hin validatorReward stakerReward
  have hcovers := h.coversActive hpre
  have hwaits := h.waits hpre
  refine processed hbooks hpre hin ?_ ?_ h.backed rfl
  · show s.pool.pendingPoolTokenWithdraw + (s.pool.fungibleSupply + owedTokens s.pool.rateAt
      (s.epoch + 1) (s.stakedWith (s.validator.rewardsStake validatorReward s.epoch))) ≤
      s.pool.poolTokenBalance
    unfold Validator.rewardsStake
    split
    · rw [stakedWith, Option.elim_some, owedTokens_cons_of_le (by exact le_rfl)]
      exact hcovers
    · exact hcovers
  · show pendingPrincipals s.epoch (s.stakedWith _) = s.pool.pendingStake + validatorReward
    unfold Validator.rewardsStake
    split
    · rw [stakedWith, Option.elim_some, pendingPrincipals_cons, if_pos (Nat.lt_succ_self _), hwaits, Nat.add_comm]
    · have hzero : validatorReward = 0 := by omega
      rw [hzero]
      exact hwaits

/-- A pool that is deactivated keeps the rates up to then. -/
theorem deactivate (hb : s.Books) {epoch : Nat} (hepoch : s.pool.isPreactive = true ∨ s.epoch ≤ epoch)
    (hv : s.validator.deactivate epoch = .ok v) : Covered { s with validator := v } := by
  have hbooks : s.pool.pendingStake = 0 → Books { s with validator := v } := fun hzero =>
    hb.deactivate hzero hv
  obtain ⟨p, hp, hv⟩ := bind_eq_ok.mp hv
  obtain ⟨hin, rfl⟩ := (deactivateStakingPool_sat epoch).ok hp
  cases hv
  cases hpre : s.pool.isPreactive with
  | true =>
    obtain ⟨htokens, hsui, hpool, hdata⟩ := h.preactive hpre
    exact of_preactive (hbooks (hb.settled (.inl hpre))) hpre htokens hsui hpool hdata
  | false =>
    have hle : s.epoch ≤ epoch := by
      rcases hepoch with hepoch | hepoch
      · exact absurd (hpre.symm.trans hepoch) (by decide)
      · exact hepoch
    refine of_active hpre ?_ (h.waits hpre) (fun h => by cases h) h.backed
    show s.pool.pendingPoolTokenWithdraw + (s.pool.fungibleSupply + owedTokens
      (rateAt { s.pool with deactivationEpoch := some epoch }) (s.epoch + 1) s.staked) ≤
      s.pool.poolTokenBalance
    rw [owedTokens_congr fun e he =>
      rateAt_deactivate hin ((Nat.le_of_lt_succ he).trans hle)]
    exact h.coversActive hpre

theorem activate (hb : s.Books) {epoch activationEpoch : Nat}
    (hstarted : ∀ x ∈ s.staked, x.stakeActivationEpoch ≤ epoch)
    (hv : s.validator.activate activationEpoch = .ok v) : Covered { s with validator := v, epoch } := by
  obtain ⟨p, hp, hv⟩ := bind_eq_ok.mp hv
  obtain ⟨hpre, -, rfl⟩ := (activateStakingPool_sat activationEpoch).ok hp
  cases hv
  obtain ⟨htokens, hsui, hpool, hdata⟩ := h.preactive hpre
  -- the only rate in the history is the initial one
  have hinitial (e : Nat) : rateAt { s.pool with
      activationEpoch := some activationEpoch
      exchangeRates := s.pool.exchangeRates.insert activationEpoch .initial } e = .initial := by
    apply rateAt_initial
    intro k r hr
    rcases BTreeMap.insert_eq_some.mp hr with ⟨-, rfl⟩ | ⟨-, hr⟩
    · rfl
    · exact absurd (BTreeMap.mem_of_get hr) (hb.history.fresh hpre k)
  have howed := owed_of_preactive hpre hdata hb.started
  have hcovers := h.covers
  rw [howed] at hcovers
  refine of_active rfl ?_ ?_ (fun _ => .inr ⟨?_, htokens⟩) h.backed
  · show s.pool.pendingPoolTokenWithdraw + (s.pool.fungibleSupply + owedTokens _ (epoch + 1) s.staked) ≤
      s.pool.poolTokenBalance
    rw [fungibleSupply_eq_zero hdata, Nat.zero_add, owedTokens_of_isUnit
      (isUnit_of_initial hinitial) fun x hx => Nat.lt_add_one_of_le (hstarted x hx)]
    exact hcovers
  · rw [pendingPrincipals_eq_zero hstarted, hb.settled (.inl hpre)]
  · exact isUnit_of_initial hinitial epoch

/-- An epoch without pending stake may be skipped. -/
theorem skipEpoch (hb : s.Books) (hzero : s.pool.pendingStake = 0) : Covered { s with epoch := s.epoch + 1 } := by
  cases hpre : s.pool.isPreactive with
  | true =>
    obtain ⟨htokens, hsui, hpool, hdata⟩ := h.preactive hpre
    exact of_preactive hb.skipEpoch hpre htokens hsui hpool hdata
  | false =>
    have hwaits := h.waits hpre
    refine of_active hpre ?_ ?_ (fun hin => ?_) h.backed
    · show s.pool.pendingPoolTokenWithdraw + (s.pool.fungibleSupply +
        owedTokens s.pool.rateAt (s.epoch + 1 + 1) s.staked) ≤ s.pool.poolTokenBalance
      rw [owedTokens_succ, ← pendingPrincipals_eq_startingIn hb.started, hwaits, hzero, tokens_zero]
      exact h.coversActive hpre
    · have hle := pendingPrincipals_succ_le s.epoch s.staked
      show pendingPrincipals (s.epoch + 1) s.staked = s.pool.pendingStake
      omega
    · obtain ⟨a, ha⟩ : ∃ a, s.pool.activationEpoch = some a :=
        Option.isSome_iff_exists.mp (Option.isNone_eq_false_iff.mp hpre)
      have hrate := rateAt_succ hb.history ha hin
      rw [hrate]
      exact h.current hpre hin

end

end Covered

/-! ### Every run without pending stake in safe mode -/

/-- No stake waits: the epochs that may be skipped. -/
def NothingPending (s : Ledger) : Prop := s.pool.pendingStake = 0

instance : DecidablePred NothingPending := fun s =>
  inferInstanceAs (Decidable (s.pool.pendingStake = 0))

theorem Genesis.covered (h : Genesis s) : s.Covered := by
  induction h with
  | new metadata gasPrice commissionRate poolId capId =>
    exact .of_preactive (.new ..) rfl rfl rfl rfl rfl
  | @stake s amount x v h hv ih =>
    obtain ⟨hbooks, hpre, hin, -, -⟩ := h.books
    cases (Validator.requestAddStakeAtGenesis_sat hbooks.noRecord hpre amount s.epoch).ok hv
    exact ih.add hbooks hin rfl (.inr ⟨hpre, Nat.zero_le _⟩)

theorem Initial.covered (h : Initial s) : s.Covered := by
  cases h with
  | genesis h hv =>
    obtain ⟨hbooks, -, -, -, hstarted⟩ := h.books
    exact h.covered.activate hbooks (fun x hx => (hstarted x hx).trans (Nat.zero_le _)) hv
  | candidate => exact .of_preactive (.new ..) rfl rfl rfl rfl rfl

theorem Step.covered {s s' : Ledger} (h : Step NothingPending s s') (hb : s.Books)
    (hs : s.Covered) : s'.Covered := by
  cases h with
  | @addStake amount x v h =>
    have hspec := Validator.requestAddStake_sat .overflow hb.noRecord amount s.epoch (fun _ => NoUnderflow.code)
    obtain ⟨hin, hr⟩ := hspec.ok h
    cases hr
    exact hs.add hb hin rfl (.inl rfl)
  | withdrawStake hx h =>
    rcases (hb.requestWithdrawStake_spec hx).ok h with ⟨hdirect, hr⟩ | ⟨hpool, p, hp, hr⟩
    · cases hr
      exact hs.withdrawDirect hx hdirect
    · dsimp only at hr
      subst hr
      exact hs.withdraw hb hx hpool hp
  | convert hx h =>
    obtain ⟨p, hp, hr⟩ := (Validator.convertToFungibleStakedSui_sat hb.history.activated ..).ok h
    cases hr
    exact hs.convert hx hp
  | redeem hy h =>
    obtain ⟨p, hp, hr⟩ := (hb.redeemFungibleStakedSui_spec hy).ok h
    dsimp only at hr
    subst hr
    exact hs.redeem hb hy hp
  | split hx h =>
    obtain ⟨ha, hb, hsum, -⟩ := StakedSui.split_spec h
    apply hs.congr
    · intro e
      simp only [hx, startingIn_cons, ha, hb]
      split <;> omega
    · simp only [hx, pendingPrincipals_cons, ha, hb]
      split <;> omega
  | join hx h =>
    obtain ⟨hy, hz, hsum, -⟩ := StakedSui.join_spec h
    apply hs.congr
    · intro e
      simp only [hx, startingIn_cons, hy, hz]
      split <;> omega
    · simp only [hx, pendingPrincipals_cons, hy, hz]
      split <;> omega
  | splitFungible hx h => exact hs.congr (fun _ => rfl) rfl
  | joinFungible hx h => exact hs.congr (fun _ => rfl) rfl
  | removeCandidate hpre h => exact hs.deactivate hb (.inl hpre) h
  | endEpoch hpre hin h =>
    cases (hb.endEpoch_spec hpre hin _ _ NoUnderflow.overflow).ok h
    exact hs.ended hb hpre hin _ _
  | depart hpre hin h hv =>
    cases (hb.endEpoch_spec hpre hin _ _ NoUnderflow.overflow).ok h
    exact (hs.ended hb hpre hin _ _).deactivate (hb.ended hpre hin _ _).1 (.inr le_rfl) hv
  | activate h => exact hs.activate hb hb.started h
  | skipEpoch hzero => exact hs.skipEpoch hb hzero
  | update hpool hstake => exact hs.update hpool

theorem Reachable.covered (h : Reachable NothingPending s) : s.Covered := by
  obtain ⟨s₀, hinitial, hrun⟩ := h
  induction hrun with
  | refl => exact hinitial.covered
  | @tail s s' hrun hstep ih =>
    have hbooks : s.Books := Reachable.books ⟨s₀, hinitial, hrun⟩
    exact hstep.covered hbooks ih

/-! ### What the holders' tokens are worth -/

/-- The tokens of each holder: of stake that was processed, and of fungible stake. -/
def holdings (s : Ledger) : Multiset Nat :=
  ((s.staked.filter fun x => x.stakeActivationEpoch < s.processedEpochs).map fun x =>
    (s.pool.rateAt x.stakeActivationEpoch).tokens x.principal) +
  s.fungible.map FungibleStakedSui.value

/-- What all the holders' tokens are worth in the current epoch. -/
def claims (s : Ledger) : Nat := (s.holdings.map (s.pool.rateAt s.epoch).sui).sum

/-- Holders have no more than is owed to them together. -/
theorem sum_tokens_le_owedTokens (rate : Nat → PoolTokenExchangeRate) (n : Nat) (staked : Multiset StakedSui) :
    ((staked.filter fun x => x.stakeActivationEpoch < n).map fun x =>
      (rate x.stakeActivationEpoch).tokens x.principal).sum ≤ owedTokens rate n staked := by
  induction staked using Multiset.induction with
  | empty => simp
  | cons x staked ih =>
    by_cases hx : x.stakeActivationEpoch < n
    · rw [Multiset.filter_cons_of_pos (p := fun x => StakedSui.stakeActivationEpoch x < n) _ hx,
        Multiset.map_cons, Multiset.sum_cons]
      exact (Nat.add_le_add_left ih _).trans (owedTokens_cons_le rate staked hx)
    · rw [Multiset.filter_cons_of_neg (p := fun x => StakedSui.stakeActivationEpoch x < n) _ hx,
        owedTokens_cons_of_le (Nat.le_of_not_lt hx)]
      exact ih

theorem holdings_le_owed (hb : s.Books) : s.holdings.sum ≤ s.owed := by
  have hstake := sum_tokens_le_owedTokens s.pool.rateAt s.processedEpochs s.staked
  have hsupply := hb.supply
  rw [holdings, Multiset.sum_add, owed]
  unfold fungibleValues at hsupply
  omega

/-- The parts of an amount of tokens are worth no more than the amount. -/
theorem sum_sui_le (rate : PoolTokenExchangeRate) (tokens : Multiset Nat) :
    (tokens.map rate.sui).sum ≤ rate.sui tokens.sum := by
  induction tokens using Multiset.induction with
  | empty => simp
  | cons a tokens ih =>
    rw [Multiset.map_cons, Multiset.sum_cons, Multiset.sum_cons]
    exact (Nat.add_le_add_left ih _).trans (rate.sui_add_le _ _)

theorem Covered.claims_le (h : s.Covered) (hb : s.Books)
    (hin : s.pool.isPreactive = true ∨ s.pool.isInactive = false) : s.claims ≤ s.pool.suiBalance := by
  have howed : s.holdings.sum ≤ s.pool.poolTokenBalance := by
    have := holdings_le_owed hb
    have := h.covers
    omega
  have hsum : s.claims ≤ (s.pool.rateAt s.epoch).sui s.holdings.sum := sum_sui_le ..
  have hunit (hrate : (s.pool.rateAt s.epoch).isUnit)
      (heq : s.pool.poolTokenBalance = s.pool.suiBalance) : s.claims ≤ s.pool.suiBalance := by
    rw [sui_of_isUnit _ hrate] at hsum
    omega
  cases hpre : s.pool.isPreactive with
  | true =>
    exact hunit (isUnit_of_initial (rateAt_of_preactive hpre) _) (h.preactive hpre).1
  | false =>
    have hin : s.pool.isInactive = false := by
      rcases hin with hin | hin
      · exact absurd (hpre.symm.trans hin) (by decide)
      · exact hin
    rcases h.current hpre hin with ⟨hrate, hzero⟩ | ⟨hrate, heq⟩
    · rw [hrate] at hsum
      apply hsum.trans
      apply sui_le ⟨s.pool.suiBalance, s.pool.poolTokenBalance⟩ howed
      intro hs
      have := hzero hs
      omega
    · exact hunit hrate heq

/-- **The pool tokens cover every claim along every run that skips an epoch only with no stake
pending**: beside the tokens whose withdrawal is pending there are those of the fungible stake and,
for each activation epoch, those its rate gives for the principal that started in it. So the
withdrawal of tokens is never cut off at zero, and all that the holders of a pool that is not
inactive can claim is in its balance. Along every run the check of the balances at the end of an
epoch passes. -/
theorem tokens_cover :
    (∀ s : Ledger, Reachable NothingPending s →
      s.pool.pendingPoolTokenWithdraw + s.owed ≤ s.pool.poolTokenBalance ∧
      s.pool.pendingPoolTokenWithdraw ≤ s.pool.poolTokenBalance ∧
      (s.pool.isPreactive = true ∨ s.pool.isInactive = false → s.claims ≤ s.pool.suiBalance)) ∧
    (∀ (maySkip : Ledger → Prop) (s : Ledger), Reachable maySkip s →
      s.pool.isPreactive = false → s.pool.isInactive = false →
      ∀ validatorReward stakerReward,
        s.validator.endEpoch validatorReward stakerReward s.epoch ≠
          .error (.code .tokenBalancesDoNotMatchExchangeRate)) := by
  refine ⟨fun s h => ?_, fun maySkip s h hpre hin a b herror => ?_⟩
  · have hcovered := h.covered
    refine ⟨hcovered.covers, ?_, hcovered.claims_le h.books⟩
    have := hcovered.covers
    omega
  · have hspec := h.books.endEpoch_spec (E := fun e => e = .overflow) hpre hin a b rfl
    exact absurd (hspec.error herror) (by decide)

/-- Stake of 100 SUI at the genesis, and as much again in an epoch that ends in safe mode. At the
end of the next epoch there is a reward of 100 SUI, and the pool has 150 tokens for claims of 200,
with nothing pending.
Without safe mode, what is left in an inactive pool may be less than its last holder's claim,
because stake that was rounded down leaves with its full principal. -/
theorem tokens_cover_fails :
    (∃ s : Ledger, Reachable (fun _ => True) s ∧ s.pool.pendingStake = 0 ∧
      s.pool.poolTokenBalance < s.pool.pendingPoolTokenWithdraw + s.owed) ∧
    (∃ s : Ledger, Reachable NothingPending s ∧ s.pool.suiBalance < s.claims) := by
  constructor
  · have hrun : ((play (fun _ => True) 100000000000
        [.addStake 100000000000, .skipEpoch, .endEpoch 0 100000000000]).any fun s => decide
        (s.pool.pendingStake = 0 ∧ s.pool.poolTokenBalance < s.pool.pendingPoolTokenWithdraw + s.owed)) = true := by
      decide +kernel
    obtain ⟨s, hreach, hs⟩ := exists_of_play hrun
    exact ⟨s, hreach, of_decide_eq_true hs⟩
  · have hrun : ((play NothingPending 1000000000
        [.endEpoch 0 9000000000, .addStake 1000000009, .endEpoch 0 0, .addStake 1000000009,
          .depart 0 0, .withdrawStake ⟨7, 2, 1000000009⟩, .withdrawStake ⟨7, 3, 1000000009⟩]).any
        fun s => decide (s.pool.suiBalance < s.claims)) = true := by
      decide +kernel
    obtain ⟨s, hreach, hs⟩ := exists_of_play hrun
    exact ⟨s, hreach, of_decide_eq_true hs⟩

/-- Stake of 100 and 50, a reward, and an epoch skipped with nothing pending. -/
theorem tokens_cover_skipped : ∃ s : Ledger, Reachable NothingPending s ∧ s.epoch = 2 ∧
    s.owed = 145 ∧ s.pool.pendingPoolTokenWithdraw + s.owed ≤ s.pool.poolTokenBalance := by
  have hrun : ((play NothingPending 100 [.addStake 50, .endEpoch 0 10, .skipEpoch]).any fun s =>
      decide (s.epoch = 2 ∧ s.owed = 145)) = true := by
    decide +kernel
  obtain ⟨s, hreach, hs⟩ := exists_of_play hrun
  obtain ⟨hepoch, howed⟩ := of_decide_eq_true hs
  exact ⟨s, hreach, hepoch, howed, (tokens_cover.1 s hreach).1⟩

end Ledger
end Sui.SuiSystem
