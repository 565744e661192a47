import Sui.Lib.BTree
import Sui.Lib.Checked

/-! Staking pools.

A pool counts the SUI staked with a validator and the pool tokens issued for it. Stake is
processed at epoch boundaries: what is added waits in `pendingStake`, what is withdrawn is paid
at once and recorded in `pendingTotalSuiWithdraw` and `pendingPoolTokenWithdraw`. The principal
lies in the stakers' own objects, the rewards in the pool.

Balances are their values. The bag of extra fields holds at most the data of fungible stake and
the underflow of a withdrawal, which are fields here. -/
namespace Sui.SuiSystem

open Sui.Lib

/-- The abort codes of the modules that are modelled, by name. -/
inductive SystemError
  -- staking_pool
  | insufficientPoolTokenBalance
  | wrongPool
  | insufficientSuiTokenBalance
  | tokenBalancesDoNotMatchExchangeRate
  | delegationToInactivePool
  | deactivationOfInactivePool
  | incompatibleStakedSui
  | poolAlreadyActive
  | poolPreactiveOrInactive
  | activationOfInactivePool
  | delegationOfZeroSui
  | stakedSuiBelowThreshold
  | cannotMintFungibleStakedSuiYet
  | invariantFailure
  -- validator
  | commissionRateTooHigh
  | validatorMetadataExceedingLengthLimit
  | invalidStakeAmount
  | calledDuringNonGenesis
  | gasPriceHigherThanThreshold
  | invalidMetadata
  | invalidAscii
  -- validator_set
  | nonValidatorInReportRecords
  | duplicateValidator
  | noPoolFound
  | notAValidator
  | minJoiningStakeNotReached
  | alreadyValidatorCandidate
  | validatorNotCandidate
  | notValidatorCandidate
  | stakingBelowThreshold
  | validatorAlreadyRemoved
  | validatorSetEmpty
  | invalidCap
  | alreadyValidator
  -- voting_power
  | totalPowerMismatch
  | relativePowerMismatch
  | votingPowerOverThreshold
  | invalidVotingPower
  -- sui_system_state_inner
  | notValidator
  | limitExceeded
  | cannotReportOneself
  | reportRecordNotFound
deriving DecidableEq, Repr

/-- A Move function of the system package. -/
abbrev Run (α : Type) := Except (Abort SystemError) α

/-- `assert!` -/
def ensure (c : Prop) [Decidable c] (e : SystemError) : Run Unit := Exec.require c (.code e)

/-- Staked objects are not split to below this amount. -/
def minStakingThreshold : Nat := 1000000000

/-! ### Exchange rates -/

structure PoolTokenExchangeRate where
  suiAmount : Nat
  poolTokenAmount : Nat
deriving DecidableEq, Repr

namespace PoolTokenExchangeRate

def initial : PoolTokenExchangeRate := ⟨0, 0⟩

/-- When either amount is zero nothing is staked, and the rate is one. -/
def isUnit (rate : PoolTokenExchangeRate) : Prop := rate.suiAmount = 0 ∨ rate.poolTokenAmount = 0

instance (rate : PoolTokenExchangeRate) : Decidable rate.isUnit :=
  inferInstanceAs (Decidable (_ ∨ _))

def getSuiAmount (rate : PoolTokenExchangeRate) (tokenAmount : Nat) : Run Nat :=
  if rate.isUnit then return tokenAmount
  else U64.mulDiv rate.suiAmount tokenAmount rate.poolTokenAmount

def getTokenAmount (rate : PoolTokenExchangeRate) (suiAmount : Nat) : Run Nat :=
  if rate.isUnit then return suiAmount
  else U64.mulDiv rate.poolTokenAmount suiAmount rate.suiAmount

end PoolTokenExchangeRate

/-! ### Staked objects -/

structure StakedSui where
  poolId : Nat
  stakeActivationEpoch : Nat
  principal : Nat
deriving DecidableEq, Repr

structure FungibleStakedSui where
  poolId : Nat
  value : Nat
deriving DecidableEq, Repr

structure FungibleStakedSuiData where
  totalSupply : Nat
  principal : Nat
deriving DecidableEq, Repr

namespace StakedSui

/-- The remaining part, and the part split off. -/
def split (self : StakedSui) (splitAmount : Nat) : Run (StakedSui × StakedSui) := do
  ensure (splitAmount ≤ self.principal) .insufficientSuiTokenBalance
  let remainingAmount ← U64.sub self.principal splitAmount
  ensure (minStakingThreshold ≤ remainingAmount) .stakedSuiBelowThreshold
  ensure (minStakingThreshold ≤ splitAmount) .stakedSuiBelowThreshold
  let principal ← U64.split self.principal splitAmount
  return ({ self with principal }, { self with principal := splitAmount })

def isEqualStakingMetadata (self other : StakedSui) : Prop :=
  self.poolId = other.poolId ∧ self.stakeActivationEpoch = other.stakeActivationEpoch

instance (self other : StakedSui) : Decidable (self.isEqualStakingMetadata other) :=
  inferInstanceAs (Decidable (_ ∧ _))

def join (self other : StakedSui) : Run StakedSui := do
  ensure (self.isEqualStakingMetadata other) .incompatibleStakedSui
  let principal ← U64.add self.principal other.principal
  return { self with principal }

end StakedSui

namespace FungibleStakedSui

def split (self : FungibleStakedSui) (splitAmount : Nat) :
    Run (FungibleStakedSui × FungibleStakedSui) := do
  ensure (splitAmount ≤ self.value) .insufficientPoolTokenBalance
  let value ← U64.sub self.value splitAmount
  return ({ self with value }, { self with value := splitAmount })

def join (self other : FungibleStakedSui) : Run FungibleStakedSui := do
  ensure (self.poolId = other.poolId) .wrongPool
  let value ← U64.add self.value other.value
  return { self with value }

end FungibleStakedSui

/-! ### Pools -/

structure StakingPool where
  id : Nat
  activationEpoch : Option Nat := none
  deactivationEpoch : Option Nat := none
  suiBalance : Nat := 0
  rewardsPool : Nat := 0
  poolTokenBalance : Nat := 0
  exchangeRates : BTreeMap Nat PoolTokenExchangeRate := ∅
  pendingStake : Nat := 0
  pendingTotalSuiWithdraw : Nat := 0
  pendingPoolTokenWithdraw : Nat := 0
  fungibleStakedSuiData : Option FungibleStakedSuiData := none
  underflowSuiBalance : Option Nat := none

namespace StakingPool
variable (pool : StakingPool)

def isPreactive : Bool := pool.activationEpoch.isNone

def isInactive : Bool := pool.deactivationEpoch.isSome

/-- The latest rate that is not later than the epoch, back to the activation of the pool. -/
def latestRate (rates : BTreeMap Nat PoolTokenExchangeRate) (activationEpoch : Nat) :
    Nat → Run PoolTokenExchangeRate
  | 0 =>
    if 0 < activationEpoch then return .initial
    else match rates[0]? with
      | some rate => return rate
      | none => .error .underflow
  | epoch + 1 =>
    if epoch + 1 < activationEpoch then return .initial
    else match rates[epoch + 1]? with
      | some rate => return rate
      | none => latestRate rates activationEpoch epoch

def poolTokenExchangeRateAtEpoch (epoch : Nat) : Run PoolTokenExchangeRate :=
  match pool.activationEpoch with
  | none => return .initial
  | some activationEpoch =>
    if epoch < activationEpoch then return .initial
    else latestRate pool.exchangeRates activationEpoch (min (pool.deactivationEpoch.getD epoch) epoch)

def requestAddStake (stake stakeActivationEpoch : Nat) : Run (StakedSui × StakingPool) := do
  ensure (pool.isInactive = false) .delegationToInactivePool
  ensure (0 < stake) .delegationOfZeroSui
  let pendingStake ← U64.add pool.pendingStake stake
  return (⟨pool.id, stakeActivationEpoch, stake⟩, { pool with pendingStake })

/-- The pool tokens, and the principal. -/
def withdrawFromPrincipal (stakedSui : StakedSui) : Run (Nat × Nat) := do
  ensure (stakedSui.poolId = pool.id) .wrongPool
  let rate ← pool.poolTokenExchangeRateAtEpoch stakedSui.stakeActivationEpoch
  let poolTokenWithdrawAmount ← rate.getTokenAmount stakedSui.principal
  return (poolTokenWithdrawAmount, stakedSui.principal)

/-- The rewards, and the pool. -/
def withdrawRewards (principalWithdrawAmount poolTokenWithdrawAmount epoch : Nat) :
    Run (Nat × StakingPool) := do
  let rate ← pool.poolTokenExchangeRateAtEpoch epoch
  let totalSuiWithdrawAmount ← rate.getSuiAmount poolTokenWithdrawAmount
  let rewardWithdrawAmount :=
    if principalWithdrawAmount ≤ totalSuiWithdrawAmount then
      totalSuiWithdrawAmount - principalWithdrawAmount
    else 0
  let rewardWithdrawAmount := min rewardWithdrawAmount pool.rewardsPool
  let rewardsPool ← U64.split pool.rewardsPool rewardWithdrawAmount
  return (rewardWithdrawAmount, { pool with rewardsPool })

/-- What is withdrawn beyond the balance is recorded, except in inactive pools. -/
def processPendingStakeWithdraw : Run StakingPool := do
  let pool ←
    if pool.pendingTotalSuiWithdraw ≤ pool.suiBalance then
      pure { pool with suiBalance := pool.suiBalance - pool.pendingTotalSuiWithdraw }
    else if pool.isInactive then
      pure { pool with suiBalance := 0 }
    else do
      let diff := pool.pendingTotalSuiWithdraw - pool.suiBalance
      Exec.require (pool.underflowSuiBalance = none) .fieldExists
      pure { pool with suiBalance := 0, underflowSuiBalance := some diff }
  return { pool with
    poolTokenBalance := pool.poolTokenBalance - pool.pendingPoolTokenWithdraw
    pendingTotalSuiWithdraw := 0
    pendingPoolTokenWithdraw := 0 }

def processPendingStake : Run StakingPool := do
  let latestExchangeRate : PoolTokenExchangeRate := ⟨pool.suiBalance, pool.poolTokenBalance⟩
  let suiDiff := pool.underflowSuiBalance.getD 0
  let total ← U64.add pool.suiBalance pool.pendingStake
  let suiBalance ← U64.sub total suiDiff
  let poolTokenBalance ← latestExchangeRate.getTokenAmount suiBalance
  return { pool with suiBalance, poolTokenBalance, pendingStake := 0, underflowSuiBalance := none }

/-- The SUI that is paid, and the pool. -/
def requestWithdrawStake (stakedSui : StakedSui) (epoch : Nat) : Run (Nat × StakingPool) :=
  if epoch < stakedSui.stakeActivationEpoch ∧ pool.isPreactive = false then do
    let pendingStake ← U64.sub pool.pendingStake stakedSui.principal
    return (stakedSui.principal, { pool with pendingStake })
  else do
    let (poolTokenWithdrawAmount, principalWithdrawAmount) ← pool.withdrawFromPrincipal stakedSui
    let (rewardsWithdraw, pool) ←
      pool.withdrawRewards principalWithdrawAmount poolTokenWithdrawAmount epoch
    let totalSuiWithdrawAmount ← U64.add principalWithdrawAmount rewardsWithdraw
    let pendingTotalSuiWithdraw ← U64.add pool.pendingTotalSuiWithdraw totalSuiWithdrawAmount
    let pendingPoolTokenWithdraw ← U64.add pool.pendingPoolTokenWithdraw poolTokenWithdrawAmount
    let pool := { pool with pendingTotalSuiWithdraw, pendingPoolTokenWithdraw }
    let pool ←
      if pool.isInactive ∨ pool.isPreactive then pool.processPendingStakeWithdraw else pure pool
    return (totalSuiWithdrawAmount, pool)

/-- What is taken from the principal and from the rewards for a part of the fungible stake. -/
def calculateFungibleStakedSuiWithdrawAmount (latestExchangeRate : PoolTokenExchangeRate)
    (value principalAmount totalSupply : Nat) : Run (Nat × Nat) := do
  let totalSuiAmount ← latestExchangeRate.getSuiAmount totalSupply
  let principalAmount := min principalAmount totalSuiAmount
  let totalRewards ← U64.sub totalSuiAmount principalAmount
  let principalWithdrawAmount ← U64.mulDiv value principalAmount totalSupply
  let rewardsWithdrawAmount ← U64.mulDiv value totalRewards totalSupply
  let expectedSuiAmount ← latestExchangeRate.getSuiAmount value
  let sum ← U64.add principalWithdrawAmount rewardsWithdrawAmount
  ensure (sum ≤ expectedSuiAmount) .invariantFailure
  return (principalWithdrawAmount, rewardsWithdrawAmount)

def redeemFungibleStakedSui (fungibleStakedSui : FungibleStakedSui) (epoch : Nat) :
    Run (Nat × StakingPool) := do
  ensure (fungibleStakedSui.poolId = pool.id) .wrongPool
  let latestExchangeRate ← pool.poolTokenExchangeRateAtEpoch epoch
  let data ← Exec.unwrap pool.fungibleStakedSuiData .fieldMissing
  let (principalAmount, rewardsAmount) ← calculateFungibleStakedSuiWithdrawAmount
    latestExchangeRate fungibleStakedSui.value data.principal data.totalSupply
  let totalSupply ← U64.sub data.totalSupply fungibleStakedSui.value
  let principal ← U64.split data.principal principalAmount
  let rewardsPool ← U64.split pool.rewardsPool rewardsAmount
  let suiOut ← U64.add principalAmount rewardsAmount
  let pendingTotalSuiWithdraw ← U64.add pool.pendingTotalSuiWithdraw suiOut
  let pendingPoolTokenWithdraw ← U64.add pool.pendingPoolTokenWithdraw fungibleStakedSui.value
  return (suiOut, { pool with
    fungibleStakedSuiData := some { totalSupply, principal }
    rewardsPool, pendingTotalSuiWithdraw, pendingPoolTokenWithdraw })

def convertToFungibleStakedSui (stakedSui : StakedSui) (epoch : Nat) :
    Run (FungibleStakedSui × StakingPool) := do
  ensure (stakedSui.poolId = pool.id) .wrongPool
  ensure (stakedSui.stakeActivationEpoch ≤ epoch) .cannotMintFungibleStakedSuiYet
  ensure (pool.isPreactive = false ∧ pool.isInactive = false) .poolPreactiveOrInactive
  let rate ← pool.poolTokenExchangeRateAtEpoch stakedSui.stakeActivationEpoch
  let poolTokenAmount ← rate.getTokenAmount stakedSui.principal
  ensure (0 < poolTokenAmount) .stakedSuiBelowThreshold
  let data ← match pool.fungibleStakedSuiData with
    | none => pure { totalSupply := poolTokenAmount, principal := stakedSui.principal }
    | some data => do
      let totalSupply ← U64.add data.totalSupply poolTokenAmount
      let principal ← U64.add data.principal stakedSui.principal
      pure { totalSupply, principal }
  return (⟨stakedSui.poolId, poolTokenAmount⟩, { pool with fungibleStakedSuiData := some data })

def depositRewards (rewards : Nat) : Run StakingPool := do
  let suiBalance ← U64.add pool.suiBalance rewards
  let rewardsPool ← U64.add pool.rewardsPool rewards
  return { pool with suiBalance, rewardsPool }

def checkBalanceInvariants (epoch : Nat) : Run Unit := do
  let rate ← pool.poolTokenExchangeRateAtEpoch epoch
  let expected ← rate.getTokenAmount pool.suiBalance
  ensure (expected = pool.poolTokenBalance) .tokenBalancesDoNotMatchExchangeRate

/-- Adds the rate of the epoch that begins. -/
def addExchangeRate (epoch : Nat) (rate : PoolTokenExchangeRate) : Run StakingPool := do
  Exec.require (epoch ∉ pool.exchangeRates) .fieldExists
  return { pool with exchangeRates := pool.exchangeRates.insert epoch rate }

def processPendingStakesAndWithdraws (epoch : Nat) : Run StakingPool := do
  let newEpoch ← U64.add epoch 1
  let pool ← pool.processPendingStakeWithdraw
  let pool ← pool.processPendingStake
  let pool ← pool.addExchangeRate newEpoch ⟨pool.suiBalance, pool.poolTokenBalance⟩
  pool.checkBalanceInvariants newEpoch
  return pool

def activateStakingPool (activationEpoch : Nat) : Run StakingPool := do
  let pool ← pool.addExchangeRate activationEpoch .initial
  ensure (pool.isPreactive = true) .poolAlreadyActive
  ensure (pool.isInactive = false) .activationOfInactivePool
  return { pool with activationEpoch := some activationEpoch }

def deactivateStakingPool (deactivationEpoch : Nat) : Run StakingPool := do
  ensure (pool.isInactive = false) .deactivationOfInactivePool
  return { pool with deactivationEpoch := some deactivationEpoch }

end StakingPool

end Sui.SuiSystem
