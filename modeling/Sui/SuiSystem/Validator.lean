import Sui.SuiSystem.StakingPool

/-! Validators.

A validator is its metadata, its quotes for gas price and commission and its staking pool. Every
request to the pool goes through the validator, which keeps in `nextEpochStake` what the stake
will be in the next epoch. -/
namespace Sui.SuiSystem

open Sui.Lib

abbrev Address := Nat

abbrev Bytes := List UInt8

def maxCommissionRate : Nat := 2000

def maxValidatorMetadataLength : Nat := 256

def maxValidatorGasPrice : Nat := 100000

structure ValidatorMetadata where
  suiAddress : Address
  protocolPubkeyBytes : Bytes
  networkPubkeyBytes : Bytes
  workerPubkeyBytes : Bytes
  proofOfPossession : Bytes
  name : Bytes
  description : Bytes
  imageUrl : Bytes
  projectUrl : Bytes
  netAddress : Bytes
  p2pAddress : Bytes
  primaryAddress : Bytes
  workerAddress : Bytes
  nextEpochProtocolPubkeyBytes : Option Bytes := none
  nextEpochProofOfPossession : Option Bytes := none
  nextEpochNetworkPubkeyBytes : Option Bytes := none
  nextEpochWorkerPubkeyBytes : Option Bytes := none
  nextEpochNetAddress : Option Bytes := none
  nextEpochP2pAddress : Option Bytes := none
  nextEpochPrimaryAddress : Option Bytes := none
  nextEpochWorkerAddress : Option Bytes := none
deriving DecidableEq, Repr

namespace ValidatorMetadata

def bothSomeAndEqual (a b : Option Bytes) : Bool := a.any fun x => b.any fun y => x == y

/-- The comparison `is_duplicate` of validators makes on their metadata. -/
def isDuplicate (self other : ValidatorMetadata) : Bool :=
  self.suiAddress == other.suiAddress
    || self.name == other.name
    || self.netAddress == other.netAddress
    || self.p2pAddress == other.p2pAddress
    || self.primaryAddress == other.primaryAddress
    || self.workerAddress == other.workerAddress
    || self.protocolPubkeyBytes == other.protocolPubkeyBytes
    || self.networkPubkeyBytes == other.networkPubkeyBytes
    || self.networkPubkeyBytes == other.workerPubkeyBytes
    || self.workerPubkeyBytes == other.workerPubkeyBytes
    || self.workerPubkeyBytes == other.networkPubkeyBytes
    -- both for the next epoch
    || bothSomeAndEqual self.nextEpochNetAddress other.nextEpochNetAddress
    || bothSomeAndEqual self.nextEpochP2pAddress other.nextEpochP2pAddress
    || bothSomeAndEqual self.nextEpochPrimaryAddress other.nextEpochPrimaryAddress
    || bothSomeAndEqual self.nextEpochWorkerAddress other.nextEpochWorkerAddress
    || bothSomeAndEqual self.nextEpochProtocolPubkeyBytes other.nextEpochProtocolPubkeyBytes
    || bothSomeAndEqual self.nextEpochNetworkPubkeyBytes other.nextEpochNetworkPubkeyBytes
    || bothSomeAndEqual self.nextEpochNetworkPubkeyBytes other.nextEpochWorkerPubkeyBytes
    || bothSomeAndEqual self.nextEpochWorkerPubkeyBytes other.nextEpochWorkerPubkeyBytes
    || bothSomeAndEqual self.nextEpochWorkerPubkeyBytes other.nextEpochNetworkPubkeyBytes
    -- mine for the next epoch, the other's current
    || self.nextEpochNetAddress.any (· == other.netAddress)
    || self.nextEpochP2pAddress.any (· == other.p2pAddress)
    || self.nextEpochPrimaryAddress.any (· == other.primaryAddress)
    || self.nextEpochWorkerAddress.any (· == other.workerAddress)
    || self.nextEpochProtocolPubkeyBytes.any (· == other.protocolPubkeyBytes)
    || self.nextEpochNetworkPubkeyBytes.any (· == other.networkPubkeyBytes)
    || self.nextEpochNetworkPubkeyBytes.any (· == other.workerPubkeyBytes)
    || self.nextEpochWorkerPubkeyBytes.any (· == other.workerPubkeyBytes)
    || self.nextEpochWorkerPubkeyBytes.any (· == other.networkPubkeyBytes)
    -- the other's for the next epoch, mine current
    || other.nextEpochNetAddress.any (· == self.netAddress)
    || other.nextEpochP2pAddress.any (· == self.p2pAddress)
    || other.nextEpochPrimaryAddress.any (· == self.primaryAddress)
    || other.nextEpochWorkerAddress.any (· == self.workerAddress)
    || other.nextEpochProtocolPubkeyBytes.any (· == self.protocolPubkeyBytes)
    || other.nextEpochNetworkPubkeyBytes.any (· == self.networkPubkeyBytes)
    || other.nextEpochNetworkPubkeyBytes.any (· == self.workerPubkeyBytes)
    || other.nextEpochWorkerPubkeyBytes.any (· == self.workerPubkeyBytes)
    || other.nextEpochWorkerPubkeyBytes.any (· == self.networkPubkeyBytes)

/-- The staged values become current. A staged key comes with its proof of possession. -/
def effectuateStaged (m : ValidatorMetadata) : Run ValidatorMetadata := do
  let m := { m with
    netAddress := m.nextEpochNetAddress.getD m.netAddress, nextEpochNetAddress := none
    p2pAddress := m.nextEpochP2pAddress.getD m.p2pAddress, nextEpochP2pAddress := none
    primaryAddress := m.nextEpochPrimaryAddress.getD m.primaryAddress
    nextEpochPrimaryAddress := none
    workerAddress := m.nextEpochWorkerAddress.getD m.workerAddress, nextEpochWorkerAddress := none }
  let m ← match m.nextEpochProtocolPubkeyBytes with
    | none => pure m
    | some key => do
      let proof ← Exec.unwrap m.nextEpochProofOfPossession .fieldMissing
      pure { m with
        protocolPubkeyBytes := key, nextEpochProtocolPubkeyBytes := none
        proofOfPossession := proof, nextEpochProofOfPossession := none }
  return { m with
    networkPubkeyBytes := m.nextEpochNetworkPubkeyBytes.getD m.networkPubkeyBytes
    nextEpochNetworkPubkeyBytes := none
    workerPubkeyBytes := m.nextEpochWorkerPubkeyBytes.getD m.workerPubkeyBytes
    nextEpochWorkerPubkeyBytes := none }

end ValidatorMetadata

structure Validator where
  metadata : ValidatorMetadata
  votingPower : Nat := 0
  operationCapId : Nat
  gasPrice : Nat
  stakingPool : StakingPool
  commissionRate : Nat
  nextEpochStake : Nat := 0
  nextEpochGasPrice : Nat
  nextEpochCommissionRate : Nat

namespace Validator

/-- A validator with an empty pool. The two ids are fresh. -/
def newFromMetadata (metadata : ValidatorMetadata) (gasPrice commissionRate poolId capId : Nat) :
    Validator where
  metadata
  operationCapId := capId
  gasPrice
  stakingPool := { id := poolId }
  commissionRate
  nextEpochGasPrice := gasPrice
  nextEpochCommissionRate := commissionRate

/-- The strings of the metadata are ASCII; the keys and addresses pass the native check. -/
def new (validate : ValidatorMetadata → Bool) (metadata : ValidatorMetadata)
    (gasPrice commissionRate poolId capId : Nat) : Run Validator := do
  let m := metadata
  ensure (m.netAddress.length ≤ maxValidatorMetadataLength
    ∧ m.p2pAddress.length ≤ maxValidatorMetadataLength
    ∧ m.primaryAddress.length ≤ maxValidatorMetadataLength
    ∧ m.workerAddress.length ≤ maxValidatorMetadataLength
    ∧ m.name.length ≤ maxValidatorMetadataLength
    ∧ m.description.length ≤ maxValidatorMetadataLength
    ∧ m.imageUrl.length ≤ maxValidatorMetadataLength
    ∧ m.projectUrl.length ≤ maxValidatorMetadataLength) .validatorMetadataExceedingLengthLimit
  ensure (commissionRate ≤ maxCommissionRate) .commissionRateTooHigh
  ensure (gasPrice < maxValidatorGasPrice) .gasPriceHigherThanThreshold
  let texts := [m.name, m.description, m.imageUrl, m.projectUrl, m.netAddress, m.p2pAddress,
    m.primaryAddress, m.workerAddress]
  ensure (texts.all fun text => text.all (· < 128)) .invalidAscii
  ensure (validate metadata) .invalidMetadata
  return newFromMetadata metadata gasPrice commissionRate poolId capId

variable (self : Validator)

def suiAddress : Address := self.metadata.suiAddress

def stakingPoolId : Nat := self.stakingPool.id

def totalStake : Nat := self.stakingPool.suiBalance

def isPreactive : Bool := self.stakingPool.isPreactive

def isDuplicate (other : Validator) : Bool := self.metadata.isDuplicate other.metadata

def deactivate (deactivationEpoch : Nat) : Run Validator := do
  let stakingPool ← self.stakingPool.deactivateStakingPool deactivationEpoch
  return { self with stakingPool }

def activate (activationEpoch : Nat) : Run Validator := do
  let stakingPool ← self.stakingPool.activateStakingPool activationEpoch
  return { self with stakingPool }

def adjustStakeAndGasPrice : Validator :=
  { self with
    gasPrice := self.nextEpochGasPrice
    commissionRate := self.nextEpochCommissionRate }

/-- Stake with a preactive pool is processed right away. -/
def requestAddStake (stake epoch : Nat) : Run (StakedSui × Validator) := do
  ensure (0 < stake) .invalidStakeAmount
  let stakeEpoch ← U64.add epoch 1
  let (stakedSui, pool) ← self.stakingPool.requestAddStake stake stakeEpoch
  let pool ← if pool.isPreactive then pool.processPendingStake else pure pool
  let nextEpochStake ← U64.add self.nextEpochStake stake
  return (stakedSui, { self with stakingPool := pool, nextEpochStake })

def requestAddStakeAtGenesis (stake epoch : Nat) : Run (StakedSui × Validator) := do
  ensure (epoch = 0) .calledDuringNonGenesis
  ensure (0 < stake) .invalidStakeAmount
  let (stakedSui, pool) ← self.stakingPool.requestAddStake stake 0
  let pool ← pool.processPendingStake
  let nextEpochStake ← U64.add self.nextEpochStake stake
  return (stakedSui, { self with stakingPool := pool, nextEpochStake })

def convertToFungibleStakedSui (stakedSui : StakedSui) (epoch : Nat) :
    Run (FungibleStakedSui × Validator) := do
  let (fungibleStakedSui, stakingPool) ←
    self.stakingPool.convertToFungibleStakedSui stakedSui epoch
  return (fungibleStakedSui, { self with stakingPool })

def redeemFungibleStakedSui (fungibleStakedSui : FungibleStakedSui) (epoch : Nat) :
    Run (Nat × Validator) := do
  let (sui, stakingPool) ← self.stakingPool.redeemFungibleStakedSui fungibleStakedSui epoch
  let nextEpochStake ← U64.sub self.nextEpochStake sui
  return (sui, { self with stakingPool, nextEpochStake })

/-- The reward is computed for the event. -/
def requestWithdrawStake (stakedSui : StakedSui) (epoch : Nat) : Run (Nat × Validator) := do
  let (withdrawnStake, stakingPool) ← self.stakingPool.requestWithdrawStake stakedSui epoch
  let _rewardAmount ← U64.sub withdrawnStake stakedSui.principal
  let nextEpochStake ← U64.sub self.nextEpochStake withdrawnStake
  return (withdrawnStake, { self with stakingPool, nextEpochStake })

def depositStakeRewards (reward : Nat) : Run Validator := do
  let nextEpochStake ← U64.add self.nextEpochStake reward
  let stakingPool ← self.stakingPool.depositRewards reward
  return { self with stakingPool, nextEpochStake }

/-- What the loop of `distribute_reward` does with the two parts of a validator's reward: its own
part is staked with it, if there is any, and the stakers' part goes to the pool. -/
def distributeReward (validatorReward stakerReward epoch : Nat) :
    Run (Option StakedSui × Validator) := do
  let (rewardsStake, self) ←
    if 0 < validatorReward then do
      let (stakedSui, self) ← self.requestAddStake validatorReward epoch
      pure (some stakedSui, self)
    else pure (none, self)
  let self ← self.depositStakeRewards stakerReward
  return (rewardsStake, self)

def processPendingStakesAndWithdraws (epoch : Nat) : Run Validator := do
  let stakingPool ← self.stakingPool.processPendingStakesAndWithdraws epoch
  return { self with stakingPool }

/-- What `advance_epoch` does with an active validator before any validator leaves. -/
def endEpoch (validatorReward stakerReward epoch : Nat) : Run (Option StakedSui × Validator) := do
  let (rewardsStake, self) ← self.distributeReward validatorReward stakerReward epoch
  let self ← self.adjustStakeAndGasPrice.processPendingStakesAndWithdraws epoch
  return (rewardsStake, self)

def effectuateStagedMetadata : Run Validator := do
  let metadata ← self.metadata.effectuateStaged
  return { self with metadata }

end Validator

end Sui.SuiSystem
