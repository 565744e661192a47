import Sui.SuiSystem.VotingPower

/-! The validator set.

Validators are active, waiting to be active from the next epoch, candidates, or inactive. A pool
is found by its id, through the address of its validator unless that is inactive. Requests work on
one validator; the end of an epoch rewards and processes all the active ones, lets those leave who
asked for it or have too little stake, and takes in those that wait.

The tables of the source are maps and its vectors lists. Where the source takes a mutable
reference to a validator the model takes what is done with it. -/
namespace Sui.SuiSystem

open Sui.Lib Sui.Lib.Exec

def basisPointDenominator : Nat := 10000

def phaseLength : Nat := 14

/-- Adds an entry to a table. -/
def tableAdd {κ ν : Type} [LinearOrder κ] (m : BTreeMap κ ν) (k : κ) (v : ν) :
    Run (BTreeMap κ ν) := do
  require (k ∉ m) .fieldExists
  return m.insert k v

/-- Takes an entry out of a table. -/
def tableRemove {κ ν : Type} [LinearOrder κ] (m : BTreeMap κ ν) (k : κ) : Run (ν × BTreeMap κ ν) := do
  let v ← unwrap m[k]? .fieldMissing
  return (v, m.erase k)

/-- Takes an element out of a vector. -/
def vectorRemove {α : Type} (xs : List α) (i : Nat) : Run (α × List α) := do
  let x ← vectorGet xs i
  return (x, xs.eraseIdx i)

/-- The reports of an epoch: for each validator those who reported it. -/
abbrev ReportRecords := BTreeMap Address (BTreeSet Address)

structure ValidatorSet where
  totalStake : Nat
  activeValidators : List Validator
  pendingActiveValidators : List Validator := []
  pendingRemovals : List Nat := []
  stakingPoolMappings : BTreeMap Nat Address
  inactiveValidators : BTreeMap Nat Validator := ∅
  validatorCandidates : BTreeMap Address Validator := ∅
  atRiskValidators : BTreeMap Address Nat := ∅
  votingPowerAdmissionStartEpoch : Option Nat := none

namespace ValidatorSet

def calculateTotalStakes (validators : List Validator) : Run Nat :=
  validators.foldlM (fun stake v => U64.add stake v.totalStake) 0

def new (initActiveValidators : List Validator) : Run ValidatorSet := do
  let totalStake ← calculateTotalStakes initActiveValidators
  let stakingPoolMappings ← initActiveValidators.foldlM (fun mappings v =>
    tableAdd mappings v.stakingPoolId v.suiAddress) ∅
  let activeValidators ← VotingPower.setVotingPower initActiveValidators totalStake
  return { totalStake, activeValidators, stakingPoolMappings }

/-! ### Looking validators up -/

def findValidator (validators : List Validator) (address : Address) : Option Nat :=
  validators.findIdx? fun v => v.suiAddress == address

variable (self : ValidatorSet)

def isActiveValidatorBySuiAddress (address : Address) : Bool :=
  (findValidator self.activeValidators address).isSome

def isDuplicateWithActiveValidator (search : Validator) : Bool :=
  self.activeValidators.any fun v => v.suiAddress != search.suiAddress && v.isDuplicate search

def isDuplicateWithPendingValidator (search : Validator) : Bool :=
  self.pendingActiveValidators.any fun v => v.suiAddress != search.suiAddress && v.isDuplicate search

def assertNoPendingOrActiveDuplicates (validator : Validator) : Run Unit := do
  ensure (self.isDuplicateWithActiveValidator validator = false) .duplicateValidator
  ensure (self.isDuplicateWithPendingValidator validator = false) .duplicateValidator

def getValidatorRef (validators : List Validator) (address : Address) : Run Validator := do
  let idx ← unwrap (findValidator validators address) (.code .notAValidator)
  vectorGet validators idx

/-- Does something with a candidate or an active validator. -/
def withCandidateOrActiveValidator {α : Type} (address : Address)
    (f : Validator → Run (α × Validator)) : Run (α × ValidatorSet) :=
  if address ∈ self.validatorCandidates then do
    let v ← unwrap self.validatorCandidates[address]? .fieldMissing
    let (a, v) ← f v
    return (a, { self with validatorCandidates := self.validatorCandidates.insert address v })
  else do
    let idx ← unwrap (findValidator self.activeValidators address) (.code .notAValidator)
    let v ← vectorGet self.activeValidators idx
    let (a, v) ← f v
    return (a, { self with activeValidators := self.activeValidators.set idx v })

/-- Does something with the validator of a pool. -/
def withValidatorOfPool {α : Type} (poolId : Nat) (f : Validator → Run (α × Validator)) :
    Run (α × ValidatorSet) :=
  if poolId ∈ self.stakingPoolMappings then do
    let address ← unwrap self.stakingPoolMappings[poolId]? .fieldMissing
    self.withCandidateOrActiveValidator address f
  else do
    ensure (poolId ∈ self.inactiveValidators) .noPoolFound
    let v ← unwrap self.inactiveValidators[poolId]? .fieldMissing
    let (a, v) ← f v
    return (a, { self with inactiveValidators := self.inactiveValidators.insert poolId v })

/-! ### Requests -/

def requestAddValidatorCandidate (validator : Validator) : Run ValidatorSet := do
  let address := validator.suiAddress
  ensure (address ∉ self.validatorCandidates) .alreadyValidatorCandidate
  ensure (findValidator self.activeValidators address = none) .alreadyValidator
  ensure (findValidator self.pendingActiveValidators address = none) .alreadyValidator
  self.assertNoPendingOrActiveDuplicates validator
  ensure (validator.isPreactive = true) .validatorNotCandidate
  let stakingPoolMappings ← tableAdd self.stakingPoolMappings validator.stakingPoolId address
  let validatorCandidates ← tableAdd self.validatorCandidates address validator
  return { self with stakingPoolMappings, validatorCandidates }

def requestRemoveValidatorCandidate (sender : Address) (epoch : Nat) : Run ValidatorSet := do
  ensure (sender ∈ self.validatorCandidates) .notValidatorCandidate
  let (validator, validatorCandidates) ← tableRemove self.validatorCandidates sender
  ensure (validator.isPreactive = true) .validatorNotCandidate
  let stakingPoolId := validator.stakingPoolId
  let (_, stakingPoolMappings) ← tableRemove self.stakingPoolMappings stakingPoolId
  let validator ← validator.deactivate epoch
  let inactiveValidators ← tableAdd self.inactiveValidators stakingPoolId validator
  return { self with validatorCandidates, stakingPoolMappings, inactiveValidators }

/-- Without a recorded start the first phase has not begun. -/
def admissionStartEpoch (epoch : Nat) : Run Nat :=
  match self.votingPowerAdmissionStartEpoch with
  | some startEpoch => return startEpoch
  | none => U64.add epoch 1

/-- The thresholds of voting power for joining, for staying, and below which a validator has to
leave at once. They fall in three phases. -/
def getVotingPowerThresholds (epoch : Nat) : Run (Nat × Nat × Nat) := do
  let startEpoch ← self.admissionStartEpoch epoch
  let phase2 ← U64.add startEpoch phaseLength
  if epoch < phase2 then return (12, 8, 4)
  else do
    let phase3 ← U64.add startEpoch (2 * phaseLength)
    if epoch < phase3 then return (6, 4, 2) else return (3, 2, 1)

def canJoin (stake epoch : Nat) : Run Bool := do
  let (minJoiningVotingPower, _, _) ← self.getVotingPowerThresholds epoch
  let futureTotalStake ← U64.add self.totalStake stake
  let futureValidatorVotingPower ← VotingPower.deriveRawVotingPower stake futureTotalStake
  return decide (minJoiningVotingPower ≤ futureValidatorVotingPower)

def requestAddValidator (sender : Address) (epoch : Nat) : Run ValidatorSet := do
  ensure (sender ∈ self.validatorCandidates) .notValidatorCandidate
  let (validator, validatorCandidates) ← tableRemove self.validatorCandidates sender
  self.assertNoPendingOrActiveDuplicates validator
  ensure (validator.isPreactive = true) .validatorNotCandidate
  let joins ← self.canJoin validator.totalStake epoch
  ensure (joins = true) .minJoiningStakeNotReached
  return { self with
    validatorCandidates
    pendingActiveValidators := self.pendingActiveValidators ++ [validator] }

def requestRemoveValidator (sender : Address) : Run ValidatorSet := do
  let index ← unwrap (findValidator self.activeValidators sender) (.code .notAValidator)
  ensure (index ∉ self.pendingRemovals) .validatorAlreadyRemoved
  return { self with pendingRemovals := self.pendingRemovals ++ [index] }

def requestAddStake (address : Address) (stake epoch : Nat) : Run (StakedSui × ValidatorSet) := do
  ensure (minStakingThreshold ≤ stake) .stakingBelowThreshold
  self.withCandidateOrActiveValidator address fun v => v.requestAddStake stake epoch

def requestWithdrawStake (stakedSui : StakedSui) (epoch : Nat) : Run (Nat × ValidatorSet) :=
  self.withValidatorOfPool stakedSui.poolId fun v => v.requestWithdrawStake stakedSui epoch

def convertToFungibleStakedSui (stakedSui : StakedSui) (epoch : Nat) :
    Run (FungibleStakedSui × ValidatorSet) :=
  self.withValidatorOfPool stakedSui.poolId fun v => v.convertToFungibleStakedSui stakedSui epoch

def redeemFungibleStakedSui (fungibleStakedSui : FungibleStakedSui) (epoch : Nat) :
    Run (Nat × ValidatorSet) :=
  self.withValidatorOfPool fungibleStakedSui.poolId fun v =>
    v.redeemFungibleStakedSui fungibleStakedSui epoch

def nextEpochValidatorCount : Run Nat := do
  let remaining ← U64.sub self.activeValidators.length self.pendingRemovals.length
  U64.add remaining self.pendingActiveValidators.length

/-! ### Rewards -/

def computeUnadjustedRewardDistribution (validators : List Validator)
    (totalVotingPower totalStakingReward totalStorageFundReward : Nat) :
    Run (List Nat × List Nat) := do
  let storageFundRewardPerValidator ← U64.div totalStorageFundReward validators.length
  let stakingRewardAmounts ← validators.mapM fun v =>
    U64.mulDiv v.votingPower totalStakingReward totalVotingPower
  return (stakingRewardAmounts, validators.map fun _ => storageFundRewardPerValidator)

def sumVotingPowerByAddresses (validators : List Validator) (addresses : List Address) : Run Nat :=
  addresses.foldlM (fun sum address => do
    let v ← getValidatorRef validators address
    U64.add sum v.votingPower) 0

/-- The validators that were reported by a quorum. -/
def computeSlashedValidators (records : ReportRecords) : Run (List Address) :=
  records.toList.foldlM (fun slashed (address, reporters) => do
    ensure (self.isActiveValidatorBySuiAddress address = true) .nonValidatorInReportRecords
    let votes ← sumVotingPowerByAddresses self.activeValidators reporters.toList
    return if VotingPower.quorumThreshold ≤ votes then slashed ++ [address] else slashed) []

def getValidatorIndices (validators : List Validator) (addresses : List Address) : Run (List Nat) :=
  addresses.mapM fun address => unwrap (findValidator validators address) (.code .notAValidator)

/-- What is taken from the validators that are slashed, by their index, with the sum. -/
structure Adjustments where
  totalStaking : Nat := 0
  staking : BTreeMap Nat Nat := ∅
  totalStorageFund : Nat := 0
  storageFund : BTreeMap Nat Nat := ∅

def computeRewardAdjustments (indices : List Nat) (rewardSlashingRate : Nat)
    (stakingRewardAmounts storageFundRewardAmounts : List Nat) : Run Adjustments :=
  indices.foldlM (fun adjustments index => do
    let stakingReward ← vectorGet stakingRewardAmounts index
    let adjustment ← U64.mulDiv stakingReward rewardSlashingRate basisPointDenominator
    let staking ← tableAdd adjustments.staking index adjustment
    let totalStaking ← U64.add adjustments.totalStaking adjustment
    let storageFundReward ← vectorGet storageFundRewardAmounts index
    let adjustment ← U64.mulDiv storageFundReward rewardSlashingRate basisPointDenominator
    let storageFund ← tableAdd adjustments.storageFund index adjustment
    let totalStorageFund ← U64.add adjustments.totalStorageFund adjustment
    return { totalStaking, staking, totalStorageFund, storageFund }) {}

/-- A slashed validator's reward without its adjustment, any other's with its share. -/
def adjustReward (reward : Nat) (individualAdjustment : Option Nat) (share : Run Nat) : Run Nat :=
  match individualAdjustment with
  | some adjustment => U64.sub reward adjustment
  | none => do
    let adjustment ← share
    U64.add reward adjustment

/-- Slashed validators lose their adjustment, and the others share it. -/
def computeAdjustedRewardDistribution (validators : List Validator)
    (totalVotingPower totalSlashedVotingPower : Nat)
    (stakingRewardAmounts storageFundRewardAmounts : List Nat) (adjustments : Adjustments) :
    Run (List Nat × List Nat) := do
  let unslashedVotingPower ← U64.sub totalVotingPower totalSlashedVotingPower
  let numUnslashed ← U64.sub validators.length adjustments.staking.size
  let amounts ← (List.range validators.length).mapM fun i => do
    let v ← vectorGet validators i
    let stakingReward ← vectorGet stakingRewardAmounts i
    let stakingAmount ← adjustReward stakingReward adjustments.staking[i]?
      (U64.mulDiv adjustments.totalStaking v.votingPower unslashedVotingPower)
    let storageFundReward ← vectorGet storageFundRewardAmounts i
    let storageFundAmount ← adjustReward storageFundReward adjustments.storageFund[i]?
      (U64.div adjustments.totalStorageFund numUnslashed)
    return (stakingAmount, storageFundAmount)
  return (amounts.map Prod.fst, amounts.map Prod.snd)

/-- The two balances that are distributed, and what is staked from them. -/
structure Distribution where
  validators : List Validator
  stakingRewards : Nat
  storageFundReward : Nat
  stakes : List StakedSui := []

def distributeReward (validators : List Validator)
    (stakingRewardAmounts storageFundRewardAmounts : List Nat)
    (stakingRewards storageFundReward epoch : Nat) : Run Distribution := do
  ensure (0 < validators.length) .validatorSetEmpty
  (List.range validators.length).foldlM (fun (d : Distribution) i => do
    let v ← vectorGet d.validators i
    let stakingRewardAmount ← vectorGet stakingRewardAmounts i
    let stakingRewards ← U64.split d.stakingRewards stakingRewardAmount
    let commissionAmount ← U64.mulDiv stakingRewardAmount v.commissionRate basisPointDenominator
    let stakerReward ← U64.split stakingRewardAmount commissionAmount
    let storageFundAmount ← vectorGet storageFundRewardAmounts i
    let storageFundReward ← U64.split d.storageFundReward storageFundAmount
    let validatorReward ← U64.add commissionAmount storageFundAmount
    let (rewardsStake, v) ← v.distributeReward validatorReward stakerReward epoch
    return {
      validators := d.validators.set i v
      stakingRewards, storageFundReward
      stakes := rewardsStake.toList ++ d.stakes }) { validators, stakingRewards, storageFundReward }

/-- What is announced of each validator at the end of an epoch. -/
structure ValidatorEpochInfoEvent where
  epoch : Nat
  validatorAddress : Address
  referenceGasSurveyQuote : Nat
  stake : Nat
  votingPower : Nat
  commissionRate : Nat
  poolStakingReward : Nat
  storageFundStakingReward : Nat
  poolTokenExchangeRate : PoolTokenExchangeRate
  tallyingRuleReporters : List Address
  tallyingRuleGlobalScore : Nat

def emitValidatorEpochEvents (newEpoch : Nat) (validators : List Validator)
    (stakingRewardAmounts storageFundRewardAmounts : List Nat) (records : ReportRecords)
    (slashed : List Address) : Run (List ValidatorEpochInfoEvent) :=
  (List.range validators.length).mapM fun i => do
    let v ← vectorGet validators i
    let poolStakingReward ← vectorGet stakingRewardAmounts i
    let storageFundStakingReward ← vectorGet storageFundRewardAmounts i
    let rate ← v.stakingPool.poolTokenExchangeRateAtEpoch newEpoch
    return {
      epoch := newEpoch
      validatorAddress := v.suiAddress
      referenceGasSurveyQuote := v.gasPrice
      stake := v.totalStake
      votingPower := v.votingPower
      commissionRate := v.commissionRate
      poolStakingReward, storageFundStakingReward
      poolTokenExchangeRate := rate
      tallyingRuleReporters := (records[v.suiAddress]?.map fun reporters => reporters.toList).getD []
      tallyingRuleGlobalScore := if v.suiAddress ∈ slashed then 0 else 1 }

/-! ### Leaving and joining -/

/-- Forgets the reports about a validator and those it made. -/
def cleanReportRecordsLeavingValidator (records : ReportRecords) (leaving : Address) :
    Run ReportRecords :=
  let records := records.erase leaving
  records.keys.foldlM (fun records reported => do
    let reporters ← unwrap records[reported]? .fieldMissing
    if leaving ∈ reporters then
      let reporters := reporters.erase leaving
      return if reporters.isEmpty then records.erase reported
        else records.insert reported reporters
    else return records) records

/-- The stake that is removed, the set and the reports. -/
def processValidatorDeparture (validator : Validator) (records : ReportRecords) (epoch : Nat) :
    Run (Nat × ValidatorSet × ReportRecords) := do
  let newEpoch ← U64.add epoch 1
  let address := validator.suiAddress
  let poolId := validator.stakingPoolId
  let (_, stakingPoolMappings) ← tableRemove self.stakingPoolMappings poolId
  let atRiskValidators := self.atRiskValidators.erase address
  let records ← cleanReportRecordsLeavingValidator records address
  let removedStake := validator.totalStake
  let validator ← validator.deactivate newEpoch
  let inactiveValidators ← tableAdd self.inactiveValidators poolId validator
  return (removedStake, { self with stakingPoolMappings, atRiskValidators, inactiveValidators }, records)

/-- An active validator leaves the list, and the set. -/
def removeActiveValidator (index : Nat) (records : ReportRecords) (epoch : Nat) :
    Run (Nat × ValidatorSet × ReportRecords) := do
  let (validator, activeValidators) ← vectorRemove self.activeValidators index
  processValidatorDeparture { self with activeValidators } validator records epoch

/-- The largest index leaves first, so that the others stay valid. -/
def processPendingRemovals (records : ReportRecords) (epoch : Nat) :
    Run (ValidatorSet × ReportRecords) := do
  let sorted := self.pendingRemovals.insertionSort (· ≤ ·)
  sorted.reverse.foldlM (fun (self, records) index => do
    let (_, self, records) ← removeActiveValidator self index records epoch
    return (self, records)) ({ self with pendingRemovals := [] }, records)

/-- The thresholds an epoch change works with. -/
structure Thresholds where
  minJoining : Nat
  low : Nat
  veryLow : Nat
  gracePeriod : Nat
  totalStake : Nat

/-- One more epoch at risk. -/
def newLowStakePeriod (address : Address) : Run Nat :=
  match self.atRiskValidators[address]? with
  | some numEpochs => U64.add numEpochs 1
  | none => return 1

/-- What an active validator's stake means for it: it is safe, it is at risk, or it leaves. -/
def reviewActiveValidator (thresholds : Thresholds) (epoch index : Nat) (records : ReportRecords) :
    Run (Nat × ValidatorSet × ReportRecords) := do
  let v ← vectorGet self.activeValidators index
  let address := v.suiAddress
  let votingPower ← VotingPower.deriveRawVotingPower v.totalStake thresholds.totalStake
  if thresholds.low ≤ votingPower then
    return (0, { self with atRiskValidators := self.atRiskValidators.erase address }, records)
  else if thresholds.veryLow ≤ votingPower then do
    let period ← self.newLowStakePeriod address
    let self := { self with atRiskValidators := self.atRiskValidators.insert address period }
    if thresholds.gracePeriod < period then removeActiveValidator self index records epoch
    else return (0, self, records)
  else removeActiveValidator self index records epoch

/-- A validator that waits is activated, or it is a candidate again. -/
def reviewPendingValidator (thresholds : Thresholds) (epoch : Nat) (validator : Validator) :
    Run (Nat × ValidatorSet) := do
  let stake := validator.totalStake
  let votingPower ← VotingPower.deriveRawVotingPower stake thresholds.totalStake
  if thresholds.minJoining ≤ votingPower then do
    let validator ← validator.activate epoch
    return (0, { self with activeValidators := self.activeValidators ++ [validator] })
  else do
    let validatorCandidates ← tableAdd self.validatorCandidates validator.suiAddress validator
    return (stake, { self with validatorCandidates })

def updateValidatorPositionsAndCalculateTotalStake (lowStakeGracePeriod : Nat)
    (records : ReportRecords) (epoch : Nat) : Run (Nat × ValidatorSet × ReportRecords) := do
  -- the table is emptied from its end
  let pending := self.pendingActiveValidators.reverse
  let self := { self with pendingActiveValidators := [] }
  let pendingTotalStake ← calculateTotalStakes pending
  let activeTotalStake ← calculateTotalStakes self.activeValidators
  let initialTotalStake ← U64.add activeTotalStake pendingTotalStake
  let (minJoining, low, veryLow) ← self.getVotingPowerThresholds epoch
  let thresholds : Thresholds :=
    ⟨minJoining, low, veryLow, lowStakeGracePeriod, initialTotalStake⟩
  let (removed, self, records) ← (List.range self.activeValidators.length).reverse.foldlM
    (fun (removed, self, records) index => do
      let (stake, self, records) ← reviewActiveValidator self thresholds epoch index records
      let removed ← U64.add removed stake
      return (removed, self, records)) (0, self, records)
  let (removed, self) ← pending.foldlM (fun (removed, self) validator => do
    let (stake, self) ← reviewPendingValidator self thresholds epoch validator
    let removed ← U64.add removed stake
    return (removed, self)) (removed, self)
  let total ← U64.sub initialTotalStake removed
  return (total, self, records)

/-! ### The end of an epoch -/

/-- What the end of an epoch leaves. -/
structure EpochChange where
  validators : ValidatorSet
  records : ReportRecords
  computationReward : Nat
  storageFundReward : Nat
  stakes : List StakedSui
  events : List ValidatorEpochInfoEvent

def advanceEpoch (computationReward storageFundReward : Nat) (records : ReportRecords)
    (rewardSlashingRate lowStakeGracePeriod epoch : Nat) : Run EpochChange := do
  let newEpoch ← U64.add epoch 1
  let totalVotingPower := VotingPower.totalVotingPower
  let self := { self with
    votingPowerAdmissionStartEpoch := some (self.votingPowerAdmissionStartEpoch.getD epoch) }
  let (stakingAmounts, storageAmounts) ← computeUnadjustedRewardDistribution self.activeValidators
    totalVotingPower computationReward storageFundReward
  let slashed ← self.computeSlashedValidators records
  let slashedVotingPower ← sumVotingPowerByAddresses self.activeValidators slashed
  let indices ← getValidatorIndices self.activeValidators slashed
  let adjustments ← computeRewardAdjustments indices rewardSlashingRate stakingAmounts storageAmounts
  let (stakingAmounts, storageAmounts) ← computeAdjustedRewardDistribution self.activeValidators
    totalVotingPower slashedVotingPower stakingAmounts storageAmounts adjustments
  let distribution ← distributeReward self.activeValidators stakingAmounts storageAmounts
    computationReward storageFundReward epoch
  let activeValidators := distribution.validators.map Validator.adjustStakeAndGasPrice
  let activeValidators ← activeValidators.mapM fun v => v.processPendingStakesAndWithdraws epoch
  let events ← emitValidatorEpochEvents newEpoch activeValidators stakingAmounts storageAmounts
    records slashed
  let self := { self with activeValidators }
  let (self, records) ← self.processPendingRemovals records epoch
  let (totalStake, self, records) ←
    self.updateValidatorPositionsAndCalculateTotalStake lowStakeGracePeriod records epoch
  let activeValidators ← VotingPower.setVotingPower self.activeValidators totalStake
  let activeValidators ← activeValidators.mapM Validator.effectuateStagedMetadata
  return {
    validators := { self with totalStake, activeValidators }
    records
    computationReward := distribution.stakingRewards
    storageFundReward := distribution.storageFundReward
    stakes := distribution.stakes
    events }

end ValidatorSet

end Sui.SuiSystem
