import Sui.SuiSystem.ValidatorSet
import Sui.SuiSystem.Books

/-! The system state and its runs.

The entry points of the system state check limits and capabilities and pass the request on to the
validator set. `System` is the state with the objects that are outstanding from all the pools and
the next id that was not given out; `System.Step` is whatever may happen to it. What an epoch
change hands over to the validator set is arbitrary: the two balances and the slashing rate. -/
namespace Sui.SuiSystem

open Sui.Lib Sui.Lib.Exec

structure SystemParameters where
  minValidatorCount : Nat
  maxValidatorCount : Nat
  validatorLowStakeGracePeriod : Nat

/-- What a validator gives of itself when it is created. -/
structure ValidatorArguments where
  suiAddress : Address
  protocolPubkeyBytes : Bytes
  networkPubkeyBytes : Bytes
  workerPubkeyBytes : Bytes
  proofOfPossession : Bytes
  name : Bytes
  description : Bytes
  imageUrl : Bytes
  projectUrl : Bytes
  netAddress : Bytes
  p2pAddress : Bytes
  primaryAddress : Bytes
  workerAddress : Bytes
  gasPrice : Nat
  commissionRate : Nat

/-- Nothing is staged for the next epoch. -/
def ValidatorArguments.newMetadata (a : ValidatorArguments) : ValidatorMetadata where
  suiAddress := a.suiAddress
  protocolPubkeyBytes := a.protocolPubkeyBytes
  networkPubkeyBytes := a.networkPubkeyBytes
  workerPubkeyBytes := a.workerPubkeyBytes
  proofOfPossession := a.proofOfPossession
  name := a.name
  description := a.description
  imageUrl := a.imageUrl
  projectUrl := a.projectUrl
  netAddress := a.netAddress
  p2pAddress := a.p2pAddress
  primaryAddress := a.primaryAddress
  workerAddress := a.workerAddress

/-- The two ids are fresh. -/
def ValidatorArguments.create (validate : ValidatorMetadata → Bool) (a : ValidatorArguments)
    (poolId capId : Nat) : Run Validator :=
  Validator.new validate a.newMetadata a.gasPrice a.commissionRate poolId capId

structure UnverifiedValidatorOperationCap where
  id : Nat
  authorizerValidatorAddress : Address

structure SuiSystemState where
  epoch : Nat
  validators : ValidatorSet
  parameters : SystemParameters
  validatorReportRecords : ReportRecords := ∅

namespace SuiSystemState
variable (self : SuiSystemState)

def requestAddValidatorCandidate (validate : ValidatorMetadata → Bool)
    (arguments : ValidatorArguments) (poolId capId : Nat) : Run SuiSystemState := do
  let validator ← arguments.create validate poolId capId
  let validators ← self.validators.requestAddValidatorCandidate validator
  return { self with validators }

def requestRemoveValidatorCandidate (sender : Address) : Run SuiSystemState := do
  let validators ← self.validators.requestRemoveValidatorCandidate sender self.epoch
  return { self with validators }

def requestAddValidator (sender : Address) : Run SuiSystemState := do
  let count ← self.validators.nextEpochValidatorCount
  ensure (count < self.parameters.maxValidatorCount) .limitExceeded
  let validators ← self.validators.requestAddValidator sender self.epoch
  return { self with validators }

/-- The limit is not checked when there are already too few validators. -/
def requestRemoveValidator (sender : Address) : Run SuiSystemState := do
  if self.parameters.minValidatorCount ≤ self.validators.activeValidators.length then do
    let count ← self.validators.nextEpochValidatorCount
    ensure (self.parameters.minValidatorCount < count) .limitExceeded
  let validators ← self.validators.requestRemoveValidator sender
  return { self with validators }

def requestAddStake (stake : Nat) (address : Address) : Run (StakedSui × SuiSystemState) := do
  let (stakedSui, validators) ← self.validators.requestAddStake address stake self.epoch
  return (stakedSui, { self with validators })

def requestWithdrawStake (stakedSui : StakedSui) : Run (Nat × SuiSystemState) := do
  let (paid, validators) ← self.validators.requestWithdrawStake stakedSui self.epoch
  return (paid, { self with validators })

def convertToFungibleStakedSui (stakedSui : StakedSui) :
    Run (FungibleStakedSui × SuiSystemState) := do
  let (fungible, validators) ← self.validators.convertToFungibleStakedSui stakedSui self.epoch
  return (fungible, { self with validators })

def redeemFungibleStakedSui (fungibleStakedSui : FungibleStakedSui) :
    Run (Nat × SuiSystemState) := do
  let (paid, validators) ← self.validators.redeemFungibleStakedSui fungibleStakedSui self.epoch
  return (paid, { self with validators })

/-- The address of a capability, if that is the current one of an active validator. -/
def verifyActiveCap (cap : UnverifiedValidatorOperationCap) : Run Address := do
  let v ← ValidatorSet.getValidatorRef self.validators.activeValidators cap.authorizerValidatorAddress
  ensure (v.operationCapId = cap.id) .invalidCap
  return cap.authorizerValidatorAddress

def reportValidator (cap : UnverifiedValidatorOperationCap) (reportee : Address) :
    Run SuiSystemState := do
  ensure (self.validators.isActiveValidatorBySuiAddress reportee = true) .notValidator
  let reporter ← self.verifyActiveCap cap
  ensure (reporter ≠ reportee) .cannotReportOneself
  let reporters := self.validatorReportRecords[reportee]?.getD ∅
  return { self with
    validatorReportRecords := self.validatorReportRecords.insert reportee (reporters.insert reporter) }

def undoReportValidator (cap : UnverifiedValidatorOperationCap) (reportee : Address) :
    Run SuiSystemState := do
  let reporter ← self.verifyActiveCap cap
  let reporters ← unwrap self.validatorReportRecords[reportee]? (.code .reportRecordNotFound)
  ensure (reporter ∈ reporters) .reportRecordNotFound
  let reporters := reporters.erase reporter
  return { self with
    validatorReportRecords :=
      if reporters.isEmpty then self.validatorReportRecords.erase reportee
      else self.validatorReportRecords.insert reportee reporters }

/-- The validators' part of an epoch change, and the stakes it creates. -/
def advanceEpoch (computationReward storageFundReward rewardSlashingRate : Nat) :
    Run (List StakedSui × SuiSystemState) := do
  let change ← self.validators.advanceEpoch computationReward storageFundReward
    self.validatorReportRecords rewardSlashingRate self.parameters.validatorLowStakeGracePeriod
    self.epoch
  return (change.stakes, { self with
    epoch := self.epoch + 1
    validators := change.validators
    validatorReportRecords := change.records })

end SuiSystemState

/-! ### The genesis -/

/-- Tokens, and the validator they are staked with if there is one. -/
structure TokenAllocation where
  amountMist : Nat
  stakedWithValidator : Option Address

namespace Genesis

/-- The ids of the validators are the numbers in order. -/
def createValidators (validate : ValidatorMetadata → Bool) (arguments : List ValidatorArguments) :
    Run (List Validator) :=
  arguments.foldlM (fun validators a => do
    let validator ← a.create validate (2 * validators.length) (2 * validators.length + 1)
    ensure (validators.all fun v => v.suiAddress != a.suiAddress && !v.isDuplicate validator)
      .duplicateValidator
    return validators ++ [validator]) []

/-- The validators with their stake, and the stakes. -/
def allocateTokens (allocations : List TokenAllocation) (validators : List Validator) :
    Run (List Validator × List StakedSui) :=
  allocations.foldlM (fun (validators, stakes) allocation =>
    match allocation.stakedWithValidator with
    | none => return (validators, stakes)
    | some address => do
      let idx ← unwrap (ValidatorSet.findValidator validators address) (.code .notAValidator)
      let v ← vectorGet validators idx
      let (stakedSui, v) ← v.requestAddStakeAtGenesis allocation.amountMist 0
      return (validators.set idx v, stakedSui :: stakes)) (validators, [])

/-- The state, the stakes and the next id. -/
def create (validate : ValidatorMetadata → Bool) (arguments : List ValidatorArguments)
    (allocations : List TokenAllocation) (parameters : SystemParameters) :
    Run (SuiSystemState × List StakedSui × Nat) := do
  let validators ← createValidators validate arguments
  let (validators, stakes) ← allocateTokens allocations validators
  let validators ← validators.mapM fun v => v.activate 0
  let validators ← ValidatorSet.new validators
  return ({ epoch := 0, validators, parameters }, stakes, 2 * arguments.length)

end Genesis

/-! ### Runs -/

/-- The state and everything that is outstanding. -/
structure System where
  state : SuiSystemState
  staked : Multiset StakedSui := 0
  fungible : Multiset FungibleStakedSui := 0
  nextId : Nat

namespace System

/-- A validator after its quotes, its capability or its metadata change. The key for the next epoch
is set together with its proof of possession. -/
structure Updates (v w : Validator) : Prop where
  address : w.suiAddress = v.suiAddress
  pool : w.stakingPool = v.stakingPool
  nextEpochStake : w.nextEpochStake = v.nextEpochStake
  staged : w.metadata.nextEpochProtocolPubkeyBytes = v.metadata.nextEpochProtocolPubkeyBytes ∧
      w.metadata.nextEpochProofOfPossession = v.metadata.nextEpochProofOfPossession ∨
    w.metadata.nextEpochProofOfPossession.isSome = true

inductive Initial (validate : ValidatorMetadata → Bool) : System → Prop
  | genesis {arguments : List ValidatorArguments} {allocations : List TokenAllocation}
    {parameters : SystemParameters} {state : SuiSystemState} {stakes : List StakedSui} {nextId : Nat}
    (h : Genesis.create validate arguments allocations parameters = .ok (state, stakes, nextId)) :
    Initial validate ⟨state, stakes, 0, nextId⟩

inductive Step (validate : ValidatorMetadata → Bool) (s : System) : System → Prop
  | addCandidate {arguments : ValidatorArguments} {state : SuiSystemState}
    (h : s.state.requestAddValidatorCandidate validate arguments s.nextId (s.nextId + 1) = .ok state) :
    Step validate s { s with state, nextId := s.nextId + 2 }
  | removeCandidate {sender : Address} {state : SuiSystemState}
    (h : s.state.requestRemoveValidatorCandidate sender = .ok state) : Step validate s { s with state }
  | addValidator {sender : Address} {state : SuiSystemState}
    (h : s.state.requestAddValidator sender = .ok state) : Step validate s { s with state }
  | removeValidator {sender : Address} {state : SuiSystemState}
    (h : s.state.requestRemoveValidator sender = .ok state) : Step validate s { s with state }
  | addStake {amount : Nat} {address : Address} {x : StakedSui} {state : SuiSystemState}
    (h : s.state.requestAddStake amount address = .ok (x, state)) :
    Step validate s { s with state, staked := x ::ₘ s.staked }
  | withdrawStake {x : StakedSui} {rest : Multiset StakedSui} {paid : Nat} {state : SuiSystemState}
    (hx : s.staked = x ::ₘ rest) (h : s.state.requestWithdrawStake x = .ok (paid, state)) :
    Step validate s { s with state, staked := rest }
  | convert {x : StakedSui} {rest : Multiset StakedSui} {y : FungibleStakedSui}
    {state : SuiSystemState} (hx : s.staked = x ::ₘ rest)
    (h : s.state.convertToFungibleStakedSui x = .ok (y, state)) :
    Step validate s { s with state, staked := rest, fungible := y ::ₘ s.fungible }
  | redeem {y : FungibleStakedSui} {rest : Multiset FungibleStakedSui} {paid : Nat}
    {state : SuiSystemState} (hy : s.fungible = y ::ₘ rest)
    (h : s.state.redeemFungibleStakedSui y = .ok (paid, state)) :
    Step validate s { s with state, fungible := rest }
  | split {x a b : StakedSui} {rest : Multiset StakedSui} {amount : Nat}
    (hx : s.staked = x ::ₘ rest) (h : x.split amount = .ok (a, b)) :
    Step validate s { s with staked := a ::ₘ b ::ₘ rest }
  | join {x y z : StakedSui} {rest : Multiset StakedSui} (hx : s.staked = x ::ₘ y ::ₘ rest)
    (h : x.join y = .ok z) : Step validate s { s with staked := z ::ₘ rest }
  | splitFungible {x a b : FungibleStakedSui} {rest : Multiset FungibleStakedSui} {amount : Nat}
    (hx : s.fungible = x ::ₘ rest) (h : x.split amount = .ok (a, b)) :
    Step validate s { s with fungible := a ::ₘ b ::ₘ rest }
  | joinFungible {x y z : FungibleStakedSui} {rest : Multiset FungibleStakedSui}
    (hx : s.fungible = x ::ₘ y ::ₘ rest) (h : x.join y = .ok z) :
    Step validate s { s with fungible := z ::ₘ rest }
  | report {cap : UnverifiedValidatorOperationCap} {reportee : Address} {state : SuiSystemState}
    (h : s.state.reportValidator cap reportee = .ok state) : Step validate s { s with state }
  | undoReport {cap : UnverifiedValidatorOperationCap} {reportee : Address} {state : SuiSystemState}
    (h : s.state.undoReportValidator cap reportee = .ok state) : Step validate s { s with state }
  | advanceEpoch {computationReward storageFundReward rewardSlashingRate : Nat}
    {stakes : List StakedSui} {state : SuiSystemState}
    (h : s.state.advanceEpoch computationReward storageFundReward rewardSlashingRate =
      .ok (stakes, state)) :
    Step validate s { s with state, staked := stakes + s.staked }
  /-- An epoch change that aborts only begins a new epoch. -/
  | safeMode : Step validate s { s with state := { s.state with epoch := s.state.epoch + 1 } }
  | updateActive {i : Nat} {v w : Validator} (hv : s.state.validators.activeValidators[i]? = some v)
    (h : Updates v w) :
    Step validate s { s with state := { s.state with validators := { s.state.validators with
      activeValidators := s.state.validators.activeValidators.set i w } } }
  | updatePending {i : Nat} {v w : Validator}
    (hv : s.state.validators.pendingActiveValidators[i]? = some v) (h : Updates v w) :
    Step validate s { s with state := { s.state with validators := { s.state.validators with
      pendingActiveValidators := s.state.validators.pendingActiveValidators.set i w } } }
  | updateCandidate {a : Address} {v w : Validator}
    (hv : s.state.validators.validatorCandidates[a]? = some v) (h : Updates v w) :
    Step validate s { s with state := { s.state with validators := { s.state.validators with
      validatorCandidates := s.state.validators.validatorCandidates.insert a w } } }

def Reachable (validate : ValidatorMetadata → Bool) (s : System) : Prop :=
  ∃ s₀, Initial validate s₀ ∧ Relation.ReflTransGen (Step validate) s₀ s

end System

end Sui.SuiSystem
