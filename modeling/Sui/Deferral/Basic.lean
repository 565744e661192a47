import Sui.Lib.Bag
import Sui.Lib.Except

/-! Deferred transactions.

The handler of consensus commits does not schedule every user transaction that it accepts.
It defers those that were submitted more often than they pay for, those that need
randomness when there is none, and those on congested objects, under a key that says until
when and since when (`DeferralKey`). Every commit takes out the transactions whose time has
come (`loadDeferredTransactions`), merges them with its own, and schedules, cancels or
defers each of them (`handleDeferralAndCancellation`). The epoch ends when nothing is
deferred any more (`advanceEopStateMachine`).

Deferred transactions are in a map in memory; the outputs of the commits write the same
changes to a table. How objects get congested is a parameter (`CongestionTracker`), and so
is what a commit brings (`Commit`). -/
namespace Sui.Deferral

open Sui.Lib Sui.Lib.BTreeMap Sui.Lib.Exec

abbrev Round := Nat
abbrev RandomnessRound := Nat
abbrev TransactionDigest := Nat
abbrev ObjectID := Nat

structure Transaction where
  digest : TransactionDigest
  gasPrice : Nat
  usesRandomness : Bool
deriving DecidableEq

inductive ConsensusTransactionOrdering
  | none
  | byGasPrice

/-- Of the protocol, and of the epoch. -/
structure Config where
  deferUnpaidAmplification : Bool
  maxDeferralRoundsForCongestionControl : Nat
  consensusTransactionOrdering : ConsensusTransactionOrdering
  randomnessStateEnabled : Bool
  referenceGasPrice : Nat

inductive Panic
  /-- The round of a commit is not after the last one. -/
  | roundNotIncreased
  | roundOverflow
deriving DecidableEq

abbrev Exec := Except Panic

/-! ### Keys -/

inductive DeferralKey
  | randomness (deferredFromRound : Round)
  | consensusRound (futureRound deferredFromRound : Round)
deriving DecidableEq

namespace DeferralKey

/-- The derived order: by constructor, then by fields. -/
def toLexKey : DeferralKey → Nat ×ₗ Round ×ₗ Round
  | randomness deferredFromRound => toLex (0, toLex (deferredFromRound, 0))
  | consensusRound futureRound deferredFromRound => toLex (1, toLex (futureRound, deferredFromRound))

theorem toLexKey_injective : Function.Injective toLexKey := by
  intro key key' h
  cases key <;> cases key' <;> simp_all [toLexKey]

instance : LinearOrder DeferralKey := LinearOrder.lift' toLexKey toLexKey_injective

def deferredFromRound : DeferralKey → Round
  | randomness deferredFromRound => deferredFromRound
  | consensusRound _ deferredFromRound => deferredFromRound

def fullRangeForRandomness : DeferralKey × DeferralKey := (randomness 0, randomness (2 ^ 64 - 1))

def rangeForUpToConsensusRound (round : Round) : Exec (DeferralKey × DeferralKey) := do
  require (round + 1 < 2 ^ 64) .roundOverflow
  return (consensusRound 0 0, consensusRound (round + 1) 0)

end DeferralKey

def transactionDeferralWithinLimit (key : DeferralKey) (maxDeferralRounds : Nat) : Bool :=
  match key with
  | .consensusRound futureRound deferredFromRound => futureRound - deferredFromRound ≤ maxDeferralRounds
  | .randomness _ => true

inductive DeferralReason
  | randomnessNotReady
  | sharedObjectCongestion (congestedObjects : List ObjectID)

inductive CancelConsensusCertificateReason
  | congestionOnObjects (objects : List ObjectID)
  | dkgFailed

abbrev Deferred := BTreeMap DeferralKey (List Transaction)

/-! ### Commits -/

/-- The congested objects of a transaction, and what scheduling one does to the costs. -/
structure CongestionTracker (κ : Type) where
  congestedObjects : κ → Transaction → Option (List ObjectID)
  bumpObjectExecutionCost : κ → Transaction → κ

inductive DkgStatus
  | pending
  | failed
  | successful

structure Commit (κ : Type) where
  round : Round
  userTransactions : List Transaction
  /-- How often a transaction is in the commit. -/
  occurrenceCounts : TransactionDigest → Nat
  dkgStatus : DkgStatus
  /-- The randomness round that can be reserved for the commit. -/
  nextRandomness : Option RandomnessRound
  costs : κ
  randomnessCosts : κ
  timestampTriggered : Bool
  collectedEopQuorum : Bool

inductive ReconfigCertStatus
  | acceptAllCerts
  | rejectUserCerts
  | rejectAllCerts
  | rejectAllTx
deriving DecidableEq

namespace ReconfigCertStatus

def closeUserCerts : ReconfigCertStatus → ReconfigCertStatus
  | acceptAllCerts => rejectUserCerts
  | status => status

def closeAllCerts : ReconfigCertStatus → ReconfigCertStatus
  | rejectAllTx => rejectAllTx
  | _ => rejectAllCerts

def shouldAcceptConsensusCerts : ReconfigCertStatus → Bool
  | acceptAllCerts => true
  | rejectUserCerts => true
  | rejectAllCerts => false
  | rejectAllTx => false

def shouldAcceptTx (status : ReconfigCertStatus) : Bool := status ≠ rejectAllTx

end ReconfigCertStatus

/-- What the output of a commit has for the table of deferred transactions. -/
structure Output where
  deferredTxns : List (DeferralKey × List Transaction)
  deletedDeferredTxns : List DeferralKey

/-- Deletions are written first. -/
def Output.writeToBatch (table : Deferred) (output : Output) : Deferred :=
  insertAll (eraseAll table output.deletedDeferredTxns) output.deferredTxns

structure State where
  lastCommittedRound : Round
  status : ReconfigCertStatus
  deferredTransactions : Deferred
  outputs : List Output

/-- The table once every output is written. -/
def State.table (state : State) : Deferred := state.outputs.foldl Output.writeToBatch ∅

/-- The randomness available to a commit. -/
structure Randomness where
  dkgFailed : Bool
  randomnessRound : Option RandomnessRound

def Randomness.available (randomness : Randomness) : Bool :=
  randomness.dkgFailed || randomness.randomnessRound.isSome

section Handler
variable {κ : Type} (config : Config) (tracker : CongestionTracker κ)

def initRandomness (status : ReconfigCertStatus) (commit : Commit κ) : Randomness :=
  if config.randomnessStateEnabled then
    match commit.dkgStatus with
    | .pending => ⟨false, none⟩
    | .failed => ⟨true, none⟩
    | .successful => ⟨false, if status.shouldAcceptTx then commit.nextRandomness else none⟩
  else ⟨false, none⟩

/-! ### Loading -/

def loadDeferredTransactionsV2 (deferred : Deferred) (range : DeferralKey × DeferralKey) :
    List (DeferralKey × List Transaction) :=
  deferred.toList.filter fun entry => range.1 ≤ entry.1 ∧ entry.1 < range.2

/-- The transactions of entries, with their keys. -/
def withKeys (entries : List (DeferralKey × List Transaction)) : List (DeferralKey × Transaction) :=
  entries.flatMap fun entry => entry.2.map fun transaction => (entry.1, transaction)

structure Loaded where
  deferredTxs : List (DeferralKey × List Transaction)
  deferredRandomnessTxs : List (DeferralKey × List Transaction)

def Loaded.entries (loaded : Loaded) : List (DeferralKey × List Transaction) :=
  loaded.deferredTxs ++ loaded.deferredRandomnessTxs

def Loaded.previouslyDeferredTxDigests (loaded : Loaded) : BTreeMap TransactionDigest DeferralKey :=
  (withKeys loaded.entries).foldl (fun m entry => m.insert entry.2.digest entry.1) ∅

def Loaded.deletedDeferredTxns (loaded : Loaded) : List DeferralKey := loaded.entries.map Prod.fst

def loadDeferredTransactions (deferred : Deferred) (round : Round) (randomness : Randomness) :
    Exec Loaded := do
  let range ← DeferralKey.rangeForUpToConsensusRound round
  return {
    deferredTxs := loadDeferredTransactionsV2 deferred range
    deferredRandomnessTxs :=
      if randomness.available then loadDeferredTransactionsV2 deferred DeferralKey.fullRangeForRandomness
      else [] }

def reorder (transactions : List Transaction) : List Transaction :=
  match config.consensusTransactionOrdering with
  | .byGasPrice => transactions.mergeSort fun first second => second.gasPrice ≤ first.gasPrice
  | .none => transactions

/-- The transactions that do not use randomness, and those that do. -/
def mergeAndReorderTransactions (loaded : Loaded) (userTransactions : List Transaction) :
    List Transaction × List Transaction :=
  let txns := loaded.deferredTxs.flatMap Prod.snd
  let randomnessTxns := loaded.deferredRandomnessTxs.flatMap Prod.snd
  -- Randomness transactions that were deferred for another reason go with the others.
  let randomnessTxns := randomnessTxns ++ txns.filter Transaction.usesRandomness ++
    userTransactions.filter Transaction.usesRandomness
  let txns := txns.filter (fun transaction => !transaction.usesRandomness) ++
    userTransactions.filter fun transaction => !transaction.usesRandomness
  (reorder config txns, reorder config randomnessTxns)

/-! ### Deferring -/

def deferredFromRound (previously : BTreeMap TransactionDigest DeferralKey) (round : Round)
    (transaction : Transaction) : Round :=
  (previously[transaction.digest]?.map DeferralKey.deferredFromRound).getD round

/-- The key for the next round. -/
def nextRoundKey (previously : BTreeMap TransactionDigest DeferralKey) (round : Round)
    (transaction : Transaction) : DeferralKey :=
  .consensusRound (round + 1) (deferredFromRound previously round transaction)

def shouldDefer (costs : κ) (randomness : Randomness) (round : Round)
    (previously : BTreeMap TransactionDigest DeferralKey) (transaction : Transaction) :
    Option (DeferralKey × DeferralReason) :=
  if !randomness.available && config.randomnessStateEnabled && transaction.usesRandomness then
    some (.randomness (deferredFromRound previously round transaction), .randomnessNotReady)
  else
    (tracker.congestedObjects costs transaction).map fun congestedObjects =>
      (nextRoundKey previously round transaction, .sharedObjectCongestion congestedObjects)

def unpaidAmplification (commit : Commit κ) (transaction : Transaction) : Bool :=
  config.deferUnpaidAmplification &&
    decide (transaction.gasPrice / max config.referenceGasPrice 1 + 1 <
      commit.occurrenceCounts transaction.digest)

/-- What the loop over the transactions of a commit has collected. -/
structure Collected (κ : Type) where
  cancelledTxns : BTreeMap TransactionDigest CancelConsensusCertificateReason
  deferredTxns : Deferred
  scheduledTxns : List Transaction
  costs : κ

namespace Collected

def defer (collected : Collected κ) (key : DeferralKey) (transaction : Transaction) : Collected κ :=
  { collected with deferredTxns := push collected.deferredTxns key transaction }

def cancel (collected : Collected κ) (reason : CancelConsensusCertificateReason)
    (transaction : Transaction) : Collected κ :=
  { collected with
    cancelledTxns := collected.cancelledTxns.insert transaction.digest reason
    scheduledTxns := collected.scheduledTxns ++ [transaction] }

def schedule (collected : Collected κ) (transaction : Transaction) : Collected κ :=
  { collected with
    costs := tracker.bumpObjectExecutionCost collected.costs transaction
    scheduledTxns := collected.scheduledTxns ++ [transaction] }

end Collected

def handleDeferralAndCancellation (commit : Commit κ) (randomness : Randomness)
    (previously : BTreeMap TransactionDigest DeferralKey) (collected : Collected κ)
    (transaction : Transaction) : Collected κ :=
  let limit := config.maxDeferralRoundsForCongestionControl
  let nextKey := nextRoundKey previously commit.round transaction
  if unpaidAmplification config commit transaction && transactionDeferralWithinLimit nextKey limit then
    collected.defer nextKey transaction
  else
    match shouldDefer config tracker collected.costs randomness commit.round previously transaction with
    | none => collected.schedule tracker transaction
    | some (key, .randomnessNotReady) => collected.defer key transaction
    | some (key, .sharedObjectCongestion congestedObjects) =>
      if transactionDeferralWithinLimit key limit then collected.defer key transaction
      else collected.cancel (.congestionOnObjects congestedObjects) transaction

/-- A transaction that uses randomness. -/
def handleRandomnessTransaction (commit : Commit κ) (randomness : Randomness)
    (previously : BTreeMap TransactionDigest DeferralKey) (collected : Collected κ)
    (transaction : Transaction) : Collected κ :=
  if randomness.dkgFailed then collected.cancel .dkgFailed transaction
  else handleDeferralAndCancellation config tracker commit randomness previously collected transaction

/-- The loops over the two lists; the second one has its own costs. -/
def collectTransactionsToSchedule (commit : Commit κ) (randomness : Randomness) (loaded : Loaded)
    (userTransactions : List Transaction) : Collected κ :=
  let (txns, randomnessTxns) := mergeAndReorderTransactions config loaded userTransactions
  let previously := loaded.previouslyDeferredTxDigests
  let collected := txns.foldl
    (handleDeferralAndCancellation config tracker commit randomness previously) ⟨∅, ∅, [], commit.costs⟩
  randomnessTxns.foldl (handleRandomnessTransaction config tracker commit randomness previously)
    { collected with costs := commit.randomnessCosts }

/-! ### The end of the epoch -/

/-- The state, and whether this is the final round. -/
def advanceEopStateMachine (status : ReconfigCertStatus) (commitHasDeferredTxns : Bool)
    (deferred : Deferred) : ReconfigCertStatus × Bool :=
  let next := if !commitHasDeferredTxns && deferred.isEmpty then .rejectAllTx else status.closeAllCerts
  (next, decide (status ≠ .rejectAllTx) && decide (next = .rejectAllTx))

/-- The state, whether transactions are accepted, and whether this is the final round. -/
def handleCloseEpoch (status : ReconfigCertStatus) (commit : Commit κ) (commitHasDeferredTxns : Bool)
    (deferred : Deferred) : ReconfigCertStatus × Bool × Bool :=
  let status := if commit.timestampTriggered then status.closeUserCerts else status
  if commit.timestampTriggered || commit.collectedEopQuorum then
    let (next, finalRound) := advanceEopStateMachine status commitHasDeferredTxns deferred
    (next, next.shouldAcceptTx, finalRound)
  else (status, true, false)

/-- The user transactions that a commit brings while they are accepted. -/
def acceptedTransactions (state : State) (commit : Commit κ) : List Transaction :=
  if state.status.shouldAcceptConsensusCerts then commit.userTransactions else []

/-- What a commit does with its transactions and those that it loads. -/
def collect (state : State) (commit : Commit κ) : Exec (Loaded × Collected κ) := do
  let randomness := initRandomness config state.status commit
  let loaded ← loadDeferredTransactions state.deferredTransactions commit.round randomness
  return (loaded, collectTransactionsToSchedule config tracker commit randomness loaded
    (acceptedTransactions state commit))

/-- The state after a commit, with the transactions scheduled. -/
def finishCommit (state : State) (commit : Commit κ) (loaded : Loaded) (collected : Collected κ) :
    State × List Transaction :=
  let deferredTxns := collected.deferredTxns.toList
  let deferred := insertAll state.deferredTransactions deferredTxns
  let (status, shouldAcceptTx, finalRound) :=
    handleCloseEpoch state.status commit (!deferredTxns.isEmpty) deferred
  if shouldAcceptTx || finalRound then
    (⟨commit.round, status, eraseAll deferred loaded.deletedDeferredTxns,
      state.outputs ++ [⟨deferredTxns, loaded.deletedDeferredTxns⟩]⟩, collected.scheduledTxns)
  else
    -- The epoch is over. The commit is not processed any further.
    (⟨commit.round, status, deferred, state.outputs⟩, [])

def handleConsensusCommit (state : State) (commit : Commit κ) : Exec (State × List Transaction) := do
  require (state.lastCommittedRound < commit.round) .roundNotIncreased
  let (loaded, collected) ← collect config tracker state commit
  return finishCommit state commit loaded collected

/-- A run, with the transactions accepted, the round of each, and those scheduled. -/
structure History where
  state : State
  accepted : List (Round × Transaction)
  scheduled : List Transaction

def History.start : History := ⟨⟨0, .acceptAllCerts, ∅, []⟩, [], []⟩

def History.step (history : History) (commit : Commit κ) : Exec History := do
  let (state, scheduled) ← handleConsensusCommit config tracker history.state commit
  return ⟨state,
    history.accepted ++ (acceptedTransactions history.state commit).map fun transaction =>
      (commit.round, transaction),
    history.scheduled ++ scheduled⟩

def run (commits : List (Commit κ)) : Exec History :=
  commits.foldlM (History.step config tracker) .start

end Handler

end Sui.Deferral
