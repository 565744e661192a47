import Sui.Lib.BTree
import Sui.Lib.Except

/-! The causal order of a checkpoint's transactions.

Effects declare the transactions they depend on. `RWLockDependencyBuilder` adds that the
transaction which overwrites a version of a shared object depends on those that only
read it. `causalSort` inserts the transactions in the order of their digests, each one
after its dependencies, with an explicit stack. -/
namespace Sui.Checkpoints

open Sui.Lib

abbrev TransactionDigest := Nat
abbrev ObjectID := Nat
abbrev SequenceNumber := Nat
abbrev ObjectDigest := Nat
abbrev SuiAddress := Nat

structure ObjectRef where
  id : ObjectID
  version : SequenceNumber
  digest : ObjectDigest
deriving DecidableEq, Repr

abbrev ObjectKey := ObjectID ×ₗ SequenceNumber

def ObjectRef.key (r : ObjectRef) : ObjectKey := toLex (r.id, r.version)

inductive Owner
  | addressOwner (address : SuiAddress)
  | objectOwner (address : SuiAddress)
  | shared (initialSharedVersion : SequenceNumber)
  | immutable
  | consensusAddressOwner (startVersion : SequenceNumber) (owner : SuiAddress)
  | party (startVersion : SequenceNumber)
deriving DecidableEq, Repr

def Owner.isConsensus : Owner → Bool
  | .shared _ | .consensusAddressOwner _ _ | .party _ => true
  | _ => false

inductive InputConsensusObject
  | mutate (ref : ObjectRef)
  | readOnly (ref : ObjectRef)
  | readConsensusStreamEnded (id : ObjectID) (version : SequenceNumber)
  | mutateConsensusStreamEnded (id : ObjectID) (version : SequenceNumber)
  | cancelled (id : ObjectID) (version : SequenceNumber)
deriving DecidableEq, Repr

/-! ### Effects -/

structure TransactionEffectsV1 where
  transactionDigest : TransactionDigest
  dependencies : List TransactionDigest := []
  sharedObjects : List ObjectRef := []
  modifiedAtVersions : List (ObjectID × SequenceNumber) := []
deriving DecidableEq, Repr

def TransactionEffectsV1.inputConsensusObjects (e : TransactionEffectsV1) :
    List InputConsensusObject :=
  e.sharedObjects.map fun r =>
    if r.id ∈ e.modifiedAtVersions.map (·.1) then .mutate r else .readOnly r

inductive ObjectIn
  | notExist
  | exist (version : SequenceNumber) (digest : ObjectDigest) (owner : Owner)
deriving DecidableEq, Repr

inductive UnchangedConsensusKind
  | readOnlyRoot (version : SequenceNumber) (digest : ObjectDigest)
  | mutateConsensusStreamEnded (version : SequenceNumber)
  | readConsensusStreamEnded (version : SequenceNumber)
  | cancelled (version : SequenceNumber)
  | perEpochConfig
deriving DecidableEq, Repr

structure TransactionEffectsV2 where
  transactionDigest : TransactionDigest
  dependencies : List TransactionDigest := []
  /-- The changed objects with their input states. -/
  changedObjects : List (ObjectID × ObjectIn) := []
  unchangedConsensusObjects : List (ObjectID × UnchangedConsensusKind) := []
deriving DecidableEq, Repr

def ObjectIn.mutated (id : ObjectID) : ObjectIn → Option InputConsensusObject
  | .exist version digest owner =>
    if owner.isConsensus then some (.mutate ⟨id, version, digest⟩) else none
  | .notExist => none

/-- A config object that stays the same for the epoch is no input of consensus. -/
def UnchangedConsensusKind.input (id : ObjectID) : UnchangedConsensusKind →
    Option InputConsensusObject
  | .readOnlyRoot version digest => some (.readOnly ⟨id, version, digest⟩)
  | .mutateConsensusStreamEnded version => some (.mutateConsensusStreamEnded id version)
  | .readConsensusStreamEnded version => some (.readConsensusStreamEnded id version)
  | .cancelled version => some (.cancelled id version)
  | .perEpochConfig => none

def TransactionEffectsV2.inputConsensusObjects (e : TransactionEffectsV2) :
    List InputConsensusObject :=
  e.changedObjects.filterMap (fun c => c.2.mutated c.1) ++
    e.unchangedConsensusObjects.filterMap fun c => c.2.input c.1

inductive TransactionEffects
  | v1 (e : TransactionEffectsV1)
  | v2 (e : TransactionEffectsV2)
deriving DecidableEq, Repr

namespace TransactionEffects

def transactionDigest : TransactionEffects → TransactionDigest
  | .v1 e => e.transactionDigest
  | .v2 e => e.transactionDigest

def dependencies : TransactionEffects → List TransactionDigest
  | .v1 e => e.dependencies
  | .v2 e => e.dependencies

def inputConsensusObjects : TransactionEffects → List InputConsensusObject
  | .v1 e => e.inputConsensusObjects
  | .v2 e => e.inputConsensusObjects

end TransactionEffects

/-! ### Readers of overwritten versions -/

/-- The readers of each version, and the versions that each transaction overwrites. -/
structure RWLockDependencyBuilder where
  readVersion : BTreeMap ObjectKey (List TransactionDigest) := ∅
  overwriteVersions : BTreeMap TransactionDigest (List ObjectKey) := ∅

namespace RWLockDependencyBuilder

/-- Appends to the entry of a key, which starts empty. -/
def push {κ ν : Type} [LinearOrder κ] (m : BTreeMap κ (List ν)) (k : κ) (v : ν) :
    BTreeMap κ (List ν) :=
  m.insert k ((m[k]?).getD [] ++ [v])

def addInput (digest : TransactionDigest) (b : RWLockDependencyBuilder) :
    InputConsensusObject → RWLockDependencyBuilder
  | .readOnly ref => { b with readVersion := push b.readVersion ref.key digest }
  | .mutate ref => { b with overwriteVersions := push b.overwriteVersions digest ref.key }
  | .readConsensusStreamEnded id version =>
    { b with readVersion := push b.readVersion (toLex (id, version)) digest }
  | .mutateConsensusStreamEnded id version =>
    { b with overwriteVersions := push b.overwriteVersions digest (toLex (id, version)) }
  | .cancelled _ _ => b

def fromEffects (effects : List TransactionEffects) : RWLockDependencyBuilder :=
  effects.foldl (fun b e => e.inputConsensusObjects.foldl (addInput e.transactionDigest) b) {}

def addDependenciesFor (b : RWLockDependencyBuilder) (digest : TransactionDigest)
    (v : BTreeSet TransactionDigest) : BTreeSet TransactionDigest :=
  match b.overwriteVersions[digest]? with
  | none => v
  | some overwrites => overwrites.foldl (fun v objVer =>
      match b.readVersion[objVer]? with
      | none => v
      | some reads => reads.foldl (fun v dep => v.insert dep) v) v

end RWLockDependencyBuilder

/-! ### The sort -/

structure TransactionDependencies where
  digest : TransactionDigest
  dependencies : BTreeSet TransactionDigest
  effects : TransactionEffects

def TransactionDependencies.fromEffects (builder : RWLockDependencyBuilder)
    (effects : TransactionEffects) : TransactionDependencies where
  digest := effects.transactionDigest
  dependencies := builder.addDependenciesFor effects.transactionDigest
    (effects.dependencies.foldl (fun v d => v.insert d) ∅)
  effects := effects

structure CausalOrder where
  notSeen : BTreeMap TransactionDigest TransactionDependencies
  output : List TransactionEffects := []

inductive Panic
  /-- An insert state is used after it is finished. -/
  | stateFinished
  | outOfFuel
deriving DecidableEq, Repr

abbrev Exec := Except Panic

structure InsertState where
  /-- The dependencies left, the one that is popped next first. -/
  dependencies : List TransactionDigest
  transaction : Option TransactionDependencies

namespace InsertState

def new (transaction : TransactionDependencies) : InsertState :=
  ⟨transaction.dependencies.toList.reverse, some transaction⟩

/-- Pops dependencies up to the first one that is not seen yet. -/
def popUnseen (notSeen : BTreeMap TransactionDigest TransactionDependencies) :
    List TransactionDigest → Option (TransactionDigest × TransactionDependencies × List TransactionDigest)
  | [] => none
  | dep :: rest =>
    match notSeen[dep]? with
    | some transaction => some (dep, transaction, rest)
    | none => popUnseen notSeen rest

/-- The state of the dependency to insert first, or the transaction is output. -/
def process (s : InsertState) (order : CausalOrder) :
    Exec (Option InsertState × InsertState × CausalOrder) :=
  match popUnseen order.notSeen s.dependencies with
  | some (dep, transaction, rest) =>
    return (some (new transaction), { s with dependencies := rest },
      { order with notSeen := order.notSeen.erase dep })
  | none => do
    let transaction ← Exec.unwrap s.transaction .stateFinished
    return (none, ⟨[], none⟩, { order with output := order.output ++ [transaction.effects] })

end InsertState

namespace CausalOrder

def fromVec (effects : List TransactionEffects) : CausalOrder where
  notSeen :=
    let builder := RWLockDependencyBuilder.fromEffects effects
    (effects.map (TransactionDependencies.fromEffects builder)).foldl
      (fun m e => m.insert e.digest e) ∅

def popFirst (order : CausalOrder) : Option (TransactionDependencies × CausalOrder) :=
  match BTreeMap.firstKey? order.notSeen with
  | none => none
  | some key => order.notSeen[key]?.map fun e =>
      (e, { order with notSeen := order.notSeen.erase key })

/-- The loop over the stack of insert states; the top is first. -/
def insertLoop : Nat → List InsertState → CausalOrder → Exec CausalOrder
  | 0, _, _ => .error .outOfFuel
  | _ + 1, [], order => return order
  | fuel + 1, state :: rest, order => do
    match ← state.process order with
    | (some newState, state, order) => insertLoop fuel (newState :: state :: rest) order
    | (none, _, order) => insertLoop fuel rest order

/-- Every state is pushed and popped once. -/
def insert (order : CausalOrder) (transaction : TransactionDependencies) : Exec CausalOrder :=
  insertLoop (2 * order.notSeen.size + 2) [InsertState.new transaction] order

def sortLoop : Nat → CausalOrder → Exec CausalOrder
  | 0, _ => .error .outOfFuel
  | fuel + 1, order =>
    match order.popFirst with
    | none => return order
    | some (item, order) => do sortLoop fuel (← order.insert item)

def causalSort (effects : List TransactionEffects) : Exec (List TransactionEffects) := do
  let order ← sortLoop (effects.length + 1) (fromVec effects)
  return order.output

end CausalOrder

end Sui.Checkpoints
