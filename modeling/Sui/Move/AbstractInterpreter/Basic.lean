import Sui.Move.ControlFlowGraph.Basic

/-! The driver of abstract interpretation.

`analyzeFunction` walks the blocks in the order of the graph. It executes a block from
its precondition and joins the result into the preconditions of the successors. When
that changes the target of a back edge, it goes back there and leaves the other
successors for the next visit. -/
namespace Sui.Move

open Sui.Lib

inductive JoinResult
  | changed
  | unchanged
deriving DecidableEq, Repr

inductive BlockPostCondition (State : Type)
  | unprocessed
  | processed (state : State)
deriving DecidableEq, Repr

structure BlockInvariant (State : Type) where
  pre : State
  post : BlockPostCondition State
deriving DecidableEq, Repr

abbrev InvariantMap (State : Type) := BTreeMap Nat (BlockInvariant State)

/-- Why an analysis does not return a map. -/
inductive Failure (ε : Type)
  | error (e : ε)
  | panic (p : Panic)
  | outOfFuel
deriving DecidableEq, Repr

namespace Failure
variable {ε α : Type}

/-- An error of the interpreter. -/
def interp (x : Except ε α) : Except (Failure ε) α := x.mapError .error

/-- An access to the graph. -/
def graph (x : Exec α) : Except (Failure ε) α := x.mapError .panic

end Failure

/-- An interpreter of the instructions `I`. Its operations may read and update what the
interpreter itself keeps, of type `σ`. -/
structure AbstractInterpreter (I State σ ε : Type) where
  /-- The precondition after the join. -/
  join : σ → State → State → Except ε (JoinResult × State × σ)
  execute : σ → (blockId : Nat) → (bounds : Nat × Nat) → State → (offset : Nat) → I →
    Except ε (State × σ)
  start : σ → Except ε σ := .ok
  visitBlockPreExecution : σ → Nat → BlockInvariant State → Except ε σ := fun s _ _ => .ok s
  visitBlockPostExecution : σ → Nat → BlockInvariant State → Except ε σ := fun s _ _ => .ok s
  visitSuccessor : σ → Nat → Except ε σ := fun s _ => .ok s
  visitBackEdge : σ → Nat → Nat → Except ε σ := fun s _ _ => .ok s

section Analysis
variable {I State σ ε : Type} (interpreter : AbstractInterpreter I State σ ε)
  (cfg : VMControlFlowGraph) (code : List I)

def executeBlock (blockId : Nat) (preState : State) (self : σ) :
    Except (Failure ε) (State × σ) := do
  let last ← Failure.graph (cfg.blockEnd blockId)
  let instructions ← Failure.graph (cfg.instructions code blockId)
  instructions.foldlM (fun (p : State × σ) i =>
    Failure.interp (interpreter.execute p.2 blockId (blockId, last) p.1 i.1 i.2)) (preState, self)

/-- Propagates the postcondition of a block to its successors, up to a back edge whose
target changes; that one is returned. -/
def propagate (blockId : Nat) (postState : State) :
    List Nat → InvariantMap State → σ → Except (Failure ε) (Option Nat × InvariantMap State × σ)
  | [], invMap, self => return (none, invMap, self)
  | successor :: rest, invMap, self => do
    let self ← Failure.interp (interpreter.visitSuccessor self successor)
    match invMap[successor]? with
    | some next => do
      let (result, pre, self) ← Failure.interp (interpreter.join self next.pre postState)
      match result with
      | .unchanged => propagate blockId postState rest (invMap.insert successor { next with pre }) self
      | .changed =>
        let invMap := invMap.insert successor ⟨pre, .unprocessed⟩
        if cfg.isBackEdge blockId successor then do
          let self ← Failure.interp (interpreter.visitBackEdge self blockId successor)
          return (some successor, invMap, self)
        else
          propagate blockId postState rest invMap self
    | none => propagate blockId postState rest (invMap.insert successor ⟨postState, .unprocessed⟩) self

/-- One round of the loop, with the block of the next round. -/
def visitBlock (initialState : State) (blockId : Nat) (invMap : InvariantMap State) (self : σ) :
    Except (Failure ε) (Option Nat × InvariantMap State × σ) := do
  let blockInvariant := (invMap[blockId]?).getD ⟨initialState, .unprocessed⟩
  let self ← Failure.interp (interpreter.visitBlockPreExecution self blockId blockInvariant)
  let (postState, self) ← executeBlock interpreter cfg code blockId blockInvariant.pre self
  let blockInvariant := { blockInvariant with post := .processed postState }
  let self ← Failure.interp (interpreter.visitBlockPostExecution self blockId blockInvariant)
  let successors ← Failure.graph (cfg.successors blockId)
  let (jump, invMap, self) ← propagate interpreter cfg blockId postState successors
    (invMap.insert blockId blockInvariant) self
  return (jump <|> cfg.nextBlock blockId, invMap, self)

def analysisLoop (initialState : State) :
    Nat → Option Nat → InvariantMap State → σ → Except (Failure ε) (InvariantMap State × σ)
  | 0, _, _, _ => .error .outOfFuel
  | _ + 1, none, invMap, self => return (invMap, self)
  | fuel + 1, some blockId, invMap, self => do
    let (nextBlock, invMap, self) ← visitBlock interpreter cfg code initialState blockId invMap self
    analysisLoop initialState fuel nextBlock invMap self

def analyzeFunction (fuel : Nat) (initialState : State) (self : σ) :
    Except (Failure ε) (InvariantMap State × σ) := do
  let self ← Failure.interp (interpreter.start self)
  analysisLoop interpreter cfg code initialState fuel (some entryBlockId)
    ((∅ : InvariantMap State).insert entryBlockId ⟨initialState, .unprocessed⟩) self

end Analysis

end Sui.Move
