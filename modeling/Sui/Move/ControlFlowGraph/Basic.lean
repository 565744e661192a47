import Sui.Lib.BTree
import Sui.Lib.Except

/-! The control-flow graph of a function body.

Blocks end where another one starts: at a jump target or behind a branch. A depth-first
search over the blocks with an explicit stack finds the back edges and the order in
which the abstract interpreter walks the blocks, the reverse of the order in which the
search leaves them. -/
namespace Sui.Move

open Sui.Lib

/-- The cast of a `usize` to an offset; offsets are `u16`. -/
def usizeAsIndex (i : Nat) : Nat := i % 2 ^ 16

/-- What the graph reads of the instructions of type `I` with jump tables of type `J`. -/
class Instruction (I : Type) (J : outParam Type) where
  /-- The jump targets; none if the index of a jump table is out of bounds. -/
  offsets : I → J → Option (List Nat)
  isConditionalBranch : I → Bool
  isUnconditionalBranch : I → Bool

inductive Panic
  | pcOutOfBounds
  | jumpTableOutOfBounds
  | codeNotCovered
  | missingBlock
  | missingInstruction
  | outOfFuel
deriving DecidableEq, Repr

abbrev Exec := Except Panic

namespace Instruction
variable {I J : Type} [Instruction I J]

def isBranch (i : I) : Bool := isConditionalBranch i || isUnconditionalBranch i

/-- The successors of an instruction, in ascending order. -/
def getSuccessors (pc : Nat) (code : List I) (jumpTables : J) : Exec (List Nat) := do
  Exec.require (pc < 2 ^ 16 - 1) .pcOutOfBounds
  let bytecode ← Exec.unwrap code[pc]? .pcOutOfBounds
  let v ← Exec.unwrap (offsets bytecode jumpTables) .jumpTableOutOfBounds
  let nextPc := pc + 1
  if usizeAsIndex code.length ≤ nextPc then
    return v
  else
    let v := if !isUnconditionalBranch bytecode && !v.contains nextPc then v ++ [pc + 1] else v
    return v.insertionSort (· ≤ ·)

end Instruction

structure BasicBlock where
  exit : Nat
  successors : List Nat
deriving DecidableEq, Repr

inductive Exploration
  | inProgress
  | done
deriving DecidableEq, Repr

structure VMControlFlowGraph where
  blocks : BTreeMap Nat BasicBlock
  /-- The next block in the order of traversal. -/
  traversalSuccessors : BTreeMap Nat Nat
  /-- The loop heads with their back edges. -/
  loopHeads : BTreeMap Nat (BTreeSet Nat)

def entryBlockId : Nat := 0

namespace VMControlFlowGraph
open Instruction

section New
variable {I J : Type} [Instruction I J]

def recordBlockIds (code : List I) (jumpTables : J) (blockIds : BTreeSet Nat)
    (p : I × Nat) : Exec (BTreeSet Nat) := do
  let targets ← Exec.unwrap (offsets p.1 jumpTables) .jumpTableOutOfBounds
  let blockIds := targets.foldl (fun s o => s.insert o) blockIds
  if isBranch p.1 && p.2 + 1 < code.length then
    return blockIds.insert (usizeAsIndex (p.2 + 1))
  else
    return blockIds

def isEndOfBlock (pc : Nat) (code : List I) (blockIds : BTreeSet Nat) : Bool :=
  pc + 1 = code.length || blockIds.contains (usizeAsIndex (pc + 1))

/-- The block that ends at `pc`, if one does; the second part is the start of the block. -/
def addBlock (code : List I) (jumpTables : J) (blockIds : BTreeSet Nat)
    (p : BTreeMap Nat BasicBlock × Nat) (pc : Nat) :
    Exec (BTreeMap Nat BasicBlock × Nat) :=
  if isEndOfBlock pc code blockIds then do
    let exit := usizeAsIndex pc
    let successors ← getSuccessors exit code jumpTables
    return (p.1.insert (usizeAsIndex p.2) ⟨exit, successors⟩, pc + 1)
  else
    return p

end New

/-! ### Loop analysis -/

structure LoopSearch where
  exploration : BTreeMap Nat Exploration := ∅
  /-- The blocks to explore or to finish, the top first. -/
  stack : List Nat
  loopHeads : BTreeMap Nat (BTreeSet Nat) := ∅
  postOrder : List Nat := []

/-- A successor that is in progress is the head of a loop. -/
def visitSuccessor (block : Nat) (s : LoopSearch) (succ : Nat) : LoopSearch :=
  match s.exploration[succ]? with
  | none => { s with stack := succ :: s.stack }
  | some .inProgress =>
    { s with loopHeads := s.loopHeads.insert succ (((s.loopHeads[succ]?).getD ∅).insert block) }
  | some .done => s

def searchLoop (blocks : BTreeMap Nat BasicBlock) : Nat → LoopSearch → Exec LoopSearch
  | 0, _ => .error .outOfFuel
  | fuel + 1, s =>
    match s.stack with
    | [] => return s
    | block :: stack =>
      match s.exploration[block]? with
      | none => do
        let bb ← Exec.unwrap blocks[block]? .missingBlock
        -- The block is pushed back, to be finished after what it reaches.
        searchLoop blocks fuel (bb.successors.foldl (visitSuccessor block) { s with
          exploration := s.exploration.insert block .inProgress
          stack := block :: stack })
      | some .done => searchLoop blocks fuel { s with stack }
      | some .inProgress => searchLoop blocks fuel { s with
          stack
          exploration := s.exploration.insert block .done
          postOrder := s.postOrder ++ [block] }

/-- Every block is pushed once to be finished and once for each edge to it. -/
def searchFuel (blocks : BTreeMap Nat BasicBlock) : Nat :=
  (blocks.toList.map fun b => b.2.successors.length + 1).sum + 2

/-- Maps each block to the one behind it. -/
def successorsOf (order : List Nat) : BTreeMap Nat Nat :=
  (order.zip order.tail).foldl (fun m p => m.insert p.1 p.2) ∅

variable {I J : Type} [Instruction I J]

def new (code : List I) (jumpTables : J) : Exec VMControlFlowGraph := do
  let blockIds ← code.zipIdx.foldlM (recordBlockIds code jumpTables)
    ((∅ : BTreeSet Nat).insert entryBlockId)
  let (blocks, entry) ← (List.range code.length).foldlM (addBlock code jumpTables blockIds) (∅, 0)
  Exec.require (entry = code.length) .codeNotCovered
  let search ← searchLoop blocks (searchFuel blocks) { stack := [entryBlockId] }
  return ⟨blocks, successorsOf search.postOrder.reverse, search.loopHeads⟩

/-! ### The graph -/

def block (cfg : VMControlFlowGraph) (blockId : Nat) : Exec BasicBlock :=
  Exec.unwrap cfg.blocks[blockId]? .missingBlock

def blockEnd (cfg : VMControlFlowGraph) (blockId : Nat) : Exec Nat := do
  return (← cfg.block blockId).exit

def successors (cfg : VMControlFlowGraph) (blockId : Nat) : Exec (List Nat) := do
  return (← cfg.block blockId).successors

def nextBlock (cfg : VMControlFlowGraph) (blockId : Nat) : Option Nat :=
  cfg.traversalSuccessors[blockId]?

/-- The instructions of a block with their offsets. -/
def instructions (cfg : VMControlFlowGraph) (code : List I) (blockId : Nat) :
    Exec (List (Nat × I)) := do
  let last ← cfg.blockEnd blockId
  (List.range' blockId (last + 1 - blockId)).mapM fun pc => do
    return (usizeAsIndex pc, ← Exec.unwrap code[pc]? .missingInstruction)

def isBackEdge (cfg : VMControlFlowGraph) (cur next : Nat) : Bool :=
  match cfg.loopHeads[next]? with
  | some backEdges => backEdges.contains cur
  | none => false

end VMControlFlowGraph

end Sui.Move
