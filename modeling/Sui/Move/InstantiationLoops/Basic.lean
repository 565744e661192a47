import Sui.Lib.BTree
import Sui.Lib.Except
import Sui.Lib.Writes

/-! The checker for loops in the instantiation of generics.

It builds a graph with a node for each type parameter of a function and an edge for each
parameter of a caller that a call uses to instantiate a parameter of the callee. A strongly
connected component with an edge that wraps the parameter in a type constructor makes
larger types at every turn, and is rejected. The components are computed by another crate,
whose function is a parameter here. -/
namespace Sui.Move

open Sui.Lib

/-- Conversion to an index of 16 bits. -/
def asU16 (n : Nat) : Nat := n % 65536

inductive SignatureToken
  | bool
  | u8
  | u64
  | u128
  | address
  | signer
  | vector (ty : SignatureToken)
  | datatype (handle : Nat)
  | datatypeInstantiation (handle : Nat) (tys : List SignatureToken)
  | reference (ty : SignatureToken)
  | mutableReference (ty : SignatureToken)
  | typeParameter (idx : Nat)
  | u16
  | u32
  | u256

abbrev Signature := List SignatureToken

structure FunctionInstantiation where
  handle : Nat
  typeParameters : Nat

/-- The checker looks at generic calls only. -/
inductive Bytecode
  | callGeneric (idx : Nat)
  | other

structure FunctionDefinition where
  function : Nat
  code : Option (List Bytecode)

def FunctionDefinition.isNative (d : FunctionDefinition) : Bool := d.code.isNone

/-- A module, whose tables and signatures are indexed with 16 bits. -/
structure CompiledModule where
  functionDefs : List FunctionDefinition
  functionInstantiations : List FunctionInstantiation
  signatures : List Signature
  functionDefs_length : functionDefs.length ≤ 65536
  signatures_length : ∀ s ∈ signatures, s.length ≤ 65536

namespace InstantiationLoops

/-- The function definition, and the index of the type parameter. -/
abbrev Node := Nat ×ₗ Nat

inductive Edge
  | identity
  | tyConApp (ty : SignatureToken)

def Edge.isTyConApp : Edge → Bool
  | .identity => false
  | .tyConApp _ => true

structure Graph where
  nodes : List Node := []
  /-- Source, target and weight. -/
  edges : List (Nat × Nat × Edge) := []

/-- The edges out of a node, the newest first, as pairs of target and index. -/
def Graph.outgoing (graph : Graph) (nodeIdx : Nat) : List (Nat × Nat) :=
  (graph.edges.zipIdx.filterMap fun ((source, target, _), edgeIdx) =>
    if source = nodeIdx then some (target, edgeIdx) else none).reverse

inductive Failure
  /-- An index out of range. -/
  | panic
  | loopInInstantiationGraph (message : String)

abbrev Exec := Except Failure

structure InstantiationLoopChecker where
  graph : Graph := {}
  nodeMap : BTreeMap Node Nat := ∅
  funcHandleDefMap : BTreeMap Nat Nat

/-- The definitions of the module with their handles. -/
def definitions (module : CompiledModule) : List (Nat × Nat) :=
  module.functionDefs.zipIdx.map fun (d, defIdx) => (d.function, asU16 defIdx)

namespace InstantiationLoopChecker

def new (module : CompiledModule) : InstantiationLoopChecker where
  funcHandleDefMap := Writes.apply ∅ (definitions module)

def getOrAddNode (self : InstantiationLoopChecker) (node : Node) : Nat × InstantiationLoopChecker :=
  match self.nodeMap[node]? with
  | some idx => (idx, self)
  | none =>
    let idx := self.graph.nodes.length
    (idx, { self with
      graph := { self.graph with nodes := self.graph.nodes ++ [node] }
      nodeMap := self.nodeMap.insert node idx })

def addEdge (self : InstantiationLoopChecker) (nodeFrom nodeTo : Node) (edge : Edge) :
    InstantiationLoopChecker :=
  let (nodeFromIdx, self) := self.getOrAddNode nodeFrom
  let (nodeToIdx, self) := self.getOrAddNode nodeTo
  { self with
    graph := { self.graph with edges := self.graph.edges ++ [(nodeFromIdx, nodeToIdx, edge)] } }

end InstantiationLoopChecker

mutual

/-- Adds the type parameters of a type. -/
def extract (typeParams : BTreeSet Nat) : SignatureToken → BTreeSet Nat
  | .bool | .address | .u8 | .u16 | .u32 | .u64 | .u128 | .u256 | .signer | .datatype _ => typeParams
  | .typeParameter idx => typeParams.insert idx
  | .vector ty => extract typeParams ty
  | .reference ty | .mutableReference ty => extract typeParams ty
  | .datatypeInstantiation _ tys => extractAll typeParams tys

def extractAll (typeParams : BTreeSet Nat) : List SignatureToken → BTreeSet Nat
  | [] => typeParams
  | ty :: tys => extractAll (extract typeParams ty) tys

end

def extractTypeParameters (ty : SignatureToken) : BTreeSet Nat := extract ∅ ty

namespace InstantiationLoopChecker

/-- One type argument of a call. -/
def buildGraphActual (callerIdx calleeIdx : Nat) (self : InstantiationLoopChecker)
    (actual : SignatureToken × Nat) : InstantiationLoopChecker :=
  let formalIdx := asU16 actual.2
  match actual.1 with
  | .typeParameter actualIdx =>
    self.addEdge (toLex (callerIdx, actualIdx)) (toLex (calleeIdx, formalIdx)) .identity
  | ty =>
    (extractTypeParameters ty).toList.foldl (fun self typeParam =>
      self.addEdge (toLex (callerIdx, typeParam)) (toLex (calleeIdx, formalIdx)) (.tyConApp ty)) self

variable (module : CompiledModule)

def buildGraphCall (self : InstantiationLoopChecker) (callerIdx calleeIdx typeActualsIdx : Nat) :
    Exec InstantiationLoopChecker := do
  let typeActuals ← Exec.unwrap module.signatures[typeActualsIdx]? .panic
  return typeActuals.zipIdx.foldl (buildGraphActual callerIdx calleeIdx) self

def buildGraphInstr (callerIdx : Nat) (self : InstantiationLoopChecker) :
    Bytecode → Exec InstantiationLoopChecker
  | .callGeneric calleeInstIdx => do
    let calleeSi ← Exec.unwrap module.functionInstantiations[calleeInstIdx]? .panic
    match self.funcHandleDefMap[calleeSi.handle]? with
    | some calleeIdx => self.buildGraphCall module callerIdx calleeIdx calleeSi.typeParameters
    | none => return self
  | .other => return self

def buildGraphFunctionDef (self : InstantiationLoopChecker) (caller : FunctionDefinition × Nat) :
    Exec InstantiationLoopChecker :=
  match caller.1.code with
  | some code => code.foldlM (buildGraphInstr module (asU16 caller.2)) self
  | none => return self

def buildGraph (self : InstantiationLoopChecker) : Exec InstantiationLoopChecker :=
  (module.functionDefs.zipIdx.filter fun (d, _) => !d.isNative).foldlM
    (buildGraphFunctionDef module) self

variable (tarjanScc : Graph → List (List Nat)) (debug : SignatureToken → String)

/-- The edges of a component, if one of them applies a type constructor. -/
def nonTrivial (graph : Graph) (nodes : List Nat) : Option (List Nat × List Nat) :=
  let edges := nodes.flatMap fun nodeIdx =>
    (graph.outgoing nodeIdx).filterMap fun (target, edgeIdx) =>
      if target ∈ nodes then some edgeIdx else none
  if edges.any fun edgeIdx => graph.edges[edgeIdx]?.any (·.2.2.isTyConApp) then some (nodes, edges)
  else none

def findNonTrivialComponents (self : InstantiationLoopChecker) : List (List Nat × List Nat) :=
  (tarjanScc self.graph).filterMap (nonTrivial self.graph)

def formatNode (self : InstantiationLoopChecker) (nodeIdx : Nat) : Exec String := do
  let node ← Exec.unwrap self.graph.nodes[nodeIdx]? .panic
  return "f" ++ toString (ofLex node).1 ++ "#" ++ toString (ofLex node).2

def formatEdge (self : InstantiationLoopChecker) (edgeIdx : Nat) : Exec String := do
  let (source, target, weight) ← Exec.unwrap self.graph.edges[edgeIdx]? .panic
  let node1 ← self.formatNode source
  let node2 ← self.formatNode target
  match weight with
  | .tyConApp ty => return node1 ++ " --" ++ debug ty ++ "--> " ++ node2
  | .identity => return node1 ++ " ----> " ++ node2

def verifyModule : Exec Unit := do
  let checker ← (new module).buildGraph module
  match (checker.findNonTrivialComponents tarjanScc).getLast? with
  | none => return ()
  | some (nodes, edges) =>
    let msgEdges ← (edges.filter fun edgeIdx =>
      checker.graph.edges[edgeIdx]?.any (·.2.2.isTyConApp)).mapM (checker.formatEdge debug)
    let msgNodes ← nodes.mapM checker.formatNode
    .error (.loopInInstantiationGraph ("edges with constructors: [" ++ ", ".intercalate msgEdges ++
      "], nodes: [" ++ ", ".intercalate msgNodes ++ "]"))

end InstantiationLoopChecker

end InstantiationLoops

end Sui.Move
