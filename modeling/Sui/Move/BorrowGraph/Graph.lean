import Sui.Lib.BTree
import Sui.Lib.Except
import Sui.Move.BorrowGraph.Regex

/-! The regex borrow graph.

A node stands for a live reference, an edge from one to another for the paths by which the
second may extend the first. Nodes of the underlying graph keep their index when references
are renamed for a join (`canonicalize`, `refreshRefs`). A meter counts the nodes and edges
visited and can stop an operation.

Edges are listed in the order of their keys. The source lists them in the order they were
added, which no result depends on: what is read from them is collected in maps and sums. The
debug assertions, and the capacity that only they read, are left out. -/
namespace Sui.Move.BorrowGraph

open Sui.Lib

inductive Ref
  | canonical (id : Nat)
  | fresh (id : Nat)
deriving DecidableEq, Repr

/-- Canonical references come first. -/
def Ref.key : Ref → Bool ×ₗ Nat
  | .canonical id => toLex (false, id)
  | .fresh id => toLex (true, id)

theorem Ref.key_injective : Function.Injective Ref.key := by
  intro r s h
  cases r <;> cases s <;> simp_all [Ref.key]

instance : LinearOrder Ref := LinearOrder.lift' Ref.key Ref.key_injective

/-- Generation and id. -/
abbrev NodeIndex := Nat ×ₗ Nat

/-- Source and target. -/
abbrev EdgeKey := NodeIndex ×ₗ NodeIndex

instance edgeTransOrd : Std.TransOrd EdgeKey := inferInstance

/-- The error branches of the graph, and the arithmetic that can overflow. -/
inductive Violation
  | missingRef (r : Ref)
  | missingNode (index : NodeIndex)
  | duplicateNode (index : NodeIndex)
  | duplicateEdge (source target : NodeIndex)
  | duplicateRef (r : Ref)
  | noRegexes
  | badSelfEdge (index : NodeIndex)
  | edgeOfOldRefs
  | edgeBetweenNewRefs
  | keyExists
  | refreshOfFresh (r : Ref)
  | canonicalizeOfCanonical (r : Ref)
  | missingRemapping (r : Ref)
  | generationOverflow
  | nodeIndexOverflow
  | freshIdOverflow
  | visitsOverflow
deriving DecidableEq

inductive Failure (ε : Type)
  | violation (v : Violation)
  | meter (e : ε)

def Failure.check {ε α : Type} : Except Violation α → Except (Failure ε) α
  | .ok a => .ok a
  | .error v => .error (.violation v)

def Failure.charge {ε α : Type} : Except ε α → Except (Failure ε) α
  | .ok a => .ok a
  | .error e => .error (.meter e)

structure Meter (μ ε : Type) where
  visitNodes : Nat → μ → Except ε μ
  visitEdges : Nat → μ → Except ε μ

/-- Addition of 32 bits, if it does not overflow. -/
def checkedAdd (n m : Nat) : Option Nat := if n + m < 2 ^ 32 then some (n + m) else none

/-- Addition of 64 bits, up to the largest number. -/
def saturatingAdd (n m : Nat) : Nat := min (n + m) (2 ^ 64 - 1)

/-! ### Graphs with indices -/

structure GraphMap (N E : Type) where
  generation : Nat := 0
  next : Nat := 0
  nodeWeights : BTreeMap NodeIndex N := ∅
  edgeWeights : BTreeMap EdgeKey E := ∅

namespace GraphMap
variable {N E : Type} (self : GraphMap N E)

def clear : Except Violation (GraphMap N E) := do
  let generation ← Exec.unwrap (checkedAdd self.generation 1) .generationOverflow
  return { generation, next := 0, nodeWeights := ∅, edgeWeights := ∅ }

def minimize : Except Violation (GraphMap N E) := do
  let generation ← Exec.unwrap (checkedAdd self.generation 1) .generationOverflow
  return { self with
    generation
    next := self.nodeWeights.keys.foldl (fun maxNext index =>
      max maxNext (min ((ofLex index).2 + 1) (2 ^ 32 - 1))) 0 }

def addNode (weight : N) : Except Violation (NodeIndex × GraphMap N E) := do
  let index : NodeIndex := toLex (self.generation, self.next)
  let next ← Exec.unwrap (checkedAdd self.next 1) .nodeIndexOverflow
  Exec.require (index ∉ self.nodeWeights) (.duplicateNode index)
  return (index, { self with next, nodeWeights := self.nodeWeights.insert index weight })

def addEdge (source : NodeIndex) (weight : E) (target : NodeIndex) :
    Except Violation (GraphMap N E) := do
  Exec.require (source ∈ self.nodeWeights) (.missingNode source)
  Exec.require (target ∈ self.nodeWeights) (.missingNode target)
  Exec.require (toLex (source, target) ∉ self.edgeWeights) (.duplicateEdge source target)
  return { self with edgeWeights := self.edgeWeights.insert (toLex (source, target)) weight }

def removeNode (index : NodeIndex) : Except Violation (GraphMap N E) := do
  Exec.require (index ∈ self.nodeWeights) (.missingNode index)
  return { self with
    nodeWeights := self.nodeWeights.erase index
    edgeWeights := self.edgeWeights.filter fun key _ =>
      (ofLex key).1 ≠ index ∧ (ofLex key).2 ≠ index }

def outgoingEdgesIdx (index : NodeIndex) : List (E × NodeIndex) :=
  self.edgeWeights.toList.filterMap fun (key, e) =>
    if (ofLex key).1 = index then some (e, (ofLex key).2) else none

def incomingEdgesIdx (index : NodeIndex) : List (NodeIndex × E) :=
  self.edgeWeights.toList.filterMap fun (key, e) =>
    if (ofLex key).2 = index then some ((ofLex key).1, e) else none

def outgoingEdges (index : NodeIndex) : Except Violation (List (E × N)) :=
  (self.outgoingEdgesIdx index).mapM fun (e, s) => do
    let weight ← Exec.unwrap self.nodeWeights[s]? (.missingNode s)
    return (e, weight)

def incomingEdges (index : NodeIndex) : Except Violation (List (N × E)) :=
  (self.incomingEdgesIdx index).mapM fun (p, e) => do
    let weight ← Exec.unwrap self.nodeWeights[p]? (.missingNode p)
    return (weight, e)

def allEdges : Except Violation (List (N × E × N)) :=
  self.edgeWeights.toList.mapM fun (key, e) => do
    let source ← Exec.unwrap self.nodeWeights[(ofLex key).1]? (.missingNode (ofLex key).1)
    let target ← Exec.unwrap self.nodeWeights[(ofLex key).2]? (.missingNode (ofLex key).2)
    return (source, e, target)

end GraphMap

/-! ### Edges and nodes -/

structure Node where
  isMutable : Bool
  nodeIndex : NodeIndex
deriving DecidableEq

structure Edge (Loc Lbl : Type) [LinearOrder Lbl] where
  abstractSize : Nat := 0
  regexes : BTreeMap (Regex Lbl) Loc := ∅

/-- An entry of the public queries. -/
structure Path (Loc Lbl : Type) where
  loc : Loc
  labels : List Lbl
  endsInDotStar : Bool

namespace Path
variable {Loc Lbl : Type} (self : Path Loc Lbl)

def isDotStar : Bool := self.labels.isEmpty && self.endsInDotStar

def isEpsilon : Bool := self.labels.isEmpty && !self.isDotStar

def isLabel [DecidableEq Lbl] (lbl : Lbl) : Bool := !self.isDotStar && self.labels == [lbl]

def startsWith [DecidableEq Lbl] (lbl : Lbl) : Bool :=
  self.isDotStar || self.labels.head? == some lbl

/-- The words of the regular expression that the path shows. -/
def Matches (w : List Lbl) : Prop := (⟨self.labels, self.endsInDotStar⟩ : Regex Lbl).Matches w

variable {self}

theorem matches_labels : self.Matches self.labels := ⟨[], (List.append_nil _).symm, .inr rfl⟩

/-- One word alone is matched only without a dot star. -/
theorem matches_only_iff [Nonempty Lbl] :
    (∀ w, self.Matches w ↔ w = v) ↔ self.labels = v ∧ self.endsInDotStar = false := by
  constructor
  · intro h
    have hlabels : self.labels = v := (h _).mp matches_labels
    refine ⟨hlabels, Bool.eq_false_iff.mpr fun hdot => ?_⟩
    obtain ⟨lbl⟩ := ‹Nonempty Lbl›
    have hlonger := (h (self.labels ++ [lbl])).mp ⟨[lbl], rfl, .inl hdot⟩
    simp [hlabels] at hlonger
  · rintro ⟨rfl, hdot⟩ w
    constructor
    · rintro ⟨rest, rfl, hend⟩
      rw [hend.resolve_left (by simp [hdot]), List.append_nil]
    · rintro rfl
      exact matches_labels

theorem isEpsilon_iff : self.isEpsilon = true ↔ self.labels = [] ∧ self.endsInDotStar = false := by
  simp only [isEpsilon, isDotStar, Bool.and_eq_true, Bool.not_eq_true', List.isEmpty_iff]
  exact and_congr_right fun hnil => by simp [hnil]

/-- The empty path is the one with no other word, unless there are no labels at all. -/
theorem isEpsilon_agrees_iff :
    (self.isEpsilon = true ↔ ∀ w, self.Matches w ↔ w = []) ↔ (self.isDotStar = false ∨ Nonempty Lbl) := by
  by_cases hne : Nonempty Lbl
  · exact iff_of_true (by rw [matches_only_iff, isEpsilon_iff]) (.inr hne)
  · have hnil (w : List Lbl) : w = [] := List.eq_nil_iff_forall_not_mem.mpr fun lbl _ => hne ⟨lbl⟩
    have hall : ∀ w, self.Matches w ↔ w = [] := fun w =>
      iff_of_true (by rw [hnil w, ← hnil self.labels]; exact matches_labels) (hnil w)
    simp [hall, hne, isEpsilon, isDotStar, hnil self.labels]

variable [DecidableEq Lbl] {lbl : Lbl}

/-- A label followed by a dot star is taken for the label alone. -/
theorem isLabel_agrees_iff :
    (self.isLabel lbl = true ↔ ∀ w, self.Matches w ↔ w = [lbl]) ↔
      ¬(self.labels = [lbl] ∧ self.endsInDotStar = true) := by
  have : Nonempty Lbl := ⟨lbl⟩
  have hlabel : self.isLabel lbl = true ↔ self.labels = [lbl] := by
    simp only [isLabel, isDotStar, Bool.and_eq_true, beq_iff_eq, and_iff_right_iff_imp]
    intro hlabels
    simp [hlabels]
  rw [matches_only_iff, hlabel, iff_self_and, not_and, Bool.not_eq_true]

theorem startsWith_iff : self.startsWith lbl = true ↔ ∃ w, self.Matches (lbl :: w) := by
  obtain ⟨_, labels, dot⟩ := self
  cases labels with
  | nil =>
    cases dot with
    | true => exact iff_of_true rfl ⟨[], dotStar_matches _⟩
    | false => simp [startsWith, isDotStar, Matches, matches_nil]
  | cons lbl' labels =>
    constructor
    · intro h
      obtain rfl : lbl' = lbl := by simpa [startsWith, isDotStar] using h
      exact ⟨labels, matches_labels⟩
    · rintro ⟨w, rest, heq, -⟩
      simp [startsWith, isDotStar, (List.cons.inj heq).1]

end Path

/-- Removing a prefix is the left quotient of the languages, and extending their product. Of
the paths shown to the callers, the empty one and those that start with a label are the ones
whose words say so; a single label is told apart from others only if no dot star follows it. -/
theorem regex_languages {Loc Lbl : Type} [DecidableEq Lbl] :
    (∀ (r : Regex Lbl) (ext : Extension Lbl) (w : List Lbl),
      (∃ q ∈ r.removePrefix ext, q.Matches w) ↔ ∃ u, ext.Matches u ∧ r.Matches (u ++ w)) ∧
    (∀ (ext : Extension Lbl) (r : Regex Lbl) (w : List Lbl),
      (∃ q ∈ ext.removePrefix r, q.Matches w) ↔ ∃ u, r.Matches u ∧ ext.Matches (u ++ w)) ∧
    (∀ (r : Regex Lbl) (ext : Extension Lbl),
      (∀ u v, r.Matches u → ext.Matches v → (r.extend ext).Matches (u ++ v)) ∧
      (r.endsInDotStar = false → ∀ w, (r.extend ext).Matches w →
        ∃ u v, w = u ++ v ∧ r.Matches u ∧ ext.Matches v)) ∧
    ∀ path : Path Loc Lbl,
      ((path.isEpsilon = true ↔ ∀ w, path.Matches w ↔ w = []) ↔
        (path.isDotStar = false ∨ Nonempty Lbl)) ∧
      ∀ lbl,
        (path.startsWith lbl = true ↔ ∃ w, path.Matches (lbl :: w)) ∧
        ((path.isLabel lbl = true ↔ ∀ w, path.Matches w ↔ w = [lbl]) ↔
          ¬(path.labels = [lbl] ∧ path.endsInDotStar = true)) := by
  refine ⟨fun r ext w => removePrefix_iff, fun ext r w => Extension.removePrefix_iff,
    fun r ext => ⟨?_, ?_⟩, fun path => ⟨Path.isEpsilon_agrees_iff, fun lbl => ⟨?_, ?_⟩⟩⟩
  · exact fun u v hu hv => extend_matches hu hv
  · exact fun hdot w hw => extend_split hdot hw
  · exact Path.startsWith_iff
  · exact Path.isLabel_agrees_iff

theorem regex_languages_label :
    (Path.mk () [7] false).isLabel 7 = true ∧ ∀ w, (Path.mk () [7] false).Matches w ↔ w = [7] := by
  have hlabel := ((regex_languages.2.2.2 (Path.mk () [7] false)).2 7).2.mpr (by decide)
  exact ⟨by decide, hlabel.mp (by decide)⟩

/-- The path of a reference that a call returned for a borrow of the local 7. -/
theorem isLabel_dotStar : (Path.mk () [7] true).isLabel 7 = true ∧ (Path.mk () [7] true).Matches [7, 8] :=
  ⟨by decide, [8], rfl, .inl rfl⟩

section
variable {Loc Lbl : Type} [LinearOrder Lbl]

namespace Edge

/-- The increase of the size, and the edge. -/
def insert (self : Edge Loc Lbl) (loc : Loc) (regex : Regex Lbl) : Nat × Edge Loc Lbl :=
  if regex ∈ self.regexes then (0, self)
  else (regex.abstractSize, {
    abstractSize := saturatingAdd self.abstractSize regex.abstractSize
    regexes := self.regexes.insert regex loc })

def join (self other : Edge Loc Lbl) : Nat × Edge Loc Lbl :=
  other.regexes.toList.foldl (fun (sizeIncrease, edge) (regex, loc) =>
    let (increase, edge) := edge.insert loc regex
    (saturatingAdd sizeIncrease increase, edge)) (0, self)

def paths (self : Edge Loc Lbl) : List (Path Loc Lbl) :=
  self.regexes.toList.map fun (regex, loc) => ⟨loc, regex.labels, regex.endsInDotStar⟩

end Edge

/-! ### The borrow graph -/

structure Graph (Loc Lbl : Type) [LinearOrder Lbl] where
  freshId : Nat := 0
  nodes : BTreeMap Ref Node := ∅
  graph : GraphMap Ref (Edge Loc Lbl) := {}

/-- Edges to add, and what has been visited to find them. -/
structure NewEdges (Lbl : Type) where
  acc : BTreeMap EdgeKey (List (Regex Lbl))
  nodesVisited : Nat := 0
  edgesVisited : Nat := 0
  edgesAdded : Nat := 0

namespace NewEdges

def visitNode (st : NewEdges Lbl) : NewEdges Lbl :=
  { st with nodesVisited := saturatingAdd st.nodesVisited 1 }

def visitEdge (st : NewEdges Lbl) : NewEdges Lbl :=
  { st with edgesVisited := saturatingAdd st.edgesVisited 1 }

def edgeToAdd (st : NewEdges Lbl) (p : NodeIndex) (r : Regex Lbl) (s : NodeIndex) : NewEdges Lbl :=
  { st with
    edgesAdded := saturatingAdd st.edgesAdded r.abstractSize
    acc := st.acc.insert (toLex (p, s)) ((st.acc[toLex (p, s)]?).getD [] ++ [r]) }

variable (ext : Extension Lbl) (newRefs : List NodeIndex)

/-- An edge from `x` to a source. -/
def visitIncoming (st : NewEdges Lbl) (entry : NodeIndex × Edge Loc Lbl) : NewEdges Lbl :=
  entry.2.regexes.keys.foldl (fun st xToSource =>
    newRefs.foldl (fun st newRef => st.edgeToAdd entry.1 (xToSource.extend ext) newRef) st.visitEdge)
    st.visitNode

/-- An edge from a source to `x`. -/
def visitOutgoing (st : NewEdges Lbl) (entry : Edge Loc Lbl × NodeIndex) : NewEdges Lbl :=
  entry.1.regexes.keys.foldl (fun st sourceToX =>
    let st := (sourceToX.removePrefix ext).foldl (fun st suffix =>
      newRefs.foldl (fun st newRef => st.edgeToAdd newRef suffix entry.2) st) st.visitEdge
    (ext.removePrefix sourceToX).foldl (fun st suffix =>
      newRefs.foldl (fun st newRef => st.edgeToAdd entry.2 suffix newRef) st) st)
    st.visitNode

def visitSource (graph : GraphMap Ref (Edge Loc Lbl)) (st : NewEdges Lbl) (source : NodeIndex) :
    NewEdges Lbl :=
  let st := (graph.incomingEdgesIdx source).foldl (visitIncoming ext newRefs) st.visitNode
  (graph.outgoingEdgesIdx source).foldl (visitOutgoing ext newRefs) st

end NewEdges

namespace Graph
variable {μ ε : Type} (self : Graph Loc Lbl)

def node (r : Ref) : Except Violation Node := Exec.unwrap self.nodes[r]? (.missingRef r)

def isMutable (r : Ref) : Except Violation Bool := do
  let n ← self.node r
  return n.isMutable

def addRef (loc : Loc) (isMut : Bool) : Except Violation ((Ref × NodeIndex) × Graph Loc Lbl) := do
  let r := Ref.fresh self.freshId
  let freshId ← Exec.unwrap (checkedAdd self.freshId 1) .freshIdOverflow
  let (rIdx, graph) ← self.graph.addNode r
  let (_, edge) := ({} : Edge Loc Lbl).insert loc .epsilon
  let graph ← graph.addEdge rIdx edge rIdx
  Exec.require (r ∉ self.nodes) (.duplicateRef r)
  return ((r, rIdx), { freshId, nodes := self.nodes.insert r ⟨isMut, rIdx⟩, graph })

/-- The graph of the parameters, each under its key. -/
def new {κ : Type} [LinearOrder κ] (initialRefs : List (κ × Loc × Bool)) :
    Except Violation (Graph Loc Lbl × BTreeMap κ Ref) :=
  initialRefs.foldlM (fun (graph, map) (k, loc, isMut) => do
    let ((r, _), graph) ← graph.addRef loc isMut
    Exec.require (k ∉ map) .keyExists
    return (graph, map.insert k r)) ({}, ∅)

/-- The indices of references. -/
def indices (refs : List Ref) : Except Violation (BTreeSet NodeIndex) :=
  refs.foldlM (fun set r => do
    let n ← self.node r
    return set.insert n.nodeIndex) ∅

def determineAllNewEdges (meter : Meter μ ε) (m : μ)
    (acc : BTreeMap EdgeKey (List (Regex Lbl))) (sources : BTreeSet NodeIndex)
    (ext : Extension Lbl) (newRefs : List NodeIndex) :
    Except (Failure ε) (BTreeMap EdgeKey (List (Regex Lbl)) × μ) := do
  let st := sources.toList.foldl (NewEdges.visitSource ext newRefs self.graph)
    { acc := acc, nodesVisited := 0, edgesVisited := 0, edgesAdded := 0 }
  let m ← Failure.charge (meter.visitNodes st.nodesVisited m)
  Failure.check (Exec.require (st.edgesVisited + st.edgesAdded < 2 ^ 64) .visitsOverflow)
  let m ← Failure.charge (meter.visitEdges (st.edgesVisited + st.edgesAdded) m)
  return (st.acc, m)

def addEdge (source : NodeIndex) (loc : Loc) (regexes : List (Regex Lbl)) (target : NodeIndex) :
    Except Violation (Graph Loc Lbl) := do
  Exec.require (regexes ≠ []) .noRegexes
  if source = target then do
    Exec.require (∀ regex ∈ regexes, regex.isEpsilon = true) (.badSelfEdge source)
    return self
  else do
    let edge := regexes.foldl (fun edge r => (edge.insert loc r).2) ({} : Edge Loc Lbl)
    let graph ← self.graph.addEdge source edge target
    return { self with graph }

def addNewEdges (loc : Loc) (newRefs : List NodeIndex)
    (edgesToAdd : BTreeMap EdgeKey (List (Regex Lbl))) :
    Except Violation (Graph Loc Lbl) :=
  edgesToAdd.toList.foldlM (fun graph (key, rs) => do
    Exec.require ((ofLex key).1 ∈ newRefs ∨ (ofLex key).2 ∈ newRefs) .edgeOfOldRefs
    graph.addEdge (ofLex key).1 loc rs (ofLex key).2) self

/-- A reference that extends each of the sources. -/
def extendBy (ext : Extension Lbl) (meter : Meter μ ε) (m : μ) (loc : Loc) (sources : List Ref)
    (isMut : Bool) : Except (Failure ε) (Ref × Graph Loc Lbl × μ) := do
  let ((newRef, newRefIdx), self) ← Failure.check (self.addRef loc isMut)
  let sourceIdxs ← Failure.check (self.indices sources)
  let (edgesToAdd, m) ← self.determineAllNewEdges meter m ∅ sourceIdxs ext [newRefIdx]
  let self ← Failure.check (self.addNewEdges loc [newRefIdx] edgesToAdd)
  return (newRef, self, m)

def extendByEpsilon (meter : Meter μ ε) (m : μ) (loc : Loc) (sources : List Ref) (isMut : Bool) :
    Except (Failure ε) (Ref × Graph Loc Lbl × μ) :=
  self.extendBy .epsilon meter m loc sources isMut

def extendByLabel (meter : Meter μ ε) (m : μ) (loc : Loc) (sources : List Ref) (isMut : Bool)
    (extension : Lbl) : Except (Failure ε) (Ref × Graph Loc Lbl × μ) :=
  self.extendBy (.label extension) meter m loc sources isMut

/-- The new references of a call, and the indices of the mutable and of the immutable ones. -/
structure NewRefs where
  refs : List Ref := []
  muts : List NodeIndex := []
  imms : List NodeIndex := []

def addRefs (loc : Loc) (self : Graph Loc Lbl) (mutabilities : List Bool) :
    Except Violation (NewRefs × Graph Loc Lbl) :=
  mutabilities.foldlM (fun (new, graph) isMut => do
    let ((newRef, newRefIdx), graph) ← graph.addRef loc isMut
    let new := { new with refs := new.refs ++ [newRef] }
    return (if isMut then { new with muts := new.muts ++ [newRefIdx] }
      else { new with imms := new.imms ++ [newRefIdx] }, graph)) ({}, self)

/-- The edges between the immutable references of a call. -/
def addImmEdges (imms : List NodeIndex)
    (acc : BTreeMap EdgeKey (List (Regex Lbl))) :
    Except Violation (BTreeMap EdgeKey (List (Regex Lbl))) :=
  (imms.product imms).foldlM (fun acc (x, y) =>
    if x = y then return acc
    else do
      Exec.require (toLex (x, y) ∉ acc) .edgeBetweenNewRefs
      return acc.insert (toLex (x, y)) [.dotStar]) acc

def extendByDotStarForCall (meter : Meter μ ε) (m : μ) (loc : Loc) (allSources : BTreeSet Ref)
    (mutabilities : List Bool) : Except (Failure ε) (List Ref × Graph Loc Lbl × μ) := do
  let allSourceIdxs ← Failure.check (self.indices allSources.toList)
  let mutSources ← Failure.check (Exec.filter self.isMutable allSources.toList)
  let mutSourceIdxs ← Failure.check (self.indices mutSources)
  let (new, self) ← Failure.check (self.addRefs loc mutabilities)
  let (acc, m) ← self.determineAllNewEdges meter m ∅ mutSourceIdxs .dotStar new.muts
  let (acc, m) ← self.determineAllNewEdges meter m acc allSourceIdxs .dotStar new.imms
  let acc ← Failure.check (addImmEdges new.imms acc)
  let self ← Failure.check (self.addNewEdges loc (new.muts ++ new.imms) acc)
  return (new.refs, self, m)

def release (meter : Meter μ ε) (m : μ) (r : Ref) : Except (Failure ε) (Graph Loc Lbl × μ) := do
  let m ← Failure.charge (meter.visitNodes self.nodes.size m)
  let n ← Failure.check (self.node r)
  let graph ← Failure.check (self.graph.removeNode n.nodeIndex)
  return ({ self with nodes := self.nodes.erase r, graph }, m)

def releaseAll : Except Violation (Graph Loc Lbl) := do
  let graph ← self.graph.clear
  return { freshId := 0, nodes := ∅, graph }

/-! ### Queries -/

/-- The paths of the edges to or from other references, charged to the meter. -/
def collectPaths (meter : Meter μ ε) (m : μ) (r : Ref) (edges : List (Edge Loc Lbl × Ref)) :
    Except (Failure ε) (BTreeMap Ref (List (Path Loc Lbl)) × μ) := do
  let others := edges.filter fun (_, s) => s ≠ r
  let m ← Failure.charge (meter.visitNodes (min edges.length (2 ^ 64 - 1)) m)
  let m ← Failure.charge (meter.visitEdges
    (others.foldl (fun size (edge, _) => saturatingAdd size edge.abstractSize) 0) m)
  return (others.foldl (fun paths (edge, s) => paths.insert s edge.paths) ∅, m)

def borrowedBy (meter : Meter μ ε) (m : μ) (r : Ref) :
    Except (Failure ε) (BTreeMap Ref (List (Path Loc Lbl)) × μ) := do
  let n ← Failure.check (self.node r)
  Failure.check (Exec.require (n.nodeIndex ∈ self.graph.nodeWeights) (.missingNode n.nodeIndex))
  let edges ← Failure.check (self.graph.outgoingEdges n.nodeIndex)
  collectPaths meter m r edges

def borrowsFrom (meter : Meter μ ε) (m : μ) (r : Ref) :
    Except (Failure ε) (BTreeMap Ref (List (Path Loc Lbl)) × μ) := do
  let n ← Failure.check (self.node r)
  Failure.check (Exec.require (n.nodeIndex ∈ self.graph.nodeWeights) (.missingNode n.nodeIndex))
  let edges ← Failure.check (self.graph.incomingEdges n.nodeIndex)
  collectPaths meter m r (edges.map Prod.swap)

/-! ### Joins and renamings -/

/-- Joins one edge of the other graph; returns the increase of the size. -/
def joinEdge (self : Graph Loc Lbl) (p : Ref) (otherEdge : Edge Loc Lbl) (s : Ref) :
    Except Violation (Nat × Graph Loc Lbl) :=
  if p ∈ self.nodes ∧ s ∈ self.nodes then do
    let pSelf ← self.node p
    let sSelf ← self.node s
    let key : EdgeKey := toLex (pSelf.nodeIndex, sSelf.nodeIndex)
    let (increase, edge) := match self.graph.edgeWeights[key]? with
      | some selfEdge => selfEdge.join otherEdge
      | none => (otherEdge.abstractSize, otherEdge)
    return (increase, { self with
      graph := { self.graph with edgeWeights := self.graph.edgeWeights.insert key edge } })
  else return (0, self)

/-- Whether the graph has changed, and the graph. -/
def join (meter : Meter μ ε) (m : μ) (other : Graph Loc Lbl) :
    Except (Failure ε) (Bool × Graph Loc Lbl × μ) := do
  let otherEdges ← Failure.check other.graph.allEdges
  let (totalIncrease, self) ← Failure.check (otherEdges.foldlM (fun (total, graph) (p, otherEdge, s) => do
    let (increase, graph) ← graph.joinEdge p otherEdge s
    return (saturatingAdd total increase, graph)) (0, self))
  let m ← Failure.charge (meter.visitNodes self.nodes.size m)
  let m ← Failure.charge (meter.visitEdges totalIncrease m)
  return (decide (0 < totalIncrease), self, m)

/-- Renames every reference, in the map and in the weights of the nodes. With a new name
comes the least fresh id that it leaves free. -/
def rename (f : Ref → Except Violation (Ref × Nat)) : Except Violation (Graph Loc Lbl) := do
  let (freshId, nodes, weights) ← self.nodes.toList.foldlM (fun (freshId, nodes, weights) (r, n) => do
    Exec.require (n.nodeIndex ∈ weights) (.missingNode n.nodeIndex)
    let (r', succ) ← f r
    return (max freshId succ, nodes.insert r' n, weights.insert n.nodeIndex r'))
    (0, (∅ : BTreeMap Ref Node), self.graph.nodeWeights)
  return { freshId, nodes, graph := { self.graph with nodeWeights := weights } }

end Graph

namespace Ref

def refresh : Ref → Except Violation (Ref × Nat)
  | .canonical id => do
    let succ ← Exec.unwrap (checkedAdd id 1) .freshIdOverflow
    return (.fresh id, succ)
  | .fresh id => .error (.refreshOfFresh (.fresh id))

def canonicalize (remapping : BTreeMap Ref Nat) : Ref → Except Violation (Ref × Nat)
  | .canonical id => .error (.canonicalizeOfCanonical (.canonical id))
  | .fresh id => do
    let id' ← Exec.unwrap remapping[Ref.fresh id]? (.missingRemapping (.fresh id))
    return (.canonical id', 0)

end Ref

namespace Graph
variable (self : Graph Loc Lbl)

def refreshRefs : Except Violation (Graph Loc Lbl) := self.rename Ref.refresh

def canonicalize (remapping : BTreeMap Ref Nat) : Except Violation (Graph Loc Lbl) := do
  let self ← self.rename (Ref.canonicalize remapping)
  let graph ← self.graph.minimize
  return { self with graph }

end Graph

end

end Sui.Move.BorrowGraph
