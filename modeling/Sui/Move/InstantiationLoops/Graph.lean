import Sui.Move.InstantiationLoops.Basic
import Sui.Lib.Condensation

/-! The graph of the checker.

`Passes` reads the edges off the module: a parameter of a caller occurs in the type with
which a call instantiates a parameter of the callee. The graph has exactly these
(`buildGraph_spec`), so the checker accepts when no edge that applies a type constructor
lies on a cycle of them (`verifyModule_ok`, `verifyModule_rejected`). -/
namespace Sui.Move.InstantiationLoops

open Sui.Lib Exec List
open Relation (ReflTransGen)
open InstantiationLoopChecker

/-! ### What the module says -/

/-- The definition that a handle stands for. -/
def definition? (module : CompiledModule) (handle : Nat) : Option Nat :=
  Writes.last (definitions module) handle

/-- A generic call to a function of the module. -/
def Calls (module : CompiledModule) (caller callee : Nat) (actuals : Signature) : Prop :=
  ∃ d code idx inst, module.functionDefs[caller]? = some d ∧ d.code = some code ∧
    Bytecode.callGeneric idx ∈ code ∧ module.functionInstantiations[idx]? = some inst ∧
    definition? module inst.handle = some callee ∧
    module.signatures[inst.typeParameters]? = some actuals

/-- The parameter is used in a type: it is the type, or below a type constructor. -/
inductive Uses : SignatureToken → Nat → Edge → Prop
  | identity (p : Nat) : Uses (.typeParameter p) p .identity
  | tyConApp {ty : SignatureToken} {p : Nat} (hty : ∀ q, ty ≠ .typeParameter q)
      (hp : p ∈ extractTypeParameters ty) : Uses ty p (.tyConApp ty)

/-- A parameter of a caller is used to instantiate a parameter of a callee. -/
def Passes (module : CompiledModule) (u v : Node) (edge : Edge) : Prop :=
  ∃ caller callee actuals formal ty p, Calls module caller callee actuals ∧
    actuals[formal]? = some ty ∧ Uses ty p edge ∧ u = toLex (caller, p) ∧ v = toLex (callee, formal)

def Leads (module : CompiledModule) (u v : Node) : Prop := ∃ edge, Passes module u v edge

/-! ### Adding edges -/

/-- The graph has the edge between nodes with these weights. -/
def Graph.HasEdge (graph : Graph) (u v : Node) (edge : Edge) : Prop :=
  ∃ i j, graph.nodes[i]? = some u ∧ graph.nodes[j]? = some v ∧ (i, j, edge) ∈ graph.edges

/-- Edges are between nodes. -/
def Graph.Valid (graph : Graph) : Prop :=
  ∀ i j edge, (i, j, edge) ∈ graph.edges → i < graph.nodes.length ∧ j < graph.nodes.length

namespace InstantiationLoopChecker

structure Ok (c : InstantiationLoopChecker) : Prop where
  nodeMap : ∀ (n : Node) (i : Nat), c.nodeMap[n]? = some i ↔ c.graph.nodes[i]? = some n
  edges : c.graph.Valid

/-- Exactly the edges with `P` are added. -/
structure Adds (c c' : InstantiationLoopChecker) (P : Node → Node → Edge → Prop) : Prop where
  ok : c'.Ok
  defs : c'.funcHandleDefMap = c.funcHandleDefMap
  edges : ∀ u v edge, c'.graph.HasEdge u v edge ↔ c.graph.HasEdge u v edge ∨ P u v edge

variable {c c' : InstantiationLoopChecker} {P : Node → Node → Edge → Prop} {α : Type}
  {R : α → Node → Node → Edge → Prop} {l : List α} {caller : Nat}

theorem Adds.refl (h : c.Ok) : Adds c c fun _ _ _ => False :=
  ⟨h, rfl, fun _ _ _ => by simp⟩

theorem Adds.congr (h : Adds c c' P) (hPQ : ∀ u v edge, P u v edge ↔ Q u v edge) : Adds c c' Q :=
  ⟨h.ok, h.defs, fun u v edge => (h.edges u v edge).trans (or_congr_right (hPQ u v edge))⟩

theorem Adds.trans (h : Adds c c' P) (h' : Adds c' c'' Q) : Adds c c'' fun u v edge => P u v edge ∨ Q u v edge :=
  ⟨h'.ok, h'.defs.trans h.defs, fun u v edge => by rw [h'.edges, h.edges, or_assoc]⟩

theorem Adds.foldl
    (step : ∀ c : InstantiationLoopChecker, ∀ x ∈ l, c.Ok → Adds c (f c x) (R x)) (h : c.Ok) :
    Adds c (l.foldl f c) fun u v edge => ∃ x ∈ l, R x u v edge := by
  induction l generalizing c with
  | nil => exact (Adds.refl h).congr (by simp)
  | cons x l ih =>
    have hx := step c x (.head _) h
    have hl := ih (fun c y hy => step c y (.tail _ hy)) hx.ok
    exact (hx.trans hl).congr (by simp)

theorem Adds.foldlM {f : InstantiationLoopChecker → α → Exec InstantiationLoopChecker} {defs : BTreeMap Nat Nat}
    (step : ∀ c : InstantiationLoopChecker, ∀ x ∈ l, ∀ c', c.Ok → c.funcHandleDefMap = defs →
      f c x = .ok c' → Adds c c' (R x))
    (h : c.Ok) (hdefs : c.funcHandleDefMap = defs) (hrun : l.foldlM f c = .ok c') :
    Adds c c' fun u v edge => ∃ x ∈ l, R x u v edge := by
  induction l generalizing c with
  | nil =>
    cases hrun
    exact (Adds.refl h).congr (by simp)
  | cons x l ih =>
    obtain ⟨c₁, hfirst, hrest⟩ := foldlM_cons_eq_ok.mp hrun
    have hx := step c x (.head _) c₁ h hdefs hfirst
    have hl := ih (fun c y hy => step c y (.tail _ hy)) hx.ok (hx.defs.trans hdefs) hrest
    exact (hx.trans hl).congr (by simp)

/-- A node is found or appended. -/
theorem getOrAddNode_spec (h : c.Ok) (node : Node) :
    ∃ idx more, c.getOrAddNode node = (idx, { c with
        graph := { c.graph with nodes := c.graph.nodes ++ more }
        nodeMap := (c.getOrAddNode node).2.nodeMap }) ∧
      (c.getOrAddNode node).2.Ok ∧ (c.graph.nodes ++ more)[idx]? = some node := by
  unfold getOrAddNode
  cases hn : c.nodeMap[node]? with
  | some idx => exact ⟨idx, [], by simp, h, by simpa using (h.nodeMap node idx).mp hn⟩
  | none =>
    refine ⟨c.graph.nodes.length, [node], rfl, ⟨fun n i => ?_, fun i j edge he => ?_⟩, by simp⟩
    · rw [BTreeMap.get_insert, getElem?_append]
      by_cases hnode : node = n
      · subst hnode
        rw [if_pos rfl]
        have hnot : ∀ j, c.graph.nodes[j]? ≠ some node := fun j hj => by
          rw [(h.nodeMap node j).mpr hj] at hn
          cases hn
        split
        · simp only [hnot, iff_false, Option.some.injEq]
          omega
        · rw [getElem?_singleton]
          simp only [Option.some.injEq]
          split
          · simp only [iff_true]
            omega
          · simp only [reduceCtorEq, iff_false]
            omega
      · rw [if_neg hnode, h.nodeMap]
        split
        · exact Iff.rfl
        · rename_i hi
          rw [getElem?_eq_none_iff.mpr (by omega), getElem?_singleton]
          split <;> simp [hnode]
    · have hlt := h.edges i j edge he
      simp only [length_append, length_singleton]
      omega

/-- More nodes make no edges. -/
theorem hasEdge_append {graph : Graph} (h : graph.Valid) (more : List Node) (u v : Node) (edge : Edge) :
    Graph.HasEdge { graph with nodes := graph.nodes ++ more } u v edge ↔ graph.HasEdge u v edge := by
  refine exists₂_congr fun i j => ?_
  refine ⟨fun ⟨hu, hv, he⟩ => ?_, fun ⟨hu, hv, he⟩ => ?_⟩
  · obtain ⟨hi, hj⟩ := h i j edge he
    simp only [getElem?_append_left hi, getElem?_append_left hj] at hu hv
    exact ⟨hu, hv, he⟩
  · obtain ⟨hi, hj⟩ := h i j edge he
    refine ⟨?_, ?_, he⟩
    · rw [getElem?_append_left hi, hu]
    · rw [getElem?_append_left hj, hv]

theorem addEdge_spec (h : c.Ok) (nodeFrom nodeTo : Node) (edge : Edge) :
    Adds c (c.addEdge nodeFrom nodeTo edge) fun u v e => u = nodeFrom ∧ v = nodeTo ∧ e = edge := by
  obtain ⟨i, more, hfrom, hok₁, hi⟩ := getOrAddNode_spec h nodeFrom
  unfold addEdge
  rw [hfrom]
  simp only
  rw [hfrom] at hok₁
  obtain ⟨j, more', hto, hok₂, hj⟩ := getOrAddNode_spec hok₁ nodeTo
  rw [hto]
  simp only
  rw [hto] at hok₂
  have hi' : (c.graph.nodes ++ more ++ more')[i]? = some nodeFrom := by
    rw [List.getElem?_append_left (List.getElem?_eq_some_iff.mp hi).1, hi]
  refine ⟨⟨hok₂.nodeMap, fun a b e he => ?_⟩, rfl, fun u v e => ?_⟩
  · rcases mem_concat.mp he with he | he
    · exact hok₂.edges a b e he
    · cases he
      exact ⟨(List.getElem?_eq_some_iff.mp hi').1, (List.getElem?_eq_some_iff.mp hj).1⟩
  · have hold := hasEdge_append (hok₁.edges) more' u v e
    have hold' := hasEdge_append h.edges more u v e
    rw [← hold', ← hold]
    refine ⟨fun ⟨a, b, hu, hv, he⟩ => ?_, fun hor => ?_⟩
    · rcases mem_concat.mp he with he | he
      · exact .inl ⟨a, b, hu, hv, he⟩
      · cases he
        exact .inr ⟨Option.some.inj (hu.symm.trans hi'), Option.some.inj (hv.symm.trans hj), rfl⟩
    · rcases hor with ⟨a, b, hu, hv, he⟩ | ⟨rfl, rfl, rfl⟩
      · exact ⟨a, b, hu, hv, mem_append_left _ he⟩
      · exact ⟨i, j, hi', hj, mem_append_right _ (mem_singleton_self _)⟩

/-! ### The edges of the module -/

theorem asU16_of_lt (h : n < 65536) : asU16 n = n := Nat.mod_eq_of_lt h

theorem buildGraphActual_spec (caller callee : Nat) (h : c.Ok) (hformal : formal < 65536) :
    Adds c (buildGraphActual caller callee c (ty, formal)) fun u v edge =>
      ∃ p, Uses ty p edge ∧ u = toLex (caller, p) ∧ v = toLex (callee, formal) := by
  unfold buildGraphActual
  rw [asU16_of_lt hformal]
  split
  · rename_i p hp
    cases hp
    refine (addEdge_spec h _ _ _).congr fun u v edge => ⟨?_, ?_⟩
    · intro ⟨hu, hv, he⟩
      exact ⟨p, he ▸ .identity p, hu, hv⟩
    · intro ⟨q, huses, hu, hv⟩
      cases huses with
      | identity => exact ⟨hu, hv, rfl⟩
      | tyConApp hty => exact absurd rfl (hty p)
  · rename_i hty
    have hty' : ∀ q, ty ≠ .typeParameter q := fun q hq => hty q hq
    refine (Adds.foldl (fun c p _ hc => addEdge_spec hc (toLex (caller, p)) (toLex (callee, formal))
      (.tyConApp ty)) h).congr fun u v edge => ⟨?_, ?_⟩
    · intro ⟨p, hp, hu, hv, he⟩
      exact ⟨p, he ▸ .tyConApp hty' (Std.ExtTreeSet.mem_toList.mp hp), hu, hv⟩
    · intro ⟨p, huses, hu, hv⟩
      cases huses with
      | identity => exact absurd rfl (hty' p)
      | tyConApp _ hp => exact ⟨p, Std.ExtTreeSet.mem_toList.mpr hp, hu, hv, rfl⟩

variable {module : CompiledModule}

theorem buildGraphCall_spec (h : c.Ok) (hrun : c.buildGraphCall module caller callee typeActualsIdx = .ok c') :
    Adds c c' fun u v edge => ∃ actuals formal ty p,
      module.signatures[typeActualsIdx]? = some actuals ∧ actuals[formal]? = some ty ∧
      Uses ty p edge ∧ u = toLex (caller, p) ∧ v = toLex (callee, formal) := by
  obtain ⟨actuals, hactuals, hrun⟩ := bind_eq_ok.mp hrun
  rw [unwrap_eq_ok] at hactuals
  cases hrun
  have hlength := module.signatures_length actuals (mem_of_getElem? hactuals)
  have hstep : ∀ c : InstantiationLoopChecker, ∀ x ∈ actuals.zipIdx, c.Ok →
      Adds c (buildGraphActual caller callee c x) fun u v edge =>
        ∃ p, Uses x.1 p edge ∧ u = toLex (caller, p) ∧ v = toLex (callee, x.2) := by
    intro c ⟨ty, formal⟩ hx hc
    have hlt := (List.getElem?_eq_some_iff.mp (mem_zipIdx_iff_getElem?.mp hx)).1
    exact buildGraphActual_spec caller callee hc (by omega)
  refine (Adds.foldl hstep h).congr fun u v edge => ⟨?_, ?_⟩
  · intro ⟨⟨ty, formal⟩, hx, p, huses, hu, hv⟩
    exact ⟨actuals, formal, ty, p, hactuals, mem_zipIdx_iff_getElem?.mp hx, huses, hu, hv⟩
  · intro ⟨actuals', formal, ty, p, hactuals', hty, huses, hu, hv⟩
    cases hactuals.symm.trans hactuals'
    exact ⟨(ty, formal), mem_zipIdx_iff_getElem?.mpr hty, p, huses, hu, hv⟩

/-- What an instruction of a caller adds. -/
def InstrPasses (module : CompiledModule) (caller : Nat) (instr : Bytecode) (u v : Node)
    (edge : Edge) : Prop :=
  ∃ idx inst callee actuals formal ty p, instr = .callGeneric idx ∧
    module.functionInstantiations[idx]? = some inst ∧
    definition? module inst.handle = some callee ∧
    module.signatures[inst.typeParameters]? = some actuals ∧ actuals[formal]? = some ty ∧
    Uses ty p edge ∧ u = toLex (caller, p) ∧ v = toLex (callee, formal)

theorem buildGraphInstr_spec (h : c.Ok) (hdefs : c.funcHandleDefMap = (new module).funcHandleDefMap)
    (hrun : buildGraphInstr module caller c instr = .ok c') : Adds c c' (InstrPasses module caller instr) := by
  have hnone : (∀ u v edge, ¬ InstrPasses module caller instr u v edge) → c' = c →
      Adds c c' (InstrPasses module caller instr) := by
    intro hnot heq
    subst heq
    exact (Adds.refl h).congr fun u v edge => (iff_of_false not_false (hnot u v edge))
  cases instr with
  | other =>
    refine hnone ?_ (pure_eq_ok.mp hrun).symm
    intro u v edge ⟨_, _, _, _, _, _, _, hinstr, _⟩
    cases hinstr
  | callGeneric idx =>
    obtain ⟨inst, hinst, hrun⟩ := bind_eq_ok.mp hrun
    rw [unwrap_eq_ok] at hinst
    have hlookup : c.funcHandleDefMap[inst.handle]? = definition? module inst.handle := by
      rw [hdefs]
      show (Writes.apply ∅ (definitions module))[inst.handle]? = _
      rw [Writes.get_apply]
      simp [definition?]
    rw [hlookup] at hrun
    cases hcallee : definition? module inst.handle with
    | none =>
      rw [hcallee] at hrun
      refine hnone ?_ (pure_eq_ok.mp hrun).symm
      intro u v edge ⟨idx', inst', callee, _, _, _, _, hinstr, hinst', hcallee', _⟩
      cases hinstr
      cases hinst.symm.trans hinst'
      cases hcallee.symm.trans hcallee'
    | some callee =>
      rw [hcallee] at hrun
      refine (buildGraphCall_spec h hrun).congr fun u v edge => ⟨?_, ?_⟩
      · intro ⟨actuals, formal, ty, p, hrest⟩
        exact ⟨idx, inst, callee, actuals, formal, ty, p, rfl, hinst, hcallee, hrest⟩
      · intro ⟨idx', inst', callee', actuals, formal, ty, p, hinstr, hinst', hcallee', hrest⟩
        cases hinstr
        cases hinst.symm.trans hinst'
        cases hcallee.symm.trans hcallee'
        exact ⟨actuals, formal, ty, p, hrest⟩

theorem ok_new (module : CompiledModule) : (new module).Ok :=
  ⟨fun n i => by simp [new], fun i j edge he => by simp [new] at he⟩

theorem buildGraphFunctionDef_spec {d : FunctionDefinition} (hd : module.functionDefs[caller]? = some d) (h : c.Ok)
    (hdefs : c.funcHandleDefMap = (new module).funcHandleDefMap)
    (hrun : c.buildGraphFunctionDef module (d, caller) = .ok c') :
    Adds c c' fun u v edge => ∃ code instr, d.code = some code ∧ instr ∈ code ∧
      InstrPasses module caller instr u v edge := by
  have hcaller : asU16 caller = caller := by
    have hlt := (List.getElem?_eq_some_iff.mp hd).1
    have hle := module.functionDefs_length
    exact asU16_of_lt (by omega)
  unfold buildGraphFunctionDef at hrun
  rw [hcaller] at hrun
  cases hcode : d.code with
  | none =>
    simp only [hcode] at hrun
    cases hrun
    exact (Adds.refl h).congr (by simp)
  | some code =>
    simp only [hcode] at hrun
    have hstep : ∀ c : InstantiationLoopChecker, ∀ instr ∈ code, ∀ c', c.Ok →
        c.funcHandleDefMap = (new module).funcHandleDefMap →
        buildGraphInstr module caller c instr = .ok c' →
        Adds c c' (InstrPasses module caller instr) :=
      fun c instr _ c' hc hdefs => buildGraphInstr_spec hc hdefs
    refine (Adds.foldlM hstep h hdefs hrun).congr fun u v edge => ⟨?_, ?_⟩
    · intro ⟨instr, hinstr, hp⟩
      exact ⟨code, instr, rfl, hinstr, hp⟩
    · intro ⟨_, instr, rfl, hinstr, hp⟩
      exact ⟨instr, hinstr, hp⟩

/-- **The graph has the edges of the module.** -/
theorem buildGraph_spec (hrun : (new module).buildGraph module = .ok c) :
    c.Ok ∧ ∀ u v edge, c.graph.HasEdge u v edge ↔ Passes module u v edge := by
  have hstep : ∀ c : InstantiationLoopChecker,
      ∀ x ∈ module.functionDefs.zipIdx.filter (!·.1.isNative), ∀ c', c.Ok →
      c.funcHandleDefMap = (new module).funcHandleDefMap →
      c.buildGraphFunctionDef module x = .ok c' →
      Adds c c' fun u v edge => ∃ code instr, x.1.code = some code ∧ instr ∈ code ∧
        InstrPasses module x.2 instr u v edge :=
    fun c x hx c' hc hdefs => buildGraphFunctionDef_spec (mem_zipIdx_iff_getElem?.mp (mem_filter.mp hx).1) hc hdefs
  have hadds := Adds.foldlM hstep (ok_new module) rfl hrun
  refine ⟨hadds.ok, fun u v edge => (hadds.edges u v edge).trans ⟨?_, ?_⟩⟩
  · intro hor
    rcases hor with ⟨_, _, _, _, he⟩ | ⟨⟨d, caller⟩, hx, code, instr, hcode, hinstr, hp⟩
    · simp [new] at he
    · obtain ⟨idx, inst, callee, actuals, formal, ty, p, rfl, hinst, hcallee, hactuals, hty, huses, hu, hv⟩ := hp
      have hd := mem_zipIdx_iff_getElem?.mp (mem_filter.mp hx).1
      exact ⟨caller, callee, actuals, formal, ty, p,
        ⟨d, code, idx, inst, hd, hcode, hinstr, hinst, hcallee, hactuals⟩, hty, huses, hu, hv⟩
  · rintro ⟨caller, callee, actuals, formal, ty, p,
      ⟨d, code, idx, inst, hd, hcode, hinstr, hinst, hcallee, hactuals⟩, hty, huses, hu, hv⟩
    refine .inr ⟨(d, caller), mem_filter.mpr ⟨mem_zipIdx_iff_getElem?.mpr hd, ?_⟩, code,
      _, hcode, hinstr, idx, inst, callee, actuals, formal, ty, p, rfl, hinst, hcallee, hactuals,
      hty, huses, hu, hv⟩
    simp [FunctionDefinition.isNative, hcode]

end InstantiationLoopChecker

/-! ### Components -/

def Graph.Step (graph : Graph) (i j : Nat) : Prop := ∃ edge, (i, j, edge) ∈ graph.edges

/-- The function lists the strongly connected components. -/
structure IsScc (tarjanScc : Graph → List (List Nat)) : Prop where
  covers : ∀ graph : Graph, graph.Valid → ∀ i < graph.nodes.length,
    ∃ nodes ∈ tarjanScc graph, i ∈ nodes
  component : ∀ graph : Graph, graph.Valid → ∀ nodes ∈ tarjanScc graph, ∀ i ∈ nodes, ∀ j,
    j ∈ nodes ↔ Together graph.Step i j

theorem mem_outgoing {graph : Graph} :
    (target, edgeIdx) ∈ graph.outgoing i ↔ ∃ weight, graph.edges[edgeIdx]? = some (i, target, weight) := by
  unfold Graph.outgoing
  rw [mem_reverse, mem_filterMap]
  refine ⟨?_, ?_⟩
  · intro ⟨⟨⟨source, target', weight⟩, idx⟩, hmem, heq⟩
    simp only at heq
    split at heq
    · cases heq
      rename_i hsource
      exact ⟨weight, hsource ▸ mem_zipIdx_iff_getElem?.mp hmem⟩
    · cases heq
  · intro ⟨weight, hget⟩
    exact ⟨((i, target, weight), edgeIdx), mem_zipIdx_iff_getElem?.mpr hget, if_pos rfl⟩

namespace InstantiationLoopChecker

theorem nonTrivial_isSome {graph : Graph} {nodes : List Nat} :
    (nonTrivial graph nodes).isSome = true ↔
      ∃ i ∈ nodes, ∃ j ∈ nodes, ∃ ty, (i, j, Edge.tyConApp ty) ∈ graph.edges := by
  have hany : (nonTrivial graph nodes).isSome = true ↔ ∃ edgeIdx ∈ (nodes.flatMap fun nodeIdx =>
      (graph.outgoing nodeIdx).filterMap fun x => if x.1 ∈ nodes then some x.2 else none),
      graph.edges[edgeIdx]?.any (·.2.2.isTyConApp) = true := by
    unfold nonTrivial
    rw [← any_eq_true]
    simp only
    split
    · rename_i hsome
      exact iff_of_true rfl hsome
    · rename_i hnone
      exact iff_of_false Bool.false_ne_true hnone
  rw [hany]
  refine ⟨?_, ?_⟩
  · rintro ⟨edgeIdx, hmem, htycon⟩
    obtain ⟨i, hi, hmem⟩ := mem_flatMap.mp hmem
    obtain ⟨⟨target, idx⟩, hout, heq⟩ := mem_filterMap.mp hmem
    simp only at heq
    split at heq
    · rename_i htarget
      cases heq
      obtain ⟨weight, hget⟩ := mem_outgoing.mp hout
      rw [hget] at htycon
      cases weight with
      | identity => cases htycon
      | tyConApp ty => exact ⟨i, hi, target, htarget, ty, mem_of_getElem? hget⟩
    · cases heq
  · rintro ⟨i, hi, j, hj, ty, he⟩
    obtain ⟨edgeIdx, hget⟩ := mem_iff_getElem?.mp he
    refine ⟨edgeIdx, mem_flatMap.mpr ⟨i, hi, mem_filterMap.mpr
      ⟨(j, edgeIdx), mem_outgoing.mpr ⟨_, hget⟩, if_pos hj⟩⟩, ?_⟩
    rw [hget]
    rfl

/-- An edge that applies a type constructor leads to where it comes from. -/
def Grows (graph : Graph) : Prop :=
  ∃ i j ty, (i, j, Edge.tyConApp ty) ∈ graph.edges ∧ ReflTransGen graph.Step j i

variable {tarjanScc : Graph → List (List Nat)} {c : InstantiationLoopChecker} {i j : Nat}

theorem findNonTrivialComponents_eq_nil (hscc : IsScc tarjanScc) (h : c.graph.Valid) :
    c.findNonTrivialComponents tarjanScc = [] ↔ ¬ Grows c.graph := by
  unfold findNonTrivialComponents
  rw [filterMap_eq_nil_iff]
  refine ⟨?_, ?_⟩
  · intro hnone ⟨i, j, ty, he, hback⟩
    obtain ⟨nodes, hnodes, hi⟩ := hscc.covers c.graph h i (h i j _ he).1
    have hj : j ∈ nodes := (hscc.component c.graph h nodes hnodes i hi j).mpr ⟨.single ⟨_, he⟩, hback⟩
    have hsome := nonTrivial_isSome.mpr ⟨i, hi, j, hj, ty, he⟩
    rw [hnone nodes hnodes] at hsome
    cases hsome
  · intro hnot nodes hnodes
    rw [← Option.not_isSome_iff_eq_none, nonTrivial_isSome]
    intro ⟨i, hi, j, hj, ty, he⟩
    have htogether := (hscc.component c.graph h nodes hnodes i hi j).mp hj
    exact hnot ⟨i, j, ty, he, htogether.2⟩

theorem Ok.node_inj (h : c.Ok) (hi : c.graph.nodes[i]? = some n) (hj : c.graph.nodes[j]? = some n) : i = j :=
  Option.some.inj (((h.nodeMap n i).mpr hi).symm.trans ((h.nodeMap n j).mpr hj))

/-- Paths through indices are paths through nodes. -/
theorem Ok.reaches (h : c.Ok) (hu : c.graph.nodes[i]? = some u) (hv : c.graph.nodes[j]? = some v) :
    ReflTransGen c.graph.Step i j ↔ ReflTransGen (fun u v => ∃ edge, c.graph.HasEdge u v edge) u v := by
  refine ⟨fun hpath => ?_, fun hpath => ?_⟩
  · induction hpath generalizing v with
    | refl =>
      cases hu.symm.trans hv
      exact .refl
    | @tail k j hpath hstep ih =>
      obtain ⟨edge, he⟩ := hstep
      have hk := (h.edges k j edge he).1
      exact (ih (getElem?_eq_getElem hk)).tail ⟨edge, k, j, getElem?_eq_getElem hk, hv, he⟩
  · induction hpath generalizing j with
    | refl =>
      cases h.node_inj hu hv
      exact .refl
    | tail _ hstep ih =>
      obtain ⟨edge, k, j', hk, hj', he⟩ := hstep
      cases h.node_inj hv hj'
      exact (ih hk).tail ⟨edge, he⟩

/-- A chain of parameters that comes back, with a step that wraps the parameter. -/
def GrowingCycle (module : CompiledModule) : Prop :=
  ∃ u v ty, Passes module u v (.tyConApp ty) ∧ ReflTransGen (Leads module) v u

theorem grows_iff (h : c.Ok) (hedges : ∀ u v edge, c.graph.HasEdge u v edge ↔ Passes module u v edge) :
    Grows c.graph ↔ GrowingCycle module := by
  have hleads : (fun u v => ∃ edge, c.graph.HasEdge u v edge) = Leads module := by
    funext u v
    simp only [hedges, Leads]
  refine ⟨?_, ?_⟩
  · intro ⟨i, j, ty, he, hback⟩
    obtain ⟨hi, hj⟩ := h.edges i j _ he
    have hu := getElem?_eq_getElem hi
    have hv := getElem?_eq_getElem hj
    refine ⟨_, _, ty, (hedges _ _ _).mp ⟨i, j, hu, hv, he⟩, ?_⟩
    rw [← hleads]
    exact (h.reaches hv hu).mp hback
  · intro ⟨u, v, ty, hpass, hback⟩
    obtain ⟨i, j, hu, hv, he⟩ := (hedges u v _).mpr hpass
    rw [← hleads] at hback
    exact ⟨i, j, ty, he, (h.reaches hv hu).mpr hback⟩

variable {module : CompiledModule}

/-- What is accepted has no growing cycle. -/
theorem verifyModule_ok (hscc : IsScc tarjanScc)
    (h : verifyModule module tarjanScc debug = .ok ()) : ¬ GrowingCycle module := by
  obtain ⟨c, hbuild, hrest⟩ := bind_eq_ok.mp h
  obtain ⟨hok, hedges⟩ := buildGraph_spec hbuild
  rw [← grows_iff hok hedges, ← findNonTrivialComponents_eq_nil hscc hok.edges, ← getLast?_eq_none_iff]
  cases hlast : (c.findNonTrivialComponents tarjanScc).getLast? with
  | none => rfl
  | some component =>
    rw [hlast] at hrest
    obtain ⟨_, -, hrest⟩ := bind_eq_ok.mp hrest
    obtain ⟨_, -, hrest⟩ := bind_eq_ok.mp hrest
    cases hrest

theorem unwrap_panic (h : Exec.unwrap x Failure.panic = .error e) : e = .panic := by
  cases x with
  | some a => cases h
  | none =>
    cases h
    rfl

/-- Building the graph fails only on an index out of range. -/
theorem buildGraph_panic (h : c.buildGraph module = .error e) : e = .panic := by
  refine foldlM_error (Q := (· = Failure.panic)) (fun c x e h => ?_) h
  unfold buildGraphFunctionDef at h
  split at h
  · refine foldlM_error (Q := (· = Failure.panic)) (fun c instr e h => ?_) h
    cases instr with
    | other => cases h
    | callGeneric idx =>
      rcases bind_eq_error.mp h with h | ⟨inst, -, h⟩
      · exact unwrap_panic h
      · split at h
        · rcases bind_eq_error.mp h with h | ⟨actuals, -, h⟩
          · exact unwrap_panic h
          · cases h
        · cases h
  · cases h

/-- What is rejected has one. -/
theorem verifyModule_rejected (hscc : IsScc tarjanScc)
    (h : verifyModule module tarjanScc debug = .error (.loopInInstantiationGraph message)) :
    GrowingCycle module := by
  rcases bind_eq_error.mp h with h | ⟨c, hbuild, hrest⟩
  · cases buildGraph_panic h
  · obtain ⟨hok, hedges⟩ := buildGraph_spec hbuild
    by_contra hnot
    rw [← grows_iff hok hedges, ← findNonTrivialComponents_eq_nil hscc hok.edges, ← getLast?_eq_none_iff] at hnot
    rw [hnot] at hrest
    cases hrest

end InstantiationLoopChecker

end Sui.Move.InstantiationLoops
