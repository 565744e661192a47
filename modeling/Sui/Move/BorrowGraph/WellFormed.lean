import Sui.Lib.Gather
import Sui.Move.BorrowGraph.Graph

/-! Well formed borrow graphs.

In a well formed graph the map of references and the weights of the nodes are inverse to each
other, every edge has both its ends, and the edge of a node to itself is exactly epsilon. Each
operation that adds references or edges is described by what it adds (`addRef_spec`,
`addRefs_spec`, `determineAllNewEdges_spec`, `addNewEdges_spec`), keeps the graph well formed,
and fails only where a meter or an overflow stops it. -/
namespace Sui.Move.BorrowGraph

open Sui.Lib BTreeMap GraphMap
open Exec

/-- The branches that only a broken graph reaches. -/
def Violation.Internal : Violation → Prop
  | .missingRef _ | .missingNode _ | .duplicateNode _ | .duplicateEdge _ _ | .duplicateRef _
  | .noRegexes | .badSelfEdge _ | .edgeOfOldRefs | .edgeBetweenNewRefs => True
  | .keyExists | .refreshOfFresh _ | .canonicalizeOfCanonical _ | .missingRemapping _
  | .generationOverflow | .nodeIndexOverflow | .freshIdOverflow | .visitsOverflow => False

def Violation.External (v : Violation) : Prop := ¬v.Internal

/-- A failure other than one of those. -/
def Failure.External {ε : Type} : Failure ε → Prop
  | .violation v => v.External
  | .meter _ => True

variable {ε : Type} {x : Except Violation α}

theorem Failure.check_sat
    (h : Sat x P Violation.External) : Sat (Failure.check (ε := ε) x) P Failure.External := by
  cases x with
  | ok a => exact h
  | error v => exact h

theorem Failure.check_ok (h : x = .ok a) : Failure.check (ε := ε) x = .ok a := by
  rw [h]
  rfl

theorem Failure.charge_sat (x : Except ε α) : Sat (Failure.charge x) (fun _ => True) Failure.External := by
  cases x <;> exact trivial

theorem checkedAdd_eq_some : checkedAdd n m = some k ↔ k = n + m ∧ k < 2 ^ 32 := by
  unfold checkedAdd
  split
  · rename_i h
    rw [Option.some_inj]
    constructor
    · intro hk
      exact ⟨hk.symm, hk ▸ h⟩
    · intro ⟨hk, _⟩
      exact hk.symm
  · rename_i h
    constructor
    · intro hk
      cases hk
    · intro ⟨hk, hlt⟩
      omega

variable {Loc Lbl : Type} [LinearOrder Lbl] {e : Edge Loc Lbl}
  {edges : BTreeMap EdgeKey (Edge Loc Lbl)}

/-! ### Edges -/

/-- The graph holds the regex on the edge. -/
def HasEdge (edges : BTreeMap EdgeKey (Edge Loc Lbl)) (p s : NodeIndex)
    (r : Regex Lbl) : Prop :=
  ∃ e, edges[toLex (p, s)]? = some e ∧ r ∈ e.regexes

theorem exists_get_insert {V : Type} {m : BTreeMap EdgeKey V} {v : V} {P : V → Prop} :
    (∃ u, (m.insert (toLex (p, s)) v)[(toLex (p', s') : EdgeKey)]? = some u ∧ P u) ↔
      if p = p' ∧ s = s' then P v else ∃ u, m[(toLex (p', s') : EdgeKey)]? = some u ∧ P u := by
  rw [get_insert]
  by_cases h : p = p' ∧ s = s'
  · simp [h]
  · simp [h]

theorem hasEdge_insert :
    HasEdge (edges.insert (toLex (p, s)) e) p' s' r ↔
      if p = p' ∧ s = s' then r ∈ e.regexes else HasEdge edges p' s' r :=
  exists_get_insert

theorem hasEdge_iff (he : edges[toLex (p, s)]? = some e) : HasEdge edges p s r ↔ r ∈ e.regexes := by
  unfold HasEdge
  rw [he]
  simp

/-- An edge is added where there was none. -/
theorem hasEdge_insert_new (hno : ∀ r, ¬HasEdge edges p s r) :
    HasEdge (edges.insert (toLex (p, s)) e) p' s' r ↔
      HasEdge edges p' s' r ∨ (p' = p ∧ s' = s ∧ r ∈ e.regexes) := by
  rw [hasEdge_insert]
  by_cases hps : p = p' ∧ s = s'
  · obtain ⟨rfl, rfl⟩ := hps
    simp [hno]
  · rw [if_neg hps, or_iff_left]
    intro ⟨hp, hs, _⟩
    exact hps ⟨hp.symm, hs.symm⟩

theorem Edge.mem_insert : r' ∈ (e.insert loc r).2.regexes ↔ r' ∈ e.regexes ∨ r' = r := by
  unfold Edge.insert
  split
  · rename_i h
    constructor
    · exact .inl
    · intro hr
      rcases hr with hr | rfl
      · exact hr
      · exact h
  · rw [mem_insert_iff, or_comm, eq_comm]

omit [LinearOrder Lbl] in
theorem Regex.abstractSize_pos (r : Regex Lbl) : 0 < r.abstractSize := by
  unfold Regex.abstractSize
  omega

theorem saturatingAdd_pos (h : 0 < n ∨ 0 < m) : 0 < saturatingAdd n m := by
  unfold saturatingAdd
  omega

/-- An edge that holds a regex has a size. -/
def Edge.Sized (e : Edge Loc Lbl) : Prop := (∃ r, r ∈ e.regexes) → 0 < e.abstractSize

theorem Edge.sized_empty : ({} : Edge Loc Lbl).Sized :=
  fun ⟨_, h⟩ => absurd h Std.ExtTreeMap.not_mem_empty

theorem Edge.Sized.insert (h : e.Sized) (loc : Loc) (r : Regex Lbl) : (e.insert loc r).2.Sized := by
  intro _
  unfold Edge.insert
  split
  · rename_i hr
    exact h ⟨r, hr⟩
  · exact saturatingAdd_pos (.inr r.abstractSize_pos)

theorem Edge.Sized.foldl_insert (h : e.Sized) (loc : Loc) (regexes : List (Regex Lbl)) :
    Gathers Edge.Sized (fun e r => r ∈ e.regexes) e
      (regexes.foldl (fun edge r => (edge.insert loc r).2) e) (· ∈ regexes) := by
  have hstep : ∀ t : Edge Loc Lbl, ∀ x ∈ regexes, t.Sized →
      Gathers Edge.Sized (fun e r => r ∈ e.regexes) t (t.insert loc x).2 (· = x) :=
    fun t x _ ht => ⟨ht.insert loc x, fun r => Edge.mem_insert⟩
  exact (Gathers.foldl hstep h).congr (by simp)

/-- Joining adds the regexes of the other edge. -/
theorem Edge.Sized.join (h : e.Sized) (other : Edge Loc Lbl) :
    (e.join other).2.Sized ∧ ∀ r, r ∈ (e.join other).2.regexes ↔ r ∈ e.regexes ∨ r ∈ other.regexes := by
  have hstep : ∀ t : Nat × Edge Loc Lbl, ∀ y ∈ other.regexes.toList, t.2.Sized →
      Gathers (fun x : Nat × Edge Loc Lbl => x.2.Sized) (fun x r => r ∈ x.2.regexes) t
        (saturatingAdd t.1 (t.2.insert y.2 y.1).1, (t.2.insert y.2 y.1).2) (· = y.1) :=
    fun t y _ ht => ⟨ht.insert y.2 y.1, fun r => Edge.mem_insert⟩
  have hfold := Gathers.foldl hstep (s := (0, e)) h
  refine ⟨hfold.ok, fun r => (hfold.has r).trans (or_congr_right ?_)⟩
  rw [mem_iff_get]
  constructor
  · intro ⟨y, hy, hr⟩
    exact ⟨y.2, hr ▸ mem_toList_iff.mp hy⟩
  · intro ⟨loc, hloc⟩
    exact ⟨(r, loc), mem_toList_iff.mpr hloc, rfl⟩

/-! ### Graphs with indices -/

structure GraphMap.WellFormed (g : GraphMap Ref (Edge Loc Lbl)) : Prop where
  ids : ∀ i ∈ g.nodeWeights, (ofLex i).2 < g.next
  next_lt : g.next < 2 ^ 32
  edge : ∀ (key : EdgeKey) (e : Edge Loc Lbl), g.edgeWeights[key]? = some e →
    (ofLex key).1 ∈ g.nodeWeights ∧ (ofLex key).2 ∈ g.nodeWeights ∧ e.Sized ∧ ∃ r, r ∈ e.regexes
  selfEdge : ∀ i ∈ g.nodeWeights, ∀ r, HasEdge g.edgeWeights i i r ↔ r = .epsilon

namespace GraphMap
variable {g : GraphMap Ref (Edge Loc Lbl)} {p s : NodeIndex} {e : Edge Loc Lbl} {x i : NodeIndex}

section
variable (h : g.WellFormed)
include h

theorem WellFormed.hasEdge_mem (hr : HasEdge g.edgeWeights p s r) : p ∈ g.nodeWeights ∧ s ∈ g.nodeWeights := by
  obtain ⟨e, he, _⟩ := hr
  obtain ⟨hp, hs, -⟩ := h.edge _ e he
  exact ⟨hp, hs⟩

theorem WellFormed.mem_edgeWeights_iff : toLex (p, s) ∈ g.edgeWeights ↔ ∃ r, HasEdge g.edgeWeights p s r := by
  rw [mem_iff_get]
  constructor
  · intro ⟨e, he⟩
    obtain ⟨-, -, -, r, hr⟩ := h.edge _ e he
    exact ⟨r, e, he, hr⟩
  · intro ⟨_, e, he, _⟩
    exact ⟨e, he⟩

theorem WellFormed.next_not_mem :
    (toLex (g.generation, g.next) : NodeIndex) ∉ g.nodeWeights := fun hmem =>
  absurd (h.ids _ hmem) (lt_irrefl _)

/-- A new node. -/
theorem addNode_spec (weight : Ref) :
    Sat (g.addNode weight) (fun x => x.1 = toLex (g.generation, g.next) ∧ g.next + 1 < 2 ^ 32 ∧
      x.2 = { g with next := g.next + 1, nodeWeights := g.nodeWeights.insert x.1 weight }) Violation.External := by
  refine (Sat.unwrap (by intro _ h; exact h)).bind fun next hnext => ?_
  obtain ⟨rfl, hlt⟩ := checkedAdd_eq_some.mp hnext
  rw [bind_require h.next_not_mem]
  exact ⟨rfl, hlt, rfl⟩

end

theorem addEdge_eq (hp : p ∈ g.nodeWeights) (hs : s ∈ g.nodeWeights) (hne : toLex (p, s) ∉ g.edgeWeights) :
    g.addEdge p e s = .ok { g with edgeWeights := g.edgeWeights.insert (toLex (p, s)) e } := by
  unfold addEdge
  rw [bind_require hp, bind_require hs, bind_require hne]
  rfl

/-- A node, with its edge to itself. -/
theorem WellFormed.add_node (h : g.WellFormed) (hnext : g.next + 1 < 2 ^ 32) (r : Ref) (loc : Loc) :
    let i : NodeIndex := toLex (g.generation, g.next)
    let e := (({} : Edge Loc Lbl).insert loc .epsilon).2
    let g' : GraphMap Ref (Edge Loc Lbl) := { g with
      next := g.next + 1
      nodeWeights := g.nodeWeights.insert i r
      edgeWeights := g.edgeWeights.insert (toLex (i, i)) e }
    g'.WellFormed ∧ ∀ p s x, HasEdge g'.edgeWeights p s x ↔
      HasEdge g.edgeWeights p s x ∨ (p = i ∧ s = i ∧ x = .epsilon) := by
  intro i e g'
  have he : ∀ x, x ∈ e.regexes ↔ x = .epsilon := by
    intro x
    rw [Edge.mem_insert]
    simp
  have hno : ∀ x, ¬HasEdge g.edgeWeights i i x := fun x hx => h.next_not_mem (h.hasEdge_mem hx).1
  have hedges : ∀ p s x, HasEdge g'.edgeWeights p s x ↔
      HasEdge g.edgeWeights p s x ∨ (p = i ∧ s = i ∧ x = .epsilon) := by
    intro p s x
    rw [hasEdge_insert_new hno, he]
  refine ⟨⟨?_, hnext, ?_, ?_⟩, hedges⟩
  · intro j hj
    rcases mem_insert_iff.mp hj with rfl | hj
    · exact Nat.lt_succ_self _
    · exact Nat.lt_succ_of_lt (h.ids j hj)
  · intro key e' he'
    rw [mem_insert_iff, mem_insert_iff]
    rcases insert_eq_some.mp he' with ⟨rfl, rfl⟩ | ⟨-, he'⟩
    · exact ⟨.inl rfl, .inl rfl, Edge.sized_empty.insert loc _, .epsilon, (he _).mpr rfl⟩
    · exact (h.edge key e' he').imp .inr (And.imp_left .inr)
  · intro j hj x
    rw [hedges]
    rcases mem_insert_iff.mp hj with rfl | hj
    · simp [hno]
    · have hne : j ≠ i := fun hji => h.next_not_mem (by rwa [hji] at hj)
      rw [h.selfEdge j hj]
      simp [hne]

/-- An edge between different nodes, in place of the one that was there. -/
theorem WellFormed.set_edge (h : g.WellFormed) (hp : p ∈ g.nodeWeights)
    (hs : s ∈ g.nodeWeights) (he : e.Sized) (hr : ∃ r, r ∈ e.regexes)
    (hself : p = s → ∀ r, r ∈ e.regexes ↔ r = .epsilon) :
    ({ g with edgeWeights := g.edgeWeights.insert (toLex (p, s)) e } :
      GraphMap Ref (Edge Loc Lbl)).WellFormed := by
  refine ⟨h.ids, h.next_lt, ?_, ?_⟩
  · intro key e' he'
    rcases insert_eq_some.mp he' with ⟨rfl, rfl⟩ | ⟨-, he'⟩
    · exact ⟨hp, hs, he, hr⟩
    · exact h.edge key e' he'
  · intro i hi r
    rw [hasEdge_insert]
    split
    · rename_i hps
      exact hself (hps.1.trans hps.2.symm) r
    · exact h.selfEdge i hi r

theorem mem_incomingEdgesIdx :
    (x, e) ∈ g.incomingEdgesIdx i ↔ g.edgeWeights[(toLex (x, i) : EdgeKey)]? = some e := by
  unfold incomingEdgesIdx
  rw [List.mem_filterMap, ← mem_toList_iff]
  constructor
  · intro ⟨⟨key, e'⟩, hmem, hsome⟩
    simp only [Option.ite_none_right_eq_some, Option.some.injEq, Prod.mk.injEq] at hsome
    obtain ⟨rfl, rfl, rfl⟩ := hsome
    exact hmem
  · intro hmem
    exact ⟨_, hmem, by simp⟩

theorem mem_outgoingEdgesIdx :
    (e, x) ∈ g.outgoingEdgesIdx i ↔ g.edgeWeights[(toLex (i, x) : EdgeKey)]? = some e := by
  unfold outgoingEdgesIdx
  rw [List.mem_filterMap, ← mem_toList_iff]
  constructor
  · intro ⟨⟨key, e'⟩, hmem, hsome⟩
    simp only [Option.ite_none_right_eq_some, Option.some.injEq, Prod.mk.injEq] at hsome
    obtain ⟨rfl, rfl, rfl⟩ := hsome
    exact hmem
  · intro hmem
    exact ⟨_, hmem, by simp⟩

end GraphMap

/-! ### The edges to add -/

/-- The regex is to be added to the edge. -/
def Adding (acc : BTreeMap EdgeKey (List (Regex Lbl)))
    (a : NodeIndex × NodeIndex × Regex Lbl) : Prop :=
  ∃ l, acc[(toLex (a.1, a.2.1) : EdgeKey)]? = some l ∧ a.2.2 ∈ l

/-- No edge without a regex is to be added. -/
def NonEmpty (acc : BTreeMap EdgeKey (List (Regex Lbl))) : Prop :=
  ∀ (key : EdgeKey) (l : List (Regex Lbl)), acc[key]? = some l → l ≠ []

omit [LinearOrder Lbl] in
theorem NonEmpty.insert {l : List (Regex Lbl)} (h : NonEmpty acc) (hl : l ≠ []) (key : EdgeKey) :
    NonEmpty (acc.insert key l) := by
  intro key' l' hl'
  rcases insert_eq_some.mp hl' with ⟨-, rfl⟩ | ⟨-, hl'⟩
  · exact hl
  · exact h key' l' hl'

/-- The edges of a new reference that one of its sources gives: from the references before the
source, to those behind the new one, and from those between the two. -/
def NewEdge (edges : BTreeMap EdgeKey (Edge Loc Lbl)) (ext : Extension Lbl)
    (newRefs : List NodeIndex) (source : NodeIndex) (a : NodeIndex × NodeIndex × Regex Lbl) : Prop :=
  ∃ n ∈ newRefs, ∃ x r,
    (HasEdge edges x source r ∧ a = (x, n, r.extend ext)) ∨
    (HasEdge edges source x r ∧ ∃ r' ∈ r.removePrefix ext, a = (n, x, r')) ∨
    (HasEdge edges source x r ∧ ∃ r' ∈ ext.removePrefix r, a = (x, n, r'))

namespace NewEdges

/-- The state gathers edges to add. -/
abbrev Gathers (st st' : NewEdges Lbl) (P : NodeIndex × NodeIndex × Regex Lbl → Prop) : Prop :=
  Lib.Gathers (fun st : NewEdges Lbl => NonEmpty st.acc) (fun st => Adding st.acc) st st' P

omit [LinearOrder Lbl] in
/-- What has been visited does not matter. -/
theorem Gathers.of_acc (h : Gathers t u P) (hacc : t.acc = s.acc) : Gathers s u P :=
  ⟨h.ok, fun a => hacc ▸ h.has a⟩

variable {st : NewEdges Lbl}

omit [LinearOrder Lbl] in
theorem edgeToAdd_spec (h : NonEmpty st.acc) (p : NodeIndex) (r : Regex Lbl)
    (s : NodeIndex) : Gathers st (st.edgeToAdd p r s) (· = (p, s, r)) := by
  refine ⟨h.insert (by simp) _, fun ⟨p', s', r'⟩ => exists_get_insert.trans ?_⟩
  by_cases hkey : p = p' ∧ s = s'
  · obtain ⟨rfl, rfl⟩ := hkey
    cases hget : st.acc[(toLex (p, s) : EdgeKey)]? <;> simp [Adding, hget]
  · rw [if_neg hkey, or_iff_left]
    · rfl
    · intro hadd
      cases hadd
      exact hkey ⟨rfl, rfl⟩

variable {ext : Extension Lbl} {newRefs : List NodeIndex}

theorem visitIncoming_spec (h : NonEmpty st.acc) (x : NodeIndex) (e : Edge Loc Lbl) :
    Gathers st (visitIncoming ext newRefs st (x, e)) fun a =>
      ∃ r ∈ e.regexes, ∃ n ∈ newRefs, a = (x, n, r.extend ext) := by
  have hstep : ∀ t : NewEdges Lbl, ∀ r ∈ e.regexes.keys, NonEmpty t.acc →
      Gathers t (newRefs.foldl (fun st n => st.edgeToAdd x (r.extend ext) n) t.visitEdge) fun a =>
        ∃ n ∈ newRefs, a = (x, n, r.extend ext) := by
    intro t r _ ht
    have hfold : Gathers t.visitEdge _ _ := Lib.Gathers.foldl (l := newRefs)
      (fun u n _ hu => edgeToAdd_spec hu x (r.extend ext) n) ht
    exact hfold.of_acc rfl
  have hfold : Gathers st.visitNode _ _ := Lib.Gathers.foldl hstep h
  refine (hfold.of_acc (s := st) rfl).congr fun a => ?_
  simp only [Std.ExtTreeMap.mem_keys]

theorem visitOutgoing_spec (h : NonEmpty st.acc) (x : NodeIndex) (e : Edge Loc Lbl) :
    Gathers st (visitOutgoing ext newRefs st (e, x)) fun a => ∃ r ∈ e.regexes,
      (∃ r' ∈ r.removePrefix ext, ∃ n ∈ newRefs, a = (n, x, r')) ∨
      (∃ r' ∈ ext.removePrefix r, ∃ n ∈ newRefs, a = (x, n, r')) := by
  -- the edges of all the new references, whichever end they are at
  have hedges : ∀ (p s : NodeIndex → NodeIndex) (t : NewEdges Lbl) (l : List (Regex Lbl)),
      NonEmpty t.acc →
      Gathers t (l.foldl (fun st r' => newRefs.foldl (fun st n => st.edgeToAdd (p n) r' (s n)) st) t)
        fun a => ∃ r' ∈ l, ∃ n ∈ newRefs, a = (p n, s n, r') :=
    fun p s t l ht => Lib.Gathers.foldl (fun u r' _ hu =>
      Lib.Gathers.foldl (fun v n _ hv => edgeToAdd_spec hv (p n) r' (s n)) hu) ht
  have hstep : ∀ t : NewEdges Lbl, ∀ r ∈ e.regexes.keys, NonEmpty t.acc → Gathers t
      ((ext.removePrefix r).foldl (fun st r' => newRefs.foldl (fun st n => st.edgeToAdd x r' n) st)
        ((r.removePrefix ext).foldl (fun st r' => newRefs.foldl (fun st n => st.edgeToAdd n r' x) st) t.visitEdge))
      fun a => (∃ r' ∈ r.removePrefix ext, ∃ n ∈ newRefs, a = (n, x, r')) ∨
        (∃ r' ∈ ext.removePrefix r, ∃ n ∈ newRefs, a = (x, n, r')) := by
    intro t r _ ht
    have hfirst := hedges (fun n => n) (fun _ => x) t.visitEdge (r.removePrefix ext) ht
    have hsecond := hedges (fun _ => x) (fun n => n) _ (ext.removePrefix r) hfirst.ok
    exact Gathers.of_acc (hfirst.trans hsecond) rfl
  have hfold : Gathers st.visitNode _ _ := Lib.Gathers.foldl hstep h
  refine (hfold.of_acc (s := st) rfl).congr fun a => ?_
  simp only [Std.ExtTreeMap.mem_keys]

theorem visitSource_spec (ext : Extension Lbl) (newRefs : List NodeIndex)
    (g : GraphMap Ref (Edge Loc Lbl)) (h : NonEmpty st.acc) (source : NodeIndex) :
    Gathers st (visitSource ext newRefs g st source) (NewEdge g.edgeWeights ext newRefs source) := by
  have hin : Gathers st.visitNode _ _ := Lib.Gathers.foldl (l := g.incomingEdgesIdx source)
    (f := visitIncoming ext newRefs) (fun t entry _ ht => visitIncoming_spec ht entry.1 entry.2) h
  have hout : Gathers _ _ _ := Lib.Gathers.foldl (l := g.outgoingEdgesIdx source)
    (f := visitOutgoing ext newRefs) (fun t entry _ ht => visitOutgoing_spec ht entry.2 entry.1) hin.ok
  refine (Gathers.of_acc (hin.trans hout) (s := st) rfl).congr fun a => ⟨?_, ?_⟩
  · intro ha
    rcases ha with ⟨⟨x, e⟩, he, r, hr, n, hn, ha⟩ | ⟨⟨e, x⟩, he, r, hr, ha⟩
    · exact ⟨n, hn, x, r, .inl ⟨⟨e, mem_incomingEdgesIdx.mp he, hr⟩, ha⟩⟩
    · have hedge : HasEdge g.edgeWeights source x r := ⟨e, mem_outgoingEdgesIdx.mp he, hr⟩
      rcases ha with ⟨r', hr', n, hn, ha⟩ | ⟨r', hr', n, hn, ha⟩
      · exact ⟨n, hn, x, r, .inr (.inl ⟨hedge, r', hr', ha⟩)⟩
      · exact ⟨n, hn, x, r, .inr (.inr ⟨hedge, r', hr', ha⟩)⟩
  · intro ⟨n, hn, x, r, ha⟩
    rcases ha with ⟨⟨e, he, hr⟩, ha⟩ | ⟨⟨e, he, hr⟩, r', hr', ha⟩ | ⟨⟨e, he, hr⟩, r', hr', ha⟩
    · exact .inl ⟨(x, e), mem_incomingEdgesIdx.mpr he, r, hr, n, hn, ha⟩
    · exact .inr ⟨(e, x), mem_outgoingEdgesIdx.mpr he, r, hr, .inl ⟨r', hr', n, hn, ha⟩⟩
    · exact .inr ⟨(e, x), mem_outgoingEdgesIdx.mpr he, r, hr, .inr ⟨r', hr', n, hn, ha⟩⟩

end NewEdges

/-! ### Borrow graphs -/

namespace Graph
variable {ε : Type} {G G' : Graph Loc Lbl}
  {acc : BTreeMap EdgeKey (List (Regex Lbl))} {newRefs : List NodeIndex}

theorem determineAllNewEdges_spec (meter : Meter μ ε) (m : μ) (h : NonEmpty acc)
    (sources : BTreeSet NodeIndex) (ext : Extension Lbl) (newRefs : List NodeIndex) :
    Sat (G.determineAllNewEdges meter m acc sources ext newRefs)
      (fun x => NonEmpty x.1 ∧ ∀ a, Adding x.1 a ↔
        Adding acc a ∨ ∃ source ∈ sources, NewEdge G.graph.edgeWeights ext newRefs source a) Failure.External := by
  have hfold := Lib.Gathers.foldl (l := sources.toList)
    (fun t source _ ht => NewEdges.visitSource_spec ext newRefs G.graph ht source)
    (s := ({ acc := acc, nodesVisited := 0, edgesVisited := 0, edgesAdded := 0 } : NewEdges Lbl)) h
  refine (Failure.charge_sat _).bind fun _ _ => ?_
  refine (Failure.check_sat (Sat.require (by intro _ h; exact h))).bind fun _ _ => ?_
  refine (Failure.charge_sat _).bind fun _ _ => ?_
  refine ⟨hfold.ok, fun a => (hfold.has a).trans (or_congr_right ?_)⟩
  simp only [Std.ExtTreeSet.mem_toList]

theorem node_eq (hn : G.nodes[r]? = some n) : G.node r = .ok n :=
  unwrap_eq_ok.mpr hn

structure WellFormed (G : Graph Loc Lbl) : Prop where
  graph : G.graph.WellFormed
  weight : ∀ (r : Ref) (n : Node), G.nodes[r]? = some n → G.graph.nodeWeights[n.nodeIndex]? = some r
  node : ∀ (i : NodeIndex) (r : Ref), G.graph.nodeWeights[i]? = some r →
    ∃ n, G.nodes[r]? = some n ∧ n.nodeIndex = i
  fresh : ∀ id, Ref.fresh id ∈ G.nodes → id < G.freshId

theorem WellFormed.mem_nodeWeights_iff (h : G.WellFormed) :
    i ∈ G.graph.nodeWeights ↔ ∃ (r : Ref) (n : Node), G.nodes[r]? = some n ∧ n.nodeIndex = i := by
  rw [mem_iff_get]
  constructor
  · intro ⟨r, hr⟩
    obtain ⟨n, hn, hi⟩ := h.node i r hr
    exact ⟨r, n, hn, hi⟩
  · intro ⟨r, n, hn, hi⟩
    exact ⟨r, hi ▸ h.weight r n hn⟩

/-- Two references with one index are the same. -/
theorem WellFormed.ref_inj (h : G.WellFormed) {r s : Ref} {n n' : Node} (hr : G.nodes[r]? = some n)
    (hs : G.nodes[s]? = some n') (hidx : n.nodeIndex = n'.nodeIndex) : r = s := by
  have hweight := h.weight s n' hs
  rw [← hidx, h.weight r n hr] at hweight
  exact Option.some.inj hweight

/-- References, each with its edge to itself, and other edges are added. -/
structure Adds (G G' : Graph Loc Lbl) (new : List (Ref × Node))
    (P : NodeIndex × NodeIndex × Regex Lbl → Prop) : Prop where
  wf : G'.WellFormed
  nodes : ∀ (r : Ref) (n : Node), G'.nodes[r]? = some n ↔ G.nodes[r]? = some n ∨ (r, n) ∈ new
  apart : ∀ x ∈ new, x.1 ∉ G.nodes ∧ x.2.nodeIndex ∉ G.graph.nodeWeights
  nodup : (new.map (·.2.nodeIndex)).Nodup
  edges : ∀ p s r, HasEdge G'.graph.edgeWeights p s r ↔ HasEdge G.graph.edgeWeights p s r ∨
    (p = s ∧ r = .epsilon ∧ ∃ x ∈ new, x.2.nodeIndex = p) ∨ P (p, s, r)

namespace Adds
variable {new : List (Ref × Node)} {P : NodeIndex × NodeIndex × Regex Lbl → Prop}

theorem refl (h : G.WellFormed) : Adds G G [] fun _ => False :=
  ⟨h, by simp, by simp, by simp, by simp⟩

theorem mem_of_old (h : Adds G G' new P) (hr : r ∈ G.nodes) : r ∈ G'.nodes := by
  obtain ⟨n, hn⟩ := mem_iff_get.mp hr
  exact mem_of_get ((h.nodes r n).mpr (.inl hn))

theorem mem_of_new (h : Adds G G' new P) {x : Ref × Node} (hx : x ∈ new) : x.2.nodeIndex ∈ G'.graph.nodeWeights :=
  h.wf.mem_nodeWeights_iff.mpr ⟨x.1, x.2, (h.nodes _ _).mpr (.inr hx), rfl⟩

theorem weight_of_old (hG : G.WellFormed) (h : Adds G G' new P)
    (hi : i ∈ G.graph.nodeWeights) : i ∈ G'.graph.nodeWeights := by
  obtain ⟨r, n, hn, hidx⟩ := hG.mem_nodeWeights_iff.mp hi
  exact h.wf.mem_nodeWeights_iff.mpr ⟨r, n, (h.nodes r n).mpr (.inl hn), hidx⟩

theorem append (hG : G.WellFormed) (h : Adds G G' new fun _ => False) (h' : Adds G' G'' new' fun _ => False) :
    Adds G G'' (new ++ new') fun _ => False := by
  refine ⟨h'.wf, fun r n => ?_, List.forall_mem_append.mpr ⟨h.apart, fun x hx => ?_⟩, ?_, fun p s r => ?_⟩
  · rw [h'.nodes, h.nodes, List.mem_append, or_assoc]
  · obtain ⟨hr, hi⟩ := h'.apart x hx
    exact ⟨fun hmem => hr (h.mem_of_old hmem), fun hmem => hi (h.weight_of_old hG hmem)⟩
  · rw [List.map_append]
    refine h.nodup.append h'.nodup fun i hi hi' => ?_
    obtain ⟨x, hx, rfl⟩ := List.mem_map.mp hi
    obtain ⟨y, hy, hidx⟩ := List.mem_map.mp hi'
    exact (h'.apart y hy).2 (hidx ▸ h.mem_of_new hx)
  · rw [h'.edges, h.edges]
    simp only [List.mem_append, or_and_right, exists_or, and_or_left, or_false, or_assoc]

/-- Edges are added to a graph that references have been added to. -/
theorem add_edges (h : Adds G G' new fun _ => False) (hwf : G''.WellFormed) (hnodes : G''.nodes = G'.nodes)
    (hedges : ∀ p s r, HasEdge G''.graph.edgeWeights p s r ↔
      HasEdge G'.graph.edgeWeights p s r ∨ P (p, s, r)) : Adds G G'' new P := by
  refine ⟨hwf, ?_, h.apart, h.nodup, fun p s r => ?_⟩
  · rw [hnodes]
    exact h.nodes
  · rw [hedges, h.edges, or_false, or_assoc]

end Adds

theorem addRef_spec (h : G.WellFormed) (loc : Loc) (isMut : Bool) :
    Sat (G.addRef loc isMut) (fun x => Adds G x.2 [(x.1.1, ⟨isMut, x.1.2⟩)] fun _ => False)
      Violation.External := by
  refine (Sat.unwrap (by intro _ h; exact h)).bind fun freshId hfresh => ?_
  obtain ⟨rfl, _⟩ := checkedAdd_eq_some.mp hfresh
  refine (addNode_spec h.graph _).bind fun x hx => ?_
  obtain ⟨i, g⟩ := x
  obtain ⟨rfl, hnext, hg⟩ := hx
  simp only at hg
  subst hg
  have hnot := h.graph.next_not_mem
  obtain ⟨hwf, hedges⟩ := h.graph.add_node hnext (.fresh G.freshId) loc
  generalize hi : (toLex (G.graph.generation, G.graph.next) : NodeIndex) = i at hnot hwf hedges
  have hfreshRef : Ref.fresh G.freshId ∉ G.nodes := fun hmem => absurd (h.fresh _ hmem) (lt_irrefl _)
  have hadd := addEdge_eq (g := { G.graph with
      next := G.graph.next + 1
      nodeWeights := G.graph.nodeWeights.insert i (.fresh G.freshId) })
    (e := (({} : Edge Loc Lbl).insert loc .epsilon).2)
    (mem_insert_iff.mpr (.inl rfl)) (mem_insert_iff.mpr (.inl rfl))
    fun hmem => by
      obtain ⟨r, hr⟩ := h.graph.mem_edgeWeights_iff.mp hmem
      exact hnot (h.graph.hasEdge_mem hr).1
  dsimp only
  rw [bind_ok hadd, bind_require hfreshRef]
  refine ⟨⟨hwf, ?_, ?_, ?_⟩, ?_, ?_, by simp, ?_⟩
  · intro r n hn
    have hn : (G.nodes.insert (.fresh G.freshId) ⟨isMut, i⟩)[r]? = some n := hn
    rw [get_insert] at hn ⊢
    split at hn
    · rename_i hr
      cases hn
      rw [if_pos rfl, hr]
    · have hold := h.weight r n hn
      rw [if_neg, hold]
      intro hin
      exact hnot (hin ▸ mem_of_get hold)
  · intro j r hj
    have hj : (G.graph.nodeWeights.insert i (.fresh G.freshId))[j]? = some r := hj
    rcases insert_eq_some.mp hj with ⟨hij, rfl⟩ | ⟨-, hj⟩
    · exact ⟨⟨isMut, i⟩, by simp, hij⟩
    · obtain ⟨n, hn, hidx⟩ := h.node j r hj
      refine ⟨n, ?_, hidx⟩
      rw [get_insert_of_ne, hn]
      intro hr
      exact hfreshRef (hr ▸ mem_of_get hn)
  · intro id hid
    rcases mem_insert_iff.mp hid with hid | hid
    · cases hid
      exact Nat.lt_succ_self _
    · exact Nat.lt_succ_of_lt (h.fresh id hid)
  · intro r n
    rw [get_insert, List.mem_singleton, Prod.mk.injEq]
    split
    · rename_i hr
      have hnone := not_mem_iff_get.mp hfreshRef
      rw [hr] at hnone
      rw [Option.some_inj, hnone]
      simp [hr, eq_comm]
    · rename_i hr
      simp [Ne.symm hr]
  · intro x hx
    rw [List.mem_singleton.mp hx]
    exact ⟨hfreshRef, hnot⟩
  · intro p s r
    rw [hedges]
    refine or_congr_right ?_
    simp only [List.mem_singleton, exists_eq_left, or_false]
    constructor
    · intro ⟨hp, hs, hr⟩
      exact ⟨hp.trans hs.symm, hr, hp.symm⟩
    · intro ⟨hps, hr, hp⟩
      exact ⟨hp.symm, hps.symm.trans hp.symm, hr⟩

/-- The new references of a call, in order, with the indices of the mutable and of the
immutable ones. -/
theorem addRefs_spec (h : G.WellFormed) (loc : Loc) (mutabilities : List Bool) :
    Sat (G.addRefs loc mutabilities) (fun x => ∃ new, Adds G x.2 new (fun _ => False) ∧
        x.1.refs = new.map (·.1) ∧ new.map (·.2.isMutable) = mutabilities ∧
        x.1.muts = (new.filter (·.2.isMutable)).map (·.2.nodeIndex) ∧
        x.1.imms = (new.filter (!·.2.isMutable)).map (·.2.nodeIndex)) Violation.External := by
  refine Sat.foldlM (P := fun done (x : NewRefs × Graph Loc Lbl) => ∃ new,
    Adds G x.2 new (fun _ => False) ∧ x.1.refs = new.map (·.1) ∧
    new.map (·.2.isMutable) = done ∧ x.1.muts = (new.filter (·.2.isMutable)).map (·.2.nodeIndex) ∧
    x.1.imms = (new.filter (!·.2.isMutable)).map (·.2.nodeIndex)) ?_ ?_
  · exact ⟨[], Adds.refl h, rfl, rfl, rfl, rfl⟩
  · intro done isMut rest x _ ⟨new, hadds, hrefs, hdone, hmuts, himms⟩
    refine (addRef_spec hadds.wf loc isMut).bind fun y hy => ?_
    obtain ⟨⟨newRef, newRefIdx⟩, graph⟩ := y
    refine ⟨new ++ [(newRef, ⟨isMut, newRefIdx⟩)], hadds.append h hy, ?_, ?_, ?_, ?_⟩
    · cases isMut <;> simp [hrefs]
    · simp [hdone]
    · cases isMut <;> simp [hmuts]
    · cases isMut <;> simp [himms]

/-- The indices of references of the graph. -/
theorem indices_spec (h : ∀ r ∈ refs, r ∈ G.nodes) :
    Sat (G.indices refs) (fun set => ∀ i, i ∈ set ↔
        ∃ r ∈ refs, ∃ n : Node, G.nodes[r]? = some n ∧ n.nodeIndex = i) Violation.External := by
  refine Sat.foldlM (P := fun done (set : BTreeSet NodeIndex) => ∀ i, i ∈ set ↔
    ∃ r ∈ done, ∃ n : Node, G.nodes[r]? = some n ∧ n.nodeIndex = i) (by simp) ?_
  intro done r rest set hrefs hset
  obtain ⟨n, hn⟩ := mem_iff_get.mp (h r (by simp [hrefs]))
  rw [bind_ok (node_eq hn)]
  intro i
  rw [BTreeSet.mem_insert_iff, hset]
  simp only [List.mem_append, List.mem_singleton, or_and_right, exists_or, exists_eq_left, hn,
    Option.some.injEq, exists_eq_left']
  rw [or_comm]

/-- The edges to add join a new reference to another one. -/
structure Addable (G : Graph Loc Lbl) (newRefs : List NodeIndex)
    (a : NodeIndex × NodeIndex × Regex Lbl) : Prop where
  left : a.1 ∈ G.graph.nodeWeights
  right : a.2.1 ∈ G.graph.nodeWeights
  ne : a.1 ≠ a.2.1
  absent : toLex (a.1, a.2.1) ∉ G.graph.edgeWeights
  ofNew : a.1 ∈ newRefs ∨ a.2.1 ∈ newRefs

theorem addEdge_spec (h : G.WellFormed) (hrs : rs ≠ [])
    (hadd : ∀ r ∈ rs, G.Addable newRefs (p, s, r)) (loc : Loc) :
    ∃ G', G.addEdge p loc rs s = .ok G' ∧ G'.WellFormed ∧ G'.nodes = G.nodes ∧
      G'.graph.nodeWeights = G.graph.nodeWeights ∧
      (∀ key, key ∈ G'.graph.edgeWeights ↔ toLex (p, s) = key ∨ key ∈ G.graph.edgeWeights) ∧
      ∀ p' s' r, HasEdge G'.graph.edgeWeights p' s' r ↔
        HasEdge G.graph.edgeWeights p' s' r ∨ (p' = p ∧ s' = s ∧ r ∈ rs) := by
  obtain ⟨r₀, hr₀⟩ := List.exists_mem_of_ne_nil rs hrs
  have ha := hadd r₀ hr₀
  have hedge := Edge.sized_empty.foldl_insert loc rs
  have hmem : ∀ r, r ∈ (rs.foldl (fun edge r => (edge.insert loc r).2) ({} : Edge Loc Lbl)).regexes ↔ r ∈ rs := by
    intro r
    rw [hedge.has]
    simp
  unfold addEdge
  rw [bind_require hrs, if_neg ha.ne, bind_ok (addEdge_eq ha.left ha.right ha.absent)]
  refine ⟨_, rfl, ⟨?_, h.weight, h.node, h.fresh⟩, rfl, rfl, ?_, ?_⟩
  · exact h.graph.set_edge ha.left ha.right hedge.ok ⟨r₀, (hmem r₀).mpr hr₀⟩ (fun hps => absurd hps ha.ne)
  · intro key
    exact mem_insert_iff
  · intro p' s' r
    rw [hasEdge_insert_new, hmem]
    exact fun r hr => ha.absent (h.graph.mem_edgeWeights_iff.mpr ⟨r, hr⟩)

theorem addNewEdges_spec (h : G.WellFormed) (hacc : NonEmpty acc)
    (hadd : ∀ a, Adding acc a → G.Addable newRefs a) (loc : Loc) :
    Sat (G.addNewEdges loc newRefs acc) (fun G' => G'.WellFormed ∧ G'.nodes = G.nodes ∧
        ∀ p s r, HasEdge G'.graph.edgeWeights p s r ↔
          HasEdge G.graph.edgeWeights p s r ∨ Adding acc (p, s, r)) Violation.External := by
  have hget : ∀ key l, (key, l) ∈ acc.toList → acc[key]? = some l := fun key l =>
    mem_toList_iff.mp
  refine (Sat.foldlM (P := fun done (G' : Graph Loc Lbl) => G'.WellFormed ∧ G'.nodes = G.nodes ∧
    G'.graph.nodeWeights = G.graph.nodeWeights ∧
    (∀ key, key ∈ G'.graph.edgeWeights ↔ key ∈ G.graph.edgeWeights ∨ key ∈ done.map (·.1)) ∧
    ∀ p s r, HasEdge G'.graph.edgeWeights p s r ↔ HasEdge G.graph.edgeWeights p s r ∨
      ∃ l, (toLex (p, s), l) ∈ done ∧ r ∈ l) ?_ ?_).mono fun G' hG' => ?_
  · exact ⟨h, rfl, rfl, by simp, by simp⟩
  · intro done x rest G' hlist ⟨hwf, hnodes, hweights, hkeys, hedges⟩
    obtain ⟨key, l⟩ := x
    obtain ⟨⟨p, s⟩, rfl⟩ := toLex.surjective key
    have hl := hget (toLex (p, s)) l (by simp [hlist])
    have hnew : toLex (p, s) ∉ done.map (·.1) := by
      intro hmem
      obtain ⟨y, hy, hkey⟩ := List.mem_map.mp hmem
      exact toList_key_ne hlist y hy hkey
    have hall : ∀ r ∈ l, G'.Addable newRefs (p, s, r) := by
      intro r hr
      have ha := hadd (p, s, r) ⟨l, hl, hr⟩
      refine ⟨hweights ▸ ha.left, hweights ▸ ha.right, ha.ne, ?_, ha.ofNew⟩
      rw [hkeys]
      exact not_or.mpr ⟨ha.absent, hnew⟩
    obtain ⟨r₀, hr₀⟩ := List.exists_mem_of_ne_nil l (hacc _ l hl)
    obtain ⟨G'', hrun, hwf', hnodes', hweights', hkeys', hedges'⟩ := addEdge_spec hwf (hacc _ l hl) hall loc
    have hreq : (ofLex (toLex (p, s))).1 ∈ newRefs ∨ (ofLex (toLex (p, s))).2 ∈ newRefs := (hall r₀ hr₀).ofNew
    show Sat (_ >>= _) _ _
    rw [bind_require hreq]
    refine Sat.of_eq hrun ⟨hwf', hnodes'.trans hnodes, hweights'.trans hweights, fun key => ?_, fun p' s' r => ?_⟩
    · rw [hkeys', hkeys, List.map_append, List.mem_append]
      simp only [List.map_cons, List.map_nil, List.mem_singleton]
      rw [or_comm, or_assoc, eq_comm]
    · rw [hedges', hedges, or_assoc]
      refine or_congr_right ?_
      simp only [List.mem_append, List.mem_singleton, Prod.mk.injEq, toLex_inj, or_and_right, exists_or]
      refine or_congr_right ?_
      constructor
      · intro ⟨hp, hs, hr⟩
        exact ⟨l, ⟨⟨hp, hs⟩, rfl⟩, hr⟩
      · intro ⟨l', ⟨⟨hp, hs⟩, hl'⟩, hr⟩
        exact ⟨hp, hs, hl' ▸ hr⟩
  · obtain ⟨hwf, hnodes, _, _, hedges⟩ := hG'
    refine ⟨hwf, hnodes, fun p s r => (hedges p s r).trans (or_congr_right ?_)⟩
    simp only [mem_toList_iff]
    rfl

end Graph

end Sui.Move.BorrowGraph
