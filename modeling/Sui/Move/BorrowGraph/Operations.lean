import Sui.Move.BorrowGraph.WellFormed

/-! What the operations of the borrow graph do.

Each of them keeps the graph well formed and, for references of the graph, reaches none of the
internal error branches. An extension adds one reference and the edges its sources give
(`extendBy_spec`), a call several (`extendByDotStarForCall_spec`). Releasing a reference takes
its edges away, a join adds those of the other graph, and renaming keeps every edge. -/
namespace Sui.Move.BorrowGraph

open Sui.Lib BTreeMap Failure
open Exec

variable {Loc Lbl : Type} [LinearOrder Lbl]

namespace Graph
variable {μ ε : Type} {G G' : Graph Loc Lbl} {r : Ref} {x : Regex Lbl} {sources : List Ref}
  {f : Ref → Except Violation (Ref × Nat)} {remapping : BTreeMap Ref Nat} {e : Edge Loc Lbl}
  {g : GraphMap Ref (Edge Loc Lbl)} {α : Type}

/-- The edge between two references holds the regex. -/
def HasPath (G : Graph Loc Lbl) (r s : Ref) (x : Regex Lbl) : Prop :=
  ∃ n m : Node, G.nodes[r]? = some n ∧ G.nodes[s]? = some m ∧
    HasEdge G.graph.edgeWeights n.nodeIndex m.nodeIndex x

theorem hasPath_iff (hr : G.nodes[r]? = some n) (hs : G.nodes[s]? = some m) :
    G.HasPath r s x ↔ HasEdge G.graph.edgeWeights n.nodeIndex m.nodeIndex x := by
  constructor
  · intro ⟨n', m', hn, hm, hx⟩
    cases hr.symm.trans hn
    cases hs.symm.trans hm
    exact hx
  · intro hx
    exact ⟨n, m, hr, hs, hx⟩

/-- A reference's edge to itself is exactly epsilon. -/
theorem WellFormed.self_iff (h : G.WellFormed) (hr : r ∈ G.nodes) : G.HasPath r r x ↔ x = .epsilon := by
  obtain ⟨n, hn⟩ := mem_iff_get.mp hr
  rw [hasPath_iff hn hn]
  exact h.graph.selfEdge _ (mem_of_get (h.weight r n hn)) x

/-! ### Extensions -/

section Adds
variable {new : List (Ref × Node)} {ext : Extension Lbl} {newRefs : List NodeIndex}
  {source : NodeIndex} {a : NodeIndex × NodeIndex × Regex Lbl}

/-- New references do not change what an old one gives. -/
theorem Adds.newEdge_iff (h : Adds G G' new fun _ => False) (hsource : source ∈ G.graph.nodeWeights) :
    NewEdge G'.graph.edgeWeights ext newRefs source a ↔ NewEdge G.graph.edgeWeights ext newRefs source a := by
  have hne : ∀ x ∈ new, x.2.nodeIndex ≠ source := fun x hx hi => (h.apart x hx).2 (hi ▸ hsource)
  have hedge : ∀ x y r, x = source ∨ y = source →
      (HasEdge G'.graph.edgeWeights x y r ↔ HasEdge G.graph.edgeWeights x y r) := by
    intro x y r hxy
    rw [h.edges, or_false]
    constructor
    · intro hr
      rcases hr with hr | ⟨rfl, _, z, hz, hi⟩
      · exact hr
      · exact absurd (hi.trans (or_self_iff.mp hxy)) (hne z hz)
    · exact .inl
  have hin : ∀ x r, _ := fun x r => hedge x source r (.inr rfl)
  have hout : ∀ x r, _ := fun x r => hedge source x r (.inl rfl)
  unfold NewEdge
  simp only [hin, hout]

/-- What an old reference gives runs between an old and a new one. -/
theorem newEdge_ends (h : G.WellFormed) (ha : NewEdge G.graph.edgeWeights ext newRefs source a) :
    (a.1 ∈ G.graph.nodeWeights ∧ a.2.1 ∈ newRefs) ∨ (a.1 ∈ newRefs ∧ a.2.1 ∈ G.graph.nodeWeights) := by
  obtain ⟨n, hn, x, r, hcases⟩ := ha
  rcases hcases with ⟨hr, rfl⟩ | ⟨hr, r', _, rfl⟩ | ⟨hr, r', _, rfl⟩
  · exact .inl ⟨(h.graph.hasEdge_mem hr).1, hn⟩
  · exact .inr ⟨hn, (h.graph.hasEdge_mem hr).2⟩
  · exact .inl ⟨(h.graph.hasEdge_mem hr).2, hn⟩

/-- Edges between an old reference and a new one can be added, as can those between two
new ones. -/
theorem Adds.addable (hG : G.WellFormed) (h : Adds G G' new fun _ => False)
    (hnew : ∀ i ∈ newRefs, ∃ x ∈ new, x.2.nodeIndex = i) (ha : (a.1 ∈ G.graph.nodeWeights ∧ a.2.1 ∈ newRefs) ∨
      (a.1 ∈ newRefs ∧ a.2.1 ∈ G.graph.nodeWeights) ∨
      (a.1 ∈ newRefs ∧ a.2.1 ∈ newRefs ∧ a.1 ≠ a.2.1)) : G'.Addable newRefs a := by
  have hfresh : ∀ i ∈ newRefs, i ∉ G.graph.nodeWeights := by
    intro i hi
    obtain ⟨x, hx, rfl⟩ := hnew i hi
    exact (h.apart x hx).2
  have hmem : ∀ i ∈ newRefs, i ∈ G'.graph.nodeWeights := by
    intro i hi
    obtain ⟨x, hx, rfl⟩ := hnew i hi
    exact h.mem_of_new hx
  -- an edge that is there would be an old one, or of a reference to itself
  have habsent : a.1 ≠ a.2.1 → (a.1 ∉ G.graph.nodeWeights ∨ a.2.1 ∉ G.graph.nodeWeights) →
      toLex (a.1, a.2.1) ∉ G'.graph.edgeWeights := by
    intro hne hout hin
    obtain ⟨r, hr⟩ := h.wf.graph.mem_edgeWeights_iff.mp hin
    rcases (h.edges _ _ _).mp hr with hr | ⟨heq, _⟩ | hr
    · rcases hout with hout | hout
      · exact hout (hG.graph.hasEdge_mem hr).1
      · exact hout (hG.graph.hasEdge_mem hr).2
    · exact hne heq
    · exact hr
  rcases ha with ⟨hl, hr⟩ | ⟨hl, hr⟩ | ⟨hl, hr, hne⟩
  · have hne : a.1 ≠ a.2.1 := fun heq => hfresh _ hr (heq ▸ hl)
    exact ⟨h.weight_of_old hG hl, hmem _ hr, hne, habsent hne (.inr (hfresh _ hr)), .inr hr⟩
  · have hne : a.1 ≠ a.2.1 := fun heq => hfresh _ hl (heq ▸ hr)
    exact ⟨hmem _ hl, h.weight_of_old hG hr, hne, habsent hne (.inl (hfresh _ hl)), .inl hl⟩
  · exact ⟨hmem _ hl, hmem _ hr, hne, habsent hne (.inl (hfresh _ hl)), .inl hl⟩

end Adds

omit [LinearOrder Lbl] in
theorem not_adding_empty (a : NodeIndex × NodeIndex × Regex Lbl) :
    ¬Adding (∅ : BTreeMap EdgeKey (List (Regex Lbl))) a := by
  simp [Adding]

omit [LinearOrder Lbl] in
theorem nonEmpty_empty : NonEmpty (∅ : BTreeMap EdgeKey (List (Regex Lbl))) := by
  simp [NonEmpty]

/-- What the sources give to new references. -/
def FromSources (G : Graph Loc Lbl) (sources : List Ref) (ext : Extension Lbl)
    (newRefs : List NodeIndex) (a : NodeIndex × NodeIndex × Regex Lbl) : Prop :=
  ∃ r ∈ sources, ∃ n : Node, G.nodes[r]? = some n ∧
    NewEdge G.graph.edgeWeights ext newRefs n.nodeIndex a

/-- What is determined from old sources can be read off the old graph. -/
theorem Adds.fromSources_iff {new : List (Ref × Node)} {idxs : BTreeSet NodeIndex}
    (hadds : Adds G G' new fun _ => False) (h : G.WellFormed)
    (hidxs : ∀ i, i ∈ idxs ↔ ∃ r ∈ sources, ∃ n : Node, G.nodes[r]? = some n ∧ n.nodeIndex = i)
    {ext : Extension Lbl} {newRefs : List NodeIndex} {a : NodeIndex × NodeIndex × Regex Lbl} :
    (∃ i ∈ idxs, NewEdge G'.graph.edgeWeights ext newRefs i a) ↔ G.FromSources sources ext newRefs a := by
  constructor
  · intro ⟨i, hi, ha⟩
    obtain ⟨r, hr, n, hn, rfl⟩ := (hidxs i).mp hi
    exact ⟨r, hr, n, hn, (hadds.newEdge_iff (h.mem_nodeWeights_iff.mpr ⟨r, n, hn, rfl⟩)).mp ha⟩
  · intro ⟨r, hr, n, hn, ha⟩
    exact ⟨n.nodeIndex, (hidxs _).mpr ⟨r, hr, n, hn, rfl⟩,
      (hadds.newEdge_iff (h.mem_nodeWeights_iff.mpr ⟨r, n, hn, rfl⟩)).mpr ha⟩

theorem extendBy_spec (h : G.WellFormed) (ext : Extension Lbl) (meter : Meter μ ε) (m : μ) (loc : Loc)
    (hsources : ∀ r ∈ sources, r ∈ G.nodes) (isMut : Bool) :
    Sat (G.extendBy ext meter m loc sources isMut)
      (fun x => ∃ n : Node, n.isMutable = isMut ∧
        Adds G x.2.1 [(x.1, n)] (G.FromSources sources ext [n.nodeIndex])) Failure.External := by
  refine (check_sat (addRef_spec h loc isMut)).bind fun x hadds => ?_
  obtain ⟨⟨newRef, newRefIdx⟩, G₁⟩ := x
  refine (check_sat (indices_spec fun r hr => hadds.mem_of_old (hsources r hr))).bind fun idxs hidxs => ?_
  refine (determineAllNewEdges_spec meter m nonEmpty_empty idxs ext [newRefIdx]).bind fun y hy => ?_
  obtain ⟨acc, m'⟩ := y
  obtain ⟨hne, hacc⟩ := hy
  have hacc : ∀ a, Adding acc a ↔ G.FromSources sources ext [newRefIdx] a := by
    intro a
    rw [hacc, or_iff_right (not_adding_empty a), hadds.fromSources_iff h fun i => (hidxs i).trans ?_]
    refine exists_congr fun r => and_congr_right fun hr => exists_congr fun n => and_congr_left fun _ => ?_
    obtain ⟨n', hn'⟩ := mem_iff_get.mp (hsources r hr)
    rw [hn', (hadds.nodes r n').mpr (.inl hn')]
  have haddable : ∀ a, Adding acc a → G₁.Addable [newRefIdx] a := by
    intro a ha
    obtain ⟨r, _, n, _, hnew⟩ := (hacc a).mp ha
    apply hadds.addable h
    · intro i hi
      exact ⟨_, List.mem_singleton_self _, (List.mem_singleton.mp hi).symm⟩
    · exact (newEdge_ends h hnew).imp_right .inl
  refine (check_sat (addNewEdges_spec hadds.wf hne haddable loc)).bind fun G₂ hG₂ => ?_
  obtain ⟨hwf, hnodes, hedges⟩ := hG₂
  refine ⟨⟨isMut, newRefIdx⟩, rfl, hadds.add_edges hwf hnodes fun p s r => ?_⟩
  rw [hedges, hacc]

/-! ### Calls -/

omit [LinearOrder Lbl] in
theorem addImmEdges_spec {imms : List NodeIndex} (himms : imms.Nodup)
    {acc : BTreeMap EdgeKey (List (Regex Lbl))} (hacc : NonEmpty acc)
    (hnone : ∀ x ∈ imms, ∀ y ∈ imms, ∀ r, ¬Adding acc (x, y, r)) :
    Sat (addImmEdges imms acc) (fun acc' => NonEmpty acc' ∧ ∀ a, Adding acc' a ↔ Adding acc a ∨
        (a.1 ∈ imms ∧ a.2.1 ∈ imms ∧ a.1 ≠ a.2.1 ∧ a.2.2 = .dotStar)) Violation.External := by
  refine (Sat.foldlM (P := fun done (acc' : BTreeMap EdgeKey (List (Regex Lbl))) =>
    NonEmpty acc' ∧ ∀ a, Adding acc' a ↔ Adding acc a ∨
      ((a.1, a.2.1) ∈ done ∧ a.1 ≠ a.2.1 ∧ a.2.2 = .dotStar)) ?_ ?_).mono ?_
  · exact ⟨hacc, by simp⟩
  · intro done xy rest acc' hlist ⟨hne, hadding⟩
    obtain ⟨x, y⟩ := xy
    show Sat (if x = y then _ else _) _ _
    by_cases hxy : x = y
    · rw [if_pos hxy]
      refine ⟨hne, fun a => (hadding a).trans (or_congr_right ?_)⟩
      rw [List.mem_append, List.mem_singleton]
      constructor
      · intro ⟨hdone, hrest⟩
        exact ⟨.inl hdone, hrest⟩
      · intro ⟨hdone, hne, hr⟩
        rcases hdone with hdone | hdone
        · exact ⟨hdone, hne, hr⟩
        · cases hdone
          exact absurd hxy hne
    · rw [if_neg hxy]
      have hmem : (x, y) ∈ imms.product imms := by simp [hlist]
      obtain ⟨hx, hy⟩ := List.pair_mem_product.mp hmem
      have hnodup : (imms.product imms).Nodup := himms.product himms
      rw [hlist, List.nodup_append] at hnodup
      have habsent : toLex (x, y) ∉ acc' := by
        intro hin
        obtain ⟨l, hl⟩ := mem_iff_get.mp hin
        obtain ⟨r, hr⟩ := List.exists_mem_of_ne_nil l (hne _ l hl)
        rcases (hadding (x, y, r)).mp ⟨l, hl, hr⟩ with ha | ⟨hdone, _⟩
        · exact hnone x hx y hy r ha
        · exact hnodup.2.2 (x, y) hdone (x, y) (.head _) rfl
      rw [bind_require habsent]
      refine ⟨hne.insert (by simp) _, fun ⟨p, s, r⟩ => exists_get_insert.trans ?_⟩
      by_cases hps : x = p ∧ y = s
      · obtain ⟨rfl, rfl⟩ := hps
        simp [hxy, hnone x hx y hy r]
      · have hne : (p, s) ≠ (x, y) := fun heq => hps (by cases heq; exact ⟨rfl, rfl⟩)
        rw [if_neg hps]
        refine (hadding (p, s, r)).trans ?_
        simp [hne]
  · intro acc' ⟨hne, hadding⟩
    refine ⟨hne, fun a => (hadding a).trans ?_⟩
    rw [List.pair_mem_product, and_assoc]

theorem isMutable_eq (hn : G.nodes[r]? = some n) : G.isMutable r = .ok n.isMutable := by
  unfold isMutable
  rw [bind_ok (node_eq hn)]
  rfl

/-- The mutable ones among references of the graph. -/
def mutSources (G : Graph Loc Lbl) (sources : List Ref) : List Ref :=
  sources.filter fun r => (G.nodes[r]?).any (·.isMutable)

theorem filter_isMutable (h : ∀ r ∈ sources, r ∈ G.nodes) :
    Exec.filter G.isMutable sources = .ok (G.mutSources sources) := by
  apply filter_eq
  intro r hr
  obtain ⟨n, hn⟩ := mem_iff_get.mp (h r hr)
  rw [isMutable_eq hn, hn]
  rfl

/-- The edges of a call: those that the mutable sources give to the mutable references, those
that all sources give to the immutable ones, and those between the latter. -/
def FromCall (G : Graph Loc Lbl) (sources : List Ref) (muts imms : List NodeIndex)
    (a : NodeIndex × NodeIndex × Regex Lbl) : Prop :=
  G.FromSources (G.mutSources sources) .dotStar muts a ∨ G.FromSources sources .dotStar imms a ∨
    (a.1 ∈ imms ∧ a.2.1 ∈ imms ∧ a.1 ≠ a.2.1 ∧ a.2.2 = .dotStar)

theorem extendByDotStarForCall_spec (h : G.WellFormed) (meter : Meter μ ε) (m : μ) (loc : Loc)
    {sources : BTreeSet Ref} (hsources : ∀ r ∈ sources, r ∈ G.nodes) (mutabilities : List Bool) :
    Sat (G.extendByDotStarForCall meter m loc sources mutabilities)
      (fun x => ∃ new, x.1 = new.map (·.1) ∧ new.map (·.2.isMutable) = mutabilities ∧
        Adds G x.2.1 new (G.FromCall sources.toList ((new.filter (·.2.isMutable)).map (·.2.nodeIndex))
          ((new.filter (!·.2.isMutable)).map (·.2.nodeIndex)))) Failure.External := by
  have hlist : ∀ r ∈ sources.toList, r ∈ G.nodes := fun r hr =>
    hsources r (Std.ExtTreeSet.mem_toList.mp hr)
  have hmuts : ∀ r ∈ G.mutSources sources.toList, r ∈ G.nodes := fun r hr =>
    hlist r (List.mem_filter.mp hr).1
  refine (check_sat (indices_spec hlist)).bind fun allIdxs hall => ?_
  rw [bind_ok (check_ok (filter_isMutable hlist))]
  refine (check_sat (indices_spec hmuts)).bind fun mutIdxs hmutIdxs => ?_
  refine (check_sat (addRefs_spec h loc mutabilities)).bind fun x hx => ?_
  obtain ⟨⟨refs, muts, imms⟩, G₁⟩ := x
  obtain ⟨new, hadds, hrefs, hmutabilities, hnewMuts, hnewImms⟩ := hx
  simp only at hadds hrefs hnewMuts hnewImms
  refine (determineAllNewEdges_spec meter m nonEmpty_empty mutIdxs .dotStar muts).bind fun y hy => ?_
  obtain ⟨acc₁, m₁⟩ := y
  obtain ⟨hne₁, hacc₁⟩ := hy
  refine (determineAllNewEdges_spec meter m₁ hne₁ allIdxs .dotStar imms).bind fun y hy => ?_
  obtain ⟨acc₂, m₂⟩ := y
  obtain ⟨hne₂, hacc₂⟩ := hy
  have hacc₂ : ∀ a, Adding acc₂ a ↔ G.FromSources (G.mutSources sources.toList) .dotStar muts a ∨
      G.FromSources sources.toList .dotStar imms a := by
    intro a
    rw [hacc₂, hacc₁, or_iff_right (not_adding_empty a), hadds.fromSources_iff h hmutIdxs,
      hadds.fromSources_iff h hall]
  have hisNew : ∀ i ∈ muts ++ imms, ∃ x ∈ new, x.2.nodeIndex = i := by
    intro i hi
    rw [hnewMuts, hnewImms, List.mem_append] at hi
    rcases hi with hi | hi
    all_goals
      obtain ⟨x, hx, rfl⟩ := List.mem_map.mp hi
      exact ⟨x, (List.mem_filter.mp hx).1, rfl⟩
  have hfresh : ∀ i ∈ muts ++ imms, i ∉ G.graph.nodeWeights := by
    intro i hi
    obtain ⟨x, hx, rfl⟩ := hisNew i hi
    exact (hadds.apart x hx).2
  have hends : ∀ a, Adding acc₂ a → (a.1 ∈ G.graph.nodeWeights ∧ a.2.1 ∈ muts ++ imms) ∨
      (a.1 ∈ muts ++ imms ∧ a.2.1 ∈ G.graph.nodeWeights) := by
    intro a ha
    rcases (hacc₂ a).mp ha with ⟨_, _, _, _, hnew⟩ | ⟨_, _, _, _, hnew⟩
    · exact (newEdge_ends h hnew).imp (And.imp_right (List.mem_append_left _))
        (And.imp_left (List.mem_append_left _))
    · exact (newEdge_ends h hnew).imp (And.imp_right (List.mem_append_right _))
        (And.imp_left (List.mem_append_right _))
  have himms : imms.Nodup := by
    rw [hnewImms]
    exact (hadds.nodup.sublist (List.filter_sublist.map _))
  have hnone : ∀ x ∈ imms, ∀ y ∈ imms, ∀ r, ¬Adding acc₂ (x, y, r) := by
    intro x hx y hy r ha
    rcases hends _ ha with ⟨hin, _⟩ | ⟨_, hin⟩
    · exact hfresh x (List.mem_append_right _ hx) hin
    · exact hfresh y (List.mem_append_right _ hy) hin
  refine (check_sat (addImmEdges_spec himms hne₂ hnone)).bind fun acc₃ hacc₃ => ?_
  obtain ⟨hne₃, hacc₃⟩ := hacc₃
  have haddable : ∀ a, Adding acc₃ a → G₁.Addable (muts ++ imms) a := by
    intro a ha
    refine hadds.addable h hisNew ?_
    rcases (hacc₃ a).mp ha with ha | ⟨hx, hy, hne, _⟩
    · exact (hends a ha).imp_right .inl
    · exact .inr (.inr ⟨List.mem_append_right _ hx, List.mem_append_right _ hy, hne⟩)
  refine (check_sat (addNewEdges_spec hadds.wf hne₃ haddable loc)).bind fun G₂ hG₂ => ?_
  obtain ⟨hwf, hnodes, hedges⟩ := hG₂
  refine ⟨new, hrefs, hmutabilities, hadds.add_edges hwf hnodes fun p s r => ?_⟩
  rw [hedges, hacc₃, hacc₂, ← hnewMuts, ← hnewImms, or_assoc]
  rfl

/-! ### Releases -/

theorem release_spec (h : G.WellFormed) (meter : Meter μ ε) (m : μ) (hr : r ∈ G.nodes) :
    Sat (G.release meter m r) (fun x => x.1.WellFormed ∧
        (∀ (s : Ref) (n : Node), x.1.nodes[s]? = some n ↔ r ≠ s ∧ G.nodes[s]? = some n) ∧
        ∀ s t y, x.1.HasPath s t y ↔ r ≠ s ∧ r ≠ t ∧ G.HasPath s t y) Failure.External := by
  obtain ⟨n, hn⟩ := mem_iff_get.mp hr
  have hweight : n.nodeIndex ∈ G.graph.nodeWeights := mem_of_get (h.weight r n hn)
  refine (charge_sat _).bind fun m' _ => ?_
  rw [bind_ok (check_ok (node_eq hn))]
  rw [GraphMap.removeNode, bind_require hweight]
  let edges := G.graph.edgeWeights.filter fun key _ => (ofLex key).1 ≠ n.nodeIndex ∧ (ofLex key).2 ≠ n.nodeIndex
  have hget : ∀ (key : EdgeKey) e, edges[key]? = some e ↔ (ofLex key).1 ≠ n.nodeIndex ∧
      (ofLex key).2 ≠ n.nodeIndex ∧ G.graph.edgeWeights[key]? = some e := by
    intro key e
    rw [Std.ExtTreeMap.getElem?_filter', Option.filter_eq_some_iff, decide_eq_true_eq, and_comm, and_assoc]
  have hedges : ∀ p s y, HasEdge edges p s y ↔
      p ≠ n.nodeIndex ∧ s ≠ n.nodeIndex ∧ HasEdge G.graph.edgeWeights p s y := by
    intro p s y
    unfold HasEdge
    simp only [hget, ofLex_toLex, and_assoc, exists_and_left]
  have hnodes : ∀ (s : Ref) (n' : Node), (G.nodes.erase r)[s]? = some n' ↔ r ≠ s ∧ G.nodes[s]? = some n' := by
    exact fun s n' => erase_eq_some
  refine ⟨⟨⟨?_, h.graph.next_lt, ?_, ?_⟩, ?_, ?_, ?_⟩, hnodes, ?_⟩
  · intro i hi
    exact h.graph.ids i (mem_erase_iff.mp hi).2
  · intro key e he
    obtain ⟨hp, hs, he⟩ := (hget key e).mp he
    obtain ⟨hpm, hsm, hrest⟩ := h.graph.edge key e he
    exact ⟨mem_erase_iff.mpr ⟨Ne.symm hp, hpm⟩, mem_erase_iff.mpr ⟨Ne.symm hs, hsm⟩, hrest⟩
  · intro i hi y
    obtain ⟨hne, hi⟩ := mem_erase_iff.mp hi
    rw [hedges, h.graph.selfEdge i hi]
    simp [Ne.symm hne]
  · intro s n' hn'
    obtain ⟨hne, hn'⟩ := (hnodes s n').mp hn'
    rw [get_erase, if_neg, h.weight s n' hn']
    exact fun hidx => hne (h.ref_inj hn hn' hidx)
  · intro i s hi
    have hi : (G.graph.nodeWeights.erase n.nodeIndex)[i]? = some s := hi
    obtain ⟨hne, hi⟩ := erase_eq_some.mp hi
    obtain ⟨n', hn', hidx⟩ := h.node i s hi
    refine ⟨n', (hnodes s n').mpr ⟨?_, hn'⟩, hidx⟩
    intro hrs
    subst hrs
    cases hn.symm.trans hn'
    exact hne hidx
  · intro id hid
    exact h.fresh id (mem_erase_iff.mp hid).2
  · intro s t y
    constructor
    · intro ⟨ns, nt, hns, hnt, hy⟩
      obtain ⟨hs, hns⟩ := (hnodes s ns).mp hns
      obtain ⟨ht, hnt⟩ := (hnodes t nt).mp hnt
      exact ⟨hs, ht, ns, nt, hns, hnt, ((hedges _ _ _).mp hy).2.2⟩
    · intro ⟨hs, ht, ns, nt, hns, hnt, hy⟩
      refine ⟨ns, nt, (hnodes s ns).mpr ⟨hs, hns⟩, (hnodes t nt).mpr ⟨ht, hnt⟩, (hedges _ _ _).mpr ⟨?_, ?_, hy⟩⟩
      · exact fun hidx => hs (h.ref_inj hn hns hidx.symm)
      · exact fun hidx => ht (h.ref_inj hn hnt hidx.symm)

/-! ### Joins -/

theorem GraphMap.allEdges_spec (h : g.WellFormed) :
    ∃ l, g.allEdges = .ok l ∧ ∀ p e s, (p, e, s) ∈ l ↔ ∃ i j : NodeIndex,
      g.nodeWeights[i]? = some p ∧ g.nodeWeights[j]? = some s ∧
        g.edgeWeights[(toLex (i, j) : EdgeKey)]? = some e := by
  refine (mapM_ok ?_).imp fun l hl => ⟨hl.1, fun p e s => (hl.2 _).trans ?_⟩
  · rintro ⟨key, e⟩ hx
    obtain ⟨hp, hs, -⟩ := h.edge _ _ (mem_toList_iff.mp hx)
    obtain ⟨p, hp⟩ := mem_iff_get.mp hp
    obtain ⟨s, hs⟩ := mem_iff_get.mp hs
    exact ⟨_, (bind_unwrap hp _).trans (bind_unwrap hs _)⟩
  · simp only [Prod.exists, mem_toList_iff, bind_eq_ok, unwrap_eq_ok, pure_eq_ok, Prod.mk.injEq]
    constructor
    · rintro ⟨key, e, he, p, hp, s, hs, rfl, rfl, rfl⟩
      exact ⟨(ofLex key).1, (ofLex key).2, hp, hs, he⟩
    · rintro ⟨i, j, hi, hj, he⟩
      exact ⟨toLex (i, j), e, he, p, hi, s, hj, rfl, rfl, rfl⟩

theorem saturatingAdd_eq_zero : saturatingAdd n m = 0 ↔ n = 0 ∧ m = 0 := by
  unfold saturatingAdd
  omega

theorem Edge.insert_eq_self {loc : Loc} {r : Regex Lbl} (h : (e.insert loc r).1 = 0) : (e.insert loc r).2 = e := by
  unfold Edge.insert at h ⊢
  split at h
  · rename_i hr
    rw [if_pos hr]
  · exact absurd h r.abstractSize_pos.ne'

/-- An edge that does not grow stays as it is. -/
theorem Edge.join_eq_self (h : (e.join other).1 = 0) : (e.join other).2 = e := by
  have hfold : ∀ (l : List (Regex Lbl × Loc)) (x : Nat × Edge Loc Lbl),
      (l.foldl (fun x y => (saturatingAdd x.1 (x.2.insert y.2 y.1).1, (x.2.insert y.2 y.1).2)) x).1 = 0 →
      x.1 = 0 ∧ (l.foldl (fun x y =>
        (saturatingAdd x.1 (x.2.insert y.2 y.1).1, (x.2.insert y.2 y.1).2)) x).2 = x.2 := by
    intro l
    induction l with
    | nil =>
      intro x hx
      exact ⟨hx, rfl⟩
    | cons y rest ih =>
      intro x hx
      obtain ⟨hzero, heq⟩ := ih _ hx
      obtain ⟨hx, hinsert⟩ := saturatingAdd_eq_zero.mp hzero
      exact ⟨hx, heq.trans (Edge.insert_eq_self hinsert)⟩
  exact (hfold _ _ h).2

theorem joinEdge_spec (h : G.WellFormed) (hsized : e.Sized)
    (hr : ∃ r, r ∈ e.regexes) (hself : p = s → ∀ r, r ∈ e.regexes ↔ r = .epsilon) :
    ∃ k G', G.joinEdge p e s = .ok (k, G') ∧ G'.WellFormed ∧ G'.nodes = G.nodes ∧
      (k = 0 → G' = G) ∧ ∀ r t x, G'.HasPath r t x ↔ G.HasPath r t x ∨
        (r = p ∧ t = s ∧ p ∈ G.nodes ∧ s ∈ G.nodes ∧ x ∈ e.regexes) := by
  unfold joinEdge
  by_cases hps : p ∈ G.nodes ∧ s ∈ G.nodes
  swap
  · rw [if_neg hps]
    refine ⟨0, G, rfl, h, rfl, fun _ => rfl, fun r t x => ⟨.inl, ?_⟩⟩
    intro hx
    rcases hx with hx | ⟨_, _, hp, hs, _⟩
    · exact hx
    · exact absurd ⟨hp, hs⟩ hps
  rw [if_pos hps]
  obtain ⟨n, hn⟩ := mem_iff_get.mp hps.1
  obtain ⟨m, hm⟩ := mem_iff_get.mp hps.2
  have hp := h.mem_nodeWeights_iff.mpr ⟨p, n, hn, rfl⟩
  have hs := h.mem_nodeWeights_iff.mpr ⟨s, m, hm, rfl⟩
  have hidx : n.nodeIndex = m.nodeIndex → p = s := h.ref_inj hn hm
  rw [bind_ok (node_eq hn), bind_ok (node_eq hm)]
  dsimp only
  -- the edge that is put in place holds the regexes of both
  suffices hset : ∀ k e', e'.Sized →
      (∀ x, x ∈ e'.regexes ↔ HasEdge G.graph.edgeWeights n.nodeIndex m.nodeIndex x ∨ x ∈ e.regexes) →
      (k = 0 → G.graph.edgeWeights[(toLex (n.nodeIndex, m.nodeIndex) : EdgeKey)]? = some e') →
      let G' : Graph Loc Lbl := { G with graph := { G.graph with
        edgeWeights := G.graph.edgeWeights.insert (toLex (n.nodeIndex, m.nodeIndex)) e' } }
      G'.WellFormed ∧ G'.nodes = G.nodes ∧ (k = 0 → G' = G) ∧ ∀ r t x, G'.HasPath r t x ↔
        G.HasPath r t x ∨ (r = p ∧ t = s ∧ p ∈ G.nodes ∧ s ∈ G.nodes ∧ x ∈ e.regexes) by
    cases hself : G.graph.edgeWeights[(toLex (n.nodeIndex, m.nodeIndex) : EdgeKey)]? with
    | none =>
      refine ⟨e.abstractSize, _, rfl, hset e.abstractSize e hsized ?_ ?_⟩
      · intro x
        rw [or_iff_right]
        intro ⟨e', he', _⟩
        rw [hself] at he'
        cases he'
      · intro hk
        exact absurd hk (hsized hr).ne'
    | some selfEdge =>
      obtain ⟨hsized', hjoin⟩ := (h.graph.edge _ _ hself).2.2.1.join e
      refine ⟨_, _, rfl, hset (selfEdge.join e).1 (selfEdge.join e).2 hsized' ?_ ?_⟩
      · intro x
        rw [hjoin, hasEdge_iff hself]
      · intro hk
        rw [hself, Edge.join_eq_self hk]
  intro k e' hsized' hmem hk G'
  refine ⟨⟨h.graph.set_edge hp hs hsized' ?_ ?_, h.weight, h.node, h.fresh⟩, rfl, ?_, ?_⟩
  · obtain ⟨x, hx⟩ := hr
    exact ⟨x, (hmem x).mpr (.inr hx)⟩
  · intro heq x
    rw [hmem, hself (hidx heq), ← heq, h.graph.selfEdge _ hp, or_self]
  · intro hzero
    have hedges : G.graph.edgeWeights.insert (toLex (n.nodeIndex, m.nodeIndex)) e' = G.graph.edgeWeights := by
      apply Std.ExtTreeMap.ext_getElem?
      intro key
      rw [get_insert]
      split
      · rename_i hkey
        rw [← hkey, hk hzero]
      · rfl
    show ({ G with graph := { G.graph with edgeWeights := _ } } : Graph Loc Lbl) = G
    rw [hedges]
  · intro r t x
    constructor
    · intro ⟨nr, nt, hnr, hnt, hx⟩
      rw [hasEdge_insert] at hx
      split at hx
      · rename_i heq
        rcases (hmem x).mp hx with hx | hx
        · exact .inl ⟨nr, nt, hnr, hnt, heq.1 ▸ heq.2 ▸ hx⟩
        · exact .inr ⟨(h.ref_inj hn hnr heq.1).symm, (h.ref_inj hm hnt heq.2).symm, hps.1, hps.2, hx⟩
      · exact .inl ⟨nr, nt, hnr, hnt, hx⟩
    · intro hx
      rcases hx with ⟨nr, nt, hnr, hnt, hx⟩ | ⟨rfl, rfl, _, _, hx⟩
      · refine ⟨nr, nt, hnr, hnt, ?_⟩
        rw [hasEdge_insert]
        split
        · rename_i heq
          rw [hmem, heq.1, heq.2]
          exact .inl hx
        · exact hx
      · refine ⟨n, m, hn, hm, ?_⟩
        rw [hasEdge_insert, if_pos ⟨rfl, rfl⟩]
        exact (hmem x).mpr (.inr hx)

/-- A join adds the other graph's edges between its own references. It has changed nothing
unless it says so. -/
theorem join_spec (h : G.WellFormed) (h' : G'.WellFormed) (meter : Meter μ ε) (m : μ) :
    Sat (G.join meter m G') (fun x => x.2.1.WellFormed ∧ x.2.1.nodes = G.nodes ∧
        (x.1 = false → x.2.1 = G) ∧ ∀ r s y, x.2.1.HasPath r s y ↔
          G.HasPath r s y ∨ (r ∈ G.nodes ∧ s ∈ G.nodes ∧ G'.HasPath r s y)) Failure.External := by
  obtain ⟨edges, hedges, hmem⟩ := GraphMap.allEdges_spec h'.graph
  unfold join
  rw [hedges]
  refine (check_sat (Sat.foldlM (P := fun done (x : Nat × Graph Loc Lbl) => x.2.WellFormed ∧
    x.2.nodes = G.nodes ∧ (x.1 = 0 → x.2 = G) ∧ ∀ r s y, x.2.HasPath r s y ↔ G.HasPath r s y ∨
      ∃ e, (r, e, s) ∈ done ∧ r ∈ G.nodes ∧ s ∈ G.nodes ∧ y ∈ e.regexes)
    ⟨h, rfl, fun _ => rfl, by simp⟩ ?_)).bind fun x hx => ?_
  · intro done ⟨p, e, s⟩ rest ⟨total, G₁⟩ hlist ⟨hwf, hnodes, hsame, hpaths⟩
    obtain ⟨i, j, hi, hj, he⟩ := (hmem p e s).mp (by simp [hlist])
    obtain ⟨-, -, hsized, hr⟩ := h'.graph.edge _ e he
    have hself : p = s → ∀ r, r ∈ e.regexes ↔ r = .epsilon := by
      intro hps r
      obtain ⟨n, hn, rfl⟩ := h'.node i p hi
      obtain ⟨n', hn', rfl⟩ := h'.node j s hj
      subst hps
      cases hn.symm.trans hn'
      rw [← h'.graph.selfEdge n.nodeIndex (mem_of_get hi), hasEdge_iff he]
    obtain ⟨k, G₂, hrun, hwf', hnodes', hsame', hpaths'⟩ := joinEdge_spec hwf hsized hr hself
    show Sat (_ >>= _) _ _
    rw [bind_ok hrun]
    refine ⟨hwf', hnodes'.trans hnodes, fun hzero => ?_, fun r t y => ?_⟩
    · obtain ⟨htotal, hk⟩ := saturatingAdd_eq_zero.mp hzero
      exact (hsame' hk).trans (hsame htotal)
    · rw [hpaths', hpaths, or_assoc, hnodes]
      refine or_congr_right ?_
      simp only [List.mem_append, List.mem_singleton, Prod.mk.injEq, or_and_right, exists_or]
      refine or_congr_right ⟨?_, ?_⟩
      · intro ⟨hrp, hts, hp, hs, hy⟩
        exact ⟨e, ⟨hrp, rfl, hts⟩, hrp ▸ hp, hts ▸ hs, hy⟩
      · intro ⟨e', ⟨hrp, hee, hts⟩, hp, hs, hy⟩
        exact ⟨hrp, hts, hrp ▸ hp, hts ▸ hs, hee ▸ hy⟩
  · obtain ⟨total, G₁⟩ := x
    obtain ⟨hwf, hnodes, hsame, hpaths⟩ := hx
    refine (charge_sat _).bind fun _ _ => ?_
    refine (charge_sat _).bind fun _ _ => ?_
    refine ⟨hwf, hnodes, fun hzero => hsame ?_, fun r s y => (hpaths r s y).trans (or_congr_right ?_)⟩
    · have hzero : decide (0 < total) = false := hzero
      simpa using hzero
    · constructor
      · intro ⟨e, hmem', hr, hs, hy⟩
        obtain ⟨i, j, hi, hj, he⟩ := (hmem r e s).mp hmem'
        obtain ⟨n, hn, rfl⟩ := h'.node i r hi
        obtain ⟨n', hn', rfl⟩ := h'.node j s hj
        exact ⟨hr, hs, n, n', hn, hn', e, he, hy⟩
      · intro ⟨hr, hs, n, n', hn, hn', e, he, hy⟩
        exact ⟨e, (hmem r e s).mpr ⟨_, _, h'.weight r n hn, h'.weight s n' hn', he⟩, hr, hs, hy⟩

/-! ### Renamings -/

/-- A reference has the new name. -/
def Named (f : Ref → Except Violation (Ref × Nat)) (r r' : Ref) : Prop := ∃ k, f r = .ok (r', k)

/-- Names that keep references apart, and fresh ids below the bound that comes with them. -/
structure Renaming (G : Graph Loc Lbl) (f : Ref → Except Violation (Ref × Nat)) : Prop where
  inj : ∀ r s r', r ∈ G.nodes → s ∈ G.nodes → Named f r r' → Named f s r' → r = s
  fresh : ∀ r id k, f r = .ok (.fresh id, k) → id < k
  external : ∀ r v, f r = .error v → v.External

/-- The graph, with new names. -/
structure Renamed (G G' : Graph Loc Lbl) (f : Ref → Except Violation (Ref × Nat)) : Prop where
  wf : G'.WellFormed
  nodes : ∀ (r' : Ref) (n : Node), G'.nodes[r']? = some n ↔ ∃ r, G.nodes[r]? = some n ∧ Named f r r'
  edges : G'.graph.edgeWeights = G.graph.edgeWeights

theorem rename_spec (h : G.WellFormed) (hf : G.Renaming f) :
    Sat (G.rename f) (G.Renamed · f) Violation.External := by
  have hlistmem : ∀ r n, (r, n) ∈ G.nodes.toList ↔ G.nodes[r]? = some n := fun r n =>
    mem_toList_iff
  refine (Sat.foldlM (P := fun done (x : Nat × BTreeMap Ref Node × BTreeMap NodeIndex Ref) =>
    (∀ (r' : Ref) (n : Node), x.2.1[r']? = some n ↔ ∃ r, (r, n) ∈ done ∧ Named f r r') ∧
    (∀ (i : NodeIndex) (r' : Ref), x.2.2[i]? = some r' ↔
      (∃ r n, (r, n) ∈ done ∧ n.nodeIndex = i ∧ Named f r r') ∨
      (G.graph.nodeWeights[i]? = some r' ∧ ∀ y ∈ done, y.2.nodeIndex ≠ i)) ∧
    (∀ i, i ∈ x.2.2 ↔ i ∈ G.graph.nodeWeights) ∧
    ∀ id, Ref.fresh id ∈ x.2.1 → id < x.1) ⟨by simp, by simp, by simp, by simp⟩ ?_).bind fun x hx => ?_
  · intro done ⟨r, n⟩ rest ⟨freshId, nodes, weights⟩ hlist ⟨hnodes, hweights, hkeys, hfresh⟩
    have hn : G.nodes[r]? = some n := (hlistmem r n).mp (by simp [hlist])
    have hr : r ∈ G.nodes := mem_of_get hn
    have hin : n.nodeIndex ∈ weights := (hkeys _).mpr (h.mem_nodeWeights_iff.mpr ⟨r, n, hn, rfl⟩)
    have hdone : ∀ y ∈ done, G.nodes[y.1]? = some y.2 := fun y hy =>
      (hlistmem y.1 y.2).mp (by rw [hlist]; exact List.mem_append_left _ hy)
    show Sat (_ >>= _) _ _
    rw [bind_require hin]
    cases hname : f r with
    | error v => exact hf.external r v hname
    | ok x =>
      obtain ⟨r₁, k⟩ := x
      have hnamed : ∀ r', Named f r r' ↔ r₁ = r' := by
        intro r'
        unfold Named
        rw [hname]
        simp
      have hapart : ∀ r' n', (∃ s, (s, n') ∈ done ∧ Named f s r') → r₁ ≠ r' := by
        intro r' n' ⟨s, hs, hsr⟩ heq
        have hsmem : s ∈ G.nodes := mem_of_get (hdone _ hs)
        exact toList_key_ne hlist _ hs (hf.inj s r r' hsmem hr hsr ((hnamed r').mpr heq))
      have hidx : ∀ y ∈ done, y.2.nodeIndex ≠ n.nodeIndex := fun y hy heq =>
        toList_key_ne hlist y hy (h.ref_inj (hdone y hy) hn heq)
      refine ⟨fun r' n' => ?_, fun i r' => ?_, fun i => ?_, fun id hid => ?_⟩
      · rw [insert_eq_some, hnodes, and_iff_right_of_imp (hapart r' n'), or_comm]
        simp only [mem_concat, Prod.mk.injEq, or_and_right, exists_or, and_assoc, exists_eq_left, hnamed]
        rw [and_comm (a := r₁ = r'), eq_comm (a := n)]
      · rw [insert_eq_some, hweights]
        simp only [mem_concat, Prod.mk.injEq, or_and_right, exists_or, and_assoc, exists_eq_left,
          exists_and_left, hnamed, or_imp, forall_and, forall_eq]
        by_cases hi : n.nodeIndex = i
        · subst hi
          have hnone : ¬∃ s n', (s, n') ∈ done ∧ n'.nodeIndex = n.nodeIndex ∧ Named f s r' :=
            fun ⟨s, n', hs, heq, _⟩ => hidx _ hs heq
          simp [hnone]
        · simp [hi]
      · rw [mem_insert_iff, ← hkeys, or_iff_right_of_imp]
        rintro rfl
        exact hin
      · rcases mem_insert_iff.mp hid with hid | hid
        · exact (hf.fresh r id k (hid ▸ hname)).trans_le (le_max_right _ _)
        · exact (hfresh id hid).trans_le (le_max_left _ _)
  · obtain ⟨freshId, nodes, weights⟩ := x
    obtain ⟨hnodes, hweights, hkeys, hfresh⟩ := hx
    simp only [hlistmem] at hnodes hweights hkeys hfresh
    refine ⟨⟨⟨?_, h.graph.next_lt, ?_, ?_⟩, ?_, ?_, hfresh⟩, hnodes, rfl⟩
    · intro i hi
      exact h.graph.ids i ((hkeys i).mp hi)
    · intro key e he
      exact (h.graph.edge key e he).imp (hkeys _).mpr (And.imp_left (hkeys _).mpr)
    · intro i hi
      exact h.graph.selfEdge i ((hkeys i).mp hi)
    · intro r' n hn
      obtain ⟨r, hr, hname⟩ := (hnodes r' n).mp hn
      exact (hweights _ _).mpr (.inl ⟨r, n, hr, rfl, hname⟩)
    · intro i r' hi
      rcases (hweights i r').mp hi with ⟨r, n, hr, hidx, hname⟩ | ⟨hold, hnone⟩
      · exact ⟨n, (hnodes r' n).mpr ⟨r, hr, hname⟩, hidx⟩
      · obtain ⟨n, hn, hidx⟩ := h.node i r' hold
        exact absurd hidx (hnone (r', n) hn)

theorem Renamed.hasPath_iff (h : G.Renamed G' f) :
    G'.HasPath r' s' x ↔ ∃ r s, Named f r r' ∧ Named f s s' ∧ G.HasPath r s x := by
  unfold HasPath
  rw [h.edges]
  constructor
  · intro ⟨n, m, hn, hm, hx⟩
    obtain ⟨r, hr, hrname⟩ := (h.nodes r' n).mp hn
    obtain ⟨s, hs, hsname⟩ := (h.nodes s' m).mp hm
    exact ⟨r, s, hrname, hsname, n, m, hr, hs, hx⟩
  · intro ⟨r, s, hrname, hsname, n, m, hr, hs, hx⟩
    exact ⟨n, m, (h.nodes r' n).mpr ⟨r, hr, hrname⟩, (h.nodes s' m).mpr ⟨s, hs, hsname⟩, hx⟩

theorem Renamed.mem_iff (h : G.Renamed G' f) : r' ∈ G'.nodes ↔ ∃ r ∈ G.nodes, Named f r r' := by
  simp only [mem_iff_get, h.nodes, ← exists_and_right]
  exact exists_comm

theorem named_refresh (h : Named Ref.refresh r r') : ∃ id, r = .canonical id ∧ r' = .fresh id := by
  obtain ⟨k, hk⟩ := h
  cases r with
  | canonical id =>
    obtain ⟨succ, _, hpure⟩ := bind_eq_ok.mp hk
    cases hpure
    exact ⟨id, rfl, rfl⟩
  | fresh id => cases hk

theorem renaming_refresh : G.Renaming Ref.refresh := by
  refine ⟨?_, ?_, ?_⟩
  · intro r s r' _ _ hr hs
    obtain ⟨id, rfl, rfl⟩ := named_refresh hr
    obtain ⟨id', rfl, hid⟩ := named_refresh hs
    cases hid
    rfl
  · intro r id k hk
    cases r with
    | canonical id' =>
      obtain ⟨succ, hsucc, hpure⟩ := bind_eq_ok.mp hk
      obtain ⟨hsucc, _⟩ := checkedAdd_eq_some.mp (unwrap_eq_ok.mp hsucc)
      cases hpure
      omega
    | fresh id' => cases hk
  · intro r v hv
    have hsat : Sat (Ref.refresh r) (fun _ => True) Violation.External := by
      cases r with
      | canonical id => exact (Sat.unwrap (by intro _ h; exact h)).bind fun _ _ => trivial
      | fresh id => exact not_false
    exact hsat.error hv

theorem refreshRefs_spec (h : G.WellFormed) : Sat G.refreshRefs (G.Renamed · Ref.refresh) Violation.External :=
  rename_spec h renaming_refresh

/-- The remapping keeps the references of the graph apart. -/
def Separates (remapping : BTreeMap Ref Nat) (G : Graph Loc Lbl) : Prop :=
  ∀ r s, r ∈ G.nodes → s ∈ G.nodes → ∀ id : Nat,
    remapping[r]? = some id → remapping[s]? = some id → r = s

theorem named_canonicalize (h : Named (Ref.canonicalize remapping) r r') :
    ∃ id id', r = .fresh id ∧ remapping[Ref.fresh id]? = some id' ∧ r' = .canonical id' := by
  obtain ⟨k, hk⟩ := h
  cases r with
  | canonical id => cases hk
  | fresh id =>
    obtain ⟨id', hid', hpure⟩ := bind_eq_ok.mp hk
    cases hpure
    exact ⟨id, id', rfl, unwrap_eq_ok.mp hid', rfl⟩

theorem renaming_canonicalize (h : Separates remapping G) : G.Renaming (Ref.canonicalize remapping) := by
  refine ⟨?_, ?_, ?_⟩
  · intro r s r' hr hs hrname hsname
    obtain ⟨id, k, rfl, hid, rfl⟩ := named_canonicalize hrname
    obtain ⟨id', k', rfl, hid', hk⟩ := named_canonicalize hsname
    cases hk
    exact h _ _ hr hs k hid hid'
  · intro r id k hk
    obtain ⟨_, _, _, _, hcanonical⟩ := named_canonicalize ⟨k, hk⟩
    cases hcanonical
  · intro r v hv
    have hsat : Sat (Ref.canonicalize remapping r) (fun _ => True) Violation.External := by
      cases r with
      | canonical id => exact not_false
      | fresh id => exact (Sat.unwrap (by intro _ h; exact h)).bind fun _ _ => trivial
    exact hsat.error hv

theorem le_foldl_max (f : α → Nat) (l : List α) (n : Nat) :
    n ≤ l.foldl (fun m x => max m (f x)) n ∧ ∀ x ∈ l, f x ≤ l.foldl (fun m x => max m (f x)) n := by
  induction l generalizing n with
  | nil => simp
  | cons y rest ih =>
    obtain ⟨hinit, hall⟩ := ih (max n (f y))
    exact ⟨(le_max_left _ _).trans hinit, List.forall_mem_cons.mpr ⟨(le_max_right _ _).trans hinit, hall⟩⟩

theorem foldl_max_lt {f : α → Nat} (l : List α) (n : Nat) (hn : n < b)
    (hf : ∀ x ∈ l, f x < b) : l.foldl (fun m x => max m (f x)) n < b := by
  induction l generalizing n with
  | nil => exact hn
  | cons y rest ih =>
    exact ih _ (max_lt hn (hf y (.head _))) fun x hx => hf x (.tail _ hx)

/-- The next id is set back to follow the ids in use. -/
theorem GraphMap.minimize_spec (h : g.WellFormed) :
    Sat g.minimize (fun g' => g'.WellFormed ∧ g'.nodeWeights = g.nodeWeights ∧
      g'.edgeWeights = g.edgeWeights) Violation.External := by
  refine (Sat.unwrap (by intro _ h; exact h)).bind fun generation _ => ?_
  refine ⟨⟨?_, ?_, h.edge, h.selfEdge⟩, rfl, rfl⟩
  · intro i hi
    have hle := (le_foldl_max (fun index : NodeIndex => min ((ofLex index).2 + 1) (2 ^ 32 - 1))
      g.nodeWeights.keys 0).2 i (Std.ExtTreeMap.mem_keys.mpr hi)
    have hid := h.ids i hi
    have hnext := h.next_lt
    refine lt_of_lt_of_le ?_ hle
    rw [lt_min_iff]
    omega
  · apply foldl_max_lt
    · decide
    · intro index _
      rw [min_lt_iff]
      exact .inr (by decide)

theorem canonicalize_spec (h : G.WellFormed) (hsep : Separates remapping G) :
    Sat (G.canonicalize remapping) (G.Renamed · (Ref.canonicalize remapping)) Violation.External := by
  refine (rename_spec h (renaming_canonicalize hsep)).bind fun G₁ h₁ => ?_
  refine (GraphMap.minimize_spec h₁.wf.graph).bind fun g ⟨hg, hweights, hedges⟩ => ?_
  exact ⟨⟨hg, hweights ▸ h₁.wf.weight, hweights ▸ h₁.wf.node, h₁.wf.fresh⟩, h₁.nodes, hedges.trans h₁.edges⟩

/-! ### Queries -/

theorem outgoingEdges_spec (h : G.WellFormed) (i : NodeIndex) :
    ∃ l, G.graph.outgoingEdges i = .ok l ∧ ∀ e s, (e, s) ∈ l ↔ ∃ n, G.nodes[s]? = some n ∧
      G.graph.edgeWeights[(toLex (i, n.nodeIndex) : EdgeKey)]? = some e := by
  refine (mapM_ok ?_).imp fun l hl => ⟨hl.1, fun e s => (hl.2 _).trans ?_⟩
  · rintro ⟨e, j⟩ hx
    obtain ⟨s, hs⟩ := mem_iff_get.mp (h.graph.edge _ e (GraphMap.mem_outgoingEdgesIdx.mp hx)).2.1
    exact ⟨_, bind_unwrap hs _⟩
  · simp only [Prod.exists, GraphMap.mem_outgoingEdgesIdx, bind_eq_ok, unwrap_eq_ok, pure_eq_ok, Prod.mk.injEq]
    constructor
    · rintro ⟨e, j, he, s, hs, rfl, rfl⟩
      obtain ⟨n, hn, rfl⟩ := h.node j s hs
      exact ⟨n, hn, he⟩
    · rintro ⟨n, hn, he⟩
      exact ⟨e, _, he, s, h.weight s n hn, rfl, rfl⟩

theorem incomingEdges_spec (h : G.WellFormed) (i : NodeIndex) :
    ∃ l, G.graph.incomingEdges i = .ok l ∧ ∀ s e, (s, e) ∈ l ↔ ∃ n, G.nodes[s]? = some n ∧
      G.graph.edgeWeights[(toLex (n.nodeIndex, i) : EdgeKey)]? = some e := by
  refine (mapM_ok ?_).imp fun l hl => ⟨hl.1, fun s e => (hl.2 _).trans ?_⟩
  · rintro ⟨j, e⟩ hx
    obtain ⟨s, hs⟩ := mem_iff_get.mp (h.graph.edge _ e (GraphMap.mem_incomingEdgesIdx.mp hx)).1
    exact ⟨_, bind_unwrap hs _⟩
  · simp only [Prod.exists, GraphMap.mem_incomingEdgesIdx, bind_eq_ok, unwrap_eq_ok, pure_eq_ok, Prod.mk.injEq]
    constructor
    · rintro ⟨j, e, he, s, hs, rfl, rfl⟩
      obtain ⟨n, hn, rfl⟩ := h.node j s hs
      exact ⟨n, hn, he⟩
    · rintro ⟨n, hn, he⟩
      exact ⟨_, e, he, s, h.weight s n hn, rfl, rfl⟩

/-- The answer of a query holds, for each other reference, the regexes of the edge. -/
def Answers (paths : BTreeMap Ref (List (Path Loc Lbl))) (r : Ref) (has : Ref → Regex Lbl → Prop) :
    Prop :=
  (∀ s, s ∈ paths ↔ s ≠ r ∧ ∃ x, has s x) ∧
  ∀ (s : Ref) (l : List (Path Loc Lbl)), paths[s]? = some l →
    ∀ x, has s x ↔ ∃ path ∈ l, path.labels = x.labels ∧ path.endsInDotStar = x.endsInDotStar

theorem Edge.mem_paths :
    x ∈ e.regexes ↔ ∃ path ∈ e.paths, path.labels = x.labels ∧ path.endsInDotStar = x.endsInDotStar := by
  rw [mem_iff_get]
  constructor
  · intro ⟨loc, hloc⟩
    exact ⟨_, List.mem_map.mpr ⟨(x, loc), mem_toList_iff.mpr hloc, rfl⟩, rfl, rfl⟩
  · intro ⟨path, hpath, hlabels, hdot⟩
    obtain ⟨⟨y, loc⟩, hy, rfl⟩ := List.mem_map.mp hpath
    have hxy : y = x := Regex.ext hlabels hdot
    exact ⟨loc, hxy ▸ mem_toList_iff.mp hy⟩

/-- Queries read an edge for each reference that has one. -/
theorem collectPaths_spec (h : G.WellFormed) (meter : Meter μ ε) (m : μ)
    {edges : List (Edge Loc Lbl × Ref)} {has : Ref → Regex Lbl → Prop} {key : Node → EdgeKey}
    (hmem : ∀ e s, (e, s) ∈ edges ↔
      ∃ n, G.nodes[s]? = some n ∧ G.graph.edgeWeights[key n]? = some e)
    (hhas : ∀ s x, has s x ↔ ∃ n, G.nodes[s]? = some n ∧
      ∃ e, G.graph.edgeWeights[key n]? = some e ∧ x ∈ e.regexes) :
    Sat (collectPaths meter m r edges) (fun y => Answers y.1 r has) Failure.External := by
  have hedge : ∀ e s, (e, s) ∈ edges → ∀ x, has s x ↔ x ∈ e.regexes := by
    intro e s hin x
    obtain ⟨n, hn, he⟩ := (hmem e s).mp hin
    simp [hhas, hn, he]
  refine (charge_sat _).bind fun _ _ => ?_
  refine (charge_sat _).bind fun _ _ => ?_
  refine ⟨fun s => ?_, fun s l hl x => ?_⟩
  · have hmem' := mem_foldl_insert (∅ : BTreeMap Ref (List (Path Loc Lbl)))
      (fun y : Edge Loc Lbl × Ref => y.2) (fun y => y.1.paths)
      (edges.filter fun y => decide (y.2 ≠ r)) s
    refine hmem'.trans ?_
    rw [or_iff_right Std.ExtTreeMap.not_mem_empty, List.mem_map]
    simp only [List.mem_filter, decide_eq_true_eq]
    constructor
    · intro ⟨⟨e, s'⟩, ⟨hin, hs⟩, heq⟩
      cases heq
      obtain ⟨n, -, he⟩ := (hmem e s').mp hin
      obtain ⟨-, -, -, x, hx⟩ := h.graph.edge _ e he
      exact ⟨hs, x, (hedge e s' hin x).mpr hx⟩
    · intro ⟨hs, x, hx⟩
      obtain ⟨n, hn, e, he, -⟩ := (hhas s x).mp hx
      exact ⟨(e, s), ⟨(hmem e s).mpr ⟨n, hn, he⟩, hs⟩, rfl⟩
  · have hget := get_foldl_insert (∅ : BTreeMap Ref (List (Path Loc Lbl)))
      (fun y : Edge Loc Lbl × Ref => y.2) (fun y => y.1.paths)
      (edges.filter fun y => decide (y.2 ≠ r)) hl
    rcases hget with hget | ⟨⟨e, s'⟩, hin, heq, hpaths⟩
    · simp at hget
    · cases heq
      cases hpaths
      rw [hedge e s' (List.mem_filter.mp hin).1 x]
      exact Edge.mem_paths

theorem borrowedBy_spec (h : G.WellFormed) (meter : Meter μ ε) (m : μ) (hr : r ∈ G.nodes) :
    Sat (G.borrowedBy meter m r) (fun y => Answers y.1 r (G.HasPath r)) Failure.External := by
  obtain ⟨n, hn⟩ := mem_iff_get.mp hr
  have hweight := h.mem_nodeWeights_iff.mpr ⟨r, n, hn, rfl⟩
  obtain ⟨edges, hedges, hmem⟩ := outgoingEdges_spec h n.nodeIndex
  unfold borrowedBy
  rw [bind_ok (check_ok (node_eq hn)), bind_ok (check_ok (require_of hweight)), bind_ok (check_ok hedges)]
  exact collectPaths_spec h meter m hmem fun s x => by simp [HasPath, HasEdge, hn]

theorem borrowsFrom_spec (h : G.WellFormed) (meter : Meter μ ε) (m : μ) (hr : r ∈ G.nodes) :
    Sat (G.borrowsFrom meter m r) (fun y => Answers y.1 r (G.HasPath · r)) Failure.External := by
  obtain ⟨n, hn⟩ := mem_iff_get.mp hr
  have hweight := h.mem_nodeWeights_iff.mpr ⟨r, n, hn, rfl⟩
  obtain ⟨edges, hedges, hmem⟩ := incomingEdges_spec h n.nodeIndex
  unfold borrowsFrom
  rw [bind_ok (check_ok (node_eq hn)), bind_ok (check_ok (require_of hweight)), bind_ok (check_ok hedges)]
  have hswap : ∀ e s, (e, s) ∈ edges.map Prod.swap ↔ (s, e) ∈ edges := by
    simp
  refine collectPaths_spec h meter m (fun e s => (hswap e s).trans (hmem s e)) fun s x => ?_
  simp [HasPath, HasEdge, hn]

end Graph

end Sui.Move.BorrowGraph
