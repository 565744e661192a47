import Sui.Move.BorrowGraph.Operations

/-! The borrow graph over-approximates aliasing.

A live reference is concretely a root and a path. A run is a sequence of operations on a graph
beside the places its references have: a new reference is one of its sources extended, or has a
root of its own; the places of joined graphs are those of either. `run_sound` says that
whenever one reference extends another by a path, the edge between them holds a regex that
matches it. -/
namespace Sui.Move.BorrowGraph

open Sui.Lib BTreeMap List
open Exec

/-! ### Places -/

structure Place (ρ Lbl : Type) where
  root : ρ
  path : List Lbl

namespace Place
variable {ρ Lbl : Type} {a b : Place ρ Lbl} {p q : List Lbl}

/-- The second place is the first one extended by the path. -/
def Extends (a b : Place ρ Lbl) (p : List Lbl) : Prop := b.root = a.root ∧ b.path = a.path ++ p

/-- Neither place extends the other. -/
def Unrelated (a b : Place ρ Lbl) : Prop := ∀ p, ¬a.Extends b p ∧ ¬b.Extends a p

theorem Extends.trans (hab : a.Extends b p) (hbc : b.Extends c q) : a.Extends c (p ++ q) :=
  ⟨hbc.1.trans hab.1, by rw [hbc.2, hab.2, append_assoc]⟩

theorem Extends.self (h : a.Extends a p) : p = [] := self_eq_append_right.mp h.2

/-- Of two places that a third extends, one extends the other. -/
theorem Extends.compare (ha : a.Extends c p) (hb : b.Extends c q) :
    (∃ p', a.Extends b p' ∧ p = p' ++ q) ∨ (∃ q', b.Extends a q' ∧ q = q' ++ p) := by
  have hroot : b.root = a.root := hb.1.symm.trans ha.1
  rcases append_eq_append_iff.mp (ha.2.symm.trans hb.2) with ⟨x, hx, hp⟩ | ⟨x, hx, hq⟩
  · exact .inl ⟨x, ⟨hroot, hx⟩, hp⟩
  · exact .inr ⟨x, ⟨hroot.symm, hx⟩, hq⟩

end Place

variable {Loc Lbl ρ : Type} [LinearOrder Lbl]

namespace Graph
variable {G G' : Graph Loc Lbl} {ν ν' : Ref → Place ρ Lbl} {new : List (Ref × Node)}

/-- Whenever a live reference extends another one, a regex of the edge matches the path. -/
def Sound (G : Graph Loc Lbl) (ν : Ref → Place ρ Lbl) : Prop :=
  ∀ r ∈ G.nodes, ∀ s ∈ G.nodes, ∀ p, (ν r).Extends (ν s) p → ∃ x, G.HasPath r s x ∧ x.Matches p

/-- A place is one of the sources extended by a path of some kind, or unrelated to every live
reference. -/
def NewPlace (G : Graph Loc Lbl) (ν : Ref → Place ρ Lbl) (sources : List Ref)
    (fits : List Lbl → Prop) (place : Place ρ Lbl) : Prop :=
  (∃ r ∈ sources, ∃ q, fits q ∧ (ν r).Extends place q) ∨ ∀ r ∈ G.nodes, (ν r).Unrelated place

/-- The edges of index `i` match every path between the place and a live reference. -/
def Covers (G : Graph Loc Lbl) (ν : Ref → Place ρ Lbl) (P : NodeIndex × NodeIndex × Regex Lbl → Prop)
    (i : NodeIndex) (place : Place ρ Lbl) : Prop :=
  ∀ (r : Ref) (n : Node), G.nodes[r]? = some n → ∀ p,
    ((ν r).Extends place p → ∃ y, P (n.nodeIndex, i, y) ∧ y.Matches p) ∧
    (place.Extends (ν r) p → ∃ y, P (i, n.nodeIndex, y) ∧ y.Matches p)

theorem Covers.mono (h : G.Covers ν P i place) (hPQ : ∀ a, P a → Q a) : G.Covers ν Q i place := by
  intro r n hn p
  obtain ⟨hto, hfrom⟩ := h r n hn p
  exact ⟨fun hp => (hto hp).imp fun y => And.imp_left (hPQ _), fun hp => (hfrom hp).imp fun y => And.imp_left (hPQ _)⟩

/-- What the sources give is enough. -/
theorem Sound.covers (h : G.Sound ν) (hsources : ∀ r ∈ sources, r ∈ G.nodes)
    (hplace : G.NewPlace ν sources ext.Matches place) (hi : i ∈ newRefs) :
    G.Covers ν (G.FromSources sources ext newRefs) i place := by
  intro r n hn p
  have hr : r ∈ G.nodes := mem_of_get hn
  rcases hplace with ⟨s, hs, q, hq, hsq⟩ | hun
  swap
  · exact ⟨fun hp => absurd hp (hun r hr p).1, fun hp => absurd hp (hun r hr p).2⟩
  obtain ⟨m, hm⟩ := mem_iff_get.mp (hsources s hs)
  refine ⟨fun hp => ?_, fun hp => ?_⟩
  · rcases hp.compare hsq with ⟨p', hrs, rfl⟩ | ⟨q', hsr, rfl⟩
    · -- the source lies between: its path is extended
      obtain ⟨x, hx, hmatch⟩ := h r hr s (hsources s hs) p' hrs
      exact ⟨x.extend ext, ⟨s, hs, m, hm, i, hi, n.nodeIndex, x, .inl ⟨(hasPath_iff hn hm).mp hx, rfl⟩⟩,
        extend_matches hmatch hq⟩
    · -- the reference lies between the source and the new one
      obtain ⟨x, hx, hmatch⟩ := h s (hsources s hs) r hr q' hsr
      obtain ⟨y, hy, hymatch⟩ := Extension.removePrefix_iff.mpr ⟨_, hmatch, hq⟩
      exact ⟨y, ⟨s, hs, m, hm, i, hi, n.nodeIndex, x, .inr (.inr ⟨(hasPath_iff hm hn).mp hx, y, hy, rfl⟩)⟩, hymatch⟩
  · obtain ⟨x, hx, hmatch⟩ := h s (hsources s hs) r hr (q ++ p) (hsq.trans hp)
    obtain ⟨y, hy, hymatch⟩ := removePrefix_iff.mpr ⟨_, hq, hmatch⟩
    exact ⟨y, ⟨s, hs, m, hm, i, hi, n.nodeIndex, x, .inr (.inl ⟨(hasPath_iff hm hn).mp hx, y, hy, rfl⟩)⟩, hymatch⟩

/-- References are added with edges that match all their paths. -/
theorem Sound.adds (h : G.Sound ν) (hadds : Adds G G' new P) (hν : ∀ r ∈ G.nodes, ν' r = ν r)
    (hold : ∀ x ∈ new, G.Covers ν P x.2.nodeIndex (ν' x.1))
    (hnew : ∀ x ∈ new, ∀ y ∈ new, x ≠ y → ∀ p, (ν' x.1).Extends (ν' y.1) p →
      ∃ z, P (x.2.nodeIndex, y.2.nodeIndex, z) ∧ z.Matches p) : G'.Sound ν' := by
  have hadded : ∀ {r s : Ref} {n m : Node} {x : Regex Lbl}, G'.nodes[r]? = some n →
      G'.nodes[s]? = some m → P (n.nodeIndex, m.nodeIndex, x) → G'.HasPath r s x := by
    intro r s n m x hn hm hx
    exact ⟨n, m, hn, hm, (hadds.edges _ _ _).mpr (.inr (.inr hx))⟩
  intro r hr s hs p hp
  obtain ⟨n, hn⟩ := mem_iff_get.mp hr
  obtain ⟨m, hm⟩ := mem_iff_get.mp hs
  have hmem : ∀ {r : Ref} {n : Node}, G.nodes[r]? = some n → r ∈ G.nodes := fun hn =>
    mem_of_get hn
  rcases (hadds.nodes r n).mp hn with hr | hr <;> rcases (hadds.nodes s m).mp hm with hs | hs
  · rw [hν r (hmem hr), hν s (hmem hs)] at hp
    obtain ⟨x, hx, hmatch⟩ := h r (hmem hr) s (hmem hs) p hp
    exact ⟨x, ⟨n, m, hn, hm, (hadds.edges _ _ _).mpr (.inl ((hasPath_iff hr hs).mp hx))⟩, hmatch⟩
  · rw [hν r (hmem hr)] at hp
    obtain ⟨x, hx, hmatch⟩ := (hold (s, m) hs r n hr p).1 hp
    exact ⟨x, hadded hn hm hx, hmatch⟩
  · rw [hν s (hmem hs)] at hp
    obtain ⟨x, hx, hmatch⟩ := (hold (r, n) hr s m hs p).2 hp
    exact ⟨x, hadded hn hm hx, hmatch⟩
  · by_cases hrs : (r, n) = (s, m)
    · cases hrs
      exact ⟨.epsilon, (hadds.wf.self_iff (r := r) (mem_of_get hn)).mpr rfl, epsilon_matches.mpr hp.self⟩
    · obtain ⟨x, hx, hmatch⟩ := hnew (r, n) hr (s, m) hs hrs p hp
      exact ⟨x, hadded hn hm hx, hmatch⟩

theorem Sound.extendBy (h : G.Sound ν) (hsources : ∀ r ∈ sources, r ∈ G.nodes)
    (hadds : Adds G G' [(newRef, n)] (G.FromSources sources ext [n.nodeIndex]))
    (hν : ∀ r ∈ G.nodes, ν' r = ν r) (hplace : G.NewPlace ν sources ext.Matches (ν' newRef)) : G'.Sound ν' := by
  refine h.adds hadds hν ?_ ?_
  · intro x hx
    cases mem_singleton.mp hx
    exact h.covers hsources hplace (mem_singleton_self _)
  · intro x hx y hy hne
    exact absurd ((mem_singleton.mp hx).trans (mem_singleton.mp hy).symm) hne

/-- The sources of a returned reference: those of a mutable one are mutable. -/
def callSources (G : Graph Loc Lbl) (sources : BTreeSet Ref) (isMut : Bool) : List Ref :=
  if isMut then G.mutSources sources.toList else sources.toList

theorem Sound.call (h : G.Sound ν) (hsources : ∀ r ∈ sources, r ∈ G.nodes)
    (hadds : Adds G G' new (G.FromCall sources.toList
      ((new.filter (·.2.isMutable)).map (·.2.nodeIndex))
      ((new.filter (!·.2.isMutable)).map (·.2.nodeIndex)))) (hν : ∀ r ∈ G.nodes, ν' r = ν r)
    (hplace : ∀ x ∈ new, G.NewPlace ν (G.callSources sources x.2.isMutable) (fun _ => True) (ν' x.1))
    (hmut : ∀ x ∈ new, ∀ y ∈ new, x ≠ y → x.2.isMutable = true → (ν' x.1).Unrelated (ν' y.1)) : G'.Sound ν' := by
  have hlist : ∀ r ∈ sources.toList, r ∈ G.nodes := fun r hr =>
    hsources r (Std.ExtTreeSet.mem_toList.mp hr)
  have hmuts : ∀ r ∈ G.mutSources sources.toList, r ∈ G.nodes := fun r hr =>
    hlist r (mem_filter.mp hr).1
  have himm : ∀ x ∈ new, x.2.isMutable = false →
      x.2.nodeIndex ∈ (new.filter (!·.2.isMutable)).map (·.2.nodeIndex) := fun x hx hfalse =>
    mem_map.mpr ⟨x, mem_filter.mpr ⟨hx, by simp [hfalse]⟩, rfl⟩
  have hmutable : ∀ x ∈ new, x.2.isMutable = true →
      x.2.nodeIndex ∈ (new.filter (·.2.isMutable)).map (·.2.nodeIndex) := fun x hx htrue =>
    mem_map.mpr ⟨x, mem_filter.mpr ⟨hx, htrue⟩, rfl⟩
  refine h.adds hadds hν ?_ ?_
  · intro x hx
    have hpl : G.NewPlace ν (G.callSources sources x.2.isMutable) (Extension.Matches .dotStar) _ := hplace x hx
    cases hxm : x.2.isMutable with
    | true =>
      rw [hxm] at hpl
      exact (h.covers hmuts hpl (hmutable x hx hxm)).mono fun _ => .inl
    | false =>
      rw [hxm] at hpl
      exact (h.covers hlist hpl (himm x hx hxm)).mono fun _ ha => .inr (.inl ha)
  · intro x hx y hy hne p hp
    cases hxm : x.2.isMutable with
    | true => exact absurd hp (hmut x hx y hy hne hxm p).1
    | false =>
      cases hym : y.2.isMutable with
      | true => exact absurd hp (hmut y hy x hx (Ne.symm hne) hym p).2
      | false =>
        have hidx : x.2.nodeIndex ≠ y.2.nodeIndex := fun heq =>
          hne (inj_on_of_nodup_map hadds.nodup hx hy heq)
        exact ⟨.dotStar, .inr (.inr ⟨himm x hx hxm, himm y hy hym, hidx, rfl⟩), dotStar_matches p⟩

theorem Sound.renamed (h : G.Sound ν)
    (hG' : G.Renamed G' f) (hν : ∀ r ∈ G.nodes, ∀ r', Named f r r' → ν' r' = ν r) : G'.Sound ν' := by
  intro r' hr' s' hs' p hp
  obtain ⟨r, hr, hrname⟩ := hG'.mem_iff.mp hr'
  obtain ⟨s, hs, hsname⟩ := hG'.mem_iff.mp hs'
  rw [hν r hr r' hrname, hν s hs s' hsname] at hp
  obtain ⟨x, hx, hmatch⟩ := h r hr s hs p hp
  exact ⟨x, hG'.hasPath_iff.mpr ⟨r, s, hrname, hsname, hx⟩, hmatch⟩

/-! ### Runs -/

theorem wellFormed_empty : ({} : Graph Loc Lbl).WellFormed := by
  refine ⟨⟨?_, Nat.two_pow_pos 32, ?_, ?_⟩, ?_, ?_, ?_⟩ <;> simp

theorem new_spec [LinearOrder κ] (initialRefs : List (κ × Loc × Bool)) :
    Sat (Graph.new initialRefs : Except Violation (Graph Loc Lbl × BTreeMap κ Ref))
      (fun x => ∃ new, Adds {} x.1 new fun _ => False) Violation.External := by
  refine Sat.foldlM (P := fun _ (x : Graph Loc Lbl × BTreeMap κ Ref) =>
    ∃ new, Adds {} x.1 new fun _ => False) ⟨[], Adds.refl wellFormed_empty⟩ ?_
  intro done ⟨k, loc, isMut⟩ rest ⟨graph, map⟩ _ ⟨new, hadds⟩
  refine (addRef_spec hadds.wf loc isMut).bind fun x hx => ?_
  refine (Sat.require (by intro _ h; exact h)).bind fun _ _ => ?_
  exact ⟨_, hadds.append wellFormed_empty hx⟩

/-- A graph that operations have built, beside the places of its references. -/
inductive Run : Graph Loc Lbl → (Ref → Place ρ Lbl) → Prop
  /-- The parameters are pairwise unrelated. -/
  | new {κ : Type} [LinearOrder κ] {initialRefs : List (κ × Loc × Bool)} {G : Graph Loc Lbl}
      {refs : BTreeMap κ Ref} {ν : Ref → Place ρ Lbl}
      (hrun : Graph.new initialRefs = .ok (G, refs))
      (hν : ∀ r ∈ G.nodes, ∀ s ∈ G.nodes, r ≠ s → (ν r).Unrelated (ν s)) : Run G ν
  | extendByEpsilon {G G' : Graph Loc Lbl} {ν ν' : Ref → Place ρ Lbl} {μ ε : Type}
      {meter : Meter μ ε} {m m' : μ} {loc : Loc} {sources : List Ref} {isMut : Bool} {newRef : Ref}
      (h : Run G ν) (hsources : ∀ r ∈ sources, r ∈ G.nodes)
      (hrun : G.extendByEpsilon meter m loc sources isMut = .ok (newRef, G', m'))
      (hν : ∀ r ∈ G.nodes, ν' r = ν r) (hplace : G.NewPlace ν sources (· = []) (ν' newRef)) :
      Run G' ν'
  | extendByLabel {G G' : Graph Loc Lbl} {ν ν' : Ref → Place ρ Lbl} {μ ε : Type}
      {meter : Meter μ ε} {m m' : μ} {loc : Loc} {sources : List Ref} {isMut : Bool} {lbl : Lbl}
      {newRef : Ref} (h : Run G ν) (hsources : ∀ r ∈ sources, r ∈ G.nodes)
      (hrun : G.extendByLabel meter m loc sources isMut lbl = .ok (newRef, G', m'))
      (hν : ∀ r ∈ G.nodes, ν' r = ν r) (hplace : G.NewPlace ν sources (· = [lbl]) (ν' newRef)) :
      Run G' ν'
  /-- A returned reference extends a source, a mutable one a mutable source; a mutable one is
  unrelated to the others that are returned. -/
  | extendByDotStarForCall {G G' : Graph Loc Lbl} {ν ν' : Ref → Place ρ Lbl} {μ ε : Type}
      {meter : Meter μ ε} {m m' : μ} {loc : Loc} {sources : BTreeSet Ref} {mutabilities : List Bool}
      {newRefs : List Ref} (h : Run G ν) (hsources : ∀ r ∈ sources, r ∈ G.nodes)
      (hrun : G.extendByDotStarForCall meter m loc sources mutabilities = .ok (newRefs, G', m'))
      (hν : ∀ r ∈ G.nodes, ν' r = ν r)
      (hplace : ∀ (i : Nat) (r : Ref) (isMut : Bool), newRefs[i]? = some r →
        mutabilities[i]? = some isMut →
        G.NewPlace ν (G.callSources sources isMut) (fun _ => True) (ν' r))
      (hmut : ∀ (i j : Nat) (r s : Ref), newRefs[i]? = some r → newRefs[j]? = some s → i ≠ j →
        mutabilities[i]? = some true → (ν' r).Unrelated (ν' s)) :
      Run G' ν'
  | release {G G' : Graph Loc Lbl} {ν : Ref → Place ρ Lbl} {μ ε : Type} {meter : Meter μ ε}
      {m m' : μ} {r : Ref} (h : Run G ν) (hr : r ∈ G.nodes)
      (hrun : G.release meter m r = .ok (G', m')) : Run G' ν
  | releaseAll {G G' : Graph Loc Lbl} {ν ν' : Ref → Place ρ Lbl} (h : Run G ν)
      (hrun : G.releaseAll = .ok G') : Run G' ν'
  /-- The execution came by the graph that is joined into. -/
  | joinSelf {G other G' : Graph Loc Lbl} {ν ν' : Ref → Place ρ Lbl} {μ ε : Type}
      {meter : Meter μ ε} {m m' : μ} {changed : Bool} (h : Run G ν) (hother : Run other ν')
      (hrun : G.join meter m other = .ok (changed, G', m')) : Run G' ν
  /-- The execution came by the other graph, which has the same references and maybe more. -/
  | joinOther {G other G' : Graph Loc Lbl} {ν ν' : Ref → Place ρ Lbl} {μ ε : Type}
      {meter : Meter μ ε} {m m' : μ} {changed : Bool} (h : Run G ν) (hother : Run other ν')
      (hkeys : ∀ r ∈ G.nodes, r ∈ other.nodes)
      (hrun : G.join meter m other = .ok (changed, G', m')) : Run G' ν'
  | canonicalize {G G' : Graph Loc Lbl} {ν ν' : Ref → Place ρ Lbl} {remapping : BTreeMap Ref Nat}
      (h : Run G ν) (hsep : Separates remapping G) (hrun : G.canonicalize remapping = .ok G')
      (hν : ∀ r ∈ G.nodes, ∀ id : Nat, remapping[r]? = some id → ν' (.canonical id) = ν r) :
      Run G' ν'
  | refreshRefs {G G' : Graph Loc Lbl} {ν ν' : Ref → Place ρ Lbl} (h : Run G ν)
      (hrun : G.refreshRefs = .ok G')
      (hν : ∀ id, Ref.canonical id ∈ G.nodes → ν' (.fresh id) = ν (.canonical id)) : Run G' ν'

theorem releaseAll_spec (G : Graph Loc Lbl) :
    Sat G.releaseAll (fun G' => G'.WellFormed ∧ G'.nodes = ∅) Violation.External := by
  refine (?_ : Sat G.graph.clear (fun g => ∃ generation, g = { generation, next := 0, nodeWeights := ∅, edgeWeights := ∅ })
    Violation.External).bind fun g ⟨generation, hg⟩ => ?_
  · refine (Sat.unwrap (by intro _ h; exact h)).bind fun generation _ => ?_
    exact ⟨generation, rfl⟩
  · subst hg
    refine ⟨⟨⟨?_, Nat.two_pow_pos 32, ?_, ?_⟩, ?_, ?_, ?_⟩, rfl⟩ <;> simp

theorem Run.sound (h : Run G ν) : G.WellFormed ∧ G.Sound ν := by
  induction h with
  | @new κ _ initialRefs G refs ν hrun hν =>
    obtain ⟨new, hadds⟩ := (new_spec initialRefs).ok hrun
    refine ⟨hadds.wf, fun r hr s hs p hp => ?_⟩
    by_cases hrs : r = s
    · subst hrs
      exact ⟨.epsilon, (hadds.wf.self_iff hr).mpr rfl, epsilon_matches.mpr hp.self⟩
    · exact absurd hp (hν r hr s hs hrs p).1
  | extendByEpsilon _ hsources hrun hν hplace ih =>
    obtain ⟨n, _, hadds⟩ := (extendBy_spec ih.1 .epsilon _ _ _ hsources _).ok hrun
    exact ⟨hadds.wf, ih.2.extendBy hsources hadds hν hplace⟩
  | extendByLabel _ hsources hrun hν hplace ih =>
    obtain ⟨n, _, hadds⟩ := (extendBy_spec ih.1 (.label _) _ _ _ hsources _).ok hrun
    exact ⟨hadds.wf, ih.2.extendBy hsources hadds hν hplace⟩
  | extendByDotStarForCall _ hsources hrun hν hplace hmut ih =>
    obtain ⟨new, hrefs, hmutabilities, hadds⟩ := (extendByDotStarForCall_spec ih.1 _ _ _ hsources _).ok hrun
    subst hrefs
    subst hmutabilities
    refine ⟨hadds.wf, ih.2.call hsources hadds hν ?_ ?_⟩
    · intro x hx
      obtain ⟨i, hi⟩ := getElem?_of_mem hx
      exact hplace i x.1 x.2.isMutable (by simp [hi]) (by simp [hi])
    · intro x hx y hy hne hxm
      obtain ⟨i, hi⟩ := getElem?_of_mem hx
      obtain ⟨j, hj⟩ := getElem?_of_mem hy
      refine hmut i j x.1 y.1 (by simp [hi]) (by simp [hj]) ?_ (by simp [hi, hxm])
      intro hij
      subst hij
      exact hne (Option.some.inj (hi.symm.trans hj))
  | @release G G' ν μ ε meter m m' r _ hr hrun ih =>
    obtain ⟨hwf, hnodes, hpaths⟩ := (release_spec ih.1 meter m hr).ok hrun
    refine ⟨hwf, fun s hs t ht p hp => ?_⟩
    obtain ⟨n, hn⟩ := mem_iff_get.mp hs
    obtain ⟨n', hn'⟩ := mem_iff_get.mp ht
    obtain ⟨hsr, hn⟩ := (hnodes s n).mp hn
    obtain ⟨htr, hn'⟩ := (hnodes t n').mp hn'
    obtain ⟨x, hx, hmatch⟩ := ih.2 s (mem_of_get hn) t (mem_of_get hn') p hp
    exact ⟨x, (hpaths s t x).mpr ⟨hsr, htr, hx⟩, hmatch⟩
  | @releaseAll G G' ν ν' _ hrun ih =>
    obtain ⟨hwf, hnodes⟩ := (releaseAll_spec G).ok hrun
    refine ⟨hwf, fun r hr => ?_⟩
    rw [hnodes] at hr
    exact absurd hr Std.ExtTreeMap.not_mem_empty
  | joinSelf _ _ hrun ih ihother =>
    obtain ⟨hwf, hnodes, _, hpaths⟩ := (join_spec ih.1 ihother.1 _ _).ok hrun
    refine ⟨hwf, fun r hr s hs p hp => ?_⟩
    rw [hnodes] at hr hs
    obtain ⟨x, hx, hmatch⟩ := ih.2 r hr s hs p hp
    exact ⟨x, (hpaths r s x).mpr (.inl hx), hmatch⟩
  | joinOther _ _ hkeys hrun ih ihother =>
    obtain ⟨hwf, hnodes, _, hpaths⟩ := (join_spec ih.1 ihother.1 _ _).ok hrun
    refine ⟨hwf, fun r hr s hs p hp => ?_⟩
    rw [hnodes] at hr hs
    obtain ⟨x, hx, hmatch⟩ := ihother.2 r (hkeys r hr) s (hkeys s hs) p hp
    exact ⟨x, (hpaths r s x).mpr (.inr ⟨hr, hs, hx⟩), hmatch⟩
  | canonicalize _ hsep hrun hν ih =>
    have hrenamed := (canonicalize_spec ih.1 hsep).ok hrun
    refine ⟨hrenamed.wf, ih.2.renamed hrenamed fun r hr r' hname => ?_⟩
    obtain ⟨id, id', rfl, hid, rfl⟩ := named_canonicalize hname
    exact hν _ hr id' hid
  | refreshRefs _ hrun hν ih =>
    have hrenamed := (refreshRefs_spec ih.1).ok hrun
    refine ⟨hrenamed.wf, ih.2.renamed hrenamed fun r hr r' hname => ?_⟩
    obtain ⟨id, rfl, rfl⟩ := named_refresh hname
    exact hν id hr

/-! ### The internal error branches -/

/-- No operation on the graph, for references of it, reaches an internal error branch. -/
structure NoInternalError (ρ : Type) (G : Graph Loc Lbl) : Prop where
  extendByEpsilon : ∀ {μ ε : Type} (meter : Meter μ ε) (m : μ) (loc : Loc) (sources : List Ref)
    (isMut : Bool), (∀ r ∈ sources, r ∈ G.nodes) →
    ∀ v, G.extendByEpsilon meter m loc sources isMut = .error (.violation v) → ¬v.Internal
  extendByLabel : ∀ {μ ε : Type} (meter : Meter μ ε) (m : μ) (loc : Loc) (sources : List Ref)
    (isMut : Bool) (lbl : Lbl), (∀ r ∈ sources, r ∈ G.nodes) →
    ∀ v, G.extendByLabel meter m loc sources isMut lbl = .error (.violation v) → ¬v.Internal
  extendByDotStarForCall : ∀ {μ ε : Type} (meter : Meter μ ε) (m : μ) (loc : Loc)
    (sources : BTreeSet Ref) (mutabilities : List Bool), (∀ r ∈ sources, r ∈ G.nodes) →
    ∀ v, G.extendByDotStarForCall meter m loc sources mutabilities = .error (.violation v) → ¬v.Internal
  release : ∀ {μ ε : Type} (meter : Meter μ ε) (m : μ), ∀ r ∈ G.nodes,
    ∀ v, G.release meter m r = .error (.violation v) → ¬v.Internal
  releaseAll : ∀ v, G.releaseAll = .error v → ¬v.Internal
  borrowedBy : ∀ {μ ε : Type} (meter : Meter μ ε) (m : μ), ∀ r ∈ G.nodes,
    ∀ v, G.borrowedBy meter m r = .error (.violation v) → ¬v.Internal
  borrowsFrom : ∀ {μ ε : Type} (meter : Meter μ ε) (m : μ), ∀ r ∈ G.nodes,
    ∀ v, G.borrowsFrom meter m r = .error (.violation v) → ¬v.Internal
  join : ∀ {μ ε : Type} (meter : Meter μ ε) (m : μ) (other : Graph Loc Lbl)
    (ν' : Ref → Place ρ Lbl), Run other ν' →
    ∀ v, G.join meter m other = .error (.violation v) → ¬v.Internal
  canonicalize : ∀ remapping : BTreeMap Ref Nat, Separates remapping G →
    ∀ v, G.canonicalize remapping = .error v → ¬v.Internal
  refreshRefs : ∀ v, G.refreshRefs = .error v → ¬v.Internal

theorem WellFormed.noInternalError (h : G.WellFormed) : G.NoInternalError ρ where
  extendByEpsilon meter m loc _ isMut hsources _ hv :=
    (extendBy_spec h .epsilon meter m loc hsources isMut).error hv
  extendByLabel meter m loc _ isMut lbl hsources _ hv :=
    (extendBy_spec h (.label lbl) meter m loc hsources isMut).error hv
  extendByDotStarForCall meter m loc _ mutabilities hsources _ hv :=
    (extendByDotStarForCall_spec h meter m loc hsources mutabilities).error hv
  release meter m _ hr _ hv := (release_spec h meter m hr).error hv
  releaseAll _ hv := (releaseAll_spec G).error hv
  borrowedBy meter m _ hr _ hv := (borrowedBy_spec h meter m hr).error hv
  borrowsFrom meter m _ hr _ hv := (borrowsFrom_spec h meter m hr).error hv
  join meter m _ _ hother _ hv := (join_spec h hother.sound.1 meter m).error hv
  canonicalize _ hsep _ hv := (canonicalize_spec h hsep).error hv
  refreshRefs _ hv := (refreshRefs_spec h).error hv

/-- After every run of operations: whenever a live reference concretely extends another one, the
edge between them exists and one of its regexes matches the path; the edge of a reference to
itself is exactly epsilon; and no internal error branch can be reached, by an operation on the
graph or by building a graph. -/
theorem run_sound {G : Graph Loc Lbl} {ν : Ref → Place ρ Lbl} (h : Run G ν) :
    (∀ r ∈ G.nodes, ∀ s ∈ G.nodes, ∀ p, (ν r).Extends (ν s) p →
      ∃ x, G.HasPath r s x ∧ x.Matches p) ∧
    (∀ r ∈ G.nodes, ∀ x, G.HasPath r r x ↔ x = .epsilon) ∧
    G.NoInternalError ρ ∧
    ∀ {κ : Type} [LinearOrder κ] (initialRefs : List (κ × Loc × Bool)) (v : Violation),
      (Graph.new initialRefs : Except Violation (Graph Loc Lbl × BTreeMap κ Ref)) = .error v → ¬v.Internal := by
  obtain ⟨hwf, hsound⟩ := h.sound
  refine ⟨hsound, fun r hr x => hwf.self_iff hr, hwf.noInternalError, ?_⟩
  intro κ _ initialRefs v hv
  exact (new_spec initialRefs).error hv

/-- A meter that never stops an operation. -/
def dummyMeter : Meter Unit Unit := ⟨fun _ _ => .ok (), fun _ _ => .ok ()⟩

/-- The graph of one parameter. -/
def oneParameter : Except Violation (Graph Unit Nat × BTreeMap Nat Ref) :=
  Graph.new [(0, (), true)]

/-- A parameter and one of its fields. -/
theorem run_sound_field : ∃ (G : Graph Unit Nat) (ν : Ref → Place Nat Nat), Run G ν ∧
    (ν (.fresh 0)).Extends (ν (.fresh 1)) [7] ∧ ∃ x, G.HasPath (.fresh 0) (.fresh 1) x ∧ x.Matches [7] := by
  obtain ⟨⟨G, refs⟩, hnew, hkeys⟩ := exists_of_check
    (x := oneParameter) (p := fun x => x.1.nodes.keys == [.fresh 0]) (by decide)
  have hmem : ∀ r, r ∈ G.nodes ↔ r = .fresh 0 := by
    intro r
    rw [← Std.ExtTreeMap.mem_keys, eq_of_beq hkeys, mem_singleton]
  obtain ⟨⟨G₁, newRef, G', m'⟩, hrun, hkeys'⟩ := exists_of_check
    (x := do
      let (G, _) ← Failure.check oneParameter
      let x ← G.extendByLabel dummyMeter () () [.fresh 0] true 7
      return (G, x))
    (p := fun x => x.2.1 == .fresh 1 && x.2.2.1.nodes.keys == [.fresh 0, .fresh 1]) (by decide)
  rw [Bool.and_eq_true] at hkeys'
  obtain ⟨hnewRef, hkeys'⟩ := hkeys'
  rw [hnew] at hrun
  obtain ⟨x, hx, hrun⟩ := bind_eq_ok.mp hrun
  cases hx
  obtain ⟨y, hextend, hpure⟩ := bind_eq_ok.mp hrun
  cases hpure
  cases eq_of_beq hnewRef
  let ν : Ref → Place Nat Nat := fun r => if r = .fresh 1 then ⟨0, [7]⟩ else ⟨0, []⟩
  have hν : (ν (.fresh 0)).Extends (ν (.fresh 1)) [7] := ⟨rfl, rfl⟩
  have hparam : Run G ν := by
    refine .new hnew fun r hr s hs hrs => ?_
    exact absurd (((hmem r).mp hr).trans ((hmem s).mp hs).symm) hrs
  have hfield : Run G' ν := by
    refine .extendByLabel hparam ?_ hextend (fun _ _ => rfl) (.inl ⟨.fresh 0, by simp, [7], rfl, hν⟩)
    intro r hr
    exact (hmem r).mpr (mem_singleton.mp hr)
  have hmem' : ∀ r ∈ [Ref.fresh 0, .fresh 1], r ∈ G'.nodes := by
    intro r hr
    rw [← Std.ExtTreeMap.mem_keys, eq_of_beq hkeys']
    exact hr
  exact ⟨G', ν, hfield, hν, (run_sound hfield).1 _ (hmem' _ (by simp)) _ (hmem' _ (by simp)) [7] hν⟩

end Graph

end Sui.Move.BorrowGraph
