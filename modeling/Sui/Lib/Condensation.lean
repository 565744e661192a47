import Mathlib

/-! Induction over the components of a graph.

One vertex is below another when it leads there and not back. With finitely many vertices
that have an edge, what holds of a vertex whenever it holds of those below it holds of all
(`below_induction`). -/
namespace Sui.Lib

open Relation (ReflTransGen)

variable {N : Type} (E : N → N → Prop)

/-- A strongly connected component. -/
def Together (u v : N) : Prop := ReflTransGen E u v ∧ ReflTransGen E v u

/-- A component that comes strictly before. -/
def Below (u v : N) : Prop := ReflTransGen E u v ∧ ¬ ReflTransGen E v u

variable {E}

theorem Below.trans (huv : Below E u v) (hvw : Below E v w) : Below E u w :=
  ⟨huv.1.trans hvw.1, fun hwu => hvw.2 (hwu.trans huv.1)⟩

theorem Together.or_below (h : ReflTransGen E u v) : Together E u v ∨ Below E u v := by
  by_cases hback : ReflTransGen E v u
  · exact .inl ⟨h, hback⟩
  · exact .inr ⟨h, hback⟩

/-- A vertex that leads elsewhere has an edge. -/
theorem Below.source (h : Below E u v) : ∃ w, E u w := by
  rcases ReflTransGen.cases_head h.1 with rfl | ⟨w, hw, -⟩
  · exact absurd .refl h.2
  · exact ⟨w, hw⟩

/-- Induction over the vertices in the order of their components. -/
theorem below_induction (hfin : {u | ∃ v, E u v}.Finite) {P : N → Prop}
    (step : ∀ v, (∀ u, Below E u v → P u) → P v) (v : N) : P v := by
  classical
  -- The number of vertices below decreases.
  have hcard : ∀ n v, (hfin.toFinset.filter (Below E · v)).card ≤ n → P v := by
    intro n
    induction n with
    | zero =>
      intro v hn
      refine step v fun u hu => ?_
      have hmem : u ∈ hfin.toFinset.filter (Below E · v) :=
        Finset.mem_filter.mpr ⟨hfin.mem_toFinset.mpr hu.source, hu⟩
      rw [Finset.card_eq_zero.mp (Nat.le_zero.mp hn)] at hmem
      exact absurd hmem (Finset.notMem_empty u)
    | succ n ih =>
      intro v hn
      refine step v fun u hu => ih u (Nat.le_of_lt_succ (lt_of_lt_of_le ?_ hn))
      refine Finset.card_lt_card ⟨fun w hw => ?_, fun hsub => ?_⟩
      · obtain ⟨hw, hwu⟩ := Finset.mem_filter.mp hw
        exact Finset.mem_filter.mpr ⟨hw, hwu.trans hu⟩
      · have hmem := hsub (Finset.mem_filter.mpr ⟨hfin.mem_toFinset.mpr hu.source, hu⟩)
        exact (Finset.mem_filter.mp hmem).2.2 .refl
  exact hcard _ v le_rfl

end Sui.Lib
