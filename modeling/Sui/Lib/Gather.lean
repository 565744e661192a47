import Mathlib.Data.List.Basic

/-! Loops that gather.

A step that leaves what a state holds in place and adds the elements of a set is described by
`Gathers`; steps in sequence, and the iterations of a loop, add the union of their sets. -/
namespace Sui.Lib

variable {σ α β : Type}

/-- The state keeps `Ok` and holds, besides what it did, the elements that satisfy `P`. -/
structure Gathers (Ok : σ → Prop) (Has : σ → α → Prop) (s s' : σ) (P : α → Prop) : Prop where
  ok : Ok s'
  has : ∀ a, Has s' a ↔ Has s a ∨ P a

namespace Gathers
variable {Ok : σ → Prop} {Has : σ → α → Prop} {s s' s'' : σ} {P Q : α → Prop}

theorem refl (h : Ok s) : Gathers Ok Has s s fun _ => False :=
  ⟨h, fun _ => by rw [or_false]⟩

theorem congr (h : Gathers Ok Has s s' P) (hPQ : ∀ a, P a ↔ Q a) : Gathers Ok Has s s' Q :=
  ⟨h.ok, fun a => (h.has a).trans (or_congr_right (hPQ a))⟩

theorem trans (h : Gathers Ok Has s s' P) (h' : Gathers Ok Has s' s'' Q) :
    Gathers Ok Has s s'' fun a => P a ∨ Q a :=
  ⟨h'.ok, fun a => by rw [h'.has, h.has, or_assoc]⟩

theorem foldl {f : σ → β → σ} {R : β → α → Prop} {l : List β}
    (step : ∀ t, ∀ x ∈ l, Ok t → Gathers Ok Has t (f t x) (R x)) (h : Ok s) :
    Gathers Ok Has s (l.foldl f s) fun a => ∃ x ∈ l, R x a := by
  induction l generalizing s with
  | nil => exact (refl h).congr (by simp)
  | cons x rest ih =>
    have hx := step s x (.head _) h
    have hrest := ih (fun t y hy => step t y (.tail _ hy)) hx.ok
    exact (hx.trans hrest).congr (by simp)

end Gathers

end Sui.Lib
