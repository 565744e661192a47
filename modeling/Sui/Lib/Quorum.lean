import Mathlib

/-! Weighted quorums.

A voting system is a finite set of members with natural weights. Two groups whose
weights add up to more than the whole plus `f` share a member outside any set of
weight at most `f`; every use of a quorum in an agreement argument is one of the
lemmas below. Members outside the voting system are allowed as long as they weigh
nothing, so that a group may be any finite set of names. -/
namespace Sui.Lib

open Finset

variable {α : Type*}

/-- The weight of a group. -/
def weight (w : α → ℕ) (s : Finset α) : ℕ := ∑ a ∈ s, w a

@[simp] theorem weight_empty (w : α → ℕ) : weight w ∅ = 0 := sum_empty

theorem weight_mono (w : α → ℕ) (h : s ⊆ t) : weight w s ≤ weight w t :=
  sum_le_sum_of_subset h

/-- Members outside `members` weigh nothing. -/
def Supported (w : α → ℕ) (members : Finset α) : Prop := ∀ a, a ∉ members → w a = 0

variable [DecidableEq α]

section
variable (w : α → ℕ)
include w

theorem weight_insert (h : a ∉ s) : weight w (insert a s) = w a + weight w s := sum_insert h

theorem weight_union_add_inter (s t : Finset α) : weight w (s ∪ t) + weight w (s ∩ t) = weight w s + weight w t :=
  sum_union_inter

theorem weight_sdiff_add_inter (s t : Finset α) : weight w (s \ t) + weight w (s ∩ t) = weight w s := by
  rw [add_comm]
  exact sum_inter_add_sum_sdiff s t w

/-- Counting members of a list with repetition counts at least its group. -/
theorem weight_toFinset_le (l : List α) : weight w l.toFinset ≤ (l.map w).sum := by
  induction l with
  | nil => exact le_rfl
  | cons a rest ih =>
    rw [List.toFinset_cons, List.map_cons, List.sum_cons]
    by_cases h : a ∈ rest.toFinset
    · rw [insert_eq_of_mem h]
      omega
    · rw [weight_insert w h]
      omega

end

section Intersection
variable {w : α → ℕ} {members : Finset α} (hw : Supported w members)
include hw

theorem weight_le_members (s : Finset α) : weight w s ≤ weight w members := by
  have h : weight w (s ∩ members) = weight w s := by
    refine sum_subset inter_subset_left fun a ha hn => hw a fun hm => hn ?_
    exact mem_inter.mpr ⟨ha, hm⟩
  rw [← h]
  exact weight_mono w inter_subset_right

/-- Two groups overlap in at least what their weights exceed the whole by. -/
theorem weight_inter_ge (s t : Finset α) : weight w s + weight w t ≤ weight w members + weight w (s ∩ t) := by
  rw [← weight_union_add_inter]
  exact Nat.add_le_add_right (weight_le_members hw _) _

/-- The part of an overlap outside a light set is still heavy. -/
theorem weight_inter_sdiff_ge (s t faulty : Finset α) (hf : weight w faulty ≤ f) :
    weight w s + weight w t ≤ weight w members + f + weight w ((s ∩ t) \ faulty) := by
  have h1 := weight_inter_ge hw s t
  have h2 := weight_sdiff_add_inter w (s ∩ t) faulty
  have h3 := weight_mono w (inter_subset_right : (s ∩ t) ∩ faulty ⊆ faulty)
  omega

/-- **Quorum intersection**: groups that together outweigh the whole by more than
the faulty weight share a member that is not faulty. -/
theorem exists_mem_inter_not_mem (s t faulty : Finset α) (hf : weight w faulty ≤ f)
    (h : weight w members + f < weight w s + weight w t) : ∃ a, a ∈ s ∧ a ∈ t ∧ a ∉ faulty := by
  have hpos : 0 < weight w ((s ∩ t) \ faulty) := by
    have := weight_inter_sdiff_ge hw s t faulty hf
    omega
  obtain ⟨a, ha, _⟩ := exists_ne_zero_of_sum_ne_zero (Nat.pos_iff_ne_zero.mp hpos)
  rw [mem_sdiff, mem_inter] at ha
  exact ⟨a, ha.1.1, ha.1.2, ha.2⟩

end Intersection

end Sui.Lib
