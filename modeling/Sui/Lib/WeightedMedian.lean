import Mathlib

/-! Weighted medians.

`crossing` looks through a list of weighted values for the first one with which the running
weight exceeds a bound. In a sorted list whose bad entries weigh at most the bound, and whose
good ones weigh more, the value it finds lies between two good ones (`crossing_between`). -/
namespace Sui.Lib

/-- The first value with which the running weight is more than the bound. -/
def crossing (bound : ℕ) : ℕ → List (ℕ × ℕ) → Option ℕ
  | _, [] => none
  | sum, (a, w) :: rest => if bound < sum + w then some a else crossing bound (sum + w) rest

section
variable {β : Type*} (key w : β → ℕ) {bound : ℕ} {l : List β}

/-- The entry at which the bound is exceeded. -/
theorem crossing_split (hlow : sum ≤ bound) (hhigh : bound < sum + (l.map w).sum) :
    ∃ before b after, l = before ++ b :: after ∧ sum + (before.map w).sum ≤ bound ∧
      bound < sum + (before.map w).sum + w b ∧
      crossing bound sum (l.map fun b => (key b, w b)) = some (key b) := by
  induction l generalizing sum with
  | nil => simp at hhigh; omega
  | cons b l ih =>
    simp only [List.map_cons, List.sum_cons, crossing] at hhigh ⊢
    split
    · exact ⟨[], b, l, rfl, by simpa, by simpa, rfl⟩
    · rename_i hb
      obtain ⟨before, b', after, rfl, hle, hlt, hcross⟩ := ih (Nat.le_of_not_lt hb) (by omega)
      exact ⟨b :: before, b', after, rfl, by simp; omega, by simp; omega, hcross⟩

/-- The weights of both parts. -/
theorem sum_filter_add (p : β → Bool) (l : List β) :
    ((l.filter p).map w).sum + ((l.filter fun b => !p b).map w).sum = (l.map w).sum := by
  induction l with
  | nil => rfl
  | cons b l ih => cases hp : p b <;> simp [hp] <;> omega

theorem crossing_between (bad : β → Bool) (hsorted : l.Pairwise (key · ≤ key ·))
    (hbad : ((l.filter bad).map w).sum ≤ bound) (hgood : bound < ((l.filter fun b => !bad b).map w).sum) :
    ∃ a, crossing bound 0 (l.map fun b => (key b, w b)) = some a ∧
      (∃ b ∈ l, bad b = false ∧ key b ≤ a) ∧ ∃ b ∈ l, bad b = false ∧ a ≤ key b := by
  have htotal := sum_filter_add w bad l
  obtain ⟨before, b, after, rfl, hle, hlt, hcross⟩ := crossing_split key w (l := l) (Nat.zero_le bound) (by omega)
  rw [List.pairwise_append, List.pairwise_cons] at hsorted
  refine ⟨key b, hcross, ?_, ?_⟩
  · -- Otherwise everything up to this entry is bad.
    by_contra hnone
    push Not at hnone
    have hall : ∀ x ∈ before ++ [b], bad x = true := by
      intro x hx
      by_contra hx'
      grind
    have hsum : ((before ++ b :: after).filter bad).map w = (before ++ [b]).map w ++ (after.filter bad).map w := by
      rw [List.append_cons, List.filter_append, List.filter_eq_self.mpr hall, List.map_append]
    rw [hsum] at hbad
    simp at hbad hle hlt
    omega
  · -- Otherwise everything from this entry on is bad.
    by_contra hnone
    push Not at hnone
    have hall : ∀ x ∈ b :: after, ¬(!bad x) = true := by
      intro x hx hx'
      grind
    rw [List.filter_append, List.filter_eq_nil_iff.mpr hall, List.append_nil] at hgood
    have := sum_filter_add w bad before
    omega

end

end Sui.Lib
