import Mathlib

/-! First come, first served reservations from one balance.

Requests are decided in order; one is granted exactly when the balance still covers
it on top of what was granted before (`Greedy`). A denied request takes nothing and
does not stop the ones behind it. The requests and the balance determine the
decisions (`Greedy.unique`), so two procedures that both decide greedily agree,
whatever the order in which they came to their decisions. -/
namespace Sui.Lib.Reservation

open List

structure Request where
  ticket : Nat
  amount : Nat
deriving DecidableEq, Repr

structure Decision extends Request where
  granted : Bool
deriving DecidableEq, Repr

/-- What has been granted. -/
def granted (l : List Decision) : Nat := (l.map fun d => if d.granted then d.amount else 0).sum

@[simp] theorem granted_nil : granted [] = 0 := rfl

theorem granted_append (l l' : List Decision) : granted (l ++ l') = granted l + granted l' := by
  simp [granted]

theorem granted_concat_grant (l : List Decision) (r : Request) :
    granted (l ++ [⟨r, true⟩]) = granted l + r.amount := by
  simp [granted]

theorem granted_concat_deny (l : List Decision) (r : Request) : granted (l ++ [⟨r, false⟩]) = granted l := by
  simp [granted]

/-- Each request is granted exactly when the balance covers it and the grants before it. -/
def Greedy (balance : Int) (l : List Decision) : Prop :=
  ∀ before d after, l = before ++ d :: after →
    (d.granted = true ↔ (granted before + d.amount : Nat) ≤ balance)

variable {balance : Int} {l : List Decision} {d : Decision}

theorem greedy_nil : Greedy balance [] := by
  intro before d after h
  exact absurd h.symm (append_ne_nil_of_right_ne_nil _ (cons_ne_nil _ _))

theorem Greedy.of_append (h : Greedy balance (l ++ l')) : Greedy balance l := by
  intro before d after heq
  exact h before d (after ++ l') (by rw [heq, append_assoc, cons_append])

theorem Greedy.concat (h : Greedy balance l)
    (hd : d.granted = true ↔ (granted l + d.amount : Nat) ≤ balance) : Greedy balance (l ++ [d]) := by
  intro before e after heq
  rcases eq_nil_or_concat after with rfl | ⟨after', last, rfl⟩
  · obtain ⟨rfl, hde⟩ := append_inj' heq rfl
    cases hde
    exact hd
  · rw [concat_eq_append, ← cons_append, ← append_assoc] at heq
    obtain ⟨hl, _⟩ := append_inj' heq rfl
    exact h before e after' hl

theorem Greedy.last (h : Greedy balance (l ++ [d])) : d.granted = true ↔ (granted l + d.amount : Nat) ≤ balance :=
  h l d [] rfl

/-- A greedy procedure grants no more than there is. -/
theorem Greedy.granted_le (h : Greedy balance l) : granted l ≤ balance.toNat := by
  induction l using reverseRecOn with
  | nil => exact Nat.zero_le _
  | append_singleton l d ih =>
    obtain ⟨r, grant⟩ := d
    cases grant with
    | true =>
      have hle : (granted l + r.amount : Nat) ≤ balance := h.last.mp rfl
      rw [granted_concat_grant]
      omega
    | false =>
      rw [granted_concat_deny]
      exact ih h.of_append

/-- Grants alone are greedy as long as the balance covers them together. -/
theorem Greedy.of_granted (hall : ∀ d ∈ l, d.granted = true) (hle : granted l ≤ balance) : Greedy balance l := by
  intro before d after heq
  have hd : d.granted = true := hall d (by simp [heq])
  have hsum : granted l = granted before + (d.amount + granted after) := by
    rw [heq, granted_append]
    simp [granted, hd]
  refine ⟨fun _ => by omega, fun _ => hd⟩

/-- The requests and the balance determine the decisions. -/
theorem Greedy.unique (h : Greedy balance l)
    (h' : Greedy balance l') (heq : l.map (·.toRequest) = l'.map (·.toRequest)) : l = l' := by
  induction l using reverseRecOn generalizing l' with
  | nil =>
    rw [map_nil, eq_comm, map_eq_nil_iff] at heq
    exact heq.symm
  | append_singleton l d ih =>
    rcases eq_nil_or_concat l' with rfl | ⟨l₁, e, rfl⟩
    · simp at heq
    · rw [concat_eq_append] at h' heq ⊢
      rw [map_append, map_append] at heq
      obtain ⟨hinit, hlast⟩ := append_inj' heq rfl
      have hl : l = l₁ := ih h.of_append h'.of_append hinit
      subst hl
      have hreq : d.toRequest = e.toRequest := singleton_inj.mp hlast
      have hgrant : d.granted = true ↔ e.granted = true := by
        rw [h.last, h'.last, hreq]
      have hde : d = e := by
        obtain ⟨_, gd⟩ := d
        obtain ⟨_, ge⟩ := e
        cases hreq
        cases gd <;> cases ge <;> simp_all
      rw [hde]

end Sui.Lib.Reservation
