import Mathlib

/-! Merkle trees over sorted leaves, as a library offers them.

A proof that a value is not among the leaves shows the two leaves between which it would
be. `Brackets` says that it would; `Brackets.exists_key_iff` is what follows for a key by
which the leaves are sorted: the leaves with the value's key are among the two.

`Merkle` has the functions of a library, `Merkle.Sound` what its proofs show, and
`Merkle.Complete` that there is one for what holds. `Merkle.ideal` has the leaves for a
root. -/
namespace Sui.Lib

open List

variable {α : Type} [LinearOrder α]

/-- Neighbouring leaves around a value, or the first or last leaf. -/
structure Brackets (leaves : List α) (value : α) (left right : Option α) : Prop where
  split : ∃ before after, leaves = before ++ left.toList ++ right.toList ++ after ∧
    (left = none → before = []) ∧ (right = none → after = [])
  left_lt : ∀ leaf ∈ left, leaf < value
  lt_right : ∀ leaf ∈ right, value < leaf

namespace Brackets
variable {leaves : List α} {value leaf : α} {left right : Option α}

section
variable (h : Brackets leaves value left right)
include h

theorem left_mem (hl : leaf ∈ left) : leaf ∈ leaves := by
  obtain ⟨before, after, rfl, -, -⟩ := h.split
  simp [Option.mem_toList.mpr hl]

theorem right_mem (hr : leaf ∈ right) : leaf ∈ leaves := by
  obtain ⟨before, after, rfl, -, -⟩ := h.split
  simp [Option.mem_toList.mpr hr]

/-- Every leaf is at or before the left one, or at or after the right one. -/
theorem le_or_le (hsorted : leaves.Pairwise (· < ·))
    (hleaf : leaf ∈ leaves) : (∃ l ∈ left, leaf ≤ l) ∨ ∃ r ∈ right, r ≤ leaf := by
  obtain ⟨before, after, rfl, hbefore, hafter⟩ := h.split
  rw [append_assoc, pairwise_append] at hsorted
  obtain ⟨hstart, hend, -⟩ := hsorted
  rw [append_assoc] at hleaf
  rcases mem_append.mp hleaf with hleaf | hleaf
  · left
    cases left with
    | none =>
      rw [hbefore rfl] at hleaf
      simp at hleaf
    | some l =>
      refine ⟨l, rfl, ?_⟩
      rcases mem_append.mp hleaf with hleaf | hleaf
      · exact ((pairwise_append.mp hstart).2.2 leaf hleaf l (by simp)).le
      · exact (mem_singleton.mp hleaf).le
  · right
    cases right with
    | none =>
      rw [hafter rfl] at hleaf
      simp at hleaf
    | some r =>
      refine ⟨r, rfl, ?_⟩
      rcases mem_append.mp hleaf with hleaf | hleaf
      · exact (mem_singleton.mp hleaf).ge
      · exact ((pairwise_append.mp hend).2.2 r (by simp) leaf hleaf).le

end

/-- With leaves sorted by a key, those with the value's key are its neighbours. -/
theorem exists_key_iff [PartialOrder κ] {key : α → κ} (hkey : Monotone key)
    (h : Brackets leaves value left right) (hsorted : leaves.Pairwise (· < ·)) :
    (∃ leaf ∈ leaves, key leaf = key value) ↔
      (∃ leaf ∈ left, key leaf = key value) ∨ ∃ leaf ∈ right, key leaf = key value := by
  constructor
  · intro ⟨leaf, hleaf, heq⟩
    rcases h.le_or_le hsorted hleaf with ⟨l, hl, hle⟩ | ⟨r, hr, hle⟩
    · refine .inl ⟨l, hl, le_antisymm (hkey (h.left_lt l hl).le) ?_⟩
      exact heq ▸ hkey hle
    · refine .inr ⟨r, hr, le_antisymm ?_ (hkey (h.lt_right r hr).le)⟩
      exact heq ▸ hkey hle
  · intro hnear
    rcases hnear with ⟨l, hl, heq⟩ | ⟨r, hr, heq⟩
    · exact ⟨l, h.left_mem hl, heq⟩
    · exact ⟨r, h.right_mem hr, heq⟩

/-- The last leaf before a value and the first one after it. -/
theorem of_sorted (hsorted : leaves.Pairwise (· < ·)) (hvalue : value ∉ leaves) :
    Brackets leaves value (leaves.filter (· < value)).getLast? (leaves.filter (value < ·)).head? := by
  have hsplit : leaves = leaves.filter (· < value) ++ leaves.filter (value < ·) := by
    induction leaves with
    | nil => rfl
    | cons first rest ih =>
      rw [pairwise_cons] at hsorted
      rw [mem_cons, not_or] at hvalue
      rcases lt_or_gt_of_ne hvalue.1 with hlt | hgt
      · -- Everything after the first leaf above the value is above it.
        have hrest : ∀ leaf ∈ rest, value < leaf := fun leaf hleaf => hlt.trans (hsorted.1 leaf hleaf)
        rw [filter_cons_of_neg (by simpa using hlt.le), filter_cons_of_pos (by simpa using hlt),
          filter_eq_nil_iff.mpr fun leaf hleaf => by simpa using (hrest leaf hleaf).le,
          filter_eq_self.mpr fun leaf hleaf => by simpa using hrest leaf hleaf]
        rfl
      · rw [filter_cons_of_pos (by simpa using hgt), filter_cons_of_neg (by simpa using hgt.le),
          cons_append, ← ih hsorted.2 hvalue.2]
  have hlast : ∀ l : List α, l.dropLast ++ l.getLast?.toList = l := by
    intro l
    cases hl : l.getLast? with
    | none =>
      rw [getLast?_eq_none_iff.mp hl]
      rfl
    | some last => exact dropLast_append_getLast? last hl
  have hhead : ∀ l : List α, l.head?.toList ++ l.tail = l := fun l => by cases l <;> rfl
  refine ⟨?_, ?_, ?_⟩
  · refine ⟨(leaves.filter (· < value)).dropLast, (leaves.filter (value < ·)).tail, ?_, ?_, ?_⟩
    · rw [hlast, append_assoc, hhead]
      exact hsplit
    · intro hnone
      rw [getLast?_eq_none_iff.mp hnone]
      rfl
    · intro hnone
      rw [head?_eq_none_iff.mp hnone]
      rfl
  · intro leaf hleaf
    simpa using (mem_filter.mp (mem_of_getLast? hleaf)).2
  · intro leaf hleaf
    simpa using (mem_filter.mp (mem_of_head? hleaf)).2

end Brackets

/-- The functions of a library of Merkle trees, with roots of type `δ`. -/
structure Merkle (α δ : Type) where
  Proof : Type
  NonInclusionProof : Type
  root : List α → Option δ
  getProof : List α → Nat → Option Proof
  verifyProof : Proof → δ → α → Nat → Bool
  computeNonInclusionProof : List α → α → Option NonInclusionProof
  verifyNonInclusionProof : NonInclusionProof → δ → α → Bool
  leftLeaf : NonInclusionProof → Option α
  rightLeaf : NonInclusionProof → Option α

namespace Merkle
variable {δ : Type}

structure Sound (merkle : Merkle α δ) : Prop where
  inclusion : ∀ leaves root proof leaf index, merkle.root leaves = some root →
    merkle.verifyProof proof root leaf index = true → leaves[index]? = some leaf
  nonInclusion : ∀ leaves root proof leaf, leaves.Pairwise (· < ·) → merkle.root leaves = some root →
    merkle.verifyNonInclusionProof proof root leaf = true →
    Brackets leaves leaf (merkle.leftLeaf proof) (merkle.rightLeaf proof)

structure Complete (merkle : Merkle α δ) : Prop where
  root : ∀ leaves, ∃ root, merkle.root leaves = some root
  inclusion : ∀ leaves root leaf index, merkle.root leaves = some root →
    leaves[index]? = some leaf → ∃ proof, merkle.getProof leaves index = some proof ∧
      merkle.verifyProof proof root leaf index = true
  nonInclusion : ∀ leaves root leaf, leaves.Pairwise (· < ·) → merkle.root leaves = some root →
    leaf ∉ leaves → ∃ proof, merkle.computeNonInclusionProof leaves leaf = some proof ∧
      merkle.verifyNonInclusionProof proof root leaf = true

/-- The root shows the leaves. -/
def ideal (α : Type) [LinearOrder α] : Merkle α (List α) where
  Proof := Unit
  NonInclusionProof := Option α × Option α
  root leaves := some leaves
  getProof leaves index := if index < leaves.length then some () else none
  verifyProof _ root leaf index := root[index]? = some leaf
  computeNonInclusionProof leaves leaf :=
    if leaf ∈ leaves then none
    else some ((leaves.filter (· < leaf)).getLast?, (leaves.filter (leaf < ·)).head?)
  verifyNonInclusionProof proof root leaf :=
    leaf ∉ root ∧
      proof = ((root.filter (· < leaf)).getLast?, (root.filter (leaf < ·)).head?)
  leftLeaf proof := proof.1
  rightLeaf proof := proof.2

theorem ideal_sound : (ideal α).Sound where
  inclusion leaves root proof leaf index hroot hverify := by
    cases hroot
    exact of_decide_eq_true hverify
  nonInclusion leaves root proof leaf hsorted hroot hverify := by
    cases hroot
    simp only [ideal, decide_eq_true_eq] at hverify
    obtain ⟨hleaf, rfl⟩ := hverify
    exact Brackets.of_sorted hsorted hleaf

theorem ideal_complete : (ideal α).Complete where
  root leaves := ⟨leaves, rfl⟩
  inclusion leaves root leaf index hroot hleaf := by
    cases hroot
    obtain ⟨hindex, -⟩ := List.getElem?_eq_some_iff.mp hleaf
    exact ⟨(), if_pos hindex, decide_eq_true hleaf⟩
  nonInclusion leaves root leaf _ hroot hleaf := by
    cases hroot
    exact ⟨_, if_neg hleaf, decide_eq_true ⟨hleaf, rfl⟩⟩

end Merkle

end Sui.Lib
