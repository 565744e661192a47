import Mathlib

/-! Merkle mountain ranges in a list of slots.

A slot has the root of a full tree, twice as large from slot to slot, or it is empty, for
which one value stands that is no root. `add` puts a leaf in as a binary counter counts: a
tree that finds its slot taken is joined with the one there and carried on.

What the slots say about the leaves: they are bound by a collision resistant hash
(`addAll_injective`), with no bound on their number, which the slots that are taken
determine (`leaves_addAll`). From no slots on, a slot that is taken has the tree over a block
of leaves at its place (`holds_addAll`, `Holds.get`). -/
namespace Sui.Lib.Mmr

open List

variable {α : Type} [DecidableEq α] (empty : α) (hash : α → α → α)

def add : List α → α → List α
  | [], value => [value]
  | slot :: slots, value =>
    if slot = empty then value :: slots else empty :: add slots (hash slot value)

def addAll (slots values : List α) : List α := values.foldl (add empty hash) slots

/-- The number of leaves. -/
def leaves : List α → Nat
  | [] => 0
  | slot :: slots => (if slot = empty then 0 else 1) + 2 * leaves slots

/-- The slots that are taken. -/
def taken (slots : List α) : List Bool := slots.map fun slot => decide (slot ≠ empty)

/-- No two trees have one root, and no tree has the value of an empty slot. -/
structure Binding : Prop where
  injective : ∀ left right left' right', hash left right = hash left' right' →
    left = left' ∧ right = right'
  ne_empty : ∀ left right, hash left right ≠ empty

/-- The root of the full tree over `2 ^ k` leaves. -/
def root : Nat → List α → α
  | 0, values => values.headD empty
  | k + 1, values => hash (root k (values.take (2 ^ k))) (root k (values.drop (2 ^ k)))

/-- The slots from level `k` on have the trees over the leaves, earlier ones in higher slots.
The highest slot is taken. -/
inductive Holds : Nat → List α → List α → Prop
  | nil : Holds k [] []
  | vacant : Holds (k + 1) slots values → slots ≠ [] → Holds k (empty :: slots) values
  | full : Holds (k + 1) slots values → block.length = 2 ^ k → root empty hash k block ≠ empty →
      Holds k (root empty hash k block :: slots) (values ++ block)

variable {empty hash} {slots slots' : List α} {value value' : α} {values values' : List α}

theorem leaves_add (h : Binding empty hash) (slots : List α) (hv : value ≠ empty) :
    leaves empty (add empty hash slots value) = leaves empty slots + 1 := by
  induction slots generalizing value with
  | nil => simp [add, leaves, hv]
  | cons slot slots ih =>
    by_cases hslot : slot = empty
    · simp [add, leaves, hslot, hv]
      omega
    · simp only [add, leaves, hslot, if_false, if_true, ih (h.ne_empty slot value)]
      omega

theorem leaves_addAll (h : Binding empty hash) (hv : ∀ value ∈ values, value ≠ empty)
    (slots : List α) : leaves empty (addAll empty hash slots values) = leaves empty slots + values.length := by
  induction values generalizing slots with
  | nil => rfl
  | cons value values ih =>
    obtain ⟨hvalue, hvalues⟩ := forall_mem_cons.mp hv
    show leaves empty (addAll empty hash (add empty hash slots value) values) = _
    rw [ih hvalues, leaves_add h slots hvalue, length_cons]
    omega

theorem taken_cons_eq :
    taken empty (slot :: slots) = taken empty (slot' :: slots') ↔
      (slot = empty ↔ slot' = empty) ∧ taken empty slots = taken empty slots' := by
  simp only [taken, map_cons, cons.injEq, decide_eq_decide, ne_eq, not_iff_not]

section
variable (h : Binding empty hash)
include h

/-- Which slots are taken after an addition depends on which were taken before it only. -/
theorem taken_add
    (hv : value ≠ empty) (hv' : value' ≠ empty) (htaken : taken empty slots = taken empty slots') :
    taken empty (add empty hash slots value) = taken empty (add empty hash slots' value') := by
  induction slots generalizing slots' value value' with
  | nil =>
    cases slots' with
    | nil => simp [add, taken, hv, hv']
    | cons slot' slots' => cases htaken
  | cons slot slots ih =>
    cases slots' with
    | nil => cases htaken
    | cons slot' slots' =>
      obtain ⟨hslot, hslots⟩ := taken_cons_eq.mp htaken
      by_cases hempty : slot = empty
      · rw [add, add, if_pos hempty, if_pos (hslot.mp hempty), taken_cons_eq]
        exact ⟨iff_of_false hv hv', hslots⟩
      · rw [add, add, if_neg hempty, if_neg (mt hslot.mpr hempty), taken_cons_eq]
        exact ⟨Iff.rfl, ih (h.ne_empty slot value) (h.ne_empty slot' value') hslots⟩

/-- An addition can be undone if it is known which slots were taken. -/
theorem add_injective (htaken : taken empty slots = taken empty slots')
    (hadd : add empty hash slots value = add empty hash slots' value') : slots = slots' ∧ value = value' := by
  induction slots generalizing slots' value value' with
  | nil =>
    cases slots' with
    | nil => exact ⟨rfl, (cons.inj hadd).1⟩
    | cons slot' slots' => cases htaken
  | cons slot slots ih =>
    cases slots' with
    | nil => cases htaken
    | cons slot' slots' =>
      obtain ⟨hslot, hslots⟩ := taken_cons_eq.mp htaken
      by_cases hempty : slot = empty
      · rw [add, add, if_pos hempty, if_pos (hslot.mp hempty)] at hadd
        obtain ⟨hvalue, hrest⟩ := cons.inj hadd
        exact ⟨by rw [hempty, hslot.mp hempty, hrest], hvalue⟩
      · rw [add, add, if_neg hempty, if_neg (mt hslot.mpr hempty)] at hadd
        obtain ⟨hrest, hnode⟩ := ih hslots (cons.inj hadd).2
        obtain ⟨hleft, hright⟩ := h.injective _ _ _ _ hnode
        exact ⟨by rw [hleft, hrest], hright⟩

theorem addAll_injective_of_length
    (hv : ∀ value ∈ values, value ≠ empty) (hv' : ∀ value ∈ values', value ≠ empty)
    (hlength : values.length = values'.length) (htaken : taken empty slots = taken empty slots')
    (hadd : addAll empty hash slots values = addAll empty hash slots' values') :
    slots = slots' ∧ values = values' := by
  induction values generalizing values' slots slots' with
  | nil =>
    cases values' with
    | nil => exact ⟨hadd, rfl⟩
    | cons value' values' => cases hlength
  | cons value values ih =>
    cases values' with
    | nil => cases hlength
    | cons value' values' =>
      obtain ⟨hvalue, hvalues⟩ := forall_mem_cons.mp hv
      obtain ⟨hvalue', hvalues'⟩ := forall_mem_cons.mp hv'
      obtain ⟨hslots, hrest⟩ := ih hvalues hvalues' (Nat.succ.inj hlength) (taken_add h hvalue hvalue' htaken) hadd
      obtain ⟨hslots, hfirst⟩ := add_injective h htaken hslots
      exact ⟨hslots, by rw [hfirst, hrest]⟩

/-- The slots bind the leaves that were added to them. -/
theorem addAll_injective
    (hv : ∀ value ∈ values, value ≠ empty) (hv' : ∀ value ∈ values', value ≠ empty)
    (hadd : addAll empty hash slots values = addAll empty hash slots values') : values = values' := by
  have hlength : values.length = values'.length := by
    have hleaves := congrArg (leaves empty) hadd
    rw [leaves_addAll h hv, leaves_addAll h hv'] at hleaves
    omega
  exact (addAll_injective_of_length h hv hv' hlength rfl hadd).2

end

/-! ### Blocks of leaves -/

omit [DecidableEq α] in
theorem root_append {block block' : List α} (h : block.length = 2 ^ k) :
    root empty hash (k + 1) (block ++ block') = hash (root empty hash k block) (root empty hash k block') := by
  rw [root, ← h, take_left, drop_left]

theorem add_ne_nil : add empty hash slots value ≠ [] := by
  cases slots with
  | nil => exact cons_ne_nil _ _
  | cons slot slots =>
    unfold add
    split
    · exact cons_ne_nil _ _
    · exact cons_ne_nil _ _

section
variable (hne : ∀ left right, hash left right ≠ empty)
include hne

/-- A full tree is added as a block of leaves. -/
theorem Holds.add (h : Holds empty hash k slots values) (hblock : block.length = 2 ^ k)
    (hroot : root empty hash k block ≠ empty) :
    Holds empty hash k (add empty hash slots (root empty hash k block)) (values ++ block) := by
  induction h generalizing block with
  | nil => exact .full .nil hblock hroot
  | vacant h _ =>
    rw [Mmr.add, if_pos rfl]
    exact .full h hblock hroot
  | full h hblock' hroot' ih =>
    have hjoin : root empty hash (_ + 1) (_ ++ block) = _ := root_append hblock'
    rw [Mmr.add, if_neg hroot', ← hjoin, append_assoc]
    refine .vacant (ih ?_ ?_) add_ne_nil
    · rw [length_append, hblock, hblock', pow_succ, mul_two]
    · rw [hjoin]
      exact hne _ _

theorem holds_addAll (h : Holds empty hash 0 slots values) (hv : ∀ value ∈ values', value ≠ empty) :
    Holds empty hash 0 (addAll empty hash slots values') (values ++ values') := by
  induction values' generalizing slots values with
  | nil => rwa [append_nil]
  | cons value values' ih =>
    obtain ⟨hvalue, hvalues⟩ := forall_mem_cons.mp hv
    rw [append_cons]
    exact ih (h.add hne rfl (show root empty hash 0 [value] ≠ empty from hvalue)) hvalues

end

/-- The number of leaves in binary. -/
theorem leaves_cons (slot : α) (slots : List α) :
    leaves empty (slot :: slots) = Nat.bit (decide (slot ≠ empty)) (leaves empty slots) := by
  by_cases hslot : slot = empty
  · simp [leaves, hslot]
  · simp [leaves, hslot, Nat.bit_val, add_comm]

theorem testBit_leaves {slot : α} (h : slots[k]? = some slot) :
    (leaves empty slots).testBit k = decide (slot ≠ empty) := by
  induction slots generalizing k with
  | nil => cases h
  | cons first slots ih =>
    rw [leaves_cons]
    cases k with
    | zero =>
      cases h
      exact Nat.testBit_bit_zero _ _
    | succ k =>
      rw [Nat.testBit_bit_succ]
      exact ih h

namespace Holds
variable (h : Holds empty hash k slots values)
include h

theorem length_eq : values.length = 2 ^ k * leaves empty slots := by
  induction h with
  | nil => rfl
  | vacant _ _ ih => rw [ih, leaves, if_pos rfl, zero_add, pow_succ, mul_assoc]
  | full _ hblock hroot ih =>
    rw [length_append, ih, hblock, leaves, if_neg hroot]
    ring

theorem size_leaves : (leaves empty slots).size = slots.length := by
  induction h with
  | nil => rfl
  | vacant _ hne ih =>
    rw [leaves_cons, Nat.size_bit, ih, length_cons]
    refine Nat.bit_ne_zero_iff.mpr fun h0 => ?_
    rw [h0] at ih
    exact absurd (length_eq_zero_iff.mp ih.symm) hne
  | full _ _ hroot ih =>
    rw [leaves_cons, Nat.size_bit, ih, length_cons]
    exact Nat.bit_ne_zero_iff.mpr fun _ => decide_eq_true hroot

/-- A taken slot has the tree over a block at its place. -/
theorem get {slot : α} (hj : slots[j]? = some slot) (hslot : slot ≠ empty) :
    ∃ before block after, values = before ++ block ++ after ∧ 2 ^ (k + j + 1) ∣ before.length ∧
      block.length = 2 ^ (k + j) ∧ after.length + 2 ^ k ≤ 2 ^ (k + j) ∧ slot = root empty hash (k + j) block := by
  induction h generalizing j with
  | nil => cases hj
  | @vacant k slots values h _ ih =>
    cases j with
    | zero =>
      cases hj
      exact absurd rfl hslot
    | succ j =>
      have hk : k + 1 + j = k + (j + 1) := by omega
      have hpos := Nat.two_pow_pos k
      obtain ⟨before, block, after, hvalues, hbefore, hblock, hafter, rfl⟩ := ih hj
      rw [hk] at hbefore hblock hafter ⊢
      exact ⟨before, block, after, hvalues, hbefore, hblock, by omega, rfl⟩
  | @full k slots values block h hblock _ ih =>
    cases j with
    | zero =>
      cases hj
      refine ⟨values, block, [], (append_nil _).symm, ?_, hblock, ?_, rfl⟩
      · rw [h.length_eq]
        exact Dvd.intro _ rfl
      · simp
    | succ j =>
      have hk : k + 1 + j = k + (j + 1) := by omega
      obtain ⟨before, inner, after, rfl, hbefore, hinner, hafter, rfl⟩ := ih hj
      rw [hk] at hbefore hinner hafter ⊢
      refine ⟨before, inner, after ++ block, by simp, hbefore, hinner, ?_, rfl⟩
      rw [length_append, hblock]
      omega

end Holds

end Sui.Lib.Mmr
