import Sui.LightClient.EventStream

/-! The accumulator of an event stream.

The framework adds the root of each settlement to a vector (`addToMmr`), and the light client
folds the roots that it computes into the vector it has (`addToStream`). A zero stands for an
empty slot in both.

`event_accumulator_binary`: the vector counts the roots in binary, each slot with the tree over
its block of them; both sides compute the same; and under a collision resistant hash the vector
determines the roots that were added to it. -/
namespace Sui.LightClient

open Sui.Lib

section
variable (hashTwoToOneU256 : Nat → Nat → Nat)

/-- The framework's loop from slot `i` on, with the value it carries. -/
def addToMmrFrom (mmr : List Nat) (i cur : Nat) : List Nat :=
  if h : i < mmr.length then
    if mmr[i] = 0 then mmr.set i cur
    else addToMmrFrom (mmr.set i 0) (i + 1) (hashTwoToOneU256 mmr[i] cur)
  else mmr ++ [cur]
termination_by mmr.length - i
decreasing_by
  rw [List.length_set]
  omega

def addToMmr (newVal : Nat) (mmr : List Nat) : List Nat := addToMmrFrom hashTwoToOneU256 mmr 0 newVal

/-- The light client's loop, as a recursion over the slots. -/
def addToStream (mmr : List Nat) (newVal : Nat) : List Nat := Mmr.add 0 hashTwoToOneU256 mmr newVal

end

variable {hash : Nat → Nat → Nat}

/-- The loop leaves the slots before it alone. -/
theorem addToMmrFrom_append (passed mmr : List Nat) (cur : Nat) :
    addToMmrFrom hash (passed ++ mmr) passed.length cur = passed ++ Mmr.add 0 hash mmr cur := by
  induction mmr generalizing passed cur with
  | nil =>
    rw [addToMmrFrom, List.append_nil, dif_neg (lt_irrefl _)]
    rfl
  | cons r mmr ih =>
    have hlt : passed.length < (passed ++ r :: mmr).length := by simp
    rw [addToMmrFrom, dif_pos hlt, List.getElem_append_right le_rfl, Mmr.add]
    simp only [Nat.sub_self, List.getElem_cons_zero, List.set_append_right _ _ le_rfl, List.set_cons_zero]
    split
    · rfl
    · have hrest := ih (passed ++ [0]) (hash r cur)
      rwa [List.length_append, List.append_assoc, List.append_assoc] at hrest

theorem addToMmr_eq (newVal : Nat) (mmr : List Nat) : addToMmr hash newVal mmr = Mmr.add 0 hash mmr newVal :=
  addToMmrFrom_append [] mmr newVal

theorem foldl_addToMmr (mmr roots : List Nat) :
    roots.foldl (fun mmr root => addToMmr hash root mmr) mmr = Mmr.addAll 0 hash mmr roots := by
  simp only [addToMmr_eq]
  rfl

/-- The vector after `n` roots has the binary digits of `n` as its slots. The tree in slot `k`
is over the roots that follow the trees in higher slots. -/
theorem event_accumulator_binary (hash : Nat → Nat → Nat) (hne : ∀ left right, hash left right ≠ 0) :
    (∀ roots : List Nat, (∀ root ∈ roots, root ≠ 0) →
      (roots.foldl (fun mmr root => addToMmr hash root mmr) []).length = roots.length.size ∧
      ∀ k slot, (roots.foldl (fun mmr root => addToMmr hash root mmr) [])[k]? = some slot →
        (slot ≠ 0 ↔ roots.length.testBit k = true) ∧
        (slot ≠ 0 → slot = Mmr.root 0 hash k
          ((roots.drop (roots.length / 2 ^ (k + 1) * 2 ^ (k + 1))).take (2 ^ k)))) ∧
    (∀ mmr newVal, addToMmr hash newVal mmr = addToStream hash mmr newVal) ∧
    ((∀ left right left' right', hash left right = hash left' right' → left = left' ∧ right = right') →
      ∀ mmr roots roots' : List Nat, (∀ root ∈ roots, root ≠ 0) → (∀ root ∈ roots', root ≠ 0) →
        roots.foldl (addToStream hash) mmr = roots'.foldl (addToStream hash) mmr → roots = roots') := by
  refine ⟨fun roots hroots => ?_, fun mmr newVal => addToMmr_eq newVal mmr,
    fun hinjective mmr roots roots' h h' => Mmr.addAll_injective ⟨hinjective, hne⟩ h h'⟩
  rw [foldl_addToMmr]
  have hholds := Mmr.holds_addAll hne .nil hroots
  have hlength := hholds.length_eq
  rw [pow_zero, one_mul, List.nil_append] at hlength
  refine ⟨by rw [hlength, hholds.size_leaves], fun k slot hk => ⟨?_, fun hslot => ?_⟩⟩
  · rw [hlength, Mmr.testBit_leaves hk, decide_eq_true_iff]
  · obtain ⟨before, block, after, hsplit, ⟨c, hc⟩, hblock, hafter, rfl⟩ := hholds.get hk hslot
    rw [zero_add] at hblock hafter hc
    rw [List.nil_append, List.append_assoc] at hsplit
    -- The block and what follows it are fewer than two blocks.
    have hbefore : roots.length / 2 ^ (k + 1) * 2 ^ (k + 1) = before.length := by
      have hlt : block.length + after.length < 2 ^ (k + 1) := by omega
      rw [hsplit, List.length_append, List.length_append, hc, Nat.mul_add_div (Nat.two_pow_pos _),
        Nat.div_eq_of_lt hlt, add_zero, mul_comm]
    rw [hbefore, hsplit, List.drop_left, ← hblock, List.take_left, zero_add]

theorem event_accumulator_binary_three :
    ([5, 6, 7].foldl (fun mmr root => addToMmr (Nat.pair · · + 1) root mmr) []).length = 2 ∧
    ∀ roots : List Nat, (∀ root ∈ roots, root ≠ 0) →
      [5, 6, 7].foldl (addToStream (Nat.pair · · + 1)) [] =
        roots.foldl (addToStream (Nat.pair · · + 1)) [] → [5, 6, 7] = roots := by
  obtain ⟨hcount, -, hbinding⟩ := event_accumulator_binary (Nat.pair · · + 1) fun _ _ => Nat.succ_ne_zero _
  refine ⟨(hcount [5, 6, 7] (by decide)).1, fun roots hroots h => ?_⟩
  refine hbinding (fun _ _ _ _ heq => ?_) [] [5, 6, 7] roots (by decide) hroots h
  exact Nat.pair_eq_pair.mp (Nat.succ.inj heq)

end Sui.LightClient
