import Sui.Move.ControlFlowGraph.Basic

/-! The basic blocks of a body.

If the jump targets are in range, every successor of a block is the start of a block,
and the blocks are inside the code (`blocks_spec`). Code whose offsets do not fit
sixteen bits has no graph (`length_lt_of_run`). -/
namespace Sui.Move

open Sui.Lib Exec List
open Instruction

variable {I J : Type} [Instruction I J] {code : List I} {jumpTables : J}

/-- Every jump goes to an instruction. -/
def TargetsInRange (code : List I) (jumpTables : J) : Prop :=
  ∀ i ∈ code, ∃ targets, offsets i jumpTables = some targets ∧ ∀ o ∈ targets, o < code.length

theorem usizeAsIndex_of_lt (h : i < 2 ^ 16) : usizeAsIndex i = i := Nat.mod_eq_of_lt h

theorem getSuccessors_spec (hlen : code.length < 2 ^ 16) (htargets : TargetsInRange code jumpTables)
    (hpc : pc < code.length) :
    ∃ i targets successors, code[pc]? = some i ∧ offsets i jumpTables = some targets ∧
      getSuccessors pc code jumpTables = .ok successors ∧
      ∀ s ∈ successors, s ∈ targets ∨ (s = pc + 1 ∧ pc + 1 < code.length) := by
  have hi : code[pc]? = some code[pc] := getElem?_eq_getElem hpc
  obtain ⟨targets, hoff, -⟩ := htargets _ (getElem_mem hpc)
  unfold getSuccessors
  rw [bind_require (by omega), bind_unwrap hi, bind_unwrap hoff, usizeAsIndex_of_lt hlen]
  by_cases hlast : code.length ≤ pc + 1
  · exact ⟨_, targets, targets, hi, hoff, if_pos hlast, fun s hs => .inl hs⟩
  · refine ⟨_, targets, _, hi, hoff, if_neg hlast, fun s hs => ?_⟩
    rw [mem_insertionSort] at hs
    split at hs
    · rcases mem_concat.mp hs with hs | hs
      · exact .inl hs
      · exact .inr ⟨hs, by omega⟩
    · exact .inl hs

namespace VMControlFlowGraph

/-! ### Block ids -/

theorem recordBlockIds_spec (code : List I) (blockIds : BTreeSet Nat)
    (hoff : offsets p.1 jumpTables = some targets) :
    ∃ blockIds', recordBlockIds code jumpTables blockIds p = .ok blockIds' ∧
      (∀ o ∈ blockIds, o ∈ blockIds') ∧ ∀ o ∈ targets, o ∈ blockIds' := by
  unfold recordBlockIds
  rw [bind_unwrap hoff]
  have hids : ∀ o, o ∈ targets.foldl (fun s o => s.insert o) blockIds ↔ o ∈ blockIds ∨ o ∈ targets :=
    fun o => BTreeSet.mem_foldl_insert blockIds targets
  split
  · refine ⟨_, rfl, fun o ho => ?_, fun o ho => ?_⟩
    · exact BTreeSet.mem_insert_iff.mpr (.inr ((hids o).mpr (.inl ho)))
    · exact BTreeSet.mem_insert_iff.mpr (.inr ((hids o).mpr (.inr ho)))
  · exact ⟨_, rfl, fun o ho => (hids o).mpr (.inl ho), fun o ho => (hids o).mpr (.inr ho)⟩

variable {l : List (I × Nat)} {blocks : BTreeMap Nat BasicBlock}

/-- The ids hold the jump targets of the instructions seen. -/
theorem recordBlockIds_foldlM (code : List I) (blockIds : BTreeSet Nat)
    (htargets : ∀ p ∈ l, ∃ targets, offsets p.1 jumpTables = some targets) :
    ∃ blockIds', l.foldlM (recordBlockIds code jumpTables) blockIds = .ok blockIds' ∧
      (∀ o ∈ blockIds, o ∈ blockIds') ∧
      ∀ p ∈ l, ∀ targets, offsets p.1 jumpTables = some targets → ∀ o ∈ targets, o ∈ blockIds' := by
  induction l generalizing blockIds with
  | nil => exact ⟨blockIds, rfl, fun _ h => h, nofun⟩
  | cons p rest ih =>
    obtain ⟨targets, hoff⟩ := htargets p (.head _)
    obtain ⟨ids₁, hrun, hkeep, hnew⟩ := recordBlockIds_spec code blockIds hoff
    obtain ⟨ids₂, hrun', hkeep', hnew'⟩ := ih ids₁ fun q hq => htargets q (.tail _ hq)
    refine ⟨ids₂, foldlM_cons_eq_ok.mpr ⟨ids₁, hrun, hrun'⟩, fun o ho => hkeep' o (hkeep o ho),
      fun q hq targets' hoff' o ho => ?_⟩
    rcases mem_cons.mp hq with rfl | hq
    · cases hoff.symm.trans hoff'
      exact hkeep' o (hnew o ho)
    · exact hnew' q hq targets' hoff' o ho

variable {blockIds : BTreeSet Nat}

theorem entry_mem_blockIds (h : l.foldlM (recordBlockIds code jumpTables) blockIds = .ok blockIds')
    (hmem : entryBlockId ∈ blockIds) : entryBlockId ∈ blockIds' := by
  refine foldlM_inv (P := fun ids => entryBlockId ∈ ids) (fun s p s' _ hs hrun => ?_) hmem h
  obtain ⟨targets, -, hrest⟩ := bind_eq_ok.mp hrun
  have hids : entryBlockId ∈ targets.foldl (fun s o => s.insert o) s :=
    (BTreeSet.mem_foldl_insert s targets).mpr (.inl hs)
  split at hrest
  · cases hrest
    exact BTreeSet.mem_insert_iff.mpr (.inr hids)
  · cases hrest
    exact hids

/-! ### Blocks -/

/-- The blocks that end before `pc`; the next one starts at `entry`. -/
structure BlocksBefore (code : List I) (jumpTables : J) (blockIds : BTreeSet Nat) (pc : Nat)
    (blocks : BTreeMap Nat BasicBlock) (entry : Nat) : Prop where
  entry_le : entry ≤ pc
  starts : entry = 0 ∨ isEndOfBlock (entry - 1) code blockIds = true
  no_end : ∀ q, entry ≤ q → q < pc → isEndOfBlock q code blockIds = false
  keys : ∀ e, e ∈ blocks ↔ e < entry ∧ (e = 0 ∨ isEndOfBlock (e - 1) code blockIds = true)
  block : ∀ (e : Nat) (bb : BasicBlock), blocks[e]? = some bb → e ≤ bb.exit ∧ bb.exit < pc ∧
    isEndOfBlock bb.exit code blockIds = true ∧
    getSuccessors bb.exit code jumpTables = .ok bb.successors

theorem addBlock_spec (hlen : code.length < 2 ^ 16) (htargets : TargetsInRange code jumpTables)
    (hpc : pc < code.length) (h : BlocksBefore code jumpTables blockIds pc blocks entry) :
    ∃ blocks' entry', addBlock code jumpTables blockIds (blocks, entry) pc = .ok (blocks', entry') ∧
      BlocksBefore code jumpTables blockIds (pc + 1) blocks' entry' := by
  unfold addBlock
  cases hend : isEndOfBlock pc code blockIds with
  | false =>
    rw [if_neg (by simp)]
    refine ⟨blocks, entry, rfl, Nat.le_succ_of_le h.entry_le, h.starts, fun q hq hlt => ?_, h.keys,
      fun e bb hbb => ?_⟩
    · rcases Nat.lt_succ_iff_lt_or_eq.mp hlt with hlt | rfl
      · exact h.no_end q hq hlt
      · exact hend
    · obtain ⟨hle, hlt, hrest⟩ := h.block e bb hbb
      exact ⟨hle, Nat.lt_succ_of_lt hlt, hrest⟩
  | true =>
    obtain ⟨_, _, successors, -, -, hrun, -⟩ := getSuccessors_spec hlen htargets hpc
    have hentry := h.entry_le
    rw [if_pos rfl, usizeAsIndex_of_lt (by omega), usizeAsIndex_of_lt (show entry < 2 ^ 16 by omega)]
    refine ⟨blocks.insert entry ⟨pc, successors⟩, pc + 1, ?_, le_rfl, .inr hend,
      fun q hq hlt => by omega, fun e => ?_, fun e bb hbb => ?_⟩
    · rw [bind_ok hrun]
      rfl
    · rw [BTreeMap.mem_insert_iff, h.keys e]
      constructor
      · intro hor
        rcases hor with rfl | ⟨hlt, hstart⟩
        · exact ⟨Nat.lt_succ_of_le hentry, h.starts⟩
        · exact ⟨by omega, hstart⟩
      · intro ⟨hlt, hstart⟩
        -- No block starts between the open one and `pc`.
        rcases Nat.lt_trichotomy e entry with hcmp | heq | hcmp
        · exact .inr ⟨hcmp, hstart⟩
        · exact .inl heq.symm
        · have hno := h.no_end (e - 1) (by omega) (by omega)
          rcases hstart with hzero | hstart
          · omega
          · rw [hno] at hstart
            cases hstart
    · rcases BTreeMap.insert_eq_some.mp hbb with ⟨heq, rfl⟩ | ⟨-, hbb⟩
      · exact ⟨heq ▸ hentry, Nat.lt_succ_self _, hend, hrun⟩
      · obtain ⟨hle, hlt, hrest⟩ := h.block e bb hbb
        exact ⟨hle, Nat.lt_succ_of_lt hlt, hrest⟩

theorem addBlock_foldlM (hlen : code.length < 2 ^ 16) (htargets : TargetsInRange code jumpTables)
    (blockIds : BTreeSet Nat) (hn : n ≤ code.length) :
    ∃ blocks entry, (List.range n).foldlM (addBlock code jumpTables blockIds) (∅, 0) =
        .ok (blocks, entry) ∧ BlocksBefore code jumpTables blockIds n blocks entry := by
  induction n with
  | zero =>
    refine ⟨∅, 0, rfl, le_rfl, .inl rfl, fun q _ hq => absurd hq (Nat.not_lt_zero q), fun e => ?_,
      fun e bb hbb => ?_⟩
    · simp
    · simp at hbb
  | succ n ih =>
    obtain ⟨blocks, entry, hrun, hblocks⟩ := ih (by omega)
    obtain ⟨blocks', entry', hrun', hblocks'⟩ := addBlock_spec hlen htargets (by omega) hblocks
    refine ⟨blocks', entry', ?_, hblocks'⟩
    rw [range_succ, foldlM_append, bind_ok hrun, foldlM_cons, bind_ok hrun']
    rfl

/-- The blocks of a body. -/
structure BlocksOk (code : List I) (blocks : BTreeMap Nat BasicBlock) : Prop where
  entry : entryBlockId ∈ blocks
  bounds : ∀ (b : Nat) (bb : BasicBlock), blocks[b]? = some bb →
    b ≤ bb.exit ∧ bb.exit < code.length
  closed : ∀ (b : Nat) (bb : BasicBlock), blocks[b]? = some bb →
    ∀ s ∈ bb.successors, s ∈ blocks

theorem BlocksBefore.blocksOk (hne : code ≠ []) (hlen : code.length < 2 ^ 16)
    (htargets : TargetsInRange code jumpTables)
    (hids : ∀ i ∈ code, ∀ targets, offsets i jumpTables = some targets →
      ∀ o ∈ targets, o ∈ blockIds)
    (h : BlocksBefore code jumpTables blockIds code.length blocks entry) :
    entry = code.length ∧ BlocksOk code blocks := by
  have hpos : 0 < code.length := length_pos_iff.mpr hne
  -- The last instruction ends a block.
  have hentry : entry = code.length := by
    rcases Nat.lt_or_ge entry code.length with hlt | hge
    · have hno := h.no_end (code.length - 1) (by omega) (by omega)
      have hsucc : code.length - 1 + 1 = code.length := by omega
      simp [isEndOfBlock, hsucc] at hno
    · exact le_antisymm h.entry_le hge
  refine ⟨hentry, (h.keys _).mpr ⟨by rw [hentry]; exact hpos, .inl rfl⟩, fun b bb hbb => ?_,
    fun b bb hbb s hs => ?_⟩
  · obtain ⟨hle, hlt, -⟩ := h.block b bb hbb
    exact ⟨hle, hlt⟩
  · obtain ⟨-, hlt, hend, hsucc⟩ := h.block b bb hbb
    obtain ⟨i, targets, successors, hi, hoff, hrun, hmem⟩ := getSuccessors_spec hlen htargets hlt
    cases hrun.symm.trans hsucc
    rw [h.keys, hentry]
    have hin : i ∈ code := mem_of_getElem? hi
    rcases hmem s hs with hs | ⟨rfl, hlt'⟩
    · obtain ⟨targets', hoff', hrange⟩ := htargets i hin
      cases hoff.symm.trans hoff'
      refine ⟨hrange s hs, ?_⟩
      rcases Nat.eq_zero_or_pos s with hz | hsp
      · exact .inl hz
      · have hid : s ∈ blockIds := hids i hin targets hoff s hs
        have hsucc : s - 1 + 1 = s := by omega
        have hs16 : s < 2 ^ 16 := (hrange s hs).trans hlen
        right
        rw [isEndOfBlock, hsucc, usizeAsIndex_of_lt hs16]
        simp [hid]
    · exact ⟨hlt', .inr hend⟩

/-- The ids and the blocks that the construction computes. -/
theorem blocks_spec (hne : code ≠ []) (hlen : code.length < 2 ^ 16) (htargets : TargetsInRange code jumpTables) :
    ∃ blockIds blocks, code.zipIdx.foldlM (recordBlockIds code jumpTables)
        ((∅ : BTreeSet Nat).insert entryBlockId) = .ok blockIds ∧
      (List.range code.length).foldlM (addBlock code jumpTables blockIds) (∅, 0) =
        .ok (blocks, code.length) ∧ BlocksOk code blocks := by
  have hmem : ∀ p ∈ code.zipIdx, p.1 ∈ code := fun p hp => by
    obtain ⟨-, -, h⟩ := mem_zipIdx hp
    exact h ▸ getElem_mem _
  have hoffsets : ∀ p ∈ code.zipIdx, ∃ targets, offsets p.1 jumpTables = some targets :=
    fun p hp => by
      obtain ⟨targets, hoff, -⟩ := htargets p.1 (hmem p hp)
      exact ⟨targets, hoff⟩
  obtain ⟨blockIds, hrun, -, hids⟩ := recordBlockIds_foldlM code ((∅ : BTreeSet Nat).insert entryBlockId) hoffsets
  obtain ⟨blocks, entry, hblocks, hbefore⟩ := addBlock_foldlM hlen htargets blockIds (le_refl code.length)
  have hids' : ∀ i ∈ code, ∀ targets, offsets i jumpTables = some targets → ∀ o ∈ targets, o ∈ blockIds := by
    intro i hi targets hoff o ho
    obtain ⟨k, hk⟩ := mem_iff_getElem?.mp hi
    have hp : (i, k) ∈ code.zipIdx := by
      refine mem_iff_getElem?.mpr ⟨k, ?_⟩
      rw [getElem?_zipIdx, hk]
      simp
    exact hids (i, k) hp targets hoff o ho
  obtain ⟨rfl, hok⟩ := hbefore.blocksOk hne hlen htargets hids'
  exact ⟨blockIds, blocks, hrun, hblocks, hok⟩

/-- Longer code makes the construction stop at the last offset. -/
theorem length_lt_of_run (hentry : entryBlockId ∈ blockIds)
    (h : (List.range code.length).foldlM (addBlock code jumpTables blockIds) (∅, 0) = .ok p) :
    code.length < 2 ^ 16 := by
  by_contra hlong
  obtain ⟨q, q', hstep⟩ := step_of_foldlM (x := 65535) (mem_range.mpr (by omega)) h
  have hend : isEndOfBlock 65535 code blockIds = true := by
    have hwrap : usizeAsIndex (65535 + 1) = entryBlockId := rfl
    rw [isEndOfBlock, hwrap, Std.ExtTreeSet.contains_iff_mem.mpr hentry, Bool.or_true]
  unfold addBlock at hstep
  rw [if_pos hend] at hstep
  obtain ⟨successors, hsucc, -⟩ := bind_eq_ok.mp hstep
  obtain ⟨_, hreq, -⟩ := bind_eq_ok.mp hsucc
  exact absurd (require_eq_ok.mp hreq) (by decide)

end VMControlFlowGraph

end Sui.Move
