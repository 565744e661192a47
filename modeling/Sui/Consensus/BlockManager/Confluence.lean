import Sui.Consensus.BlockManager.Invariant
import Sui.Consensus.BlockVerifier
import Sui.Consensus.DagState.Reachable

/-! Acceptance does not depend on the order of delivery.

With a fixed gc round, blocks are delivered in batches. Whatever the order, the
batching and the repetitions, the blocks accepted are the largest set that is closed
under required ancestors relative to what the DAG had; each is accepted once, after
its ancestors, and what is missing in the end is the same (`deliver_confluent`). That is
so if no two own blocks share a slot (`deliver_own_slot_taken`). -/
namespace Sui.Consensus

open Sui.Lib BTreeMap Exec List BlockManager

namespace DagState

variable {ctx : Context} {d : DagState} {r : BlockRef} {b : VerifiedBlock} {B : Set VerifiedBlock}

/-- Above the gc round a block of the DAG is cached. -/
theorem mem_of_has (hc : d.Cached ctx) (h : d.Has ctx r) (hgc : d.gcRound ctx < r.round) : r ∈ d.recentBlocks := by
  rcases h with hg | hr | hs
  · have := Context.genesis_round hg
    rw [this] at hgc
    exact absurd hgc (Nat.not_lt_zero _)
  · exact hr
  · exact hc.stored r hs hgc

theorem mem_acceptBlock (h : d.acceptBlock ctx b = .ok d')
    (hr : r ∈ d'.recentBlocks) : r ∈ d.recentBlocks ∨ r = b.reference := by
  unfold acceptBlock at h
  simp only [bind_eq_ok] at h
  obtain ⟨_, _, h⟩ := h
  split at h
  · cases h
    exact .inl hr
  · simp only [bind_eq_ok] at h
    obtain ⟨_, _, t, ht, h⟩ := h
    cases h
    rcases (updateBlockMetadata_sat.ok ht).mem_iff.mp hr with heq | hr
    · exact .inr heq.symm
    · exact .inl hr

/-- What is known about the blocks: they are above the gc round, have references of their own and
lower ancestors, one of them in the round before, and own blocks do not equivocate among themselves
or with the DAG. -/
structure Deliverable (ctx : Context) (d : DagState) (B : Set VerifiedBlock) : Prop where
  above : ∀ b ∈ B, d.gcRound ctx < b.round
  refs : ∀ b ∈ B, ∀ c ∈ B, b.reference = c.reference → b = c
  lower : ∀ b ∈ B, ∀ a ∈ b.ancestors, a.round < b.round
  parent : ∀ b ∈ B, ∃ a ∈ b.ancestors, a.round + 1 = b.round
  own : ctx.parameters.skipEquivocationValidation = true ∨ ∀ b ∈ B, b.author = ctx.ownIndex →
    (∀ r ∈ d.recentBlocks, r.slot = b.slot → r = b.reference) ∧ ∀ c ∈ B, c.slot = b.slot → c = b

/-- A deliverable block whose required ancestors the DAG has is accepted. -/
theorem acceptBlock_ok (h : d.Ready ctx) (hB : Deliverable ctx d B) (hb : b ∈ B)
    (hneeds : ∀ a ∈ requiredAncestors (d.gcRound ctx) b, d.Has ctx a) : ∃ d', d.acceptBlock ctx b = .ok d' := by
  have hgc := hB.above b hb
  have hpos : b.round ≠ GENESIS_ROUND := Nat.ne_of_gt ((Nat.zero_le _).trans_lt hgc)
  unfold acceptBlock
  rw [bind_ok (assert_of hpos)]
  split
  · exact ⟨_, rfl⟩
  · rename_i hcontains
    have hnew : b.reference ∉ d.recentBlocks := fun hmem =>
      hcontains (containsBlock_of_mem h.cached hmem)
    have hown : b.author = ctx.ownIndex → ctx.parameters.skipEquivocationValidation = true ∨
        d.getUncommittedBlocksAtSlot b.slot = [] := by
      intro ho
      rcases hB.own with hskip | hone
      · exact .inl hskip
      · right
        unfold getUncommittedBlocksAtSlot
        rw [map_eq_nil_iff, filter_eq_nil_iff]
        rintro ⟨r, info⟩ hmem hslot
        have hr : r ∈ d.recentBlocks := mem_of_get (mem_toList_iff.mp hmem)
        have heq := (hone b hb ho).1 r hr (by simpa using hslot)
        exact hnew (heq ▸ hr)
    have hrequired : ∀ a ∈ b.ancestors, d.gcRound ctx < a.round → a ∈ d.recentBlocks := by
      intro a ha hr
      refine mem_of_has h.cached (hneeds a (mem_filter.mpr ⟨ha, ?_⟩)) hr
      simpa using Or.inr hr
    have hround : ctx.protocolConfig.enableV3 = true → b.round ≤ d.nextRound ctx := by
      intro hv3
      obtain ⟨p, hp, hround⟩ := hB.parent b hb
      have hnext := h.next hv3
      by_cases hlow : d.gcRound ctx < p.round
      · have hlt := (h.counted hv3).roundInfo.reached p (hrequired p hp hlow) hlow
        show b.round ≤ nextRoundOf _ _
        omega
      · omega
    obtain ⟨t, ht⟩ : ∃ t, d.updateBlockMetadata ctx b = .ok t := updateBlockMetadata_ok fun hv3 =>
      ⟨h.counted hv3, fun a ha hp => hrequired a ha hp.2, fun _ => hround hv3⟩
    rw [bind_ok (assert_of hown), bind_ok ht]
    exact ⟨_, rfl⟩

/-- Blocks in causal order are accepted one after the other. -/
theorem acceptBlocks_ok (h : d.Ready ctx) (hB : Deliverable ctx d B) (hblocks : ∀ b ∈ blocks, b ∈ B)
    (hres : Resolves (fun b a => a ∈ requiredAncestors (d.gcRound ctx) b)
      {a | d.Has ctx a} blocks) : ∃ d', d.acceptBlocks ctx blocks = .ok d' ∧ Deliverable ctx d' B := by
  induction blocks generalizing d with
  | nil => exact ⟨d, rfl, hB⟩
  | cons b rest ih =>
    obtain ⟨hneeds, hrest⟩ := hres
    obtain ⟨t, ht⟩ := acceptBlock_ok h hB (hblocks b (.head _)) hneeds
    obtain ⟨_, hhas, hcommit⟩ := (acceptBlock_sat h.cached).ok ht
    have hgc : t.gcRound ctx = d.gcRound ctx := by
      unfold gcRound lastCommitRound
      rw [hcommit]
    have hBt : Deliverable ctx t B := by
      refine ⟨fun c hc => hgc ▸ hB.above c hc, hB.refs, hB.lower, hB.parent, ?_⟩
      rcases hB.own with hskip | hone
      · exact .inl hskip
      · refine .inr fun c hc ho => ⟨fun r hr hslot => ?_, (hone c hc ho).2⟩
        rcases mem_acceptBlock ht hr with hr | rfl
        · exact (hone c hc ho).1 r hr hslot
        · exact congrArg _ ((hone c hc ho).2 b (hblocks b (.head _)) hslot)
    have hknown : {a | t.Has ctx a} = insert b.reference {a | d.Has ctx a} := by
      ext a
      rw [Set.mem_ofPred_eq, hhas, Set.mem_insert_iff]
      exact or_comm
    obtain ⟨d', hd', hB'⟩ := ih (acceptBlock_ready h ht) hBt (fun c hc => hblocks c (.tail _ hc))
      (by rw [hgc, hknown]; exact hrest)
    exact ⟨d', foldlM_cons_eq_ok.mpr ⟨t, ht, hd'⟩, hB'⟩

end DagState

namespace BlockManager

variable {ctx : Context} {start : DagState} {B : Set VerifiedBlock} {bm : BlockManager}
  {accepted : List VerifiedBlock} {b : VerifiedBlock}

/-- Batches delivered one after the other, with all that is accepted in order. -/
def deliver (ctx : Context) : BlockManager → List (List VerifiedBlock) →
    Exec (BlockManager × List VerifiedBlock)
  | bm, [] => .ok (bm, [])
  | bm, batch :: rest => do
    let (bm, accepted, _) ← bm.tryAcceptBlocks ctx batch
    let (bm, accepted') ← deliver ctx bm rest
    return (bm, accepted ++ accepted')

/-- The ancestors a block needs, by the gc round of the start. -/
def Needs (ctx : Context) (start : DagState) (b : VerifiedBlock) (a : BlockRef) : Prop :=
  a ∈ requiredAncestors (start.gcRound ctx) b

/-- After some of the blocks in `B` have been delivered. -/
structure Delivered (ctx : Context) (start : DagState) (B : Set VerifiedBlock) (bm : BlockManager)
    (accepted : List VerifiedBlock) : Prop where
  cached : start.Cached ctx
  inv : Inv ctx (Needs ctx start) {a | bm.dagState.Has ctx a} bm
  ready : bm.dagState.Ready ctx
  deliverable : DagState.Deliverable ctx bm.dagState B
  dag : start.acceptBlocks ctx accepted = .ok bm.dagState
  suspended : ∀ (r : BlockRef) s, bm.suspendedBlocks[r]? = some s → s.block ∈ B
  acceptedNew : ∀ b ∈ accepted, b ∈ B ∧ ¬start.Has ctx b.reference
  nodup : (accepted.map (·.reference)).Nodup
  causal : Resolves (Needs ctx start) {a | start.Has ctx a} accepted
  awaited : ∀ a ∈ bm.missingAncestors, ∃ r, bm.Waits r a
  needed : ∀ (r : BlockRef) s, bm.suspendedBlocks[r]? = some s → ∀ a ∈ s.missingAncestors,
    Needs ctx start s.block a

/-- A delivered block is accepted or suspended. -/
def Received (ctx : Context) (bm : BlockManager) (b : VerifiedBlock) : Prop :=
  bm.dagState.Has ctx b.reference ∨ b.reference ∈ bm.suspendedBlocks

namespace Delivered

section
variable (h : Delivered ctx start B bm accepted) {b : VerifiedBlock}
include h

theorem has_iff (r : BlockRef) : bm.dagState.Has ctx r ↔ start.Has ctx r ∨ r ∈ refsOf accepted :=
  ((DagState.acceptBlocks_sat h.cached).ok h.dag).2.1 r

theorem gcRound_eq : bm.dagState.gcRound ctx = start.gcRound ctx := by
  unfold DagState.gcRound DagState.lastCommitRound
  rw [((DagState.acceptBlocks_sat h.cached).ok h.dag).2.2]

theorem mem_missingOf_iff : a ∈ bm.missingOf ctx b ↔ Needs ctx start b a ∧ ¬bm.dagState.Has ctx a := by
  rw [mem_missingOf h.inv.cached, h.gcRound_eq]
  rfl

/-- A block with a missing ancestor is suspended. -/
theorem suspend (hb : b ∈ B) (hs : Suspends ctx (Needs ctx start) {a | bm.dagState.Has ctx a} bm b bm') :
    Delivered ctx start B bm' accepted ∧ ∀ c, c = b ∨ Received ctx bm c → Received ctx bm' c := by
  obtain ⟨hfresh, hinv, hdag, hdep, hkeys, hsus⟩ := hs
  have hcon := h.inv.consistent ⟨0, 0, 0⟩
  have hcon' := hinv.consistent ⟨0, 0, 0⟩
  have hmem : ∀ r, r ∈ bm'.suspendedBlocks ↔ b.reference = r ∨ r ∈ bm.suspendedBlocks := by
    intro r
    have hr := congrArg Option.isSome (hsus r)
    rw [Option.isSome_map] at hr
    rw [Std.ExtTreeMap.mem_iff_isSome_getElem?, Std.ExtTreeMap.mem_iff_isSome_getElem?, hr]
    by_cases hbr : b.reference = r
    · simp [hbr]
    · simp [hbr]
  have hblock : ∀ (r : BlockRef) s', bm'.suspendedBlocks[r]? = some s' →
      (b.reference = r ∧ s'.block = b) ∨
        (b.reference ≠ r ∧ ∃ s, bm.suspendedBlocks[r]? = some s ∧ s.block = s'.block) := by
    intro r s' hs'
    have hr := hsus r
    rw [hs', Option.map_some] at hr
    split at hr
    · rename_i hbr
      exact .inl ⟨hbr, Option.some.inj hr⟩
    · rename_i hbr
      exact .inr ⟨hbr, Option.map_eq_some_iff.mp hr.symm⟩
  refine ⟨⟨h.cached, ?_, hdag ▸ h.ready, hdag ▸ h.deliverable, hdag ▸ h.dag, fun r s' hs' => ?_,
    h.acceptedNew, h.nodup, h.causal, fun a ha => ?_, fun r s' hs' a ha => ?_⟩, fun c hc => ?_⟩
  · rw [hdag]
    exact hinv
  · rcases hblock r s' hs' with ⟨_, rfl⟩ | ⟨_, s, hs, hb⟩
    · exact hb
    · exact hb ▸ h.suspended r s hs
  · rcases (hkeys a).mp ha with hold | hnew
    · obtain ⟨r, hw⟩ := h.awaited a hold
      exact ⟨r, (hcon'.dependent_iff a r).mpr ((hdep a r).mpr (.inl ((hcon.dependent_iff a r).mp hw)))⟩
    · exact ⟨b.reference, (hcon'.dependent_iff a _).mpr ((hdep a _).mpr (.inr ⟨rfl, hnew⟩))⟩
  · rcases (hdep a r).mp ((hcon'.dependent_iff a r).mp ⟨s', hs', ha⟩) with hold | ⟨rfl, hnew⟩
    · obtain ⟨s, hs, ha'⟩ := (hcon.dependent_iff a r).mpr hold
      rcases hblock r s' hs' with ⟨rfl, _⟩ | ⟨_, s₂, hs₂, hb⟩
      · exact absurd (mem_of_get hs) hfresh
      · rw [hs] at hs₂
        cases hs₂
        exact hb ▸ h.needed r s hs a ha'
    · rcases hblock _ s' hs' with ⟨_, hb⟩ | ⟨hne, _⟩
      · exact hb ▸ (h.mem_missingOf_iff.mp hnew).1
      · exact absurd rfl hne
  · unfold Received
    rw [hdag, hmem]
    rcases hc with rfl | hc
    · exact .inr (.inl rfl)
    · exact hc.imp_right .inr

/-- A block with all its required ancestors is accepted, and what waited only for it. -/
theorem accept (hb : b ∈ B) (hsus : b.reference ∉ bm.suspendedBlocks) (hnew : ¬bm.dagState.Has ctx b.reference)
    (hmissing : bm.missingOf ctx b = []) :
    ∃ bm' more, acceptWithChildren ctx { bm with missingBlocks := bm.missingBlocks.erase b.reference }
        b.reference [b] = .ok (bm', more) ∧ Delivered ctx start B bm' (accepted ++ more) ∧
      ∀ c, c = b ∨ Received ctx bm c → Received ctx bm' c := by
  have haccepting := accepting_of_inv h.inv hsus
  have hneeds : ∀ a, Needs ctx start b a → bm.dagState.Has ctx a := by
    intro a ha
    by_contra hno
    have hmem := h.mem_missingOf_iff.mpr ⟨ha, hno⟩
    rw [hmissing] at hmem
    cases hmem
  obtain ⟨bm₁, children, hrun, hun, hres, _, _⟩ := tryUnsuspendChildrenBlocks_spec haccepting.consistent
  have hresolves : Resolves (Needs ctx start) {a | bm.dagState.Has ctx a} (b :: children) := ⟨hneeds, hres⟩
  have hmem : ∀ c ∈ b :: children, c ∈ B := by
    refine forall_mem_cons.mpr ⟨hb, fun c hcm => ?_⟩
    obtain ⟨s, hs, rfl⟩ := hun.taken c hcm
    exact h.suspended _ s hs
  obtain ⟨d', hd', hdeliverable⟩ := DagState.acceptBlocks_ok h.ready h.deliverable hmem
    (by rw [h.gcRound_eq]; exact hresolves)
  have hok : acceptWithChildren ctx { bm with missingBlocks := bm.missingBlocks.erase b.reference }
      b.reference [b] = .ok ({ bm₁ with dagState := d' }, [b] ++ children) := by
    unfold acceptWithChildren
    rw [bind_ok hrun]
    simp only
    rw [bind_ok (show bm₁.dagState.acceptBlocks ctx ([b] ++ children) = .ok d' by
      rw [hun.dagState]; exact hd')]
    rfl
  refine ⟨_, _, hok, ?_⟩
  have hacc : Accepted ctx (Needs ctx start) _ b.reference [b] _ _ _ :=
    (acceptWithChildren_spec haccepting (by
      rw [refsOf_cons, refsOf_nil]
      exact fun x hx => hx.elim id fun hx => absurd hx (Set.notMem_empty x))).ok hok
  have hcon := h.inv.consistent ⟨0, 0, 0⟩
  have hcon' := hacc.inv.consistent ⟨0, 0, 0⟩
  obtain ⟨_, heq, _, htaken, hnodup, hrest⟩ := hacc.unsuspended
  obtain rfl := append_cancel_left heq
  have hchild : ∀ c ∈ children, c.reference ∈ bm.suspendedBlocks := by
    intro c hcm
    obtain ⟨s, hs, rfl⟩ := htaken c hcm
    exact mem_of_get hs
  have hfresh : ∀ c ∈ b :: children, ¬bm.dagState.Has ctx c.reference :=
    forall_mem_cons.mpr ⟨hnew, fun c hcm => h.inv.suspendedNew _ (hchild c hcm)⟩
  have hhas : ∀ x, d'.Has ctx x ↔ bm.dagState.Has ctx x ∨ x ∈ refsOf (b :: children) := hacc.has
  -- What waits for an ancestor after the call waited for it before.
  have hwaits : ∀ r a, BlockManager.Waits { bm₁ with dagState := d' } r a → bm.Waits r a := by
    intro r a hw
    obtain ⟨refs, hrefs, hr⟩ := (hcon'.dependent_iff a r).mp hw
    exact (hcon.dependent_iff a r).mpr ⟨refs, (hacc.missingAncestors a refs hrefs).2, hr⟩
  refine ⟨⟨h.cached, ?_, DagState.acceptBlocks_ready h.ready hd', hdeliverable, ?_, fun r s' hs' => ?_,
    fun c hcm => ?_, ?_, ?_, fun a ha => ?_, fun r s' hs' a ha => ?_⟩, fun c hc => ?_⟩
  · have hknown : insert b.reference {a | bm.dagState.Has ctx a} ∪ refsOf ([b] ++ children) =
        {a | d'.Has ctx a} := by
      ext x
      show (x = b.reference ∨ bm.dagState.Has ctx x) ∨ x ∈ refsOf (b :: children) ↔ d'.Has ctx x
      have hb : x = b.reference → x ∈ refsOf (b :: children) := by
        rw [refsOf_cons]
        exact .inl
      rw [hhas, or_assoc, or_iff_right_of_imp fun hx => .inr (hb hx)]
    exact hknown ▸ hacc.inv
  · exact foldlM_append_eq_ok.mpr ⟨_, h.dag, hd'⟩
  · obtain ⟨s, hs, hblock⟩ := hacc.kept r s' hs'
    exact hblock ▸ h.suspended r s hs
  · rcases mem_append.mp hcm with hcm | hcm
    · exact h.acceptedNew c hcm
    · exact ⟨hmem c hcm, fun hstart => hfresh c hcm ((h.has_iff _).mpr (.inl hstart))⟩
  · rw [map_append, nodup_append]
    refine ⟨h.nodup, ?_, fun x hx y hy => ?_⟩
    · refine nodup_cons.mpr ⟨fun hmem => ?_, hnodup⟩
      obtain ⟨c, hcm, hcb⟩ := mem_map.mp hmem
      rw [show b.reference = c.reference from hcb.symm] at hsus
      exact hsus (hchild c hcm)
    · rintro rfl
      obtain ⟨c, hcm, rfl⟩ := mem_map.mp hy
      exact hfresh c hcm ((h.has_iff _).mpr (.inr hx))
  · refine resolves_append.mpr ⟨h.causal, ?_⟩
    have hknown : {a | start.Has ctx a} ∪ refsOf accepted = {a | bm.dagState.Has ctx a} := by
      ext x
      exact (h.has_iff x).symm
    rw [hknown]
    exact hresolves
  · obtain ⟨refs, hrefs⟩ := mem_iff_get.mp ha
    have hold := (hacc.missingAncestors a refs hrefs).2
    obtain ⟨r, hw⟩ := h.awaited a (mem_of_get hold)
    obtain ⟨refs', hrefs', hr⟩ := (hcon.dependent_iff a r).mp hw
    rw [show bm.missingAncestors[a]? = some refs from hold] at hrefs'
    cases hrefs'
    exact ⟨r, (hcon'.dependent_iff a r).mpr ⟨refs, hrefs, hr⟩⟩
  · obtain ⟨s, hs, ha'⟩ := hwaits r a ⟨s', hs', ha⟩
    obtain ⟨s₂, hs₂, hblock⟩ := hacc.kept r s' hs'
    rw [show bm.suspendedBlocks[r]? = some s from hs] at hs₂
    cases hs₂
    exact hblock ▸ h.needed r s hs a ha'
  · refine Or.imp_left (hhas _).mpr ?_
    rw [refsOf_cons]
    rcases hc with rfl | hc | hc
    · exact .inl (.inr (.inl rfl))
    · exact .inl (.inl hc)
    · exact (hrest _ hc).symm.imp_left fun hc => .inr (.inr hc)

end

end Delivered

/-! ### Whole deliveries -/

theorem acceptInput_delivered (h : Delivered ctx start B bm accepted) (hb : b ∈ B) :
    ∃ bm' more toFetch, bm.acceptInput ctx false b = .ok (bm', more, toFetch) ∧
      Delivered ctx start B bm' (accepted ++ more) ∧ ∀ c, c = b ∨ Received ctx bm c → Received ctx bm' c := by
  have hneeds : ∀ a, Needs ctx start b a → a ∈ {a | bm.dagState.Has ctx a} ∨ a ∈ bm.missingOf ctx b := by
    intro a ha
    by_cases hhas : bm.dagState.Has ctx a
    · exact .inl hhas
    · exact .inr (h.mem_missingOf_iff.mpr ⟨ha, hhas⟩)
  unfold acceptInput
  rcases tryAcceptOneBlock_cases h.inv (h.deliverable.lower b hb) hneeds with
    ⟨res, hrun, hres, hknown⟩ | ⟨hrun, hsus, hnew, hmissing⟩ | ⟨bm', toFetch, hrun, hsuspends⟩
  · have hreceived : ∀ c, c = b ∨ Received ctx bm c → Received ctx bm c := by
      rintro c (rfl | hc)
      · rcases hknown with hs | hh | hlow
        · exact .inr hs
        · exact .inl hh
        · exact absurd (h.deliverable.above c hb) hlow.not_gt
      · exact hc
    rw [hrun]
    rcases hres with rfl | rfl
    · exact ⟨bm, [], ∅, rfl, by rw [append_nil]; exact h, hreceived⟩
    · exact ⟨bm, [], ∅, rfl, by rw [append_nil]; exact h, hreceived⟩
  · obtain ⟨bm', more, hok, hdelivered⟩ := h.accept hb hsus hnew hmissing
    rw [hrun]
    refine ⟨bm', more, ∅, ?_, hdelivered⟩
    simp only
    rw [bind_ok hok]
    rfl
  · rw [hrun]
    refine ⟨bm', [], toFetch, rfl, ?_⟩
    rw [append_nil]
    exact h.suspend hb hsuspends

theorem acceptInputs_delivered (h : Delivered ctx start B bm accepted) (hblocks : ∀ b ∈ blocks, b ∈ B) :
    ∃ bm' more toFetch, acceptInputs ctx false bm blocks = .ok (bm', more, toFetch) ∧
      Delivered ctx start B bm' (accepted ++ more) ∧ ∀ c, c ∈ blocks ∨ Received ctx bm c → Received ctx bm' c := by
  induction blocks generalizing bm accepted with
  | nil =>
    refine ⟨bm, [], ∅, rfl, ?_, fun c hc => hc.resolve_left not_mem_nil⟩
    rw [append_nil]
    exact h
  | cons b rest ih =>
    obtain ⟨hb, hblocks⟩ := forall_mem_cons.mp hblocks
    obtain ⟨bm₁, more₁, fetch₁, hrun₁, h₁, hreceived₁⟩ := acceptInput_delivered h hb
    obtain ⟨bm₂, more₂, fetch₂, hrun₂, h₂, hreceived₂⟩ := ih h₁ hblocks
    refine ⟨bm₂, more₁ ++ more₂, fetch₂.toList.foldl (fun s r => s.insert r) fetch₁, ?_, ?_, fun c hc => ?_⟩
    · rw [acceptInputs, bind_ok hrun₁]
      simp only
      rw [bind_ok hrun₂]
      rfl
    · rw [← append_assoc]
      exact h₂
    · rw [mem_cons, or_right_comm, or_comm (a := c = b ∨ _)] at hc
      exact hreceived₂ c (hc.imp_right (hreceived₁ c))

theorem deliver_delivered (h : Delivered ctx start B bm accepted) (hbatches : ∀ b ∈ batches.flatten, b ∈ B) :
    ∃ bm' more, deliver ctx bm batches = .ok (bm', more) ∧ Delivered ctx start B bm' (accepted ++ more) ∧
      ∀ c, c ∈ batches.flatten ∨ Received ctx bm c → Received ctx bm' c := by
  induction batches generalizing bm accepted with
  | nil =>
    refine ⟨bm, [], rfl, ?_, fun c hc => hc.resolve_left not_mem_nil⟩
    rw [append_nil]
    exact h
  | cons batch rest ih =>
    rw [flatten_cons, forall_mem_append] at hbatches
    have hbatch : ∀ b ∈ batch.insertionSort fun a b => a.round ≤ b.round, b ∈ B :=
      fun b hb => hbatches.1 b ((mem_insertionSort _).mp hb)
    obtain ⟨bm₁, more₁, fetch₁, hrun₁, h₁, hreceived₁⟩ := acceptInputs_delivered h hbatch
    obtain ⟨bm₂, more₂, hrun₂, h₂, hreceived₂⟩ := ih h₁ hbatches.2
    refine ⟨bm₂, more₁ ++ more₂, ?_, ?_, fun c hc => ?_⟩
    · rw [deliver]
      unfold tryAcceptBlocks tryAcceptBlocksInternal
      rw [bind_ok hrun₁]
      simp only
      rw [bind_ok hrun₂]
      rfl
    · rw [← append_assoc]
      exact h₂
    · rw [flatten_cons, mem_append, or_right_comm, or_comm (a := c ∈ batch ∨ _)] at hc
      exact hreceived₂ c (hc.imp_right fun hc => hreceived₁ c (hc.imp_left (mem_insertionSort _).mpr))

theorem delivered_new (hready : start.Ready ctx) (hB : DagState.Deliverable ctx start B) :
    Delivered ctx start B (.new start) [] := by
  refine ⟨hready.cached, ⟨fun dep => ⟨fun a r => ?_, fun a => ?_, fun x hx => absurd hx (Set.notMem_empty x),
    fun r s hr => ?_, fun r s hr => ?_, fun r s hr => ?_⟩, hready.cached, fun r hr => ?_, fun a ha => ?_⟩,
    hready, hB, rfl, fun r s hr => ?_, nofun, nodup_nil, trivial, fun a ha => ?_, fun r s hr => ?_⟩
  · simp [Waits, Dependent, new]
  · simp [new]
  all_goals first | simp [new] at hr | simp [new] at ha

/-- A set of delivered blocks, new to the DAG, with all their required ancestors in the
DAG or in the set. -/
def Acceptable (ctx : Context) (start : DagState) (B C : Set VerifiedBlock) : Prop :=
  (∀ b ∈ C, b ∈ B ∧ ¬start.Has ctx b.reference) ∧
    ∀ b ∈ C, ∀ a ∈ requiredAncestors (start.gcRound ctx) b, start.Has ctx a ∨ ∃ c ∈ C, c.reference = a

/-- Required by a delivered block, and neither delivered nor in the DAG. -/
def Wanted (ctx : Context) (start : DagState) (B : Set VerifiedBlock) (a : BlockRef) : Prop :=
  ¬start.Has ctx a ∧ (∀ b ∈ B, b.reference ≠ a) ∧
    ∃ b ∈ B, ¬start.Has ctx b.reference ∧ a ∈ requiredAncestors (start.gcRound ctx) b

theorem acceptable_of_delivered (h : Delivered ctx start B bm accepted) :
    Acceptable ctx start B {b | b ∈ accepted} := by
  refine ⟨h.acceptedNew, fun b hb a ha => ?_⟩
  have hres : ∀ {known : Set BlockRef} {blocks : List VerifiedBlock},
      Resolves (Needs ctx start) known blocks → ∀ b ∈ blocks, ∀ a, Needs ctx start b a →
        a ∈ known ∨ a ∈ refsOf blocks := by
    intro known blocks
    induction blocks generalizing known with
    | nil => exact nofun
    | cons c rest ih =>
      rintro ⟨hc, hrest⟩ b hb a ha
      rw [refsOf_cons]
      rcases mem_cons.mp hb with rfl | hb
      · exact .inl (hc a ha)
      · rcases ih hrest b hb a ha with (rfl | hk) | hr
        · exact .inr (.inl rfl)
        · exact .inl hk
        · exact .inr (.inr hr)
  rcases hres h.causal b hb a ha with hk | hr
  · exact .inl hk
  · obtain ⟨c, hc, hca⟩ := mem_map.mp hr
    exact .inr ⟨c, hc, hca⟩

section
variable (h : Delivered ctx start B bm accepted)
include h

/-- A suspended block is the delivered one under its ref. -/
theorem suspended_eq (hb : b ∈ B) (hs : b.reference ∈ bm.suspendedBlocks) :
    ∃ s, bm.suspendedBlocks[b.reference]? = some s ∧ s.block = b := by
  obtain ⟨s, hs⟩ := mem_iff_get.mp hs
  have hkey := ((h.inv.consistent ⟨0, 0, 0⟩).keyed _ s hs).1
  exact ⟨s, hs, h.deliverable.refs _ (h.suspended _ s hs) b hb hkey⟩

/-- A block that the DAG has is accepted, unless it was there from the start. -/
theorem mem_accepted (hb : b ∈ B) (hnew : ¬start.Has ctx b.reference) (hhas : bm.dagState.Has ctx b.reference) :
    b ∈ accepted := by
  obtain ⟨c, hc, hcb⟩ := mem_map.mp (((h.has_iff _).mp hhas).resolve_left hnew)
  rwa [h.deliverable.refs c (h.acceptedNew c hc).1 b hb hcb] at hc

variable (hreceived : ∀ b ∈ B, Received ctx bm b)
include hreceived

/-- An acceptable set is accepted, by induction on the rounds of its blocks. -/
theorem accepted_of_acceptable (hC : Acceptable ctx start B C) : ∀ b ∈ C, b ∈ accepted := by
  intro b
  induction hn : b.round using Nat.strong_induction_on generalizing b with
  | _ n ih =>
    intro hb
    obtain ⟨hbB, hnew⟩ := hC.1 b hb
    have hhas : ∀ a, Needs ctx start b a → bm.dagState.Has ctx a := by
      intro a ha
      rw [h.has_iff]
      rcases hC.2 b hb a ha with hstart | ⟨c, hcC, rfl⟩
      · exact .inl hstart
      · have hlt : c.round < n := hn ▸ h.deliverable.lower b hbB _ (mem_filter.mp ha).1
        exact .inr (mem_map_of_mem (ih c.round hlt c rfl hcC))
    rcases hreceived b hbB with hin | hsus
    · exact mem_accepted h hbB hnew hin
    · obtain ⟨s, hs, rfl⟩ := suspended_eq h hbB hsus
      have hcon := h.inv.consistent ⟨0, 0, 0⟩
      obtain ⟨a, ha⟩ := hcon.nonempty _ s hs
      obtain ⟨refs, hkey, _⟩ := (hcon.dependent_iff a _).mp ⟨s, hs, ha⟩
      exact absurd (hhas a (h.needed _ s hs a ha)) (h.inv.missingNew a (mem_of_get hkey))

theorem missingBlocks_iff_wanted (a : BlockRef) : a ∈ bm.missingBlocks ↔ Wanted ctx start B a := by
  have hcon := h.inv.consistent ⟨0, 0, 0⟩
  have hrep := h.inv.representation
  rw [hrep.missingBlocks]
  constructor
  · rintro ⟨hkey, hsus⟩
    have hno := h.inv.missingNew a hkey
    refine ⟨fun hs => hno ((h.has_iff a).mpr (.inl hs)), ?_, ?_⟩
    · rintro b hb rfl
      exact (hreceived b hb).elim hno hsus
    · obtain ⟨r, s, hs, ha⟩ := h.awaited a hkey
      obtain ⟨hr, _⟩ := hcon.keyed r s hs
      refine ⟨s.block, h.suspended r s hs, fun hstart => ?_, h.needed r s hs a ha⟩
      rw [hr] at hstart
      exact h.inv.suspendedNew r (mem_of_get hs) ((h.has_iff r).mpr (.inl hstart))
  · rintro ⟨hstart, hnot, b, hb, hnew, ha⟩
    have hno : ¬bm.dagState.Has ctx a := by
      rw [h.has_iff, not_or]
      refine ⟨hstart, fun hacc => ?_⟩
      obtain ⟨c, hcA, hca⟩ := mem_map.mp hacc
      exact hnot c (h.acceptedNew c hcA).1 hca
    rcases hreceived b hb with hin | hsus
    · rcases (acceptable_of_delivered h).2 b (mem_accepted h hb hnew hin) a ha with hs | ⟨x, hx, hxa⟩
      · exact absurd hs hstart
      · exact absurd hxa (hnot x (h.acceptedNew x hx).1)
    · obtain ⟨s, hs, rfl⟩ := suspended_eq h hb hsus
      have hwait : bm.Waits s.block.reference a := ⟨s, hs, (hcon.resolved _ s hs a ha).resolve_left hno⟩
      refine ⟨hrep.recorded _ a hwait, fun hmem => ?_⟩
      obtain ⟨t, ht⟩ := mem_iff_get.mp hmem
      exact hnot t.block (h.suspended a t ht) (hcon.keyed a t ht).1

end

/-- However the blocks of `B` are delivered: the run succeeds, the DAG accepts the
largest acceptable set, each block once and after what it requires, and the missing
blocks are those wanted. -/
theorem deliver_confluent (hcommittee : ctx.committee.Built) (hstart : DagState.Reachable ctx start)
    {verifySignature : VerifiedBlock → Bool}
    (hverified : ∀ b ∈ B, SignedBlockVerifier.verifyBlock ctx verifySignature b = .ok ())
    (hrefs : ∀ b ∈ B, ∀ c ∈ B, b.reference = c.reference → b = c) (habove : ∀ b ∈ B, start.gcRound ctx < b.round)
    (hown : ctx.parameters.skipEquivocationValidation = true ∨ ∀ b ∈ B, b.author = ctx.ownIndex →
      (∀ r ∈ start.recentBlocks, r.slot = b.slot → r = b.reference) ∧ ∀ c ∈ B, c.slot = b.slot → c = b)
    {batches : List (List VerifiedBlock)} (hbatches : ∀ b, b ∈ batches.flatten ↔ b ∈ B) :
    ∃ bm accepted, deliver ctx (.new start) batches = .ok (bm, accepted) ∧
      start.acceptBlocks ctx accepted = .ok bm.dagState ∧
      (accepted.map (·.reference)).Nodup ∧
      Resolves (fun b a => a ∈ requiredAncestors (start.gcRound ctx) b) {a | start.Has ctx a} accepted ∧
      IsGreatest {C | Acceptable ctx start B C} {b | b ∈ accepted} ∧
      ∀ a, a ∈ bm.missingBlocks ↔ Wanted ctx start B a := by
  have hready := hstart.ready
  have hver : ∀ b ∈ B, Verified ctx b := fun b hb => SignedBlockVerifier.verifyBlock_spec (hverified b hb)
  have hB : DagState.Deliverable ctx start B := ⟨habove, hrefs, fun b hb => (hver b hb).ancestorRounds,
    fun b hb => SignedBlockVerifier.exists_parent (hver b hb) hcommittee.quorum_pos, hown⟩
  obtain ⟨bm, accepted, hrun, h, hreceived⟩ := deliver_delivered (delivered_new hready hB) fun b => (hbatches b).mp
  have hreceived : ∀ b ∈ B, Received ctx bm b := fun b hb => hreceived b (.inl ((hbatches b).mpr hb))
  exact ⟨bm, accepted, hrun, h.dag, h.nodup, h.causal, ⟨acceptable_of_delivered h, fun C hC =>
    accepted_of_acceptable h hreceived hC⟩, missingBlocks_iff_wanted h hreceived⟩

/-- A block delivered before its four parents is accepted after them. -/
theorem deliver_confluent_four : ∃ start bm accepted, DagState.new fourContext {} = .ok start ∧
    deliver fourContext (.new start) [[fourBlock 2 1 0],
      [fourBlock 1 0 0, fourBlock 1 1 0, fourBlock 1 2 0, fourBlock 1 3 0]] = .ok (bm, accepted) ∧
    fourBlock 2 1 0 ∈ accepted := by
  let batches := [[fourBlock 2 1 0], [fourBlock 1 0 0, fourBlock 1 1 0, fourBlock 1 2 0, fourBlock 1 3 0]]
  have hcheck : Exec.check (DagState.new fourContext {}) (fun d => d.gcRound fourContext = 0 ∧
      d.recentBlocks.isEmpty) = true := by decide
  obtain ⟨start, hstart, hempty⟩ := exists_of_check hcheck
  rw [decide_eq_true_eq] at hempty
  obtain ⟨hgc, hempty⟩ := hempty
  have hstore : DagState.StoredBlocks fourContext {} := fun r b hr => by simp at hr
  have hhas := (DagState.new_cached hstore hstart).2.2
  have hbuilt : fourContext.committee.Built :=
    .new (show Committee.new 0 [⟨1⟩, ⟨1⟩, ⟨1⟩, ⟨1⟩] = .ok fourContext.committee by decide)
  have hverified : ∀ b ∈ batches.flatten,
      SignedBlockVerifier.verifyBlock fourContext (fun _ => true) b = .ok () := by decide
  have hrefs : ∀ b ∈ batches.flatten, ∀ c ∈ batches.flatten, b.reference = c.reference → b = c := by
    decide
  have hslots : ∀ b ∈ batches.flatten, ∀ c ∈ batches.flatten, c.slot = b.slot → c = b := by decide
  have habove : ∀ b ∈ batches.flatten, 0 < b.round := by decide
  have hrecent : ∀ r, r ∉ start.recentBlocks := by
    rw [Std.ExtTreeMap.isEmpty_iff] at hempty
    intro r
    rw [hempty]
    exact Std.ExtTreeMap.not_mem_empty
  have hall : Acceptable fourContext start {b | b ∈ batches.flatten} {b | b ∈ batches.flatten} := by
    refine ⟨fun b hb => ⟨hb, fun h => ?_⟩, fun b hb a ha => ?_⟩
    · rcases (hhas _).mp h with hg | hs
      · exact absurd (Context.genesis_round hg) (Nat.ne_of_gt (habove b hb))
      · simp at hs
    · have hclosed : ∀ b ∈ batches.flatten, ∀ a ∈ requiredAncestors 0 b,
          (fourContext.genesis a).isSome = true ∨ a ∈ batches.flatten.map (·.reference) := by decide
      rw [hgc] at ha
      rcases hclosed b hb a ha with hg | hmem
      · exact .inl ((hhas a).mpr (.inl hg))
      · exact .inr (mem_map.mp hmem)
  have hbatches : ∀ b, b ∈ batches.flatten ↔ b ∈ {b | b ∈ batches.flatten} := fun _ => .rfl
  obtain ⟨bm, accepted, hrun, _, _, _, hgreatest, _⟩ :=
    deliver_confluent hbuilt (.new hstore hstart) hverified hrefs
      (fun b hb => by rw [hgc]; exact habove b hb)
      (.inr fun b hb _ => ⟨fun r hr => absurd hr (hrecent r), hslots b hb⟩) hbatches
  refine ⟨start, bm, accepted, hstart, hrun, hgreatest.2 hall ?_⟩
  decide

/-- Two blocks of the own authority in one slot: the DAG does not take the second one. -/
theorem deliver_own_slot_taken : ∃ start, DagState.new fourContext {} = .ok start ∧
    (∀ b ∈ [fourBlock 1 0 0, fourBlock 1 0 1], start.gcRound fourContext < b.round ∧
      SignedBlockVerifier.verifyBlock fourContext (fun _ => true) b = .ok ()) ∧
    deliver fourContext (.new start) [[fourBlock 1 0 0, fourBlock 1 0 1]] = .error .ownSlotTaken := by
  have hcheck : Exec.check (DagState.new fourContext {}) (fun d => d.gcRound fourContext = 0 ∧
      (deliver fourContext (.new d) [[fourBlock 1 0 0, fourBlock 1 0 1]]).map (fun _ => ()) =
        .error .ownSlotTaken) = true := by decide +kernel
  obtain ⟨start, hstart, hfails⟩ := exists_of_check hcheck
  obtain ⟨hgc, hfails⟩ := of_decide_eq_true hfails
  refine ⟨start, hstart, by rw [hgc]; decide, ?_⟩
  cases hrun : deliver fourContext (.new start) [[fourBlock 1 0 0, fourBlock 1 0 1]] with
  | ok r =>
    rw [hrun] at hfails
    cases hfails
  | error e =>
    rw [hrun] at hfails
    cases hfails
    rfl

end BlockManager

end Sui.Consensus
