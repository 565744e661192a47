import Sui.Consensus.BlockManager.Unsuspend

/-! The representation invariant of the block manager.

`Representation` says how the three maps and the DAG fit together. It holds in
every state reached by calls to the block manager, over blocks whose ancestors have
lower rounds, while commits raise the gc round and flushes evict blocks; and no call
fails but where the DAG refuses a block (`reachable_representation`). -/
namespace Sui.Consensus.BlockManager

open Sui.Lib BTreeMap Exec DagState BlockManager

variable (ctx : Context)

/-- The maps agree with each other and with the DAG. -/
structure Representation (bm : BlockManager) : Prop where
  /-- Under a missing ancestor are exactly the suspended blocks that miss it. -/
  dependents : ∀ (a : BlockRef) refs, bm.missingAncestors[a]? = some refs →
    ∀ r, r ∈ refs ↔ bm.Waits r a
  recorded : ∀ r a, bm.Waits r a → a ∈ bm.missingAncestors
  missingBlocks : ∀ a, a ∈ bm.missingBlocks ↔ a ∈ bm.missingAncestors ∧ a ∉ bm.suspendedBlocks
  suspendedNotInDag : ∀ r ∈ bm.suspendedBlocks, ¬bm.dagState.Has ctx r
  missingNotInDag : ∀ a ∈ bm.missingAncestors, ¬bm.dagState.Has ctx a
  suspendedMisses : ∀ (r : BlockRef) s, bm.suspendedBlocks[r]? = some s → ∃ a, a ∈ s.missingAncestors

/-- What the proofs carry along: `Representation`, and what it needs to be kept. -/
structure Inv (needs : VerifiedBlock → BlockRef → Prop) (known : Set BlockRef) (bm : BlockManager) :
    Prop where
  consistent : ∀ dep, Consistent needs known ∅ dep [] bm
  cached : bm.dagState.Cached ctx
  suspendedNew : ∀ r ∈ bm.suspendedBlocks, ¬bm.dagState.Has ctx r
  missingNew : ∀ a ∈ bm.missingAncestors, ¬bm.dagState.Has ctx a

variable {ctx} {needs : VerifiedBlock → BlockRef → Prop} {known : Set BlockRef} {bm : BlockManager}
  {r : BlockRef} {block : VerifiedBlock}

theorem Consistent.dependent_iff
    (h : Consistent needs known todo dep [] bm) (a r : BlockRef) : bm.Waits r a ↔ bm.Dependent a r := by
  rw [h.linked a r]
  simp

theorem Inv.representation (h : Inv ctx needs known bm) : Representation ctx bm := by
  have hcon := h.consistent ⟨0, 0, 0⟩
  refine ⟨fun a refs hrefs r => ?_, fun r a hw => ?_, fun a => ?_, h.suspendedNew, h.missingNew, hcon.nonempty⟩
  · rw [hcon.dependent_iff]
    constructor
    · exact fun hr => ⟨refs, hrefs, hr⟩
    · rintro ⟨refs', hrefs', hr⟩
      rw [hrefs] at hrefs'
      cases hrefs'
      exact hr
  · obtain ⟨refs, hrefs, _⟩ := (hcon.dependent_iff a r).mp hw
    exact mem_of_get hrefs
  · rw [hcon.missing]
    simp

/-- Before the children of `r` are unsuspended. -/
structure Accepting (ctx : Context) (needs : VerifiedBlock → BlockRef → Prop) (known : Set BlockRef)
    (r : BlockRef) (bm : BlockManager) : Prop where
  consistent : Consistent needs known {r} r [] bm
  cached : bm.dagState.Cached ctx
  suspendedNew : ∀ x ∈ bm.suspendedBlocks, ¬bm.dagState.Has ctx x
  missingNew : ∀ a ∈ bm.missingAncestors, a ≠ r → ¬bm.dagState.Has ctx a

/-- What the DAG gains when the children of `r` are accepted after `blocks`. -/
structure Accepted (ctx : Context) (needs : VerifiedBlock → BlockRef → Prop) (known : Set BlockRef)
    (r : BlockRef) (blocks : List VerifiedBlock) (bm bm' : BlockManager)
    (accepted : List VerifiedBlock) : Prop where
  inv : Inv ctx needs (known ∪ refsOf accepted) bm'
  has : ∀ x, bm'.dagState.Has ctx x ↔ bm.dagState.Has ctx x ∨ x ∈ refsOf accepted
  unsuspended : ∃ children, accepted = blocks ++ children ∧ Resolves needs known children ∧
    (∀ b ∈ children, ∃ s, bm.suspendedBlocks[b.reference]? = some s ∧ s.block = b) ∧
    (children.map (·.reference)).Nodup ∧
    (∀ x ∈ bm.suspendedBlocks, x ∈ bm'.suspendedBlocks ∨ x ∈ refsOf children)
  kept : ∀ (x : BlockRef) s', bm'.suspendedBlocks[x]? = some s' →
    ∃ s, bm.suspendedBlocks[x]? = some s ∧ s.block = s'.block
  missingAncestors : ∀ (a : BlockRef) refs, bm'.missingAncestors[a]? = some refs →
    a ≠ r ∧ bm.missingAncestors[a]? = some refs

theorem acceptWithChildren_spec (h : Accepting ctx needs known r bm) (hblocks : refsOf blocks ⊆ {r}) :
    Exec.Sat (bm.acceptWithChildren ctx r blocks)
      (fun res => Accepted ctx needs known r blocks bm res.1 res.2) (· ∈ acceptPanics) := by
  obtain ⟨bm₁, children, hrun, hun, hres, hcon, hget⟩ := tryUnsuspendChildrenBlocks_spec h.consistent
  have hcached : bm₁.dagState.Cached ctx := hun.dagState ▸ h.cached
  have hnotr : r ∉ bm₁.suspendedBlocks := fun hmem =>
    (h.consistent.accepted r rfl).1 (hun.mem_of_mem hmem)
  have hmissing : ∀ (a : BlockRef) refs, bm₁.missingAncestors[a]? = some refs →
      a ≠ r ∧ a ∉ refsOf children ∧ bm.missingAncestors[a]? = some refs := by
    intro a refs ha
    rw [hget] at ha
    split at ha
    · cases ha
    · rename_i hne
      rw [not_or] at hne
      exact ⟨hne.1, hne.2, ha⟩
  unfold acceptWithChildren
  rw [bind_ok hrun]
  simp only
  refine (acceptBlocks_sat hcached).bind ?_
  rintro d ⟨hc, hhas, -⟩
  replace hhas : ∀ x, d.Has ctx x ↔ bm.dagState.Has ctx x ∨ x ∈ refsOf (blocks ++ children) := by
    rw [← hun.dagState]
    exact hhas
  have hfresh : ∀ x, ¬bm.dagState.Has ctx x → x ≠ r → x ∉ refsOf children → ¬d.Has ctx x := by
    intro x hx hxr hxc hd
    rw [hhas, refsOf_append] at hd
    rcases hd with hd | hd | hd
    · exact hx hd
    · exact hxr (hblocks hd)
    · exact hxc hd
  refine ⟨⟨fun dep => ?_, hc, fun x hx => ?_, fun a ha => ?_⟩, hhas,
    ⟨children, rfl, hres, hun.taken, hun.nodup, hun.rest⟩, hun.kept, fun a refs ha => ?_⟩
  · have hmono : known ∪ refsOf children ⊆ known ∪ refsOf (blocks ++ children) := by
      rw [refsOf_append]
      exact Set.union_subset_union_right _ Set.subset_union_right
    have hset : Consistent needs (known ∪ refsOf children) ∅ dep [] bm₁ := hcon.settled
    exact ⟨hset.linked, hset.missing, fun x hx => absurd hx (Set.notMem_empty x), hset.nonempty,
      hset.keyed, fun x s hs a ha => (hset.resolved x s hs a ha).imp_left fun hk => hmono hk⟩
  · refine hfresh x (h.suspendedNew x (hun.mem_of_mem hx)) ?_ fun hc => hun.not_mem_of_taken hc hx
    rintro rfl
    exact hnotr hx
  · obtain ⟨refs, hrefs⟩ := mem_iff_get.mp ha
    obtain ⟨hne, hnc, hold⟩ := hmissing a refs hrefs
    exact hfresh a (h.missingNew a (mem_of_get hold) hne) hne hnc
  · obtain ⟨hne, _, hold⟩ := hmissing a refs ha
    exact ⟨hne, hold⟩

/-! ### Receiving a block -/

/-- The loop over the missing ancestors of one block. -/
theorem addMissingAncestors_spec (blockRef : BlockRef) (missing : List BlockRef) (bm : BlockManager) :
    let bm' := missing.foldl (addMissingAncestor blockRef) bm
    bm'.dagState = bm.dagState ∧ bm'.suspendedBlocks = bm.suspendedBlocks ∧
      (∀ a r, bm'.Dependent a r ↔ bm.Dependent a r ∨ (r = blockRef ∧ a ∈ missing)) ∧
      (∀ a, a ∈ bm'.missingAncestors ↔ a ∈ bm.missingAncestors ∨ a ∈ missing) ∧
      ∀ a, a ∈ bm'.missingBlocks ↔ a ∈ bm.missingBlocks ∨ (a ∈ missing ∧ a ∉ bm.suspendedBlocks) := by
  induction missing generalizing bm with
  | nil => simp
  | cons x rest ih =>
    obtain ⟨hd, hs, hdep, hkeys, hmb⟩ := ih (addMissingAncestor blockRef bm x)
    refine ⟨hd, hs, fun a r => ?_, fun a => ?_, fun a => ?_⟩
    · rw [List.foldl_cons, hdep, List.mem_cons]
      have hone : (addMissingAncestor blockRef bm x).Dependent a r ↔
          bm.Dependent a r ∨ (r = blockRef ∧ a = x) := by
        show (∃ refs, (bm.missingAncestors.insert x _)[a]? = some refs ∧ r ∈ refs) ↔ _
        rw [get_insert]
        by_cases hxa : x = a
        · subst hxa
          simp only [if_true, Option.some.injEq, exists_eq_left', BTreeSet.mem_insert_iff]
          cases hx : bm.missingAncestors[x]? with
          | none =>
            constructor
            · rintro (rfl | hr)
              · exact .inr ⟨rfl, trivial⟩
              · simp at hr
            · rintro (⟨refs, hrefs, _⟩ | ⟨rfl, _⟩)
              · rw [hx] at hrefs
                cases hrefs
              · exact .inl rfl
          | some refs =>
            constructor
            · rintro (rfl | hr)
              · exact .inr ⟨rfl, trivial⟩
              · exact .inl ⟨refs, hx, hr⟩
            · rintro (⟨refs', hrefs', hr⟩ | ⟨rfl, _⟩)
              · rw [hx] at hrefs'
                cases hrefs'
                exact .inr hr
              · exact .inl rfl
        · rw [if_neg hxa]
          constructor
          · exact .inl
          · rintro (hr | ⟨_, rfl⟩)
            · exact hr
            · exact absurd rfl hxa
      rw [hone]
      tauto
    · rw [List.foldl_cons, hkeys, List.mem_cons]
      show (a ∈ bm.missingAncestors.insert x _ ∨ _) ↔ _
      rw [mem_insert_iff, eq_comm (a := x)]
      tauto
    · rw [List.foldl_cons, hmb, List.mem_cons]
      have hone : a ∈ (addMissingAncestor blockRef bm x).missingBlocks ↔
          a ∈ bm.missingBlocks ∨ (a = x ∧ a ∉ bm.suspendedBlocks) := by
        show a ∈ (if x ∈ bm.suspendedBlocks then bm.missingBlocks else bm.missingBlocks.insert x) ↔ _
        split
        · rename_i hx
          constructor
          · exact .inl
          · rintro (ha | ⟨rfl, hns⟩)
            · exact ha
            · exact absurd hx hns
        · rename_i hx
          rw [BTreeSet.mem_insert_iff]
          constructor
          · rintro (rfl | ha)
            · exact .inr ⟨rfl, hx⟩
            · exact .inl ha
          · rintro (ha | ⟨rfl, _⟩)
            · exact .inr ha
            · exact .inl rfl
      rw [hone]
      tauto

theorem mem_missingOf (hc : bm.dagState.Cached ctx) :
    a ∈ bm.missingOf ctx block ↔
      a ∈ requiredAncestors (bm.dagState.gcRound ctx) block ∧ ¬bm.dagState.Has ctx a := by
  unfold missingOf
  rw [List.mem_filter]
  refine and_congr_right fun ha => ?_
  have hreq : a.round = GENESIS_ROUND ∨ bm.dagState.gcRound ctx < a.round := by
    simpa [requiredAncestors] using (List.mem_filter.mp ha).2
  rw [← containsBlock_iff hc hreq]
  simp

/-- A new block with missing ancestors is suspended, and waits for each of them. -/
structure Suspends (ctx : Context) (needs : VerifiedBlock → BlockRef → Prop) (known : Set BlockRef)
    (bm : BlockManager) (block : VerifiedBlock) (bm' : BlockManager) : Prop where
  fresh : block.reference ∉ bm.suspendedBlocks
  inv : Inv ctx needs known bm'
  dagState : bm'.dagState = bm.dagState
  dependent_iff : ∀ a r, bm'.Dependent a r ↔
    bm.Dependent a r ∨ (r = block.reference ∧ a ∈ bm.missingOf ctx block)
  mem_missingAncestors : ∀ a, a ∈ bm'.missingAncestors ↔ a ∈ bm.missingAncestors ∨ a ∈ bm.missingOf ctx block
  suspendedBlocks : ∀ r : BlockRef, (bm'.suspendedBlocks[r]?).map (·.block) =
    if block.reference = r then some block else (bm.suspendedBlocks[r]?).map (·.block)

section
variable (h : Inv ctx needs known bm)
include h

/-- A block with missing ancestors is suspended. -/
theorem suspend_spec (hlower : ∀ a ∈ block.ancestors, a.round < block.round)
    (hneeds : ∀ a, needs block a → a ∈ known ∨ a ∈ bm.missingOf ctx block)
    (hsus : block.reference ∉ bm.suspendedBlocks) (hnew : ¬bm.dagState.Has ctx block.reference)
    (hmissing : bm.missingOf ctx block ≠ []) :
    let marked := (bm.missingOf ctx block).foldl (addMissingAncestor block.reference) bm
    Inv ctx needs known { marked with
      missingBlocks := marked.missingBlocks.erase block.reference
      suspendedBlocks := marked.suspendedBlocks.insert block.reference
        ⟨block, (bm.missingOf ctx block).foldl (fun s a => s.insert a) ∅⟩ } := by
  intro marked
  obtain ⟨hd, hs, hdep, hkeys, hmb⟩ := addMissingAncestors_spec block.reference (bm.missingOf ctx block) bm
  have hcon := h.consistent ⟨0, 0, 0⟩
  have hset : ∀ a, a ∈ (bm.missingOf ctx block).foldl (fun s a => s.insert a) (∅ : BTreeSet BlockRef) ↔
      a ∈ bm.missingOf ctx block := by
    intro a
    rw [BTreeSet.mem_foldl_insert]
    simp
  have hlow : ∀ a ∈ bm.missingOf ctx block, a.round < block.round := by
    intro a ha
    exact hlower a (List.mem_filter.mp ((mem_missingOf h.cached).mp ha).1).1
  have hget : ∀ (r : BlockRef) s, (marked.suspendedBlocks.insert block.reference
      ⟨block, (bm.missingOf ctx block).foldl (fun s a => s.insert a) ∅⟩)[r]? = some s →
      (block.reference = r ∧ s = ⟨block, (bm.missingOf ctx block).foldl (fun s a => s.insert a) ∅⟩) ∨
        bm.suspendedBlocks[r]? = some s := by
    intro r s hr
    rw [hs] at hr
    exact (insert_eq_some.mp hr).imp (And.imp_right Eq.symm) And.right
  refine ⟨fun dep => ⟨fun a r => ?_, fun a => ?_, fun r hr => absurd hr (Set.notMem_empty r),
    fun r s hr => ?_, fun r s hr => ?_, fun r s hr a ha => ?_⟩, ?_, fun r hr => ?_, fun a ha => ?_⟩
  · show (∃ s, (marked.suspendedBlocks.insert block.reference _)[r]? = some s ∧ _) ↔ marked.Dependent a r ∨ _
    rw [hdep, ← hcon.dependent_iff a r, hs, get_insert]
    by_cases hr : block.reference = r
    · subst hr
      have hnone : ¬bm.Waits block.reference a := fun ⟨s, hs, _⟩ =>
        hsus (mem_of_get hs)
      simp [hset, hnone]
    · rw [if_neg hr]
      show bm.Waits r a ↔ _
      simp [Ne.symm hr]
  · rw [BTreeSet.mem_erase_iff, hmb, hkeys, hs, mem_insert_iff, hcon.missing]
    tauto
  · rcases hget r s hr with ⟨_, rfl⟩ | hold
    · obtain ⟨a, ha⟩ := List.exists_mem_of_ne_nil _ hmissing
      exact ⟨a, (hset a).mpr ha⟩
    · exact hcon.nonempty r s hold
  · rcases hget r s hr with ⟨rfl, rfl⟩ | hold
    · exact ⟨rfl, fun a ha => hlow a ((hset a).mp ha)⟩
    · exact hcon.keyed r s hold
  · rcases hget r s hr with ⟨rfl, rfl⟩ | hold
    · exact (hneeds a ha).imp_right (hset a).mpr
    · exact hcon.resolved r s hold a ha
  · rw [hd]
    exact h.cached
  · rw [hd]
    obtain ⟨s, hr⟩ := mem_iff_get.mp hr
    rcases hget r s hr with ⟨rfl, _⟩ | hold
    · exact hnew
    · exact h.suspendedNew r (mem_of_get hold)
  · rw [hd]
    rcases (hkeys a).mp ha with hold | hm
    · exact h.missingNew a hold
    · exact ((mem_missingOf h.cached).mp hm).2

/-- A block with no missing ancestor is ready to be accepted. -/
theorem accepting_of_inv (hsus : r ∉ bm.suspendedBlocks) :
    Accepting ctx needs (insert r known) r { bm with missingBlocks := bm.missingBlocks.erase r } := by
  have hcon := h.consistent r
  refine ⟨⟨hcon.linked, fun a => ?_, fun x hx => ?_, hcon.nonempty, hcon.keyed, fun x s hx a ha => ?_⟩,
    h.cached, h.suspendedNew, fun a ha _ => h.missingNew a ha⟩
  · rw [BTreeSet.mem_erase_iff, hcon.missing]
    tauto
  · obtain rfl := Set.mem_singleton_iff.mp hx
    exact ⟨hsus, .inl rfl⟩
  · exact (hcon.resolved x s hx a ha).imp_left .inr

/-- The three outcomes of receiving a block. -/
theorem tryAcceptOneBlock_cases (hlower : ∀ a ∈ block.ancestors, a.round < block.round)
    (hneeds : ∀ a, needs block a → a ∈ known ∨ a ∈ bm.missingOf ctx block) :
    (∃ res, bm.tryAcceptOneBlock ctx block = (bm, res) ∧ (res = .processed ∨ res = .skipped) ∧
      (block.reference ∈ bm.suspendedBlocks ∨ bm.dagState.Has ctx block.reference ∨
        block.round ≤ bm.dagState.gcRound ctx)) ∨
    (bm.tryAcceptOneBlock ctx block =
        ({ bm with missingBlocks := bm.missingBlocks.erase block.reference }, .accepted block) ∧
      block.reference ∉ bm.suspendedBlocks ∧ ¬bm.dagState.Has ctx block.reference ∧
      bm.missingOf ctx block = []) ∨
    ∃ bm' toFetch, bm.tryAcceptOneBlock ctx block = (bm', .suspended toFetch) ∧
      Suspends ctx needs known bm block bm' := by
  unfold tryAcceptOneBlock
  simp only
  split
  · rename_i hknown
    refine .inl ⟨_, rfl, .inl rfl, ?_⟩
    exact hknown.imp_right fun hc => .inl (has_of_containsBlock h.cached hc)
  · rename_i hnew
    rw [not_or] at hnew
    split
    · rename_i hgc
      exact .inl ⟨_, rfl, .inr rfl, .inr (.inr hgc)⟩
    · rename_i hgc
      have hhas : ¬bm.dagState.Has ctx block.reference := fun hh =>
        hnew.2 (containsBlock_of_has h.cached (.inr (Nat.lt_of_not_le hgc)) hh)
      right
      split
      · rename_i hempty
        have hnil : bm.missingOf ctx block = [] := List.isEmpty_iff.mp hempty
        left
        refine ⟨?_, hnew.1, hhas, hnil⟩
        rw [hnil]
        rfl
      · rename_i hne
        right
        have hmissing : bm.missingOf ctx block ≠ [] := fun hnil => hne (List.isEmpty_iff.mpr hnil)
        obtain ⟨hd, hs, hdep, hkeys, _⟩ := addMissingAncestors_spec block.reference (bm.missingOf ctx block) bm
        refine ⟨_, _, rfl, hnew.1, suspend_spec h hlower hneeds hnew.1 hhas hmissing, hd, hdep, hkeys, fun r => ?_⟩
        rw [get_insert, hs]
        split
        · rfl
        · rfl

end

/-! ### Committed blocks -/

theorem forget_dependents (r : BlockRef) (ancestors : List BlockRef) (m : BTreeMap BlockRef (BTreeSet BlockRef)) :
    let m' := ancestors.foldl (fun m a => m.modify a fun refs => refs.erase r) m
    (∀ a : BlockRef, a ∈ m' ↔ a ∈ m) ∧
      ∀ a x : BlockRef, (∃ refs, m'[a]? = some refs ∧ x ∈ refs) ↔
        (∃ refs, m[a]? = some refs ∧ x ∈ refs) ∧ ¬(x = r ∧ a ∈ ancestors) := by
  induction ancestors generalizing m with
  | nil => simp
  | cons b rest ih =>
    obtain ⟨hkeys, hdep⟩ := ih (m.modify b fun refs => refs.erase r)
    refine ⟨fun a => ?_, fun a x => ?_⟩
    · rw [List.foldl_cons, hkeys, Std.ExtTreeMap.mem_modify]
    · rw [List.foldl_cons, hdep, get_modify, List.mem_cons]
      by_cases hab : b = a
      · subst hab
        rw [if_pos rfl]
        cases m[b]? with
        | none => simp
        | some refs =>
          simp only [Option.map_some, Option.some.injEq, exists_eq_left', BTreeSet.mem_erase_iff,
            true_or, and_true]
          constructor
          · rintro ⟨⟨hne, hx⟩, _⟩
            exact ⟨hx, Ne.symm hne⟩
          · rintro ⟨hx, hne⟩
            exact ⟨⟨Ne.symm hne, hx⟩, fun hr => hne hr.1⟩
      · rw [if_neg hab]
        simp [Ne.symm hab]

/-- A committed block stops waiting before it is accepted. -/
theorem forgetSuspended_spec (h : Inv ctx needs known bm) (r : BlockRef) :
    let bm' := { bm with missingBlocks := bm.missingBlocks.erase r }.forgetSuspended r
    Consistent needs (insert r known) {r} r [] bm' ∧ bm'.dagState = bm.dagState ∧
      (∀ x ∈ bm'.suspendedBlocks, x ∈ bm.suspendedBlocks ∧ x ≠ r) ∧
      ∀ a, a ∈ bm'.missingAncestors ↔ a ∈ bm.missingAncestors := by
  have hcon := h.consistent r
  simp only [forgetSuspended]
  split
  · rename_i hnone
    have hsus : r ∉ bm.suspendedBlocks := not_mem_iff_get.mpr hnone
    refine ⟨(accepting_of_inv h hsus).consistent, rfl, fun x hx => ⟨hx, ?_⟩, fun _ => .rfl⟩
    rintro rfl
    exact hsus hx
  · rename_i s hs
    obtain ⟨hkeys, hdep⟩ := forget_dependents r s.missingAncestors.toList bm.missingAncestors
    have hmem : ∀ x, x ∈ bm.suspendedBlocks.erase r ↔ r ≠ x ∧ x ∈ bm.suspendedBlocks := fun x => mem_erase_iff
    have hget : ∀ (x : BlockRef) t, (bm.suspendedBlocks.erase r)[x]? = some t →
        bm.suspendedBlocks[x]? = some t := by
      intro x t hx
      exact (erase_eq_some.mp hx).2
    refine ⟨⟨fun a x => ?_, fun a => ?_, fun x hx => ?_, fun x t hx => hcon.nonempty x t (hget x t hx),
      fun x t hx => hcon.keyed x t (hget x t hx), fun x t hx a ha => ?_⟩, rfl,
      fun x hx => ⟨((hmem x).mp hx).2, Ne.symm ((hmem x).mp hx).1⟩, hkeys⟩
    · show (∃ t, (bm.suspendedBlocks.erase r)[x]? = some t ∧ _) ↔ (∃ refs, _ ∧ _) ∨ _
      rw [hdep a x, get_erase, Std.ExtTreeSet.mem_toList]
      have hold : bm.Waits x a ↔ ∃ refs, bm.missingAncestors[a]? = some refs ∧ x ∈ refs := hcon.dependent_iff a x
      rw [← hold]
      by_cases hx : r = x
      · subst hx
        simp [waits_iff hs]
      · rw [if_neg hx]
        show bm.Waits x a ↔ _
        simp [Ne.symm hx]
    · rw [hkeys, hmem, BTreeSet.mem_erase_iff, hcon.missing]
      tauto
    · obtain rfl := Set.mem_singleton_iff.mp hx
      exact ⟨fun hm => ((hmem x).mp hm).1 rfl, .inl rfl⟩
    · exact (hcon.resolved x t (hget x t hx) a ha).imp_left .inr

theorem tryAcceptOneCommittedBlock_spec (h : Inv ctx needs known bm) (block : VerifiedBlock) :
    Exec.Sat (bm.tryAcceptOneCommittedBlock ctx block)
      (fun res => (res = (bm, .processed)) ∨
        (res.2 = .accepted block ∧ Accepting ctx needs (insert block.reference known) block.reference res.1))
      (· ∈ acceptPanics) := by
  obtain ⟨hcon, hd, hsus, hkeys⟩ := forgetSuspended_spec h block.reference
  unfold tryAcceptOneCommittedBlock
  split
  · exact .inl rfl
  · simp only
    rw [hd]
    refine (acceptBlocks_sat h.cached).bind ?_
    rintro d ⟨hc, hhas, -⟩
    simp only [List.map_singleton, List.mem_singleton] at hhas
    right
    refine ⟨rfl, ⟨hcon.linked, hcon.missing, hcon.accepted, hcon.nonempty, hcon.keyed, hcon.resolved⟩,
      hc, fun x hx => ?_, fun a ha hne => ?_⟩
    · obtain ⟨hx, hne⟩ := hsus x hx
      rw [hhas, not_or]
      exact ⟨h.suspendedNew x hx, hne⟩
    · rw [hhas, not_or]
      exact ⟨h.missingNew a ((hkeys a).mp ha), hne⟩

/-! ### Whole calls -/

/-- The invariant, when nothing is said about what blocks need. -/
def Sound (ctx : Context) (bm : BlockManager) : Prop := Inv ctx (fun _ _ => False) Set.univ bm

theorem Accepted.sound (h : Accepted ctx (fun _ _ => False) known r blocks bm bm' accepted) : Sound ctx bm' := by
  obtain ⟨hcon, hc, hs, hm⟩ := h.inv
  exact ⟨fun dep => ⟨(hcon dep).linked, (hcon dep).missing, fun x hx => absurd hx (Set.notMem_empty x),
    (hcon dep).nonempty, (hcon dep).keyed, fun _ _ _ _ ha => ha.elim⟩, hc, hs, hm⟩

theorem acceptInput_sound (h : Sound ctx bm) (committed : Bool)
    (hlower : ∀ a ∈ block.ancestors, a.round < block.round) :
    Exec.Sat (bm.acceptInput ctx committed block)
      (fun res => Sound ctx res.1 ∧ (committed = true → ∀ r, r ∉ res.2.2)) (· ∈ acceptPanics) := by
  unfold acceptInput
  cases committed with
  | true =>
    refine Exec.Sat.bind (tryAcceptOneCommittedBlock_spec h block) ?_
    rintro ⟨bm', res⟩ (heq | ⟨hres, hacc⟩)
    · cases heq
      exact ⟨h, fun _ r => by simp⟩
    · subst hres
      refine Exec.Sat.bind (acceptWithChildren_spec hacc (by simp)) ?_
      rintro ⟨bm₂, blocks⟩ haccepted
      exact ⟨haccepted.sound, fun _ r => by simp⟩
  | false =>
    rcases tryAcceptOneBlock_cases h hlower (fun _ ha => ha.elim) with
      ⟨res, hrun, hres | hres, _⟩ | ⟨hrun, hsus, _, _⟩ | ⟨bm', toFetch, hrun, hsuspends⟩
    · subst hres
      simp only [hrun, Bool.false_eq_true, if_false]
      exact ⟨h, fun hc => by simp at hc⟩
    · subst hres
      simp only [hrun, Bool.false_eq_true, if_false]
      exact ⟨h, fun hc => by simp at hc⟩
    · simp only [hrun, Bool.false_eq_true, if_false]
      refine Exec.Sat.bind (acceptWithChildren_spec (accepting_of_inv h hsus) ?_) ?_
      · rw [refsOf_cons, refsOf_nil]
        exact fun x hx => hx.elim id fun hx => absurd hx (Set.notMem_empty x)
      · rintro ⟨bm₂, blocks⟩ haccepted
        exact ⟨haccepted.sound, fun hc => by simp at hc⟩
    · simp only [hrun, Bool.false_eq_true, if_false]
      exact ⟨hsuspends.inv, fun hc => by simp at hc⟩

theorem acceptInputs_sound (committed : Bool)
    (hlower : ∀ b ∈ blocks, ∀ a ∈ b.ancestors, a.round < b.round) (h : Sound ctx bm) :
    Exec.Sat (acceptInputs ctx committed bm blocks)
      (fun res => Sound ctx res.1 ∧ (committed = true → ∀ r, r ∉ res.2.2)) (· ∈ acceptPanics) := by
  induction blocks generalizing bm with
  | nil => exact ⟨h, fun _ r => by simp⟩
  | cons b rest ih =>
    refine Exec.Sat.bind (acceptInput_sound h committed (hlower b (.head _))) ?_
    rintro ⟨bm₁, accepted, missing⟩ ⟨h₁, hm₁⟩
    refine Exec.Sat.bind (ih (fun c hc => hlower c (.tail _ hc)) h₁) ?_
    rintro ⟨bm₂, accepted', missing'⟩ ⟨h₂, hm₂⟩
    refine ⟨h₂, fun hc r => ?_⟩
    rw [BTreeSet.mem_foldl_insert, Std.ExtTreeSet.mem_toList, not_or]
    exact ⟨hm₁ hc r, hm₂ hc r⟩

section
variable (h : Inv ctx needs known bm)
include h

/-- A ref that is neither in the DAG nor suspended becomes missing. -/
theorem addMissingBlock_inv (hsus : r ∉ bm.suspendedBlocks) (hnew : ¬bm.dagState.Has ctx r) :
    Inv ctx needs known (bm.addMissingBlock r) := by
  unfold addMissingBlock
  split
  · exact h
  · have hcon := h.consistent r
    have hmem : ∀ a, a ∈ bm.missingAncestors.insert r (bm.missingAncestors[r]?.getD ∅) ↔
        r = a ∨ a ∈ bm.missingAncestors := fun a => mem_insert_iff
    refine ⟨fun dep => ⟨fun a x => ?_, fun a => ?_, fun x hx => absurd hx (Set.notMem_empty x),
      hcon.nonempty, hcon.keyed, hcon.resolved⟩, h.cached, h.suspendedNew, fun a ha => ?_⟩
    · refine (hcon.dependent_iff a x).trans ?_
      show (∃ refs, _) ↔ (∃ refs, (bm.missingAncestors.insert r _)[a]? = some refs ∧ _) ∨ _
      rw [get_insert]
      by_cases ha : r = a
      · subst ha
        cases bm.missingAncestors[r]? with
        | none => simp
        | some refs => simp
      · simp [ha]
    · rw [BTreeSet.mem_insert_iff, hmem, hcon.missing]
      simp only [Set.mem_empty_iff_false, not_false_eq_true, and_true]
      constructor
      · rintro (rfl | ⟨ha, hs⟩)
        · exact ⟨.inl rfl, hsus⟩
        · exact ⟨.inr ha, hs⟩
      · rintro ⟨rfl | ha, hs⟩
        · exact .inl rfl
        · exact .inr ⟨ha, hs⟩
    · rcases (hmem a).mp ha with rfl | ha
      · exact hnew
      · exact h.missingNew a ha

theorem addMissingBlocks_inv {missing : List BlockRef}
    (hmissing : ∀ r ∈ missing, r ∉ bm.suspendedBlocks ∧ ¬bm.dagState.Has ctx r) :
    Inv ctx needs known (missing.foldl addMissingBlock bm) := by
  induction missing generalizing bm with
  | nil => exact h
  | cons r rest ih =>
    have hsame : (bm.addMissingBlock r).suspendedBlocks = bm.suspendedBlocks ∧
        (bm.addMissingBlock r).dagState = bm.dagState := by
      unfold addMissingBlock
      split
      · exact ⟨rfl, rfl⟩
      · exact ⟨rfl, rfl⟩
    obtain ⟨hs, hn⟩ := hmissing r (.head _)
    refine ih (addMissingBlock_inv h hs hn) fun x hx => ?_
    rw [hsame.1, hsame.2]
    exact hmissing x (.tail _ hx)

theorem tryFindBlocks_inv (refs : List BlockRef) : Inv ctx needs known (bm.tryFindBlocks ctx refs).1 := by
  refine addMissingBlocks_inv h fun r hr => ?_
  simp only [List.mem_filter, List.mem_insertionSort, Bool.and_eq_true, Bool.not_eq_true',
    decide_eq_false_iff_not, decide_eq_true_eq] at hr
  obtain ⟨⟨_, hgc⟩, hc, hs⟩ := hr
  refine ⟨hs, fun hh => ?_⟩
  rw [containsBlock_of_has h.cached (.inr hgc) hh] at hc
  cases hc

/-- The lowest missing ancestor is not suspended: what it misses would be lower. -/
theorem firstKey_not_suspended (hmin : bm.missingAncestors.firstKey? = some r) : r ∉ bm.suspendedBlocks := by
  intro hmem
  have hcon := h.consistent r
  obtain ⟨s, hs⟩ := mem_iff_get.mp hmem
  obtain ⟨a, ha⟩ := hcon.nonempty r s hs
  obtain ⟨refs, hrefs, _⟩ := (hcon.dependent_iff a r).mp ⟨s, hs, ha⟩
  have hle := (firstKey_eq_some _ hmin).2 a (mem_of_get hrefs)
  have hlt := (hcon.keyed r s hs).2 a ha
  exact absurd (BlockRef.round_le_of_le hle) (Nat.not_le_of_lt hlt)

end

theorem unsuspendGcLoop_sound (gcRound fuel : Nat) (h : Sound ctx bm)
    (hfuel : (BTreeMap.keySet bm.missingAncestors).card < fuel) :
    Exec.Sat (unsuspendGcLoop ctx gcRound fuel bm) (Sound ctx) (· ∈ acceptPanics) := by
  induction fuel generalizing bm with
  | zero => omega
  | succ fuel ih =>
    unfold unsuspendGcLoop
    cases hmin : bm.missingAncestors.firstKey? with
    | none => exact h
    | some r =>
      simp only
      split
      · exact h
      · have hsus := firstKey_not_suspended h hmin
        have hmem := (firstKey_eq_some _ hmin).1
        rw [bind_ok (assert_of hsus)]
        refine Exec.Sat.bind (acceptWithChildren_spec (accepting_of_inv h hsus) (by simp)) ?_
        rintro ⟨bm', accepted⟩ haccepted
        refine ih haccepted.sound (lt_of_lt_of_le ?_ (Nat.le_of_lt_succ hfuel))
        apply Finset.card_lt_card
        refine Finset.ssubset_iff_subset_ne.mpr ⟨fun a ha => ?_, fun heq => ?_⟩
        · rw [mem_keySet] at ha ⊢
          obtain ⟨refs, hrefs⟩ := mem_iff_get.mp ha
          exact mem_of_get ((haccepted.missingAncestors a refs hrefs).2)
        · have hr : r ∈ bm'.missingAncestors := by
            rw [← mem_keySet, heq, mem_keySet]
            exact hmem
          obtain ⟨refs, hrefs⟩ := mem_iff_get.mp hr
          exact (haccepted.missingAncestors r refs hrefs).1 rfl

/-! ### Runs -/

inductive Call
  | tryAcceptBlocks (blocks : List VerifiedBlock)
  | tryAcceptCommittedBlocks (blocks : List VerifiedBlock)
  | tryFindBlocks (refs : List BlockRef)
  | tryUnsuspendBlocksForLatestGcRound

namespace Call

def run (ctx : Context) (bm : BlockManager) : Call → Exec BlockManager
  | .tryAcceptBlocks blocks => do
    let (bm, _, _) ← bm.tryAcceptBlocks ctx blocks
    return bm
  | .tryAcceptCommittedBlocks blocks => do
    let (bm, _) ← bm.tryAcceptCommittedBlocks ctx blocks
    return bm
  | .tryFindBlocks refs => .ok (bm.tryFindBlocks ctx refs).1
  | .tryUnsuspendBlocksForLatestGcRound => bm.tryUnsuspendBlocksForLatestGcRound ctx

/-- The blocks a call brings in. -/
def blocks : Call → List VerifiedBlock
  | .tryAcceptBlocks blocks => blocks
  | .tryAcceptCommittedBlocks blocks => blocks
  | .tryFindBlocks _ => []
  | .tryUnsuspendBlocksForLatestGcRound => []

/-- The blocks of a call have ancestors of lower rounds. -/
def LowerAncestors (call : Call) : Prop := ∀ b ∈ call.blocks, ∀ a ∈ b.ancestors, a.round < b.round

end Call

theorem call_sound (h : Sound ctx bm) {call : Call} (hlower : call.LowerAncestors) :
    Exec.Sat (call.run ctx bm) (Sound ctx) (· ∈ acceptPanics) := by
  have hsort : ∀ (blocks : List VerifiedBlock), (∀ b ∈ blocks, ∀ a ∈ b.ancestors, a.round < b.round) →
      ∀ b ∈ blocks.insertionSort (fun a b => a.round ≤ b.round), ∀ a ∈ b.ancestors, a.round < b.round :=
    fun blocks hb b hmem => hb b ((List.mem_insertionSort _).mp hmem)
  cases call with
  | tryAcceptBlocks blocks =>
    refine Exec.Sat.bind (acceptInputs_sound false (hsort blocks hlower) h) ?_
    rintro ⟨bm', _, _⟩ ⟨h', _⟩
    exact h'
  | tryAcceptCommittedBlocks blocks =>
    refine Exec.Sat.bind (P := fun res => Sound ctx res.1) ?_ ?_
    · refine Exec.Sat.bind (acceptInputs_sound true (hsort blocks hlower) h) ?_
      rintro ⟨bm', accepted, missing⟩ ⟨h', hmissing⟩
      have hempty : missing.isEmpty = true := BTreeSet.isEmpty_iff_forall.mpr (hmissing rfl)
      simp only
      rw [bind_ok (assert_of hempty)]
      exact h'
    · rintro ⟨bm', _⟩ h'
      exact h'
  | tryFindBlocks refs => exact tryFindBlocks_inv h refs
  | tryUnsuspendBlocksForLatestGcRound =>
    exact unsuspendGcLoop_sound _ _ h (Nat.lt_succ_of_le (card_keySet_le _))

/-- What else happens to the DAG: commits that raise the gc round, with the marks that
go with them, links of own proposals, and flushes. -/
inductive DagStep (ctx : Context) : DagState → DagState → Prop
  | setCommitted {d d' r first} : d.setCommitted r = .ok (d', first) → DagStep ctx d d'
  | linkCausalHistory {d d' r linked} : d.linkCausalHistory ctx r = .ok (d', linked) → DagStep ctx d d'
  | addCommit {d d' commit} : d.lastCommitRound ≤ commit.round → d.addCommit commit = .ok d' →
      DagStep ctx d d'
  | addFinalizedCommit {d : DagState} (commitRef rejected) :
      DagStep ctx d (d.addFinalizedCommit commitRef rejected)
  | flush {d} : DagStep ctx d (d.flush ctx)

theorem DagStep.cached (hstep : DagStep ctx d d') (hc : d.Cached ctx) :
    d'.Cached ctx ∧ ∀ r, d'.Has ctx r ↔ d.Has ctx r := by
  cases hstep with
  | setCommitted h =>
    have hsame := setCommitted_sameVotes h
    exact ⟨hsame.cached hc, fun r => hsame.has_iff⟩
  | linkCausalHistory h =>
    have hsame := linkCausalHistory_sameVotes h
    exact ⟨hsame.cached hc, fun r => hsame.has_iff⟩
  | addCommit hround h => exact addCommit_cached hc hround h
  | addFinalizedCommit _ _ =>
    exact ⟨⟨⟨hc.refs, hc.keyed⟩, hc.storeKeyed, hc.buffered, hc.persisted, hc.stored, hc.positive⟩, fun _ => .rfl⟩
  | flush => exact flush_cached hc

/-- Interleavings of calls and other changes to the DAG. -/
inductive Reachable (ctx : Context) (start : DagState) : BlockManager → Prop
  | new : Reachable ctx start (.new start)
  | call {bm bm' : BlockManager} (call : Call) : Reachable ctx start bm → call.LowerAncestors →
      call.run ctx bm = .ok bm' → Reachable ctx start bm'
  | dag {bm : BlockManager} {dagState : DagState} : Reachable ctx start bm →
      DagStep ctx bm.dagState dagState → Reachable ctx start { bm with dagState }

theorem reachable_sound (hstart : start.Cached ctx) (h : Reachable ctx start bm) : Sound ctx bm := by
  induction h with
  | new =>
    refine ⟨fun dep => ⟨fun a r => ?_, fun a => ?_, fun x hx => absurd hx (Set.notMem_empty x),
      fun r s hr => ?_, fun r s hr => ?_, fun _ _ _ _ ha => ha.elim⟩, hstart, fun r hr => ?_, fun a ha => ?_⟩
    · simp [Waits, Dependent, new]
    · simp [new]
    · simp [new] at hr
    · simp [new] at hr
    · simp [new] at hr
    · simp [new] at ha
  | call call _ hlower hrun ih => exact (call_sound ih hlower).ok hrun
  | dag _ hstep ih =>
    obtain ⟨hc, hhas⟩ := hstep.cached ih.cached
    refine ⟨fun dep => ?_, hc, fun r hr => ?_, fun a ha => ?_⟩
    · have hcon := ih.consistent dep
      exact ⟨hcon.linked, hcon.missing, hcon.accepted, hcon.nonempty, hcon.keyed, hcon.resolved⟩
    · exact fun hh => ih.suspendedNew r hr ((hhas r).mp hh)
    · exact fun hh => ih.missingNew a ha ((hhas a).mp hh)

/-- In every reachable state the representation invariant holds, and a call that fails
does so where the DAG refuses a block. -/
theorem reachable_representation {store : Store} (hstore : StoredBlocks ctx store) {start : DagState}
    (hstart : DagState.new ctx store = .ok start) (h : Reachable ctx start bm) :
    Representation ctx bm ∧ ∀ call : Call, call.LowerAncestors → ∀ p, call.run ctx bm = .error p →
      p ∈ acceptPanics ∧ p ∉ [.notSuspended, .dependencyNotMissing, .suspendedBelowGc] := by
  have hsound := reachable_sound (new_cached hstore hstart).1 h
  refine ⟨hsound.representation, fun call hlower p hp => ?_⟩
  have hpanic : p ∈ acceptPanics := (call_sound hsound hlower).error hp
  have hother : ∀ p ∈ acceptPanics,
      p ∉ [Panic.notSuspended, Panic.dependencyNotMissing, Panic.suspendedBelowGc] := by decide
  exact ⟨hpanic, hother p hpanic⟩

/-- A block whose parents are missing is suspended and waits for all four. -/
theorem reachable_representation_suspended : ∃ start bm,
    DagState.new fourContext {} = .ok start ∧ Reachable fourContext start bm ∧
    (fourBlock 2 1 0).reference ∈ bm.suspendedBlocks ∧ bm.missingBlocks.size = 4 ∧
    Representation fourContext bm := by
  have hstore : StoredBlocks fourContext {} := fun r b hr => by simp at hr
  have hlower : (Call.tryAcceptBlocks [fourBlock 2 1 0]).LowerAncestors := by
    unfold Call.LowerAncestors
    decide
  have hcheck : Exec.check (do
      let start ← DagState.new fourContext {}
      (Call.tryAcceptBlocks [fourBlock 2 1 0]).run fourContext (.new start)) (fun bm =>
    bm.suspendedBlocks.contains (fourBlock 2 1 0).reference && bm.missingBlocks.size == 4) = true := by
    decide
  obtain ⟨bm, hrun, hbm⟩ := exists_of_check hcheck
  obtain ⟨start, hstart, hrun⟩ := bind_eq_ok.mp hrun
  obtain ⟨hsuspended, hsize⟩ := Bool.and_eq_true _ _ |>.mp hbm
  have hreach := Reachable.call _ .new hlower hrun
  exact ⟨start, bm, hstart, hreach, Std.ExtTreeMap.contains_iff_mem.mp hsuspended, by simpa using hsize,
    (reachable_representation hstore hstart hreach).1⟩

end Sui.Consensus.BlockManager
