import Sui.Consensus.BlockManager.Basic
import Sui.Consensus.DagState.Cached

/-! Unsuspending blocks.

`Consistent` relates the three maps of the block manager. While blocks are being
unsuspended it holds up to the accepted blocks that are still to be processed and
the dependents of the one in hand; both are parameters. `tryUnsuspendChildrenBlocks_spec`
is what the whole loop does: it never fails, removes the accepted blocks from the
maps, and returns the unsuspended blocks in causal order. -/
namespace Sui.Consensus

open Sui.Lib BTreeMap Exec List

def refsOf (blocks : List VerifiedBlock) : Set BlockRef := {r | r ∈ blocks.map (·.reference)}

@[simp] theorem refsOf_nil : refsOf [] = ∅ := by
  ext r
  simp [refsOf]

theorem refsOf_cons (b : VerifiedBlock) (blocks : List VerifiedBlock) :
    refsOf (b :: blocks) = insert b.reference (refsOf blocks) := by
  ext r
  simp [refsOf]

theorem refsOf_append (xs ys : List VerifiedBlock) : refsOf (xs ++ ys) = refsOf xs ∪ refsOf ys := by
  ext r
  simp [refsOf]

/-- Each block needs only refs known before it, or refs of earlier blocks. -/
def Resolves (needs : VerifiedBlock → BlockRef → Prop) : Set BlockRef → List VerifiedBlock → Prop
  | _, [] => True
  | known, b :: rest => (∀ a, needs b a → a ∈ known) ∧ Resolves needs (insert b.reference known) rest

theorem resolves_append :
    Resolves needs known (xs ++ ys) ↔ Resolves needs known xs ∧ Resolves needs (known ∪ refsOf xs) ys := by
  induction xs generalizing known with
  | nil => simp [Resolves]
  | cons b rest ih =>
    have hset : insert b.reference known ∪ refsOf rest = known ∪ refsOf (b :: rest) := by
      rw [refsOf_cons, Set.union_insert, Set.insert_union]
    rw [cons_append, Resolves, Resolves, ih, hset, and_assoc]

namespace BlockManager

/-- `r` is suspended and misses `a`. -/
def Waits (bm : BlockManager) (r a : BlockRef) : Prop :=
  ∃ s, bm.suspendedBlocks[r]? = some s ∧ a ∈ s.missingAncestors

/-- `r` is recorded under the missing ancestor `a`. -/
def Dependent (bm : BlockManager) (a r : BlockRef) : Prop :=
  ∃ refs, bm.missingAncestors[a]? = some refs ∧ r ∈ refs

/-- The maps agree, while the refs in `todo` have been accepted, and `due` is what is
left of the dependents of `dep`. Of what a suspended block `needs`, all that is not
`known` is recorded as missing. -/
structure Consistent (needs : VerifiedBlock → BlockRef → Prop) (known todo : Set BlockRef)
    (dep : BlockRef) (due : List BlockRef) (bm : BlockManager) : Prop where
  linked : ∀ a r, bm.Waits r a ↔ bm.Dependent a r ∨ (a = dep ∧ r ∈ due)
  missing : ∀ a, a ∈ bm.missingBlocks ↔
    a ∈ bm.missingAncestors ∧ a ∉ bm.suspendedBlocks ∧ a ∉ todo
  accepted : ∀ r ∈ todo, r ∉ bm.suspendedBlocks ∧ r ∈ known
  nonempty : ∀ (r : BlockRef) s, bm.suspendedBlocks[r]? = some s → ∃ a, a ∈ s.missingAncestors
  keyed : ∀ (r : BlockRef) s, bm.suspendedBlocks[r]? = some s →
    s.block.reference = r ∧ ∀ a ∈ s.missingAncestors, a.round < r.round
  resolved : ∀ (r : BlockRef) s, bm.suspendedBlocks[r]? = some s →
    ∀ a, needs s.block a → a ∈ known ∨ a ∈ s.missingAncestors

/-- `bm'` is `bm` with the blocks unsuspended. -/
structure Unsuspended (bm bm' : BlockManager) (blocks : List VerifiedBlock) : Prop where
  dagState : bm'.dagState = bm.dagState
  missingBlocks : bm'.missingBlocks = bm.missingBlocks
  taken : ∀ b ∈ blocks, ∃ s, bm.suspendedBlocks[b.reference]? = some s ∧ s.block = b
  gone : ∀ b ∈ blocks, b.reference ∉ bm'.suspendedBlocks
  kept : ∀ (r : BlockRef) s', bm'.suspendedBlocks[r]? = some s' →
    ∃ s, bm.suspendedBlocks[r]? = some s ∧ s.block = s'.block
  rest : ∀ r ∈ bm.suspendedBlocks, r ∈ bm'.suspendedBlocks ∨ r ∈ refsOf blocks
  nodup : (blocks.map (·.reference)).Nodup
  size : bm'.suspendedBlocks.size + blocks.length = bm.suspendedBlocks.size

namespace Unsuspended

variable {bm bm' bm'' : BlockManager} {blocks blocks' : List VerifiedBlock} {r : BlockRef}

theorem refl : Unsuspended bm bm [] :=
  ⟨rfl, rfl, nofun, nofun, fun _ s h => ⟨s, h, rfl⟩, fun _ h => .inl h, nodup_nil, rfl⟩

section
variable (h : Unsuspended bm bm' blocks)
include h

theorem mem_of_mem (hr : r ∈ bm'.suspendedBlocks) : r ∈ bm.suspendedBlocks := by
  obtain ⟨s', hs'⟩ := mem_iff_get.mp hr
  obtain ⟨s, hs, _⟩ := h.kept r s' hs'
  exact mem_of_get hs

theorem mem_of_taken (hr : r ∈ refsOf blocks) : r ∈ bm.suspendedBlocks := by
  obtain ⟨b, hb, rfl⟩ := mem_map.mp hr
  obtain ⟨s, hs, _⟩ := h.taken b hb
  exact mem_of_get hs

theorem not_mem_of_taken (hr : r ∈ refsOf blocks) : r ∉ bm'.suspendedBlocks := by
  obtain ⟨b, hb, rfl⟩ := mem_map.mp hr
  exact h.gone b hb

theorem trans (h' : Unsuspended bm' bm'' blocks') : Unsuspended bm bm'' (blocks ++ blocks') := by
  refine ⟨h'.dagState.trans h.dagState, h'.missingBlocks.trans h.missingBlocks,
    forall_mem_append.mpr ⟨h.taken, fun b hb => ?_⟩,
    forall_mem_append.mpr ⟨fun b hb hmem => h.gone b hb (h'.mem_of_mem hmem), h'.gone⟩, fun r s'' hr => ?_,
    fun r hr => ?_, ?_, ?_⟩
  · obtain ⟨s', hs', rfl⟩ := h'.taken b hb
    exact h.kept _ s' hs'
  · obtain ⟨s', hs', hblock'⟩ := h'.kept r s'' hr
    obtain ⟨s, hs, hblock⟩ := h.kept r s' hs'
    exact ⟨s, hs, hblock.trans hblock'⟩
  · rw [refsOf_append]
    rcases h.rest r hr with hr | hr
    · rcases h'.rest r hr with hr | hr
      · exact .inl hr
      · exact .inr (.inr hr)
    · exact .inr (.inl hr)
  · rw [map_append, nodup_append]
    refine ⟨h.nodup, h'.nodup, fun x hx y hy => ?_⟩
    rintro rfl
    exact h.not_mem_of_taken hx (h'.mem_of_taken hy)
  · rw [length_append, ← h.size, ← h'.size]
    omega

end

end Unsuspended

variable {needs : VerifiedBlock → BlockRef → Prop} {known todo : Set BlockRef} {dep : BlockRef}
  {due : List BlockRef} {bm : BlockManager} {r : BlockRef} {rest : List BlockRef}

/-! ### One block -/

theorem waits_iff (hs : bm.suspendedBlocks[r]? = some s) : bm.Waits r a ↔ a ∈ s.missingAncestors := by
  refine ⟨fun ⟨t, ht, ha⟩ => ?_, fun ha => ⟨s, hs, ha⟩⟩
  cases hs.symm.trans ht
  exact ha

/-- With nothing due it does not matter what was in hand. -/
theorem Consistent.settled (h : Consistent needs known todo dep [] bm) :
    Consistent needs known todo dep' [] bm := by
  refine ⟨fun a r => (h.linked a r).trans (or_congr_right ?_), h.missing, h.accepted, h.nonempty,
    h.keyed, h.resolved⟩
  simp

section
variable {r : BlockRef} {rest : List BlockRef} (h : Consistent needs known todo dep (r :: rest) bm)
  {s : SuspendedBlock}
include h

/-- A dependent is no longer due when the dependency is erased from what it misses. -/
theorem Consistent.linked_erase (hgone : dep ∉ bm.missingAncestors) (hr : r ∉ rest)
    (hs : bm.suspendedBlocks[r]? = some s) {m : BTreeMap BlockRef SuspendedBlock}
    (hother : ∀ x, r ≠ x → m[x]? = bm.suspendedBlocks[x]?)
    (hwaits : ∀ a, Waits { bm with suspendedBlocks := m } r a ↔ a ∈ s.missingAncestors.erase dep)
    (a x : BlockRef) :
    Waits { bm with suspendedBlocks := m } x a ↔ bm.Dependent a x ∨ (a = dep ∧ x ∈ rest) := by
  have hlink := h.linked a x
  by_cases hx : r = x
  · subst hx
    rw [waits_iff hs] at hlink
    rw [hwaits, BTreeSet.mem_erase_iff, hlink]
    constructor
    · rintro ⟨hne, hd | ⟨rfl, _⟩⟩
      · exact .inl hd
      · exact absurd rfl hne
    · rintro (hd | ⟨_, hmem⟩)
      · refine ⟨?_, .inl hd⟩
        rintro rfl
        obtain ⟨refs, hrefs, _⟩ := hd
        exact hgone (mem_of_get hrefs)
      · exact absurd hmem hr
  · rw [Waits, hother x hx]
    refine hlink.trans (or_congr_right (and_congr_right fun _ => ?_))
    rw [mem_cons]
    exact ⟨fun h => h.resolve_left (Ne.symm hx), .inr⟩

/-- A dependent that still misses other ancestors stays suspended. -/
theorem Consistent.shrink (hdep : dep ∈ known)
    (hgone : dep ∉ bm.missingAncestors) (hr : r ∉ rest) (hs : bm.suspendedBlocks[r]? = some s)
    (hleft : ∃ a, a ∈ s.missingAncestors.erase dep) :
    Consistent needs known todo dep rest
      { bm with
        suspendedBlocks := bm.suspendedBlocks.insert r ⟨s.block, s.missingAncestors.erase dep⟩ } := by
  have hmem : r ∈ bm.suspendedBlocks := mem_of_get hs
  have hsame : ∀ x, x ∈ bm.suspendedBlocks.insert r
      (⟨s.block, s.missingAncestors.erase dep⟩ : SuspendedBlock) ↔ x ∈ bm.suspendedBlocks := by
    intro x
    rw [BTreeMap.mem_insert_iff]
    constructor
    · rintro (rfl | hx)
      · exact hmem
      · exact hx
    · exact .inr
  refine ⟨h.linked_erase hgone hr hs (fun x hx => get_insert_of_ne _ _ hx)
      fun a => waits_iff (s := ⟨_, _⟩) (get_insert_self ..), fun a => ?_, fun x hx => ?_, fun x t hx => ?_, fun x t hx => ?_, fun x t hx a ha => ?_⟩
  · refine (h.missing a).trans (and_congr_right fun _ => and_congr_left fun _ => ?_)
    exact not_congr (hsame a).symm
  · exact ⟨fun hmem' => (h.accepted x hx).1 ((hsame x).mp hmem'), (h.accepted x hx).2⟩
  · rcases insert_eq_some.mp hx with ⟨-, rfl⟩ | ⟨-, hx⟩
    · exact hleft
    · exact h.nonempty x t hx
  · rcases insert_eq_some.mp hx with ⟨rfl, rfl⟩ | ⟨-, hx⟩
    · obtain ⟨hkey, hlow⟩ := h.keyed r s hs
      exact ⟨hkey, fun a ha => hlow a (BTreeSet.mem_erase_iff.mp ha).2⟩
    · exact h.keyed x t hx
  · rcases insert_eq_some.mp hx with ⟨-, rfl⟩ | ⟨-, hx⟩
    · rcases h.resolved r s hs a ha with hk | hm
      · exact .inl hk
      · by_cases had : dep = a
        · exact .inl (had ▸ hdep)
        · exact .inr (BTreeSet.mem_erase_iff.mpr ⟨had, hm⟩)
    · exact h.resolved x t hx a ha

/-- A dependent that misses nothing else leaves the suspended blocks. -/
theorem Consistent.remove
    (hgone : dep ∉ bm.missingAncestors) (hr : r ∉ rest) (hs : bm.suspendedBlocks[r]? = some s)
    (hlast : ∀ a, a ∉ s.missingAncestors.erase dep) :
    Consistent needs (insert r known) (insert r todo) dep rest
      { bm with suspendedBlocks := bm.suspendedBlocks.erase r } := by
  have hmem : r ∈ bm.suspendedBlocks := mem_of_get hs
  have hget : ∀ (x : BlockRef) t, (bm.suspendedBlocks.erase r)[x]? = some t →
      x ≠ r ∧ bm.suspendedBlocks[x]? = some t := by
    intro x t hx
    exact (erase_eq_some.mp hx).imp_left Ne.symm
  refine ⟨h.linked_erase hgone hr hs (fun x hx => ?_) fun a => ?_, fun a => ?_, fun x hx => ?_, fun x t hx => ?_,
    fun x t hx => ?_, fun x t hx a ha => ?_⟩
  · rw [get_erase, if_neg hx]
  · exact iff_of_false (fun ⟨t, ht, _⟩ => (hget r t ht).1 rfl) (hlast a)
  · rw [h.missing a, mem_erase_iff, Set.mem_insert_iff]
    by_cases ha : a = r
    · subst ha
      constructor
      · rintro ⟨_, hns, _⟩
        exact absurd hmem hns
      · rintro ⟨_, _, hnt⟩
        exact absurd (.inl rfl) hnt
    · constructor
      · rintro ⟨hk, hns, hnt⟩
        exact ⟨hk, fun hs' => hns hs'.2, fun ht => hnt (ht.resolve_left ha)⟩
      · rintro ⟨hk, hns, hnt⟩
        exact ⟨hk, fun hs' => hns ⟨Ne.symm ha, hs'⟩, fun ht => hnt (.inr ht)⟩
  · rw [mem_erase_iff]
    rcases hx with rfl | hx
    · exact ⟨fun hmem' => hmem'.1 rfl, .inl rfl⟩
    · exact ⟨fun hmem' => (h.accepted x hx).1 hmem'.2, .inr (h.accepted x hx).2⟩
  · exact h.nonempty x t (hget x t hx).2
  · exact h.keyed x t (hget x t hx).2
  · exact (h.resolved x t (hget x t hx).2 a ha).imp_left .inr

/-- A dependent is suspended and misses the dependency, so neither check fails. -/
theorem tryUnsuspendBlock_spec (hdep : dep ∈ known) (hgone : dep ∉ bm.missingAncestors) (hr : r ∉ rest) :
    ∃ bm' block, bm.tryUnsuspendBlock r dep = .ok (bm', block) ∧
      bm'.missingAncestors = bm.missingAncestors ∧ Unsuspended bm bm' block.toList ∧
      Resolves needs known block.toList ∧
      Consistent needs (known ∪ refsOf block.toList) (todo ∪ refsOf block.toList) dep rest bm' := by
  obtain ⟨s, hs, hmiss⟩ := (h.linked dep r).mpr (.inr ⟨rfl, mem_cons_self ..⟩)
  have hmem : r ∈ bm.suspendedBlocks := mem_of_get hs
  obtain ⟨hkey, _⟩ := h.keyed r s hs
  unfold tryUnsuspendBlock
  rw [bind_ok (expect_eq_ok.mpr hs), bind_ok (assert_of hmiss)]
  by_cases hempty : (s.missingAncestors.erase dep).isEmpty = true
  · have hlast := BTreeSet.isEmpty_iff_forall.mp hempty
    refine ⟨_, some s.block, if_pos hempty, rfl, ?_, ?_, ?_⟩
    · refine ⟨rfl, rfl, fun b hb => ?_, fun b hb => ?_, fun x t hx => ?_, fun x hx => ?_, nodup_singleton _, ?_⟩
      · obtain rfl := mem_singleton.mp hb
        exact ⟨s, hkey ▸ hs, rfl⟩
      · obtain rfl := mem_singleton.mp hb
        rw [hkey, mem_erase_iff]
        exact fun hmem' => hmem'.1 rfl
      · exact ⟨t, (erase_eq_some.mp hx).2, rfl⟩
      · rw [mem_erase_iff]
        by_cases hxr : r = x
        · exact .inr (mem_singleton.mpr (hxr ▸ hkey.symm))
        · exact .inl ⟨hxr, hx⟩
      · exact size_erase_of_mem _ hmem
    · refine ⟨fun a ha => ?_, trivial⟩
      rcases h.resolved r s hs a ha with hk | hm
      · exact hk
      · have had : a = dep := by
          by_contra hne
          exact hlast a (BTreeSet.mem_erase_iff.mpr ⟨Ne.symm hne, hm⟩)
        exact had ▸ hdep
    · have hremove := h.remove hgone hr hs hlast
      rw [Option.toList_some, refsOf_cons, refsOf_nil, hkey, Set.union_insert, Set.union_empty,
        Set.union_insert, Set.union_empty]
      exact hremove
  · refine ⟨_, none, if_neg hempty, rfl, ?_, trivial, ?_⟩
    · refine ⟨rfl, rfl, nofun, nofun, fun x t hx => ?_, fun x hx => .inl ?_, nodup_nil, ?_⟩
      · rcases insert_eq_some.mp hx with ⟨hrx, rfl⟩ | ⟨-, hx⟩
        · exact ⟨s, hrx ▸ hs, rfl⟩
        · exact ⟨t, hx, rfl⟩
      · exact mem_insert_iff.mpr (.inr hx)
      · exact size_insert_of_mem _ hmem
    · have hleft : ∃ a, a ∈ s.missingAncestors.erase dep := by
        by_contra hnone
        exact hempty (BTreeSet.isEmpty_iff_forall.mpr fun a ha => hnone ⟨a, ha⟩)
      rw [Option.toList_none, refsOf_nil, Set.union_empty, Set.union_empty]
      exact h.shrink hdep hgone hr hs hleft

end

/-! ### The loops -/

theorem unsuspendDependents_spec (h : Consistent needs known todo dep due bm) (hdep : dep ∈ known)
    (hgone : dep ∉ bm.missingAncestors) (hnodup : due.Nodup) :
    ∃ bm' blocks, unsuspendDependents dep bm due = .ok (bm', blocks) ∧
      bm'.missingAncestors = bm.missingAncestors ∧ Unsuspended bm bm' blocks ∧
      Resolves needs known blocks ∧
      Consistent needs (known ∪ refsOf blocks) (todo ∪ refsOf blocks) dep [] bm' := by
  induction due generalizing bm known todo with
  | nil =>
    refine ⟨bm, [], rfl, rfl, .refl, trivial, ?_⟩
    rw [refsOf_nil, Set.union_empty, Set.union_empty]
    exact h
  | cons r rest ih =>
    obtain ⟨hr, hrest⟩ := nodup_cons.mp hnodup
    obtain ⟨bm₁, block, hrun, hma, hun, hres, hcon⟩ := tryUnsuspendBlock_spec h hdep hgone hr
    obtain ⟨bm₂, blocks, hrun', hma', hun', hres', hcon'⟩ := ih hcon (.inl hdep) (hma ▸ hgone) hrest
    refine ⟨bm₂, block.toList ++ blocks, ?_, hma'.trans hma, hun.trans hun', resolves_append.mpr ⟨hres, hres'⟩, ?_⟩
    · rw [unsuspendDependents, bind_ok hrun]
      simp only
      rw [bind_ok hrun']
      rfl
    · rw [refsOf_append, ← Set.union_assoc, ← Set.union_assoc]
      exact hcon'

section
variable (h : Consistent needs known {x | x ∈ r :: rest} dep [] bm)
include h

/-- Taking up an accepted block: its dependents become due. -/
theorem Consistent.take (hrefs : bm.missingAncestors[r]? = some refs) :
    Consistent needs known {x | x ∈ rest} r refs.toList
      { bm with missingAncestors := bm.missingAncestors.erase r } := by
  refine ⟨fun a x => ?_, fun a => ?_, fun x hx => h.accepted x (.tail _ hx), h.nonempty, h.keyed, h.resolved⟩
  · refine (h.linked a x).trans ?_
    show _ ↔ (∃ t, (bm.missingAncestors.erase r)[a]? = some t ∧ x ∈ t) ∨ _
    rw [get_erase, Std.ExtTreeSet.mem_toList]
    by_cases ha : r = a
    · subst ha
      constructor
      · rintro (⟨t, ht, hx⟩ | ⟨_, hx⟩)
        · rw [hrefs] at ht
          cases ht
          exact .inr ⟨rfl, hx⟩
        · cases hx
      · rintro (⟨t, ht, _⟩ | ⟨_, hx⟩)
        · simp at ht
        · exact .inl ⟨refs, hrefs, hx⟩
    · rw [if_neg ha]
      constructor
      · rintro (hd | ⟨_, hx⟩)
        · exact .inl hd
        · cases hx
      · rintro (hd | ⟨rfl, _⟩)
        · exact .inl hd
        · exact absurd rfl ha
  · rw [h.missing a, mem_erase_iff]
    show _ ∧ _ ∧ a ∉ r :: rest ↔ _ ∧ _ ∧ a ∉ rest
    rw [mem_cons, not_or]
    constructor
    · rintro ⟨hk, hs, hr, ht⟩
      exact ⟨⟨Ne.symm hr, hk⟩, hs, ht⟩
    · rintro ⟨⟨hr, hk⟩, hs, ht⟩
      exact ⟨hk, hs, Ne.symm hr, ht⟩

/-- An accepted block that nothing waits for is done with. -/
theorem Consistent.skip (hnone : bm.missingAncestors[r]? = none) :
    Consistent needs known {x | x ∈ rest} dep [] bm := by
  refine ⟨h.linked, fun a => ?_, fun x hx => h.accepted x (.tail _ hx), h.nonempty, h.keyed, h.resolved⟩
  rw [h.missing a]
  show _ ∧ _ ∧ a ∉ r :: rest ↔ _ ∧ _ ∧ a ∉ rest
  rw [mem_cons, not_or]
  constructor
  · rintro ⟨hk, hs, _, ht⟩
    exact ⟨hk, hs, ht⟩
  · rintro ⟨hk, hs, ht⟩
    refine ⟨hk, hs, ?_, ht⟩
    rintro rfl
    exact not_mem_iff_get.mpr hnone hk

end

/-- The loop takes one turn for each block on the stack and each one it unsuspends. -/
theorem unsuspendLoop_spec (fuel : Nat) (h : Consistent needs known {r | r ∈ toProcess} dep [] bm)
    (hfuel : toProcess.length + bm.suspendedBlocks.size ≤ fuel) (unsuspended : List VerifiedBlock) :
    ∃ bm' blocks, unsuspendLoop fuel bm toProcess unsuspended = .ok (bm', unsuspended ++ blocks) ∧
      Unsuspended bm bm' blocks ∧ Resolves needs known blocks ∧
      Consistent needs (known ∪ refsOf blocks) ∅ dep [] bm' ∧
      ∀ a : BlockRef, bm'.missingAncestors[a]? =
        if a ∈ toProcess ∨ a ∈ blocks.map (·.reference) then none else bm.missingAncestors[a]? := by
  induction fuel generalizing bm known toProcess dep unsuspended with
  | zero =>
    have hnil : toProcess = [] := length_eq_zero_iff.mp (by omega)
    subst hnil
    refine ⟨bm, [], by rw [unsuspendLoop, append_nil], .refl, trivial, ?_, fun a => by simp⟩
    simpa using h
  | succ fuel ih =>
    cases toProcess with
    | nil =>
      refine ⟨bm, [], by rw [unsuspendLoop, append_nil], .refl, trivial, ?_, fun a => by simp⟩
      simpa using h
    | cons r rest =>
      rw [length_cons] at hfuel
      cases hrefs : bm.missingAncestors[r]? with
      | none =>
        obtain ⟨bm', blocks, hrun, hun, hres, hcon, hget⟩ := ih (h.skip hrefs) (by omega) unsuspended
        refine ⟨bm', blocks, ?_, hun, hres, hcon, fun a => ?_⟩
        · rw [unsuspendLoop, hrefs]
          exact hrun
        · rw [hget]
          by_cases ha : a = r
          · subst ha
            simp [hrefs]
          · simp [ha]
      | some refs =>
        have hknown : r ∈ known := (h.accepted r (.head _)).2
        have hgone : r ∉ bm.missingAncestors.erase r := fun hmem =>
          (mem_erase_iff.mp hmem).1 rfl
        have hnodup : refs.toList.Nodup := (BTreeSet.pairwise_toList refs).imp ne_of_lt
        obtain ⟨bm₁, blocks, hrun, hma, hun, hres, hcon⟩ :=
          unsuspendDependents_spec (h.take hrefs) hknown hgone hnodup
        have hset : {x | x ∈ rest} ∪ refsOf blocks = {x | x ∈ (blocks.map (·.reference)).reverse ++ rest} := by
          ext x
          simp only [Set.mem_union, Set.mem_ofPred_eq, mem_append, mem_reverse, refsOf]
          exact or_comm
        rw [hset] at hcon
        have hsize : bm₁.suspendedBlocks.size + blocks.length = bm.suspendedBlocks.size := hun.size
        obtain ⟨bm₂, blocks', hrun', hun', hres', hcon', hget⟩ := ih hcon (by
          rw [length_append, length_reverse, length_map]
          omega) (unsuspended ++ blocks)
        have hun₀ : Unsuspended bm bm₁ blocks := ⟨hun.dagState, hun.missingBlocks, hun.taken, hun.gone,
          hun.kept, hun.rest, hun.nodup, hun.size⟩
        refine ⟨bm₂, blocks ++ blocks', ?_, hun₀.trans hun', resolves_append.mpr ⟨hres, hres'⟩, ?_, fun a => ?_⟩
        · rw [unsuspendLoop, hrefs]
          simp only
          rw [bind_ok hrun, ← append_assoc]
          exact hrun'
        · rw [refsOf_append, ← Set.union_assoc]
          exact hcon'.settled
        · rw [hget, hma, get_erase]
          simp only [mem_append, mem_reverse, mem_cons, map_append]
          by_cases ha : r = a
          · simp [ha]
          · simp only [if_neg ha, Ne.symm ha, false_or]
            congr 1
            exact propext ⟨fun h => by tauto, fun h => by tauto⟩

/-- What unsuspending the children of an accepted block does. -/
theorem tryUnsuspendChildrenBlocks_spec (h : Consistent needs known {r} dep [] bm) :
    ∃ bm' blocks, bm.tryUnsuspendChildrenBlocks r = .ok (bm', blocks) ∧
      Unsuspended bm bm' blocks ∧ Resolves needs known blocks ∧
      Consistent needs (known ∪ refsOf blocks) ∅ dep [] bm' ∧
      ∀ a : BlockRef, bm'.missingAncestors[a]? =
        if a = r ∨ a ∈ blocks.map (·.reference) then none else bm.missingAncestors[a]? := by
  have hset : ({r} : Set BlockRef) = {x | x ∈ [r]} := by
    ext x
    simp
  rw [hset] at h
  obtain ⟨bm', blocks, hrun, hun, hres, hcon, hget⟩ :=
    unsuspendLoop_spec (bm.suspendedBlocks.size + 1) h (by rw [length_singleton]; omega) []
  refine ⟨bm', blocks, hrun, hun, hres, hcon, fun a => ?_⟩
  rw [hget]
  simp only [mem_singleton]

end BlockManager

end Sui.Consensus
