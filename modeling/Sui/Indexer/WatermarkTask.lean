import Sui.Indexer.Collector

/-! What the commit-watermark task knows.

`Tracked` relates the task to the parts that it has received: what it holds of a checkpoint
is what has been reported since it last took the checkpoint out, every checkpoint below the
next one has been taken out, and the pending or last written watermark is that of the last
one. Receiving a part keeps it (`Tracked.receivePart`), and so does taking out a checkpoint
(`Tracked.tookOut`).

A part that comes for a checkpoint after it has been taken out has no rows. It is kept, it
is never complete, and the task takes out nothing behind it: `Blocked` stays, and the next
checkpoint stays what it is. -/
namespace Sui.Indexer

open Sui.Lib Sui.Lib.BTreeMap Sui.Lib.Exec

variable {ρ : Type} {deliveries : List (Delivery ρ)} {start : Nat}

/-- The rows reported of a checkpoint in `precommitted`. -/
def held (precommitted : BTreeMap Nat WatermarkPart) (k : Nat) : Nat :=
  precommitted[k]?.elim 0 WatermarkPart.batchRows

theorem held_insert (precommitted : BTreeMap Nat WatermarkPart) (k k' : Nat) (part : WatermarkPart) :
    held (precommitted.insert k part) k' = if k = k' then part.batchRows else held precommitted k' := by
  unfold held
  rw [get_insert]
  split <;> rfl

theorem held_erase (precommitted : BTreeMap Nat WatermarkPart) (k k' : Nat) :
    held (precommitted.erase k) k' = if k = k' then 0 else held precommitted k' := by
  unfold held
  rw [get_erase]
  split <;> rfl

/-- The task holds a part that can never be complete, of a checkpoint that it has passed. -/
def Blocked (deliveries : List (Delivery ρ)) (task : WatermarkTask) : Prop :=
  ∃ k ∈ task.takenOut, k ∈ task.precommitted ∧ 0 < total deliveries k

/-- The task holds nothing of a checkpoint that it has taken out. -/
def Clean (task : WatermarkTask) : Prop := ∀ k ∈ task.takenOut, k ∉ task.precommitted

/-- The task and the parts that it has received. -/
structure Tracked (deliveries : List (Delivery ρ)) (start : Nat) (task : WatermarkTask) : Prop where
  entries : ∀ k part, task.precommitted[k]? = some part →
    part.checkpoint = k ∧ Genuine deliveries part
  rows : ∀ k, partRows k task.received =
    held task.precommitted k + if k ∈ task.takenOut then total deliveries k else 0
  present : ∀ k, 0 < partCount k task.received ↔ k ∈ task.precommitted ∨ k ∈ task.takenOut
  past : ∀ k ∈ task.takenOut, k < task.nextCheckpoint
  reached : ∀ k, start ≤ k → k < task.nextCheckpoint → k ∈ task.takenOut
  latest : start < task.nextCheckpoint → ∃ delivery ∈ deliveries,
    delivery.checkpoint + 1 = task.nextCheckpoint ∧
    (task.pendingWatermark <|> task.written.getLast?) = some delivery.indexed.watermark
  pending : ∀ watermark, task.pendingWatermark = some watermark →
    watermark.checkpointHiInclusive < task.nextCheckpoint
  written : ∀ watermark ∈ task.written, watermark.checkpointHiInclusive < task.nextCheckpoint

/-- The parts received: of delivered checkpoints, with no more rows than they have, and one
only of a checkpoint without rows. -/
structure Admissible (deliveries : List (Delivery ρ)) (parts : List WatermarkPart) : Prop where
  genuine : ∀ part ∈ parts, Genuine deliveries part
  rows : ∀ k, partRows k parts ≤ total deliveries k
  once : ∀ k, total deliveries k = 0 → partCount k parts ≤ 1

theorem Admissible.of_append (rest : List WatermarkPart)
    (h : Admissible deliveries (parts ++ rest)) : Admissible deliveries parts where
  genuine part hpart := h.genuine part (List.mem_append_left _ hpart)
  rows k := by
    have := h.rows k
    rw [partRows_append] at this
    omega
  once k hk := by
    have := h.once k hk
    rw [partCount_append] at this
    omega

/-- A part with rows, or of a checkpoint without rows. -/
def WatermarkPart.Lively (part : WatermarkPart) : Prop := 0 < part.batchRows ∨ part.totalRows = 0

namespace Tracked
variable {task : WatermarkTask} (hd : (deliveries.map Delivery.checkpoint).Nodup)
  {part : WatermarkPart} {task' : WatermarkTask}

theorem new : Tracked deliveries start ⟨[], start, ∅, none, false, [], [], []⟩ where
  entries k part h := by simp at h
  rows k := by simp [held]
  present k := by simp
  past := nofun
  reached k hk hlt := absurd hk hlt.not_ge
  latest h := absurd h (Nat.lt_irrefl _)
  pending _ h := by cases h
  written := nofun

/-- The channel is not part of what the task knows. -/
theorem channel (h : Tracked deliveries start task) (rx : List (List WatermarkPart)) :
    Tracked deliveries start {task with rx} :=
  ⟨h.entries, h.rows, h.present, h.past, h.reached, h.latest, h.pending, h.written⟩

include hd in
/-- The assertions of `add` hold: the entry counts the rows of its parts. -/
theorem merge_eq (h : Tracked deliveries start task) (hparts : Admissible deliveries (task.received ++ [part])) :
    ∃ entry, WatermarkTask.merge task.precommitted[part.checkpoint]? part = .ok entry ∧
      entry.checkpoint = part.checkpoint ∧ Genuine deliveries entry ∧
      entry.batchRows = held task.precommitted part.checkpoint + part.batchRows := by
  have hgenuine := hparts.genuine part (List.mem_append_right _ (List.mem_singleton.mpr rfl))
  unfold held
  cases hentry : task.precommitted[part.checkpoint]? with
  | none => exact ⟨part, rfl, rfl, hgenuine, (Nat.zero_add _).symm⟩
  | some entry =>
    obtain ⟨hk, delivery, hmem, hwatermark, htotal⟩ := h.entries _ entry hentry
    have hsum := hparts.rows part.checkpoint
    rw [partRows_append, partRows_singleton, if_pos rfl, h.rows, held, hentry] at hsum
    have hle : entry.batchRows + part.batchRows ≤ entry.totalRows := by
      have hentryTotal := Genuine.totalRows hd ⟨delivery, hmem, hwatermark, htotal⟩
      rw [hk] at hentryTotal
      have hsum : entry.batchRows + _ + part.batchRows ≤ _ := hsum
      omega
    refine ⟨{entry with batchRows := entry.batchRows + part.batchRows}, ?_, hk,
      ⟨delivery, hmem, hwatermark, htotal⟩, rfl⟩
    show entry.add part = _
    unfold WatermarkPart.add
    rw [bind_require hk, bind_require hle]
    rfl

/-- What receiving parts does. -/
structure Received (deliveries : List (Delivery ρ)) (task : WatermarkTask)
    (parts : List WatermarkPart) (task' : WatermarkTask) : Prop where
  received : task'.received = task.received ++ parts
  rx : task'.rx = task.rx
  stopped : task'.stopped = task.stopped
  next : task'.nextCheckpoint = task.nextCheckpoint
  takenOut : task'.takenOut = task.takenOut
  blocked : Blocked deliveries task ∨ (∃ part ∈ parts, part.checkpoint ∈ task.takenOut) → Blocked deliveries task'
  clean : (∀ part ∈ parts, part.checkpoint ∉ task.takenOut) → Clean task → Clean task'
  lively : ∀ part ∈ parts, part.Lively → part.checkpoint ∉ task.takenOut

include hd in
theorem receivePart (h : Tracked deliveries start task)
    (hparts : Admissible deliveries (task.received ++ [part])) :
    ∃ task', task.receivePart part = .ok task' ∧ Tracked deliveries start task' ∧
      Received deliveries task [part] task' := by
  obtain ⟨entry, hmerge, hk, hgenuine, hrows⟩ := h.merge_eq hd hparts
  -- A checkpoint that was taken out has no second part without rows of its own.
  have honce : part.checkpoint ∈ task.takenOut → 0 < total deliveries part.checkpoint := by
    intro hout
    rw [Nat.pos_iff_ne_zero]
    intro hzero
    have honce := hparts.once _ hzero
    have hfirst := (h.present part.checkpoint).mpr (.inr hout)
    rw [partCount_append, partCount_singleton, if_pos rfl] at honce
    omega
  refine ⟨_, bind_ok hmerge _, ?_, rfl, rfl, rfl, rfl, rfl, ?_, ?_, ?_⟩
  · refine ⟨?_, ?_, ?_, h.past, h.reached, h.latest, h.pending, h.written⟩
    · intro k p hp
      rcases insert_eq_some.mp hp with ⟨hkk, rfl⟩ | ⟨-, hp⟩
      · exact ⟨hk.trans hkk, hgenuine⟩
      · exact h.entries k p hp
    · intro k
      dsimp only
      rw [partRows_append, partRows_singleton, held_insert, h.rows]
      by_cases hkk : part.checkpoint = k
      · rw [if_pos hkk, if_pos hkk, hrows, hkk]
        omega
      · rw [if_neg hkk, if_neg hkk, Nat.add_zero]
    · intro k
      rw [partCount_append, partCount_singleton, mem_insert_iff]
      by_cases hkk : part.checkpoint = k
      · simp [hkk]
      · rw [if_neg hkk, Nat.add_zero, h.present]
        simp [hkk]
  · intro hlate
    rcases hlate with ⟨k, hk, hmem, hpos⟩ | ⟨p, hp, hout⟩
    · exact ⟨k, hk, mem_insert_iff.mpr (.inr hmem), hpos⟩
    · rw [List.mem_singleton.mp hp] at hout
      exact ⟨part.checkpoint, hout, mem_insert_iff.mpr (.inl rfl), honce hout⟩
  · intro hontime hclean k hk
    rw [mem_insert_iff, not_or]
    exact ⟨fun heq => hontime part (.head _) (heq ▸ hk), hclean k hk⟩
  · intro p hp hlively hout
    rw [List.mem_singleton.mp hp] at hlively hout
    have hsum := hparts.rows part.checkpoint
    have hpos := honce hout
    have htotal := Genuine.totalRows hd
      (hparts.genuine part (List.mem_append_right _ (List.mem_singleton.mpr rfl)))
    rw [partRows_append, partRows_singleton, if_pos rfl, h.rows, if_pos hout] at hsum
    rcases hlively with hrow | hnone
    · omega
    · omega

include hd in
theorem receiveParts (h : Tracked deliveries start task)
    (hparts : Admissible deliveries (task.received ++ parts)) :
    ∃ task', parts.foldlM WatermarkTask.receivePart task = .ok task' ∧
      Tracked deliveries start task' ∧ Received deliveries task parts task' := by
  induction parts generalizing task with
  | nil =>
    exact ⟨task, rfl, h, ⟨(List.append_nil _).symm, rfl, rfl, rfl, rfl,
      fun hlate => hlate.resolve_right (by simp), fun _ => id, List.forall_mem_nil _⟩⟩
  | cons part parts ih =>
    have hsplit : task.received ++ part :: parts = (task.received ++ [part]) ++ parts := by simp
    rw [hsplit] at hparts
    obtain ⟨task₁, hone, h₁, hr₁⟩ := h.receivePart hd (hparts.of_append _)
    rw [← hr₁.received] at hparts
    obtain ⟨task₂, hrest, h₂, hr₂⟩ := ih h₁ hparts
    refine ⟨task₂, foldlM_cons_eq_ok.mpr ⟨task₁, hone, hrest⟩, h₂, ?_⟩
    have hout := hr₁.takenOut
    refine ⟨?_, hr₂.rx.trans hr₁.rx, hr₂.stopped.trans hr₁.stopped, hr₂.next.trans hr₁.next,
      hr₂.takenOut.trans hout, fun hlate => ?_, fun hontime hclean => ?_, ?_⟩
    · rw [hr₂.received, hr₁.received, hsplit]
    · apply hr₂.blocked
      rcases hlate with hb | ⟨p, hp, hlate⟩
      · exact .inl (hr₁.blocked (.inl hb))
      · rcases List.mem_cons.mp hp with rfl | hp
        · exact .inl (hr₁.blocked (.inr ⟨p, .head _, hlate⟩))
        · exact .inr ⟨p, hp, hout ▸ hlate⟩
    · obtain ⟨hfirst, hrest⟩ := List.forall_mem_cons.mp hontime
      exact hr₂.clean (hout ▸ hrest) (hr₁.clean (List.forall_mem_singleton.mpr hfirst) hclean)
    · exact List.forall_mem_cons.mpr ⟨hr₁.lively part (.head _), hout ▸ hr₂.lively⟩

/-- What taking out the first checkpoint leaves. -/
def taken (task : WatermarkTask) (k : Nat) (part : WatermarkPart) : WatermarkTask :=
  { task with
    precommitted := task.precommitted.erase k
    takenOut := task.takenOut ++ [k]
    nextCheckpoint :=
      if task.nextCheckpoint = part.checkpoint then task.nextCheckpoint + 1 else task.nextCheckpoint
    pendingWatermark :=
      if task.nextCheckpoint = part.checkpoint then some part.watermark else task.pendingWatermark }

/-- The first checkpoint is one to take out. -/
structure TakesOut (task : WatermarkTask) (k : Nat) (part : WatermarkPart) : Prop where
  first : task.precommitted[k]? = some part ∧ ∀ k' ∈ task.precommitted, k ≤ k'
  complete : part.batchRows = part.totalRows
  reached : part.checkpoint ≤ task.nextCheckpoint

theorem takeOut_eq_some (h : task.takeOut? = some task') :
    ∃ k part, TakesOut task k part ∧ task' = taken task k part := by
  unfold WatermarkTask.takeOut? at h
  split at h
  · cases h
  · rename_i k part hfirst
    have hfirst := firstEntry_eq_some _ hfirst
    split at h
    · cases h
    · rename_i hcomplete
      have hcomplete : part.batchRows = part.totalRows := by
        simpa [WatermarkPart.isComplete] using hcomplete
      split at h
      · cases h
      · rename_i hlt
        refine ⟨k, part, ⟨hfirst, hcomplete, Nat.not_lt.mp hlt⟩, ?_⟩
        unfold taken
        split at h
        · rename_i heq
          cases h
          rw [if_pos heq, if_pos heq]
        · rename_i hne
          cases h
          rw [if_neg hne, if_neg hne]

/-- What an iteration of the task does besides receiving parts. -/
structure Advanced (deliveries : List (Delivery ρ)) (task task' : WatermarkTask) : Prop where
  received : task'.received = task.received
  rx : task'.rx = task.rx
  clean : Clean task → Clean task'
  blocked : Blocked deliveries task →
    Blocked deliveries task' ∧ task'.nextCheckpoint = task.nextCheckpoint

theorem Advanced.refl : Advanced deliveries task task := ⟨rfl, rfl, id, fun hb => ⟨hb, rfl⟩⟩

theorem Advanced.trans {task₁ task₂ : WatermarkTask} (h : Advanced deliveries task task₁)
    (h' : Advanced deliveries task₁ task₂) : Advanced deliveries task task₂ where
  received := h'.received.trans h.received
  rx := h'.rx.trans h.rx
  clean hc := h'.clean (h.clean hc)
  blocked hb :=
    have h₁ := h.blocked hb
    have h₂ := h'.blocked h₁.1
    ⟨h₂.1, h₂.2.trans h₁.2⟩

section
variable (h : Tracked deliveries start task) (ht : TakesOut task k part)
include hd h ht

/-- A complete part counts all rows of its checkpoint. -/
theorem tookOut_held : held task.precommitted k = total deliveries k := by
  obtain ⟨hk, hgenuine⟩ := h.entries k part ht.first.1
  rw [held, ht.first.1, ← hk, ← hgenuine.totalRows hd]
  exact ht.complete

variable (hrows : ∀ k, partRows k task.received ≤ total deliveries k)
include hrows

/-- A checkpoint taken out a second time has no rows. -/
theorem tookOut_twice (hout : k ∈ task.takenOut) : total deliveries k = 0 := by
  have hheld := h.tookOut_held hd ht
  have hsum := h.rows k
  have hbound := hrows k
  rw [if_pos hout] at hsum
  omega

theorem tookOut : Tracked deliveries start (taken task k part) := by
  obtain ⟨hk, hgenuine⟩ := h.entries k part ht.first.1
  have hreached := ht.reached
  have hheld := h.tookOut_held hd ht
  have hsum := h.rows k
  have hbound := hrows k
  rw [hk] at hreached
  have hmem : k ∈ task.precommitted := mem_of_get ht.first.1
  unfold taken
  have hle : task.nextCheckpoint ≤
      if task.nextCheckpoint = part.checkpoint then task.nextCheckpoint + 1 else task.nextCheckpoint := by
    split <;> omega
  refine ⟨?_, ?_, ?_, ?_, ?_, ?_, ?_, ?_⟩ <;> try dsimp only
  · intro k' part' hpart'
    exact h.entries k' part' (erase_eq_some.mp hpart').2
  · intro k'
    rw [held_erase, h.rows k']
    by_cases hkk : k = k'
    · rw [← hkk, hheld, if_pos rfl, if_pos (List.mem_append_right _ (List.mem_singleton.mpr rfl))]
      by_cases hout : k ∈ task.takenOut
      · rw [if_pos hout, h.tookOut_twice hd ht hrows hout]
      · rw [if_neg hout]
        omega
    · rw [if_neg hkk]
      have hiff : k' ∈ task.takenOut ++ [k] ↔ k' ∈ task.takenOut := by simp [Ne.symm hkk]
      rw [if_congr hiff rfl rfl]
  · intro k'
    rw [h.present, mem_erase_iff, List.mem_append, List.mem_singleton]
    by_cases hkk : k = k'
    · simp [← hkk, hmem]
    · simp [hkk, Ne.symm hkk]
  · intro k' hk'
    rcases mem_concat.mp hk' with hk' | rfl
    · exact (h.past k' hk').trans_le hle
    · rw [hk]
      split <;> omega
  · intro k' hstart hlt
    by_cases hold : k' < task.nextCheckpoint
    · exact List.mem_append_left _ (h.reached k' hstart hold)
    · rw [hk] at hlt
      split at hlt
      · exact List.mem_append_right _ (List.mem_singleton.mpr (by omega))
      · exact absurd hlt hold
  · intro hlt
    by_cases heq : task.nextCheckpoint = part.checkpoint
    · obtain ⟨delivery, hdelivery, hwatermark, -⟩ := hgenuine
      rw [if_pos heq, if_pos heq]
      refine ⟨delivery, hdelivery, ?_, ?_⟩
      · rw [heq]
        exact congrArg (·.checkpointHiInclusive + 1) hwatermark.symm
      · rw [hwatermark]
        rfl
    · rw [if_neg heq] at hlt
      rw [if_neg heq, if_neg heq]
      exact h.latest hlt
  · intro watermark hw
    by_cases heq : task.nextCheckpoint = part.checkpoint
    · rw [if_pos heq] at hw
      cases hw
      rw [if_pos heq, heq]
      exact Nat.lt_succ_self _
    · rw [if_neg heq] at hw
      rw [if_neg heq]
      exact h.pending watermark hw
  · intro watermark hw
    exact (h.written watermark hw).trans_le hle

theorem advanced_tookOut : Advanced deliveries task (taken task k part) := by
  obtain ⟨hk, -⟩ := h.entries k part ht.first.1
  unfold taken
  refine ⟨rfl, rfl, ?_, ?_⟩
  · intro hclean k' hk'
    rw [mem_erase_iff]
    intro ⟨hne, hpre⟩
    rcases mem_concat.mp hk' with hk' | rfl
    · exact hclean k' hk' hpre
    · exact hne rfl
  · intro ⟨k', hk', hpre, hpos⟩
    have hne : k ≠ k' := by
      intro heq
      rw [← heq] at hk' hpos
      exact absurd (h.tookOut_twice hd ht hrows hk') hpos.ne'
    refine ⟨⟨k', List.mem_append_left _ hk', mem_erase_iff.mpr ⟨hne, hpre⟩, hpos⟩, ?_⟩
    -- The blocked checkpoint is passed, and no later one is taken out before it.
    have hfirst := ht.first.2 k' hpre
    have hpast := h.past k' hk'
    rw [if_neg]
    omega

end

include hd in
theorem advanceWith (h : Tracked deliveries start task)
    (hrows : ∀ k, partRows k task.received ≤ total deliveries k) (fuel : Nat) :
    Tracked deliveries start (task.advanceWith fuel) ∧ Advanced deliveries task (task.advanceWith fuel) := by
  induction fuel generalizing task with
  | zero => exact ⟨h, .refl⟩
  | succ fuel ih =>
    unfold WatermarkTask.advanceWith
    cases hout : task.takeOut? with
    | none => exact ⟨h, .refl⟩
    | some task' =>
      obtain ⟨k, part, ht, rfl⟩ := takeOut_eq_some hout
      obtain ⟨hlast, hadvanced⟩ := ih (h.tookOut hd ht hrows) hrows
      exact ⟨hlast, (h.advanced_tookOut hd ht hrows).trans hadvanced⟩

theorem advanceWith_stops (fuel : Nat) (hfuel : task.precommitted.size ≤ fuel) :
    (task.advanceWith fuel).takeOut? = none := by
  induction fuel generalizing task with
  | zero =>
    cases hout : task.takeOut? with
    | none => exact hout
    | some task' =>
      obtain ⟨k, part, ht, -⟩ := takeOut_eq_some hout
      have hsize := size_erase_of_mem _ (mem_of_get ht.first.1)
      omega
  | succ fuel ih =>
    unfold WatermarkTask.advanceWith
    cases hout : task.takeOut? with
    | none => exact hout
    | some task' =>
      obtain ⟨k, part, ht, rfl⟩ := takeOut_eq_some hout
      have hsize := size_erase_of_mem _ (mem_of_get ht.first.1)
      apply ih
      dsimp only [taken]
      omega

/-- A stopped task stays as it is. -/
theorem advance_of_stopped (h : task.takeOut? = none) : task.advance = task := by
  unfold WatermarkTask.advance
  cases task.precommitted.size with
  | zero => rfl
  | succ fuel => rw [WatermarkTask.advanceWith, h]

theorem write (h : Tracked deliveries start task) (succeeds : Bool) :
    Tracked deliveries start (task.write succeeds) ∧ Advanced deliveries task (task.write succeeds) := by
  unfold WatermarkTask.write
  cases hpending : task.pendingWatermark with
  | none => exact ⟨h, .refl⟩
  | some watermark =>
    cases succeeds with
    | false => exact ⟨h, .refl⟩
    | true =>
      refine ⟨⟨h.entries, h.rows, h.present, h.past, h.reached, ?_, nofun, ?_⟩, rfl, rfl, id,
        fun hb => ⟨hb, rfl⟩⟩
      · intro hlt
        obtain ⟨delivery, hmem, hnext, hlatest⟩ := h.latest hlt
        refine ⟨delivery, hmem, hnext, ?_⟩
        rw [hpending] at hlatest
        show (none <|> (task.written ++ [watermark]).getLast?) = _
        rw [List.getLast?_concat]
        exact hlatest
      · exact forall_mem_concat.mpr ⟨h.written, h.pending _ hpending⟩

theorem takeOut_eq_none : task.takeOut? = none ↔ ∀ k part,
    firstEntry? task.precommitted = some (k, part) → part.batchRows = part.totalRows →
      task.nextCheckpoint < part.checkpoint := by
  unfold WatermarkTask.takeOut?
  cases hfirst : firstEntry? task.precommitted with
  | none => simp
  | some first =>
    obtain ⟨k, part⟩ := first
    by_cases hcomplete : part.batchRows = part.totalRows
    · by_cases hlt : task.nextCheckpoint < part.checkpoint
      · simp_all
      · by_cases heq : task.nextCheckpoint = part.checkpoint
        · simp_all [WatermarkPart.isComplete]
        · simp_all [WatermarkPart.isComplete]
    · simp_all [WatermarkPart.isComplete]

/-- Whether a checkpoint can be taken out depends on two fields only. -/
theorem takeOut_eq_none_congr (h : task.takeOut? = none) (hprecommitted : task'.precommitted = task.precommitted)
    (hnext : task'.nextCheckpoint = task.nextCheckpoint) : task'.takeOut? = none := by
  rw [takeOut_eq_none, hprecommitted, hnext]
  exact takeOut_eq_none.mp h

theorem write_takeOut (succeeds : Bool) (h : task.takeOut? = none) : (task.write succeeds).takeOut? = none := by
  unfold WatermarkTask.write
  split
  · exact h
  · split
    · exact takeOut_eq_none_congr h rfl rfl
    · exact h

end Tracked

end Sui.Indexer
