import Sui.Indexer.WatermarkTask

/-! The watermark of a concurrent pipeline.

`Sound` is an invariant of every run, whatever the interleaving of the three tasks, the
handlers and the failures of writes: no assertion fails, every row that is not skipped is
in exactly one batch, and a watermark that is written has all rows up to it committed.

When everything has been reported, the watermark is at the end of the contiguous
checkpoints, unless a part was received for a checkpoint that the task had already taken
out. Such a part holds the watermark where it is for good. `pipeline_watermark` states all
of it; `postgres_watermark_stuck` is a run with the Postgres batching in which it happens,
and `eager_watermark` says that it does not with handlers that always take a row. -/
namespace Sui.Indexer

open Sui.Lib Sui.Lib.BTreeMap Sui.Lib.Exec List BatchedRows

variable {ρ : Type} {deliveries : List (Delivery ρ)} {start : Nat}

/-! ### The invariant -/

/-- Every batch that the collector has made. -/
def State.batches (self : State ρ) : List (BatchedRows ρ) :=
  self.committer.committed ++ self.committer.writing ++ self.committer.queued

structure Sound (deliveries : List (Delivery ρ)) (start : Nat) (state : State ρ) : Prop where
  collected : Collected deliveries state.collector state.batches
  reports : (state.committer.committed.flatMap BatchedRows.watermark).Perm
    (state.task.received ++ (state.task.rx.flatten ++ state.committer.sending.flatten))
  tracked : Tracked deliveries start state.task
  stopped : state.task.takeOut? = none

/-- All parts that have been gathered are lively. -/
def State.Lively (self : State ρ) : Prop :=
  ∀ part ∈ self.batches.flatMap BatchedRows.watermark, part.Lively

/-- If the event gathers a batch, its handler is eager. -/
def Event.Eager : Event ρ → Prop
  | .flush handler => handler.Eager
  | _ => True

/-- What an event keeps of a blocked task, and of one without late parts. -/
structure Keeps (deliveries : List (Delivery ρ)) (event : Event ρ) (state state' : State ρ) :
    Prop where
  blocked : Blocked deliveries state.task → Blocked deliveries state'.task ∧
    state'.task.nextCheckpoint = state.task.nextCheckpoint
  late : state.onTime event = false → Blocked deliveries state'.task
  clean : state.onTime event = true → Clean state.task → Clean state'.task
  lively : state.Lively → state.onTime event = true ∧ (event.Eager → state'.Lively)

namespace Sound
variable {state : State ρ} (hd : (deliveries.map Delivery.checkpoint).Nodup)

theorem new (start : Nat) (hd : (deliveries.map Delivery.checkpoint).Nodup) :
    Sound deliveries start (State.new start deliveries) :=
  ⟨.new hd, .refl _, .new, rfl⟩

/-- An event that changes neither the task nor the batches gathered. -/
theorem keeps_of_perm {event : Event ρ} (hontime : state.onTime event = true) (htask : state'.task = state.task)
    (hperm : state.batches.Perm state'.batches) : Keeps deliveries event state state' where
  blocked hb := by
    rw [htask]
    exact ⟨hb, rfl⟩
  late hlate := absurd (hontime.symm.trans hlate) (by decide)
  clean _ hc := htask ▸ hc
  lively hl := ⟨hontime, fun _ part hpart => hl part ((hperm.flatMap_right _).mem_iff.mpr hpart)⟩

theorem spawn_perm (config : Config) :
    state.batches.Perm {state with committer := state.committer.spawn config}.batches := by
  unfold State.batches Committer.spawn
  split
  · exact .refl _
  · rename_i batched queued hqueued
    split
    · rw [hqueued, ← append_assoc, append_assoc _ [batched], singleton_append]
    · exact .refl _

theorem commit_perm (task : Nat) :
    state.batches.Perm {state with committer := state.committer.commit task}.batches := by
  unfold State.batches Committer.commit
  cases hbatched : state.committer.writing[task]? with
  | none => exact .refl _
  | some batched =>
    obtain ⟨hlt, hget⟩ := List.getElem?_eq_some_iff.mp hbatched
    have hperm := getElem_cons_eraseIdx_perm hlt
    rw [hget] at hperm
    apply List.Perm.append_right
    rw [append_assoc]
    exact hperm.symm.append_left _

section
variable (h : Sound deliveries start state)
include h

/-- The parts received, those on their way and those of the other batches. -/
theorem parts_perm :
    (state.batches.flatMap watermark).Perm
      (state.task.received ++ (state.task.rx.flatten ++ (state.committer.sending.flatten ++
        (state.committer.writing ++ state.committer.queued).flatMap watermark))) := by
  rw [State.batches, append_assoc, flatMap_append]
  refine (h.reports.append_right _).trans ?_
  simp only [append_assoc]
  exact .refl _

theorem admissible :
    Admissible deliveries (state.task.received ++ state.task.rx.flatten) := by
  have hperm := h.parts_perm
  rw [← append_assoc] at hperm
  apply Admissible.of_append (state.committer.sending.flatten ++
    (state.committer.writing ++ state.committer.queued).flatMap watermark)
  exact
    { genuine := fun part hpart => h.collected.genuine part (hperm.mem_iff.mpr hpart)
      rows := fun k => partRows_perm hperm k ▸ h.collected.partRows_le k
      once := fun k hk => by
        have := h.collected.once k hk
        rw [partCount_perm hperm k] at this
        omega }

theorem collect (config : Config) : Sound deliveries start (state.collect config) :=
  ⟨h.collected.receive config, h.reports, h.tracked, h.stopped⟩

theorem wake : Sound deliveries start state.wake :=
  ⟨h.collected.waking true, h.reports, h.tracked, h.stopped⟩

theorem flush (config : Config) (handler : Handler ρ) :
    ∃ state', state.flush config handler = .ok state' ∧ Sound deliveries start state' ∧
      Keeps deliveries (.flush handler) state state' := by
  unfold State.flush
  by_cases hflushing : state.collector.flushing = true
  · rw [if_pos hflushing]
    obtain ⟨collector, batched, hflush, hcollected, -, heager⟩ := h.collected.flush config handler
    have hbatches : state.batches ++ [batched] =
        state.committer.committed ++ state.committer.writing ++ (state.committer.queued ++ [batched]) := by
      rw [State.batches, append_assoc]
    refine ⟨_, bind_ok hflush _, ⟨?_, h.reports, h.tracked, h.stopped⟩, ?_⟩
    · rw [hbatches] at hcollected
      exact hcollected
    · refine ⟨fun hb => ⟨hb, rfl⟩, nofun, fun _ => id, fun hl => ⟨rfl, fun he part hpart => ?_⟩⟩
      have hpart : part ∈ (state.batches ++ [batched]).flatMap watermark := hbatches ▸ hpart
      rw [flatMap_append, flatMap_singleton] at hpart
      rcases mem_append.mp hpart with hpart | hpart
      · exact hl part hpart
      · exact heager he part hpart
  · rw [if_neg hflushing]
    exact ⟨state, rfl, h, keeps_of_perm rfl rfl (.refl _)⟩

theorem spawn (config : Config) :
    Sound deliveries start {state with committer := state.committer.spawn config} := by
  refine ⟨h.collected.perm (spawn_perm config), ?_, h.tracked, h.stopped⟩
  have hcommitted : (state.committer.spawn config).committed = state.committer.committed ∧
      (state.committer.spawn config).sending = state.committer.sending := by
    unfold Committer.spawn
    split
    · exact ⟨rfl, rfl⟩
    · split <;> exact ⟨rfl, rfl⟩
  rw [hcommitted.1, hcommitted.2]
  exact h.reports

theorem commit (task : Nat) :
    Sound deliveries start {state with committer := state.committer.commit task} := by
  refine ⟨h.collected.perm (commit_perm task), ?_, h.tracked, h.stopped⟩
  have hreports := h.reports
  unfold Committer.commit
  cases state.committer.writing[task]? with
  | none => exact hreports
  | some batched =>
    rw [flatMap_append, flatMap_singleton, flatten_append, flatten_singleton]
    refine (hreports.append_right _).trans ?_
    simp only [append_assoc]
    exact .refl _

theorem report (task : Nat) :
    Sound deliveries start (state.report task) ∧ Keeps deliveries (.report task) state (state.report task) := by
  have hreports := h.reports
  unfold State.report
  cases hparts : state.committer.sending[task]? with
  | none => exact ⟨h, keeps_of_perm rfl rfl (.refl _)⟩
  | some parts =>
    dsimp only
    split
    · exact ⟨h, keeps_of_perm rfl rfl (.refl _)⟩
    · obtain ⟨hlt, hget⟩ := List.getElem?_eq_some_iff.mp hparts
      have hperm := (getElem_cons_eraseIdx_perm hlt).flatten
      rw [hget, flatten_cons] at hperm
      refine ⟨⟨h.collected, ?_, h.tracked.channel _,
        Tracked.takeOut_eq_none_congr h.stopped rfl rfl⟩,
        fun hb => ⟨hb, rfl⟩, nofun, fun _ => id, fun hl => ⟨rfl, fun _ => hl⟩⟩
      refine hreports.trans ?_
      rw [flatten_append, flatten_singleton, append_assoc]
      exact (hperm.symm.append_left _).append_left _

include hd in
theorem receive (hrunning : state.task.stopped = false) :
    ∃ task, state.task.receive = .ok task ∧ Sound deliveries start {state with task} ∧
      Keeps deliveries .parts state {state with task} := by
  unfold WatermarkTask.receive
  cases hrx : state.task.rx with
  | nil => exact ⟨state.task, rfl, h, keeps_of_perm (by simp [State.onTime, hrx]) rfl (.refl _)⟩
  | cons parts rx =>
    have hontime : state.onTime .parts = parts.all fun part => part.checkpoint ∉ state.task.takenOut := by
      rw [State.onTime, hrunning, hrx]
      rfl
    have hadmissible := h.admissible
    rw [hrx, flatten_cons, ← append_assoc] at hadmissible
    obtain ⟨task, hreceive, htracked, hreceived⟩ :=
      (h.tracked.channel rx).receiveParts hd (hadmissible.of_append _)
    have hrows : ∀ k, partRows k task.received ≤ total deliveries k := by
      rw [hreceived.received]
      exact (hadmissible.of_append _).rows
    obtain ⟨hadvance, hadvanced⟩ := htracked.advanceWith hd hrows task.precommitted.size
    refine ⟨task.advance, bind_ok hreceive _, ⟨h.collected, ?_, hadvance,
      Tracked.advanceWith_stops _ le_rfl⟩, ?_, ?_, ?_, ?_⟩
    · have hreports := h.reports
      rw [hrx, flatten_cons] at hreports
      rw [show task.advance.received = _ from hadvanced.received, hreceived.received,
        show task.advance.rx = _ from hadvanced.rx, hreceived.rx]
      simpa only [append_assoc] using hreports
    · intro hb
      obtain ⟨hblocked, hnext⟩ := hadvanced.blocked (hreceived.blocked (.inl hb))
      exact ⟨hblocked, hnext.trans hreceived.next⟩
    · intro hlate
      rw [hontime, all_eq_false] at hlate
      obtain ⟨part, hpart, hout⟩ := hlate
      exact (hadvanced.blocked (hreceived.blocked (.inr ⟨part, hpart, by simpa using hout⟩))).1
    · intro htimely hclean
      rw [hontime, all_eq_true] at htimely
      exact hadvanced.clean (hreceived.clean (fun part hpart => of_decide_eq_true (htimely part hpart)) hclean)
    · intro hl
      refine ⟨?_, fun _ => hl⟩
      rw [hontime, all_eq_true]
      refine fun part hpart => decide_eq_true (hreceived.lively part hpart (hl part ?_))
      apply h.parts_perm.mem_iff.mpr
      rw [hrx, flatten_cons]
      exact mem_append_right _ (mem_append_left _ (mem_append_left _ hpart))

/-- An iteration that receives nothing. -/
theorem advanced {event : Event ρ} (hontime : state.onTime event = true) (htracked : Tracked deliveries start task)
    (hadvanced : Tracked.Advanced deliveries state.task task) (hstopped : task.takeOut? = none) :
    Sound deliveries start {state with task} ∧ Keeps deliveries event state {state with task} := by
  refine ⟨⟨h.collected, ?_, htracked, hstopped⟩, hadvanced.blocked,
    fun hlate => absurd (hontime.symm.trans hlate) (by decide), fun _ => hadvanced.clean, fun hl => ⟨hontime, fun _ => hl⟩⟩
  rw [hadvanced.received, hadvanced.rx]
  exact h.reports

theorem tick (succeeds : Bool) :
    Sound deliveries start {state with task := state.task.tick succeeds} ∧
      Keeps deliveries (.tick succeeds) state {state with task := state.task.tick succeeds} := by
  have htick : state.task.tick succeeds = state.task.write succeeds := by
    rw [WatermarkTask.tick, Tracked.advance_of_stopped h.stopped]
  rw [htick]
  obtain ⟨htracked, hadvanced⟩ := h.tracked.write succeeds
  exact h.advanced rfl htracked hadvanced (Tracked.write_takeOut succeeds h.stopped)

theorem close (succeeds : Bool) :
    Sound deliveries start {state with task := state.task.close succeeds} ∧
      Keeps deliveries (.close succeeds) state {state with task := state.task.close succeeds} := by
  unfold WatermarkTask.close
  split
  · obtain ⟨htracked, hadvanced⟩ := h.tracked.write succeeds
    have hstopped := Tracked.write_takeOut succeeds h.stopped
    refine h.advanced rfl ?_ ?_ (Tracked.takeOut_eq_none_congr hstopped rfl rfl)
    · exact ⟨htracked.entries, htracked.rows, htracked.present, htracked.past, htracked.reached,
        htracked.latest, htracked.pending, htracked.written⟩
    · exact ⟨hadvanced.received, hadvanced.rx, hadvanced.clean, hadvanced.blocked⟩
  · exact ⟨h, keeps_of_perm rfl rfl (.refl _)⟩

/-- An iteration that the task makes, unless it has stopped. -/
theorem iterate {event : Event ρ} (hstopped : state.task.stopped = true → state.onTime event = true)
    (iteration : WatermarkTask → Exec WatermarkTask)
    (hiteration : state.task.stopped = false → ∃ task, iteration state.task = .ok task ∧
      Sound deliveries start {state with task} ∧ Keeps deliveries event state {state with task}) :
    ∃ state', state.iterate iteration = .ok state' ∧ Sound deliveries start state' ∧
      Keeps deliveries event state state' := by
  unfold State.iterate
  cases hcase : state.task.stopped with
  | true => exact ⟨state, rfl, h, keeps_of_perm (hstopped hcase) rfl (.refl _)⟩
  | false =>
    obtain ⟨task, htask, hkeeps⟩ := hiteration hcase
    exact ⟨_, bind_ok htask _, hkeeps⟩

include hd in
/-- No event fails an assertion, and every event keeps the invariant. -/
theorem step (config : Config) (event : Event ρ) :
    ∃ state', state.step config event = .ok state' ∧ Sound deliveries start state' ∧
      Keeps deliveries event state state' := by
  cases event with
  | collect => exact ⟨_, rfl, h.collect config, keeps_of_perm rfl rfl (.refl _)⟩
  | wake => exact ⟨_, rfl, h.wake, keeps_of_perm rfl rfl (.refl _)⟩
  | flush handler => exact h.flush config handler
  | spawn => exact ⟨_, rfl, h.spawn config, keeps_of_perm rfl rfl (spawn_perm config)⟩
  | fail task => exact ⟨_, rfl, h, keeps_of_perm rfl rfl (.refl _)⟩
  | commit task => exact ⟨_, rfl, h.commit task, keeps_of_perm rfl rfl (commit_perm task)⟩
  | report task => exact ⟨_, rfl, h.report task⟩
  | parts => exact h.iterate (fun hstopped => by simp [State.onTime, hstopped]) _ (h.receive hd)
  | tick succeeds => exact h.iterate (fun _ => rfl) (fun task => return task.tick succeeds) fun _ => ⟨_, rfl, h.tick succeeds⟩
  | close succeeds => exact h.iterate (fun _ => rfl) (fun task => return task.close succeeds) fun _ => ⟨_, rfl, h.close succeeds⟩

end

include hd in
theorem run (h : Sound deliveries start state) (config : Config) (events : List (Event ρ)) :
    ∃ state', state.run config events = .ok state' ∧ Sound deliveries start state' ∧
      (Blocked deliveries state.task → Blocked deliveries state'.task ∧
        state'.task.nextCheckpoint = state.task.nextCheckpoint) ∧
      (state.onTimeRun config events = false → Blocked deliveries state'.task) ∧
      (state.onTimeRun config events = true → Clean state.task → Clean state'.task) ∧
      ((∀ event ∈ events, event.Eager) → state.Lively → state.onTimeRun config events = true) := by
  induction events generalizing state with
  | nil => exact ⟨state, rfl, h, fun hb => ⟨hb, rfl⟩, nofun, fun _ => id, fun _ _ => rfl⟩
  | cons event events ih =>
    obtain ⟨state₁, hstep, h₁, hkeeps⟩ := h.step hd config event
    obtain ⟨state₂, hrun, h₂, hblocked, hlate, hclean, hlively⟩ := ih h₁
    have hontime : state.onTimeRun config (event :: events) =
        (state.onTime event && state₁.onTimeRun config events) := by
      rw [State.onTimeRun, hstep]
    rw [hontime, Bool.and_eq_false_iff, Bool.and_eq_true]
    refine ⟨state₂, foldlM_cons_eq_ok.mpr ⟨state₁, hstep, hrun⟩, h₂, ?_, ?_, ?_, ?_⟩
    · intro hb
      obtain ⟨hb₁, hnext⟩ := hkeeps.blocked hb
      obtain ⟨hb₂, hnext₂⟩ := hblocked hb₁
      exact ⟨hb₂, hnext₂.trans hnext⟩
    · intro h
      rcases h with h | h
      · exact (hblocked (hkeeps.late h)).1
      · exact hlate h
    · exact fun h hc => hclean h.2 (hkeeps.clean h.1 hc)
    · intro he hl
      obtain ⟨htimely, hl₁⟩ := hkeeps.lively hl
      exact ⟨htimely, hlively (fun e h => he e (.tail _ h)) (hl₁ (he event (.head _)))⟩

end Sound

/-! ### The watermark -/

/-- Everything delivered has been batched, committed and reported. -/
structure State.Done (state : State ρ) : Prop where
  delivered : state.collector.rx = []
  batched : state.collector.pending = ∅
  started : state.committer.queued = []
  committed : state.committer.writing = []
  reported : state.committer.sending = []
  received : state.task.rx = []

/-- The watermark is that of the last checkpoint of the contiguous ones: a write that
succeeds leaves it as the last one written. -/
structure State.AtEnd (deliveries : List (Delivery ρ)) (start : Nat) (state : State ρ) : Prop where
  contiguous : ∀ k, start ≤ k → k < state.task.nextCheckpoint →
    k ∈ deliveries.map Delivery.checkpoint
  last : state.task.nextCheckpoint ∉ deliveries.map Delivery.checkpoint
  watermark : start < state.task.nextCheckpoint → ∃ delivery ∈ deliveries,
    delivery.checkpoint + 1 = state.task.nextCheckpoint ∧
    (state.task.tick true).written.getLast? = some delivery.indexed.watermark

/-- What holds of the watermark at every point of a run. -/
structure State.Guarantee (config : Config) (deliveries : List (Delivery ρ)) (start : Nat)
    (events : List (Event ρ)) (state : State ρ) : Prop where
  /-- Each row is in one batch, or still to be put in one. -/
  rows : ∀ k, rowsOf k (state.batches.flatMap BatchedRows.batch) +
    pendingOf state.collector.pending k + rowsOf k (allRows state.collector.rx) =
    rowsOf k (allRows deliveries)
  /-- The parts of a checkpoint count no more rows than it has. -/
  parts : ∀ k, partRows k state.task.received ≤ total deliveries k
  /-- The rows of every checkpoint up to a written watermark are committed. -/
  committed : ∀ watermark ∈ state.task.written, ∀ k, start ≤ k →
    k ≤ watermark.checkpointHiInclusive → k ∈ deliveries.map Delivery.checkpoint ∧
    rowsOf k (state.committer.committed.flatMap BatchedRows.batch) = rowsOf k (allRows deliveries)
  reaches : state.Done → (State.new start deliveries).onTimeRun config events = true →
    state.AtEnd deliveries start
  /-- After a late part the watermark does not move again. -/
  blocked : (State.new start deliveries).onTimeRun config events = false →
    ∀ events, ∃ state', state.run config events = .ok state' ∧
      state'.task.nextCheckpoint = state.task.nextCheckpoint

namespace Sound
variable {state : State ρ} (hd : (deliveries.map Delivery.checkpoint).Nodup) {k : Nat}

section
variable (h : Sound deliveries start state)
include h

/-- A checkpoint of which a part was received has been delivered. -/
theorem delivered_of_received
    (hk : 0 < partCount k state.task.received) : k ∈ deliveries.map Delivery.checkpoint := by
  obtain ⟨part, hpart, hcheckpoint⟩ := mem_map.mp (count_pos_iff.mp hk)
  obtain ⟨delivery, hmem, hwatermark, -⟩ := h.admissible.genuine part (mem_append_left _ hpart)
  refine mem_map.mpr ⟨delivery, hmem, ?_⟩
  rw [← hcheckpoint]
  exact congrArg CommitterWatermark.checkpointHiInclusive hwatermark.symm

theorem delivered_of_takenOut (hk : k ∈ state.task.takenOut) : k ∈ deliveries.map Delivery.checkpoint :=
  h.delivered_of_received ((h.tracked.present k).mpr (.inr hk))

/-- The rows of a checkpoint that has been taken out are committed. -/
theorem committed_of_takenOut (hk : k ∈ state.task.takenOut) :
    rowsOf k (state.committer.committed.flatMap batch) = rowsOf k (allRows deliveries) := by
  have hle : rowsOf k (state.committer.committed.flatMap batch) ≤ rowsOf k (allRows deliveries) := by
    rw [← h.collected.rows k, State.batches, append_assoc, flatMap_append, rowsOf_append, add_assoc, add_assoc]
    exact Multiset.le_add_right ..
  have hparts : ∀ batched ∈ state.committer.committed, ∀ k,
      partRows k batched.watermark = (rowsOf k batched.batch).card := by
    intro batched hb
    apply h.collected.parts
    exact mem_append_left _ (mem_append_left _ hb)
  have hcount := Collected.partRows_flatMap hparts k
  rw [partRows_perm h.reports, partRows_append, h.tracked.rows, if_pos hk] at hcount
  apply Multiset.eq_of_le_of_card_le hle
  show total deliveries k ≤ _
  omega

/-- When everything has been reported, all rows and a part of every checkpoint are. -/
theorem received_of_done (hdone : state.Done) (k : Nat) :
    partRows k state.task.received = total deliveries k ∧
      (k ∈ deliveries.map Delivery.checkpoint → 0 < partCount k state.task.received) := by
  have hperm := h.parts_perm
  rw [hdone.received, hdone.reported, hdone.committed, hdone.started] at hperm
  simp only [flatten_nil, flatMap_nil, append_nil] at hperm
  have hrows := h.collected.rows k
  have hseen := h.collected.seen k
  rw [hdone.delivered, hdone.batched] at hrows hseen
  constructor
  · rw [← partRows_perm hperm, Collected.partRows_flatMap h.collected.parts, total, ← hrows]
    simp [pendingOf]
  · rw [← partCount_perm hperm]
    simpa [ind] using hseen

end

include hd in
theorem atEnd (h : Sound deliveries start state) (hdone : state.Done)
    (hclean : Clean state.task) : state.AtEnd deliveries start := by
  have hahead : ∀ k ∈ state.task.precommitted, state.task.nextCheckpoint < k := by
    intro k hk
    cases hfirst : firstEntry? state.task.precommitted with
    | none => exact absurd hk (firstEntry_eq_none _ hfirst k)
    | some first =>
      obtain ⟨first, part⟩ := first
      obtain ⟨hget, hmin⟩ := firstEntry_eq_some _ hfirst
      obtain ⟨hcheckpoint, hgenuine⟩ := h.tracked.entries first part hget
      have hnot : first ∉ state.task.takenOut := fun hout => hclean first hout (mem_of_get hget)
      have hrows := h.tracked.rows first
      rw [(h.received_of_done hdone first).1, if_neg hnot, held, hget, Nat.add_zero] at hrows
      have hcomplete : part.batchRows = part.totalRows := by
        rw [hgenuine.totalRows hd, hcheckpoint, hrows]
        rfl
      have hlt := Tracked.takeOut_eq_none.mp h.stopped first part hfirst hcomplete
      rw [hcheckpoint] at hlt
      exact hlt.trans_le (hmin k hk)
  refine ⟨?_, ?_, ?_⟩
  · intro k hstart hlt
    exact h.delivered_of_takenOut (h.tracked.reached k hstart hlt)
  · intro hmem
    rcases (h.tracked.present _).mp ((h.received_of_done hdone _).2 hmem) with hpre | hout
    · exact absurd (hahead _ hpre) (Nat.lt_irrefl _)
    · exact absurd (h.tracked.past _ hout) (Nat.lt_irrefl _)
  · intro hlt
    obtain ⟨delivery, hmem, hnext, hlatest⟩ := h.tracked.latest hlt
    refine ⟨delivery, hmem, hnext, ?_⟩
    rw [WatermarkTask.tick, Tracked.advance_of_stopped h.stopped, WatermarkTask.write]
    cases hpending : state.task.pendingWatermark with
    | none =>
      rw [hpending] at hlatest
      exact hlatest
    | some watermark =>
      rw [hpending] at hlatest
      show (state.task.written ++ [watermark]).getLast? = _
      rw [List.getLast?_concat]
      exact hlatest

include hd in
theorem guarantee (h : Sound deliveries start state) (config : Config) (events : List (Event ρ))
    (hclean : (State.new start deliveries).onTimeRun config events = true → Clean state.task)
    (hlate : (State.new start deliveries).onTimeRun config events = false → Blocked deliveries state.task) :
    state.Guarantee config deliveries start events where
  rows := h.collected.rows
  parts := (h.admissible.of_append _).rows
  committed := by
    intro watermark hw k hstart hle
    have hout := h.tracked.reached k hstart (hle.trans_lt (h.tracked.written watermark hw))
    exact ⟨h.delivered_of_takenOut hout, h.committed_of_takenOut hout⟩
  reaches hdone hontime := h.atEnd hd hdone (hclean hontime)
  blocked := by
    intro hontime more
    obtain ⟨state', hrun, -, hnext, -⟩ := h.run hd config more
    exact ⟨state', hrun, (hnext (hlate hontime)).2⟩

end Sound

/-- **The watermark of a pipeline.** Checkpoints delivered once each, in any order: every
run is without failed assertions, each row is in one batch, the parts of a checkpoint count
no more rows than it has, and all rows up to a written watermark are committed. Once
everything is reported the watermark is at the end of the contiguous checkpoints, provided
that no part was received for a checkpoint already taken out; after such a part it does not
move again. -/
theorem pipeline_watermark (config : Config) (start : Nat) (deliveries : List (Delivery ρ))
    (hd : (deliveries.map Delivery.checkpoint).Nodup) (events : List (Event ρ)) :
    ∃ state, (State.new start deliveries).run config events = .ok state ∧
      state.Guarantee config deliveries start events := by
  obtain ⟨state, hrun, h, -, hlate, hclean, -⟩ := (Sound.new start hd).run hd config events
  exact ⟨state, hrun, h.guarantee hd config events (fun hontime => hclean hontime (forall_mem_nil _)) hlate⟩

/-- **With handlers that always take a row, the watermark reaches the end** of the contiguous
checkpoints: no part is late. -/
theorem eager_watermark (config : Config) (start : Nat) (deliveries : List (Delivery ρ))
    (hd : (deliveries.map Delivery.checkpoint).Nodup) (events : List (Event ρ))
    (heager : ∀ event ∈ events, event.Eager) :
    ∃ state, (State.new start deliveries).run config events = .ok state ∧
      (State.new start deliveries).onTimeRun config events = true ∧
      (state.Done → state.AtEnd deliveries start) := by
  obtain ⟨state, hrun, h, -, -, hclean, hlively⟩ := (Sound.new start hd).run hd config events
  have hontime := hlively heager (forall_mem_nil _)
  exact ⟨state, hrun, hontime, fun hdone => h.atEnd hd hdone (hclean hontime (forall_mem_nil _))⟩

/-! ### A run with a late part -/

namespace Stuck

def delivery (checkpoint : Nat) : Delivery Nat := ⟨⟨⟨0, checkpoint, 0, 0⟩, [checkpoint]⟩, 0⟩

/-- Three checkpoints of one row; the pipeline starts with the second. -/
def delivered : List (Delivery Nat) := [delivery 0, delivery 1, delivery 2]

def config : Config := ⟨5000, 10000, 5⟩

/-- Rows of so many fields that a batch holds one. -/
def handler : Handler Nat := postgresHandler 20000

/-- Checkpoint 0 fills the first batch, which ends with none of the rows of checkpoint 1.
The second batch holds them, and is written and reported before the first. -/
def opening : List (Event Nat) :=
  [.collect, .collect, .wake, .flush handler, .flush handler, .spawn, .spawn, .commit 1, .report 0,
    .parts, .commit 0, .report 0, .parts]

/-- Checkpoint 2 follows. -/
def events : List (Event Nat) :=
  opening ++ [.collect, .wake, .flush handler, .spawn, .commit 0, .report 0, .parts, .tick true]

/-- The same batches, reported in the order in which they were gathered. -/
def inOrder : List (Event Nat) :=
  [.collect, .collect, .wake, .flush handler, .flush handler, .spawn, .spawn, .commit 0, .report 0,
    .parts, .commit 0, .report 0, .parts, .collect, .wake, .flush handler, .spawn, .commit 0,
    .report 0, .parts, .tick true]

/-- Everything has been reported, by evaluation. -/
def done (state : State Nat) : Bool :=
  state.collector.rx.isEmpty && state.collector.pending.isEmpty && state.committer.queued.isEmpty &&
    state.committer.writing.isEmpty && state.committer.sending.isEmpty && state.task.rx.isEmpty

theorem done_of (h : done state = true) : state.Done := by
  simp only [done, Bool.and_eq_true, List.isEmpty_iff] at h
  obtain ⟨⟨⟨⟨⟨h₁, h₂⟩, h₃⟩, h₄⟩, h₅⟩, h₆⟩ := h
  exact ⟨h₁, Std.ExtTreeMap.isEmpty_iff.mp h₂, h₃, h₄, h₅, h₆⟩

end Stuck

/-- All rows are committed and reported, but the watermark stays at the second checkpoint
and does not reach the third. -/
theorem postgres_watermark_stuck : ∃ state,
    (Stuck.delivered.map Delivery.checkpoint).Nodup ∧
    (State.new 1 Stuck.delivered).run Stuck.config Stuck.events = .ok state ∧ state.Done ∧
    ¬ state.AtEnd Stuck.delivered 1 := by
  have hcheck : check ((State.new 1 Stuck.delivered).run Stuck.config Stuck.events)
      (fun state => Stuck.done state && state.task.nextCheckpoint == 2) = true := by
    decide +kernel
  obtain ⟨state, hrun, hstate⟩ := exists_of_check hcheck
  rw [Bool.and_eq_true, beq_iff_eq] at hstate
  refine ⟨state, by decide, hrun, Stuck.done_of hstate.1, fun hend => hend.last ?_⟩
  rw [hstate.2]
  decide

/-- Reported in order, the watermark reaches the third checkpoint. -/
theorem pipeline_watermark_in_order : ∃ state,
    (State.new 1 Stuck.delivered).run Stuck.config Stuck.inOrder = .ok state ∧ state.AtEnd Stuck.delivered 1 := by
  obtain ⟨state, hrun, hguarantee⟩ := pipeline_watermark Stuck.config 1 Stuck.delivered (by decide) Stuck.inOrder
  have hcheck : check ((State.new 1 Stuck.delivered).run Stuck.config Stuck.inOrder)
      Stuck.done = true := by
    decide +kernel
  have hontime : (State.new 1 Stuck.delivered).onTimeRun Stuck.config Stuck.inOrder = true := by
    decide +kernel
  obtain ⟨state', hrun', hdone⟩ := exists_of_check hcheck
  cases hrun.symm.trans hrun'
  exact ⟨state, hrun, hguarantee.reaches (Stuck.done_of hdone) hontime⟩

/-- A handler that takes all values. -/
def Stuck.takeAll : Handler Nat := fun _ _ values => (values.length, .pending)

def Stuck.atOnce : List (Event Nat) :=
  [.collect, .collect, .collect, .wake, .flush takeAll, .spawn, .commit 0, .report 0, .parts]

theorem eager_watermark_at_once : ∃ state,
    (State.new 0 Stuck.delivered).run Stuck.config Stuck.atOnce = .ok state ∧ state.AtEnd Stuck.delivered 0 := by
  have heager : Stuck.takeAll.Eager := fun _ _ _ => length_pos_iff.mpr
  obtain ⟨state, hrun, -, hend⟩ := eager_watermark Stuck.config 0 Stuck.delivered (by decide) Stuck.atOnce
    (by simp [Stuck.atOnce, Event.Eager, heager])
  have hcheck : check ((State.new 0 Stuck.delivered).run Stuck.config Stuck.atOnce) Stuck.done = true := by
    decide +kernel
  obtain ⟨state', hrun', hdone⟩ := exists_of_check hcheck
  cases hrun.symm.trans hrun'
  exact ⟨state, hrun, hend (Stuck.done_of hdone)⟩

end Sui.Indexer
