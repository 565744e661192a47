import Sui.Indexer.Pipeline

/-! What the collector puts in its batches.

`rowsOf` is the rows of a checkpoint in a list of rows, `partRows` the number of rows that
a list of parts reports for it. `Gathered` is kept by every call of the handler while a
batch is gathered: the batch and what is left pending are what was pending, and the parts
count the batch's rows. `Collected` follows for every batch that the collector has made:
the rows of a checkpoint are in the batches, pending or still to come, each once, and a
checkpoint without rows is in one part only. -/
namespace Sui.Indexer

open Sui.Lib Sui.Lib.BTreeMap Sui.Lib.Exec List BatchedRows Delivery

variable {ρ : Type} {deliveries : List (Delivery ρ)} {k : Nat} {ν : Type}
  {parts parts' : List WatermarkPart}

/-! ### Rows and parts of a checkpoint -/

/-- The rows of a checkpoint, with multiplicity. -/
def rowsOf (k : Nat) (rows : List (Nat × ρ)) : Multiset ρ :=
  ((rows.filter fun row => row.1 = k).map Prod.snd : List ρ)

@[simp] theorem rowsOf_nil (k : Nat) : rowsOf k ([] : List (Nat × ρ)) = 0 := rfl

@[simp] theorem rowsOf_append (k : Nat) (rows rows' : List (Nat × ρ)) :
    rowsOf k (rows ++ rows') = rowsOf k rows + rowsOf k rows' := by
  simp [rowsOf]

theorem rowsOf_pairs (k checkpoint : Nat) (values : List ρ) :
    rowsOf k (values.map fun row => (checkpoint, row)) = if checkpoint = k then ↑values else 0 := by
  by_cases h : checkpoint = k
  · simp [rowsOf, filter_map, Function.comp_def, h]
  · simp [rowsOf, filter_map, Function.comp_def, h]

theorem rowsOf_perm (h : rows.Perm rows') (k : Nat) : rowsOf k rows = rowsOf k rows' :=
  Multiset.coe_eq_coe.mpr ((h.filter _).map _)

/-- A list with no more rows of any checkpoint is no longer. -/
theorem length_le_of_rowsOf_le (rows rows' : List (Nat × ρ))
    (h : ∀ k, rowsOf k rows ≤ rowsOf k rows') : rows.length ≤ rows'.length := by
  classical
  have hcount : ∀ (l : List (Nat × ρ)) (k : Nat) (row : ρ),
      (l : Multiset (Nat × ρ)).count (k, row) = (rowsOf k l).count row := by
    intro l k row
    simp only [rowsOf, Multiset.coe_count]
    induction l with
    | nil => rfl
    | cons x rest ih =>
      by_cases hx : x.1 = k
      · simp [hx, count_cons, ih, Prod.ext_iff]
      · simp [hx, ih, Prod.ext_iff]
  have hle : (rows : Multiset (Nat × ρ)) ≤ rows' := by
    rw [Multiset.le_iff_count]
    intro x
    rw [hcount, hcount]
    exact Multiset.le_iff_count.mp (h x.1) x.2
  exact Multiset.card_le_card hle

/-- The number of rows that parts report for a checkpoint. -/
def partRows (k : Nat) (parts : List WatermarkPart) : Nat :=
  ((parts.filter fun part => part.checkpoint = k).map WatermarkPart.batchRows).sum

@[simp] theorem partRows_nil (k : Nat) : partRows k [] = 0 := rfl

@[simp] theorem partRows_append (k : Nat) (parts parts' : List WatermarkPart) :
    partRows k (parts ++ parts') = partRows k parts + partRows k parts' := by
  simp [partRows]

theorem partRows_singleton (k : Nat) (part : WatermarkPart) :
    partRows k [part] = if part.checkpoint = k then part.batchRows else 0 := by
  by_cases h : part.checkpoint = k <;> simp [partRows, h]

theorem partRows_perm (h : parts.Perm parts') (k : Nat) : partRows k parts = partRows k parts' :=
  ((h.filter _).map _).sum_eq

/-- The number of parts of a checkpoint. -/
def partCount (k : Nat) (parts : List WatermarkPart) : Nat :=
  (parts.map WatermarkPart.checkpoint).count k

@[simp] theorem partCount_nil (k : Nat) : partCount k [] = 0 := rfl

@[simp] theorem partCount_append (k : Nat) (parts parts' : List WatermarkPart) :
    partCount k (parts ++ parts') = partCount k parts + partCount k parts' := by
  simp [partCount]

theorem partCount_singleton (k : Nat) (part : WatermarkPart) :
    partCount k [part] = if part.checkpoint = k then 1 else 0 := by
  by_cases h : part.checkpoint = k <;> simp [partCount, h]

theorem partCount_perm (h : parts.Perm parts') (k : Nat) : partCount k parts = partCount k parts' :=
  (h.map _).count_eq k

/-! ### Deliveries -/

/-- The rows to commit. -/
def Delivery.rows (delivery : Delivery ρ) : List (Nat × ρ) :=
  delivery.values.map fun row => (delivery.checkpoint, row)

def allRows (deliveries : List (Delivery ρ)) : List (Nat × ρ) := deliveries.flatMap Delivery.rows

@[simp] theorem allRows_nil : allRows ([] : List (Delivery ρ)) = [] := rfl

@[simp] theorem allRows_cons (delivery : Delivery ρ) (rest : List (Delivery ρ)) :
    allRows (delivery :: rest) = delivery.rows ++ allRows rest := rfl

/-- The number of rows of a checkpoint. -/
def total (deliveries : List (Delivery ρ)) (k : Nat) : Nat := (rowsOf k (allRows deliveries)).card

theorem rowsOf_allRows_of_not_mem (h : k ∉ deliveries.map checkpoint) : rowsOf k (allRows deliveries) = 0 := by
  induction deliveries with
  | nil => rfl
  | cons delivery rest ih =>
    rw [map_cons, mem_cons, not_or] at h
    rw [allRows_cons, rowsOf_append, ih h.2, rows, rowsOf_pairs, if_neg (Ne.symm h.1)]
    rfl

/-- Checkpoints delivered once: the rows of one are those of its delivery. -/
theorem rowsOf_allRows (hd : (deliveries.map checkpoint).Nodup)
    (h : delivery ∈ deliveries) : rowsOf delivery.checkpoint (allRows deliveries) = delivery.values := by
  induction deliveries with
  | nil => cases h
  | cons first rest ih =>
    rw [map_cons, nodup_cons] at hd
    rw [allRows_cons, rowsOf_append, rows, rowsOf_pairs]
    rcases mem_cons.mp h with rfl | h
    · rw [if_pos rfl, rowsOf_allRows_of_not_mem hd.1, add_zero]
    · have hne : first.checkpoint ≠ delivery.checkpoint := by
        intro heq
        exact hd.1 (heq ▸ mem_map_of_mem h)
      rw [if_neg hne, zero_add, ih hd.2 h]

/-- The part is of a delivered checkpoint. -/
def Genuine (deliveries : List (Delivery ρ)) (part : WatermarkPart) : Prop :=
  ∃ delivery ∈ deliveries, part.watermark = delivery.indexed.watermark ∧
    part.totalRows = delivery.values.length

theorem Genuine.totalRows (hd : (deliveries.map checkpoint).Nodup)
    (h : Genuine deliveries part) : part.totalRows = total deliveries part.checkpoint := by
  obtain ⟨delivery, hmem, hwatermark, htotal⟩ := h
  have hk : part.checkpoint = delivery.checkpoint := congrArg CommitterWatermark.checkpointHiInclusive hwatermark
  rw [htotal, total, hk, rowsOf_allRows hd hmem, Multiset.coe_card]

/-! ### One batch -/

/-- 1 for a key of the map. -/
def ind {ν : Type} (m : BTreeMap Nat ν) (k : Nat) : Nat := if k ∈ m then 1 else 0

def pendingOf (pending : BTreeMap Nat (PendingCheckpoint ρ)) (k : Nat) : Multiset ρ :=
  (pending[k]?.elim [] PendingCheckpoint.values : List ρ)

theorem pendingOf_insert (pending : BTreeMap Nat (PendingCheckpoint ρ)) (k k' : Nat)
    (entry : PendingCheckpoint ρ) :
    pendingOf (pending.insert k entry) k' = if k = k' then ↑entry.values else pendingOf pending k' := by
  unfold pendingOf
  rw [get_insert]
  split <;> rfl

theorem pendingOf_erase (pending : BTreeMap Nat (PendingCheckpoint ρ)) (k k' : Nat) :
    pendingOf (pending.erase k) k' = if k = k' then 0 else pendingOf pending k' := by
  unfold pendingOf
  rw [get_erase]
  split <;> rfl

theorem ind_insert (m : BTreeMap Nat ν) (k k' : Nat) (v : ν) :
    ind (m.insert k v) k' = if k = k' then 1 else ind m k' := by
  unfold ind
  by_cases h : k = k' <;> simp [h]

theorem ind_erase (m : BTreeMap Nat ν) (k k' : Nat) : ind (m.erase k) k' = if k = k' then 0 else ind m k' := by
  unfold ind
  by_cases h : k = k' <;> simp [h]

theorem ind_of_get (h : m[k]? = some v) : ind m k = 1 :=
  if_pos (mem_of_get h)

/-- A pending checkpoint: its part counts the values that are left, and none are left only
of one that had none. -/
structure Waiting (deliveries : List (Delivery ρ)) (k : Nat) (entry : PendingCheckpoint ρ) :
    Prop where
  checkpoint : entry.watermark.checkpoint = k
  genuine : Genuine deliveries entry.watermark
  count : entry.watermark.batchRows = entry.values.length
  rows : entry.values = [] → entry.watermark.totalRows = 0

/-- The handler takes a value whenever some are offered. -/
def Handler.Eager (handler : Handler ρ) : Prop :=
  ∀ calls batch values, values ≠ [] → 0 < (handler calls batch values).1

/-- After `rows` were taken of a checkpoint and `rest` left. -/
def Gathering.took (self : Gathering ρ) (checkpoint : Nat) (part : WatermarkPart)
    (rows rest : List ρ) : Gathering ρ where
  pending :=
    if rest.isEmpty then self.pending.erase checkpoint
    else self.pending.insert checkpoint ⟨rest, {part with batchRows := rest.length}⟩
  batched :=
    { batch := self.batched.batch ++ rows.map fun row => (checkpoint, row)
      batchLen := self.batched.batchLen + rows.length
      watermark := self.batched.watermark ++ [{part with batchRows := rows.length}] }

/-- The assertions of `take` and `is_empty` hold. -/
theorem Gathering.offer_eq (self : Gathering ρ) (handler : Handler ρ) (h : Waiting deliveries k entry) :
    ∃ rows rest status, entry.values = rows ++ rest ∧
      (handler.Eager → entry.values ≠ [] → rows ≠ []) ∧
      self.offer handler k entry = .ok (self.took k entry.watermark rows rest, status) := by
  let call := handler self.batched.watermark.length (self.batched.batch.map Prod.snd) entry.values
  have hlength : (entry.values.take call.1).length + (entry.values.drop call.1).length =
      entry.watermark.batchRows := by
    rw [h.count, ← length_append, take_append_drop]
  have hleft : entry.watermark.batchRows - (entry.values.take call.1).length =
      (entry.values.drop call.1).length := by
    omega
  refine ⟨entry.values.take call.1, entry.values.drop call.1, call.2, (take_append_drop ..).symm, ?_, ?_⟩
  · intro heager hne hnil
    rcases take_eq_nil_iff.mp hnil with hzero | hnil
    · exact absurd hzero (heager _ _ _ hne).ne'
    · exact hne hnil
  · have htake : (entry.values.take call.1).length ≤ entry.watermark.batchRows := by omega
    have hempty : !(entry.values.drop call.1).isEmpty ∨
        entry.watermark.batchRows - (entry.values.take call.1).length = 0 := by
      cases hdrop : entry.values.drop call.1 with
      | nil =>
        rw [hleft, hdrop]
        exact .inr rfl
      | cons => exact .inl rfl
    unfold offer WatermarkPart.take PendingCheckpoint.isEmpty
    simp only [bind_assoc, pure_bind]
    rw [bind_require htake, bind_require hempty, hleft]
    rfl

/-- A batch and what is pending meanwhile, from what was pending before. -/
structure Gathered (deliveries : List (Delivery ρ)) (handler : Handler ρ)
    (before : BTreeMap Nat (PendingCheckpoint ρ)) (g : Gathering ρ) : Prop where
  entries : ∀ k entry, g.pending[k]? = some entry → Waiting deliveries k entry
  rows : ∀ k, rowsOf k g.batched.batch + pendingOf g.pending k = pendingOf before k
  parts : ∀ k, partRows k g.batched.watermark = (rowsOf k g.batched.batch).card
  length : g.batched.batchLen = g.batched.batch.length
  genuine : ∀ part ∈ g.batched.watermark, Genuine deliveries part
  seen : ∀ k, ind before k ≤ partCount k g.batched.watermark + ind g.pending k
  kept : ∀ k, ind g.pending k ≤ ind before k
  once : ∀ k, pendingOf before k = 0 →
    partCount k g.batched.watermark + ind g.pending k ≤ ind before k
  eager : handler.Eager → ∀ part ∈ g.batched.watermark, 0 < part.batchRows ∨ part.totalRows = 0

namespace Gathered
variable {deliveries : List (Delivery ρ)} {handler : Handler ρ}
  {before : BTreeMap Nat (PendingCheckpoint ρ)} {self : Gathering ρ}

theorem start (handler : Handler ρ) (h : ∀ k entry, before[k]? = some entry → Waiting deliveries k entry) :
    Gathered deliveries handler before ⟨before, .empty⟩ where
  entries := h
  rows _ := zero_add _
  parts _ := rfl
  length := rfl
  genuine := nofun
  seen _ := (zero_add _).ge
  kept _ := le_rfl
  once _ _ := (zero_add _).le
  eager := nofun

/-- One call of the handler. -/
theorem took (h : Gathered deliveries handler before self) {entry : PendingCheckpoint ρ}
    (hentry : self.pending[k]? = some entry) {rows rest : List ρ} (hvalues : entry.values = rows ++ rest)
    (heager : handler.Eager → entry.values ≠ [] → rows ≠ []) :
    Gathered deliveries handler before (self.took k entry.watermark rows rest) := by
  have hw := h.entries k entry hentry
  have hind := ind_of_get hentry
  have hpending : ∀ k', pendingOf (self.took k entry.watermark rows rest).pending k' =
      if k = k' then ↑rest else pendingOf self.pending k' := by
    intro k'
    cases rest with
    | nil => exact pendingOf_erase ..
    | cons => exact pendingOf_insert ..
  have hindex : ∀ k', ind (self.took k entry.watermark rows rest).pending k' =
      if k = k' then (if rest = [] then 0 else 1) else ind self.pending k' := by
    intro k'
    cases rest with
    | nil => exact ind_erase ..
    | cons => exact ind_insert ..
  have hcount : ∀ k', partCount k' (self.took k entry.watermark rows rest).batched.watermark =
      partCount k' self.batched.watermark + if k = k' then 1 else 0 := by
    intro k'
    refine (partCount_append ..).trans ?_
    rw [partCount_singleton]
    show _ + (if entry.watermark.checkpoint = k' then 1 else 0) = _
    rw [hw.checkpoint]
  have hheld : pendingOf self.pending k = ↑(rows ++ rest) := by
    rw [← hvalues, pendingOf, hentry]
    rfl
  refine ⟨?_, ?_, ?_, ?_, ?_, ?_, ?_, ?_, ?_⟩
  · intro k' entry' hentry'
    cases rest with
    | nil =>
      have hentry' : (self.pending.erase k)[k']? = some entry' := hentry'
      exact h.entries k' entry' (erase_eq_some.mp hentry').2
    | cons row rest =>
      have hentry' : (self.pending.insert k ⟨row :: rest,
          {entry.watermark with batchRows := (row :: rest).length}⟩)[k']? = some entry' := hentry'
      rcases insert_eq_some.mp hentry' with ⟨hk, rfl⟩ | ⟨-, hentry'⟩
      · exact ⟨hk ▸ hw.checkpoint, hw.genuine, rfl, nofun⟩
      · exact h.entries k' entry' hentry'
  · intro k'
    rw [hpending, ← h.rows k']
    show rowsOf k' (self.batched.batch ++ rows.map fun row => (k, row)) + _ = _
    rw [rowsOf_append, rowsOf_pairs, add_assoc]
    by_cases hk : k = k'
    · rw [if_pos hk, if_pos hk, ← hk, hheld, Multiset.coe_add]
    · rw [if_neg hk, if_neg hk, zero_add]
  · intro k'
    show partRows k' (self.batched.watermark ++ [_]) =
      (rowsOf k' (self.batched.batch ++ rows.map fun row => (k, row))).card
    rw [partRows_append, h.parts, rowsOf_append, rowsOf_pairs, Multiset.card_add, partRows_singleton]
    show _ + (if entry.watermark.checkpoint = k' then rows.length else 0) = _
    rw [hw.checkpoint]
    split <;> rfl
  · show self.batched.batchLen + rows.length = (self.batched.batch ++ _).length
    rw [h.length, length_append, length_map]
  · intro part hpart
    rcases mem_concat.mp hpart with hpart | rfl
    · exact h.genuine part hpart
    · exact hw.genuine
  · intro k'
    have := h.seen k'
    rw [hcount, hindex]
    by_cases hk : k = k'
    · rw [← hk, hind] at this
      rw [if_pos hk, ← hk]
      omega
    · rw [if_neg hk, if_neg hk]
      exact this
  · intro k'
    have := h.kept k'
    rw [hindex]
    by_cases hk : k = k'
    · rw [← hk, hind] at this
      rw [if_pos hk, ← hk]
      split <;> omega
    · rw [if_neg hk]
      exact this
  · intro k' hzero
    have := h.once k' hzero
    rw [hcount, hindex]
    by_cases hk : k = k'
    · have hrows := h.rows k'
      rw [hzero, ← hk, hheld, add_eq_zero, Multiset.coe_eq_zero, append_eq_nil_iff] at hrows
      rw [← hk, hind] at this
      rw [if_pos hk, if_pos hk, if_pos hrows.2.2, ← hk]
      exact this
    · rw [if_neg hk, if_neg hk]
      exact this
  · intro he part hpart
    rcases mem_concat.mp hpart with hpart | rfl
    · exact h.eager he part hpart
    · by_cases hne : entry.values = []
      · exact .inr (hw.rows hne)
      · exact .inl (length_pos_iff.mpr (heager he hne))

theorem gather (h : Gathered deliveries handler before self) (updates : Nat) :
    ∃ gathered, self.gather handler updates = .ok gathered ∧ Gathered deliveries handler before gathered := by
  induction updates generalizing self with
  | zero => exact ⟨self, rfl, h⟩
  | succ updates ih =>
    unfold Gathering.gather
    cases hfirst : firstEntry? self.pending with
    | none => exact ⟨self, rfl, h⟩
    | some first =>
      obtain ⟨k, entry⟩ := first
      have hentry := (firstEntry_eq_some _ hfirst).1
      obtain ⟨rows, rest, status, hvalues, heager, hoffer⟩ := self.offer_eq handler (h.entries k entry hentry)
      have htook := h.took hentry hvalues heager
      simp only []
      rw [bind_ok hoffer]
      by_cases hready : status = .ready
      · rw [if_pos hready]
        exact ⟨_, rfl, htook⟩
      · rw [if_neg hready]
        exact ih htook

end Gathered

/-! ### All batches -/

/-- The collector and the batches that it has made. -/
structure Collected (deliveries : List (Delivery ρ)) (collector : Collector ρ)
    (batches : List (BatchedRows ρ)) : Prop where
  rx : ∀ delivery ∈ collector.rx, delivery ∈ deliveries
  entries : ∀ k entry, collector.pending[k]? = some entry → Waiting deliveries k entry
  rows : ∀ k, rowsOf k (batches.flatMap BatchedRows.batch) + pendingOf collector.pending k +
    rowsOf k (allRows collector.rx) = rowsOf k (allRows deliveries)
  pendingRows : collector.pendingRows + (batches.flatMap BatchedRows.batch).length +
    (allRows collector.rx).length = (allRows deliveries).length
  parts : ∀ batched ∈ batches, ∀ k, partRows k batched.watermark = (rowsOf k batched.batch).card
  genuine : ∀ part ∈ batches.flatMap BatchedRows.watermark, Genuine deliveries part
  seen : ∀ k ∈ deliveries.map Delivery.checkpoint, 0 < (collector.rx.map Delivery.checkpoint).count k +
    ind collector.pending k + partCount k (batches.flatMap BatchedRows.watermark)
  fresh : ∀ k, (collector.rx.map Delivery.checkpoint).count k + ind collector.pending k ≤ 1
  once : ∀ k, total deliveries k = 0 → (collector.rx.map Delivery.checkpoint).count k +
    ind collector.pending k + partCount k (batches.flatMap BatchedRows.watermark) ≤ 1

namespace Collected
variable {deliveries : List (Delivery ρ)} {self : Collector ρ} {batches : List (BatchedRows ρ)}

theorem new (hd : (deliveries.map checkpoint).Nodup) :
    Collected deliveries ⟨deliveries, ∅, 0, false⟩ [] where
  rx _ h := h
  entries k entry h := by simp at h
  rows k := by simp [pendingOf]
  pendingRows := by simp
  parts := nofun
  genuine := nofun
  seen k hk := by
    rw [Nat.add_assoc]
    exact Nat.add_pos_left (count_pos_iff.mpr hk) _
  fresh k := by
    have := nodup_iff_count_le_one.mp hd k
    simpa [ind] using this
  once k _ := by
    have := nodup_iff_count_le_one.mp hd k
    simpa [ind] using this

section
variable (h : Collected deliveries self batches)
include h

/-- The order of the batches does not matter. -/
theorem perm (hperm : batches.Perm batches') : Collected deliveries self batches' := by
  have hrows := hperm.flatMap_right batch
  have hparts := hperm.flatMap_right watermark
  exact
    { rx := h.rx
      entries := h.entries
      rows := fun k => rowsOf_perm hrows k ▸ h.rows k
      pendingRows := hrows.length_eq ▸ h.pendingRows
      parts := fun batched hb => h.parts batched (hperm.mem_iff.mpr hb)
      genuine := fun part hpart => h.genuine part (hparts.mem_iff.mpr hpart)
      seen := fun k hk => partCount_perm hparts k ▸ h.seen k hk
      fresh := h.fresh
      once := fun k hk => partCount_perm hparts k ▸ h.once k hk }

theorem waking (flushing : Bool) : Collected deliveries {self with flushing} batches :=
  ⟨h.rx, h.entries, h.rows, h.pendingRows, h.parts, h.genuine, h.seen, h.fresh, h.once⟩

theorem receive (config : Config) : Collected deliveries (self.receive config) batches := by
  unfold Collector.receive
  split
  · exact h
  · rename_i delivery rx hrx
    split
    · have hfresh := h.fresh delivery.checkpoint
      rw [hrx, map_cons, count_cons_self] at hfresh
      have habsent : ind self.pending delivery.checkpoint = 0 := by omega
      have hempty : pendingOf self.pending delivery.checkpoint = 0 := by
        have hnot : delivery.checkpoint ∉ self.pending := by
          intro hmem
          rw [ind, if_pos hmem] at habsent
          cases habsent
        rw [pendingOf, not_mem_iff_get.mp hnot]
        rfl
      -- A checkpoint moves from the channel to the pending ones.
      have htally : ∀ k, (rx.map Delivery.checkpoint).count k +
          ind (self.pending.insert delivery.checkpoint (.ofDelivery delivery)) k =
          (self.rx.map Delivery.checkpoint).count k + ind self.pending k := by
        intro k
        rw [hrx, map_cons, count_cons, ind_insert]
        by_cases hk : delivery.checkpoint = k
        · rw [← hk, if_pos rfl, habsent, if_pos (beq_self_eq_true _)]
        · rw [if_neg hk, if_neg (by simpa using hk)]
          omega
      refine ⟨?_, ?_, ?_, ?_, h.parts, h.genuine, ?_, ?_, ?_⟩
      · intro d hd
        exact h.rx d (hrx ▸ mem_cons_of_mem _ hd)
      · intro k entry hentry
        rcases insert_eq_some.mp hentry with ⟨hk, rfl⟩ | ⟨-, hentry⟩
        · refine ⟨hk, ⟨delivery, h.rx delivery (hrx ▸ mem_cons_self ..), rfl, rfl⟩, rfl, ?_⟩
          intro hnil
          exact length_eq_zero_iff.mpr hnil
        · exact h.entries k entry hentry
      · intro k
        rw [← h.rows k, hrx, allRows_cons, rowsOf_append, Delivery.rows, rowsOf_pairs, pendingOf_insert]
        by_cases hk : delivery.checkpoint = k
        · rw [if_pos hk, if_pos hk, ← hk, hempty, add_zero, add_assoc]
          rfl
        · rw [if_neg hk, if_neg hk, zero_add]
      · have := h.pendingRows
        rw [hrx, allRows_cons, length_append, Delivery.rows, length_map] at this
        show self.pendingRows + delivery.values.length + _ + (allRows rx).length = _
        omega
      · intro k hk
        have := h.seen k hk
        rw [← htally] at this
        exact this
      · intro k
        have := h.fresh k
        rw [← htally] at this
        exact this
      · intro k hk
        have := h.once k hk
        rw [← htally] at this
        exact this
    · exact h

/-- No more rows are pending than are to commit. -/
theorem pendingOf_le (k : Nat) : pendingOf self.pending k ≤ rowsOf k (allRows deliveries) := by
  rw [← h.rows k]
  exact (Multiset.le_add_left ..).trans (Multiset.le_add_right ..)

/-- Every batch is gathered and counted, and keeps what holds of all batches. -/
theorem flush (config : Config) (handler : Handler ρ) :
    ∃ collector batched, self.flush config handler = .ok (collector, batched) ∧
      Collected deliveries collector (batches ++ [batched]) ∧ collector.rx = self.rx ∧
      (handler.Eager → ∀ part ∈ batched.watermark, 0 < part.batchRows ∨ part.totalRows = 0) := by
  obtain ⟨gathered, hgather, hg⟩ := (Gathered.start handler h.entries).gather config.maxWatermarkUpdates
  have hrows : ∀ k, rowsOf k ((batches ++ [gathered.batched]).flatMap batch) +
      pendingOf gathered.pending k + rowsOf k (allRows self.rx) = rowsOf k (allRows deliveries) := by
    intro k
    rw [← h.rows k, ← hg.rows k, flatMap_append, rowsOf_append, flatMap_singleton]
    simp only [add_assoc]
  have hlength : gathered.batched.batchLen + (batches.flatMap batch).length +
      (allRows self.rx).length ≤ (allRows deliveries).length := by
    have hle := length_le_of_rowsOf_le (gathered.batched.batch ++
      batches.flatMap batch ++ allRows self.rx) (allRows deliveries) ?_
    · rw [length_append, length_append, ← hg.length] at hle
      exact hle
    · intro k
      rw [← hrows k, flatMap_append, flatMap_singleton, rowsOf_append, rowsOf_append,
        rowsOf_append, add_comm (rowsOf k gathered.batched.batch)]
      exact add_le_add_left (Multiset.le_add_right ..) _
  have hpending := h.pendingRows
  have hle : gathered.batched.batchLen ≤ self.pendingRows := by omega
  refine ⟨⟨self.rx, gathered.pending, self.pendingRows - gathered.batched.batchLen,
    !gathered.pending.isEmpty⟩, gathered.batched, ?_, ?_, rfl, hg.eager⟩
  · unfold Collector.flush
    rw [bind_ok hgather, bind_require hle]
    rfl
  · have hseen : ∀ k, partCount k ((batches ++ [gathered.batched]).flatMap watermark) =
        partCount k (batches.flatMap watermark) + partCount k gathered.batched.watermark := by
      intro k
      rw [flatMap_append, partCount_append, flatMap_singleton]
    refine ⟨h.rx, hg.entries, hrows, ?_, ?_, ?_, ?_, ?_, ?_⟩
    · dsimp only
      rw [flatMap_append, flatMap_singleton, length_append, ← hg.length]
      omega
    · intro batched hb
      rcases mem_concat.mp hb with hb | rfl
      · exact h.parts batched hb
      · exact hg.parts
    · intro part hpart
      rw [flatMap_append, flatMap_singleton] at hpart
      rcases mem_append.mp hpart with hpart | hpart
      · exact h.genuine part hpart
      · exact hg.genuine part hpart
    · intro k hk
      have hbefore := h.seen k hk
      have hnow := hg.seen k
      rw [hseen]
      dsimp only
      omega
    · intro k
      have hbefore := h.fresh k
      have hnow := hg.kept k
      dsimp only
      omega
    · intro k hk
      have hbefore := h.once k hk
      have hzero : pendingOf self.pending k = 0 := by
        apply Multiset.le_zero.mp
        rw [← Multiset.card_eq_zero.mp hk]
        exact h.pendingOf_le k
      have hnow := hg.once k hzero
      rw [hseen]
      dsimp only
      omega

end

/-- Parts of batches count the rows in them. -/
theorem partRows_flatMap
    (h : ∀ batched ∈ batches, ∀ k, partRows k batched.watermark = (rowsOf k batched.batch).card)
    (k : Nat) : partRows k (batches.flatMap watermark) = (rowsOf k (batches.flatMap batch)).card := by
  induction batches with
  | nil => rfl
  | cons batched rest ih =>
    have hrest := ih fun b hb => h b (.tail _ hb)
    rw [flatMap_cons, flatMap_cons, partRows_append, rowsOf_append, Multiset.card_add,
      hrest, h batched (.head _) k]

/-- The parts of a checkpoint never count more rows than it has. -/
theorem partRows_le (h : Collected deliveries self batches) (k : Nat) :
    partRows k (batches.flatMap watermark) ≤ total deliveries k := by
  rw [partRows_flatMap h.parts, total, ← h.rows k, add_assoc, Multiset.card_add]
  exact Nat.le_add_right ..

end Collected

end Sui.Indexer
