import Sui.Quarantine.Basic

/-! The overlays of the quarantine.

`Represents` says that the reference counted maps count the writes of the outputs that
wait, so an output that leaves finds its keys. A lookup reads the overlay, and the tables where
it has nothing (`doFallbackLookup_eq`). -/
namespace Sui.Quarantine

open Sui.Lib Exec List RefCountedHashMap
open Writes (last Counted)

/-! ### Reference counts -/

namespace RefCountedHashMap
variable {κ ν : Type} [LinearOrder κ] {m : RefCountedHashMap κ ν}

theorem insert_counted (h : Counted ws m.map) (k : κ) (v : ν) : Counted (ws ++ [(k, v)]) (m.insert k v).map := by
  have hk := h k
  unfold insert
  cases hlast : last ws k with
  | none =>
    rw [hlast, Option.map_none] at hk
    rw [hk]
    refine h.push k v ?_
    rw [count_eq_zero.mpr (Writes.last_eq_none_iff.mp hlast)]
  | some u =>
    rw [hlast, Option.map_some] at hk
    rw [hk]
    exact h.push k v rfl

theorem foldl_insert_counted (h : Counted ws m.map) (ws' : List (κ × ν)) :
    Counted (ws ++ ws') (ws'.foldl (fun m w => m.insert w.1 w.2) m).map := by
  induction ws' generalizing ws m with
  | nil => simpa using h
  | cons w ws' ih =>
    have hnext := ih (insert_counted h w.1 w.2)
    rwa [append_assoc, singleton_append] at hnext

/-- The writes of one more output. -/
theorem foldl_insert_counted_append (h : Counted (queue.flatMap writes) m.map) (output : α) :
    Counted ((queue ++ [output]).flatMap writes) ((writes output).foldl (fun m w => m.insert w.1 w.2) m).map := by
  rw [flatMap_append, flatMap_singleton]
  exact foldl_insert_counted h _

theorem remove_counted (h : Counted ((k, v) :: ws) m.map) :
    (m.remove k).1 = true ∧ Counted ws (m.remove k).2.map := by
  unfold remove
  rw [h.get_head]
  simp only [Nat.add_sub_cancel]
  split
  · rename_i hcount
    exact ⟨rfl, h.pop (if_pos hcount).symm⟩
  · rename_i hcount
    exact ⟨rfl, h.pop (if_neg hcount).symm⟩

theorem foldl_remove_counted (ws' : List (κ × ν)) (h : Counted (ws' ++ ws) m.map) :
    Counted ws ((ws'.map Prod.fst).foldl (fun m k => (m.remove k).2) m).map := by
  induction ws' generalizing m with
  | nil => exact h
  | cons w ws' ih => exact ih (remove_counted h).2

theorem get_eq (h : Counted ws m.map) (k : κ) : m.get k = last ws k := by
  unfold get
  rw [h k, Option.map_map]
  exact Option.map_id'

end RefCountedHashMap

/-! ### Lookups with a fallback -/

section Lookup
variable {κ ν : Type}

theorem length_foldl_set (us : List (Nat × ν)) (results : List ν) :
    (us.foldl (fun results u => results.set u.1 u.2) results).length = results.length := by
  induction us generalizing results with
  | nil => rfl
  | cons u us ih => rw [foldl_cons, ih, length_set]

theorem getElem?_foldl_set (us : List (Nat × ν)) (results : List ν) (j : Nat) :
    (us.foldl (fun results u => results.set u.1 u.2) results)[j]? =
      if j < results.length then (last us j).or results[j]? else none := by
  induction us generalizing results with
  | nil =>
    split
    · rfl
    · rename_i hj
      exact List.getElem?_eq_none_iff.mpr (Nat.le_of_not_lt hj)
  | cons u us ih =>
    rw [foldl_cons, ih, length_set, last, Option.or_assoc]
    split
    · rename_i hj
      rw [List.getElem?_set]
      by_cases hu : u.1 = j
      · simp [hu, hj]
      · simp [hu]
    · rfl

/-- The updates some of the keys ask for, at their positions. -/
def updates (g : κ → Option ν) (entries : List (κ × Nat)) : List (Nat × ν) :=
  entries.filterMap fun e => (g e.1).map (e.2, ·)

theorem updates_cons (g : κ → Option ν) (e : κ × Nat) (entries : List (κ × Nat)) :
    updates g (e :: entries) = ((g e.1).map (e.2, ·)).toList ++ updates g entries := by
  unfold updates
  cases h : g e.1 <;> simp [h]

theorem last_updates (g : κ → Option ν) (keys : List κ) (n j : Nat) :
    last (updates g (keys.zipIdx n)) j = if n ≤ j then keys[j - n]?.bind g else none := by
  induction keys generalizing n with
  | nil => simp [updates, last]
  | cons k keys ih =>
    rw [zipIdx_cons, updates_cons, Writes.last_append, ih]
    have hhead : last ((g k).map (n, ·)).toList j = if n = j then g k else none := by
      cases g k <;> simp [last]
    rw [hhead]
    rcases Nat.lt_trichotomy j n with hlt | heq | hgt
    · rw [if_neg (by omega), if_neg (by omega), if_neg (by omega)]
      rfl
    · subst heq
      simp
    · rw [if_pos (by omega), if_neg (by omega), if_pos (by omega), Option.or_none,
        show j - n = (j - (n + 1)) + 1 by omega, List.getElem?_cons_succ]

def CacheResult.hit? : CacheResult ν → Option ν
  | .hit value => some value
  | _ => none

/-- The value of a key that has to be fetched. -/
def CacheResult.fetch (f : κ → ν) (key : κ) : CacheResult ν → Option ν
  | .miss => some (f key)
  | _ => none

/-- What the loop collects, and what is done with the answers to it. -/
theorem visit_spec (getCachedKey : κ → CacheResult ν) (f : κ → ν) (entries : List (κ × Nat))
    (s : Fallback κ ν) (hlen : s.keys.length = s.indices.length) :
    let s' := entries.foldl (Fallback.visit getCachedKey) s
    s'.keys.length = s'.indices.length ∧
    s'.results = (updates (fun k => (getCachedKey k).hit?) entries).foldl
      (fun results u => results.set u.1 u.2) s.results ∧
    s'.indices.zip (s'.keys.map f) = s.indices.zip (s.keys.map f) ++
      updates (fun k => (getCachedKey k).fetch f k) entries := by
  induction entries generalizing s with
  | nil => exact ⟨hlen, rfl, (append_nil _).symm⟩
  | cons e entries ih =>
    rw [foldl_cons, updates_cons, updates_cons]
    cases hc : getCachedKey e.1 with
    | hit value =>
      have hvisit : s.visit getCachedKey e = { s with results := s.results.set e.2 value } := by
        simp only [Fallback.visit, hc]
      rw [hvisit]
      exact ih _ hlen
    | negativeHit =>
      have hvisit : s.visit getCachedKey e = s := by simp only [Fallback.visit, hc]
      rw [hvisit]
      exact ih _ hlen
    | miss =>
      have hvisit : s.visit getCachedKey e =
          { s with keys := s.keys ++ [e.1], indices := s.indices ++ [e.2] } := by
        simp only [Fallback.visit, hc]
      rw [hvisit]
      obtain ⟨hlen', hresults, hzip⟩ :=
        ih { s with keys := s.keys ++ [e.1], indices := s.indices ++ [e.2] } (by simp [hlen])
      refine ⟨hlen', hresults, hzip.trans ?_⟩
      rw [map_append, zip_append (by simp [hlen]), append_assoc]
      rfl

/-- A lookup reads every key from the cache, and from the fallback if it is not there. -/
theorem doFallbackLookup_eq [Inhabited ν] (keys : List κ) (getCachedKey : κ → CacheResult ν) (f : κ → ν) :
    doFallbackLookup keys getCachedKey (List.map f) = .ok (keys.map fun k =>
      (((getCachedKey k).fetch f k).or (getCachedKey k).hit?).getD default) := by
  obtain ⟨hlen, hresults, hzip⟩ := visit_spec getCachedKey f keys.zipIdx
    ⟨List.replicate keys.length default, [], []⟩ rfl
  unfold doFallbackLookup
  rw [bind_require (by rw [length_map, hlen]), bind_require (by rw [length_map]), hzip, hresults]
  refine congrArg Except.ok (ext_getElem? fun j => ?_)
  rw [zip_nil_left, nil_append, getElem?_foldl_set, getElem?_foldl_set, last_updates,
    last_updates, List.getElem?_map]
  rw [length_foldl_set, length_replicate]
  by_cases hj : j < keys.length
  · rw [if_pos hj, if_pos hj, List.getElem?_eq_getElem hj, List.getElem?_replicate, if_pos hj]
    simp only [Nat.zero_le, if_true, Nat.sub_zero, List.getElem?_eq_getElem hj, Option.bind_some, Option.map_some]
    cases getCachedKey keys[j] <;> rfl
  · rw [if_neg hj, List.getElem?_eq_none_iff.mpr (by omega)]
    rfl

end Lookup

/-! ### What the reference counted maps show -/

namespace ConsensusCommitOutput

def processedWrites (output : ConsensusCommitOutput) :
    List (SequencedConsensusTransactionKey × Unit) :=
  output.consensusMessagesProcessed.toList.map (·, ())

theorem map_fst_debtWrites (output : ConsensusCommitOutput) (debts : List (ObjectID × Nat)) :
    (output.debtWrites debts).map Prod.fst = debts.map Prod.fst := by
  simp [debtWrites]

/-- The batch with the inserts of the output, whose commit stats are set. -/
def addTo (batch : DBBatch) (output : ConsensusCommitOutput) : DBBatch :=
  { batch with
    consensusMessageProcessed := batch.consensusMessageProcessed ++
      output.consensusMessagesProcessed.toList.map (·, true)
    lastConsensusStats := batch.lastConsensusStats ++ output.consensusCommitStats.toList
    nextSharedObjectVersions := batch.nextSharedObjectVersions ++ output.nextVersionWrites
    ownedObjectLockedTransactions := batch.ownedObjectLockedTransactions ++
      output.ownedObjectLocks.toList
    activeJwks := batch.activeJwks ++ output.activeJwks
    congestionControlObjectDebts := batch.congestionControlObjectDebts ++
      output.debtWrites output.congestionControlObjectDebts
    congestionControlRandomnessObjectDebts := batch.congestionControlRandomnessObjectDebts ++
      output.debtWrites output.congestionControlRandomnessObjectDebts }

end ConsensusCommitOutput

open ConsensusCommitOutput

/-- Every failure but the one of a missing key. -/
def Found (panic : Panic) : Prop := ∀ key, panic ≠ .nextVersionNotFound key

variable {panic : Panic}

theorem unwrap_found (h : Found panic) : Exec.Sat (Exec.unwrap x panic) (x = some ·) Found := by
  cases x with
  | some a => rfl
  | none => exact h

theorem require_found [Decidable c] (h : Found panic) : Exec.Sat (Exec.require c panic) (fun _ => c) Found := by
  unfold Exec.require
  split
  · assumption
  · exact h

theorem writeToBatch_spec (output : ConsensusCommitOutput) (batch : DBBatch) :
    Exec.Sat (output.writeToBatch batch) (· = output.addTo batch) Found := by
  refine (unwrap_found (by simp [Found])).bind fun stats hstats => ?_
  refine (require_found (by simp [Found])).bind fun _ _ => ?_
  unfold addTo
  rw [hstats]
  rfl

namespace ConsensusOutputQuarantine

/-- The reference counted maps count the writes that wait. -/
structure Represents (q : ConsensusOutputQuarantine) : Prop where
  versions : Counted (q.outputQueue.flatMap nextVersionWrites) q.sharedObjectNextVersions.map
  debts : Counted (q.outputQueue.flatMap fun o => o.debtWrites o.congestionControlObjectDebts)
    q.congestionControlObjectDebts.map
  randomnessDebts : Counted
    (q.outputQueue.flatMap fun o => o.debtWrites o.congestionControlRandomnessObjectDebts)
    q.congestionControlRandomnessObjectDebts.map
  processed : Counted (q.outputQueue.flatMap processedWrites) q.processedConsensusMessages.map

theorem new_represents (highest : CheckpointSequenceNumber) : (new highest).Represents :=
  ⟨Writes.counted_nil, Writes.counted_nil, Writes.counted_nil, Writes.counted_nil⟩

/-- A push, before the commit that follows it. -/
def enqueue (q : ConsensusOutputQuarantine) (output : ConsensusCommitOutput) :
    ConsensusOutputQuarantine :=
  let q := q.insertSharedObjectNextVersions output
  let q := q.insertCongestionControlDebts output
  let q := q.insertProcessedConsensusMessages output
  let q := q.insertOwnedObjectLocks output
  { q with outputQueue := q.outputQueue ++ [output] }

variable {q : ConsensusOutputQuarantine}

theorem enqueue_represents (h : q.Represents)
    (output : ConsensusCommitOutput) : (q.enqueue output).Represents where
  versions := foldl_insert_counted_append h.versions output
  debts := foldl_insert_counted_append h.debts output
  randomnessDebts := foldl_insert_counted_append h.randomnessDebts output
  processed := by
    have hnext := foldl_insert_counted_append h.processed output
    rwa [processedWrites, foldl_map] at hnext

theorem foldlM_removeNextVersion
    (ws' : List (ConsensusObjectSequenceKey × SequenceNumber)) (h : Counted (ws' ++ ws) m.map) :
    ∃ versions, (ws'.map (·.1)).foldlM removeNextVersion m = .ok versions ∧ Counted ws versions.map := by
  induction ws' generalizing m with
  | nil => exact ⟨m, rfl, h⟩
  | cons w ws' ih =>
    obtain ⟨hfound, hnext⟩ := remove_counted h
    obtain ⟨versions, hrun, hcounted⟩ := ih hnext
    refine ⟨versions, foldlM_cons_eq_ok.mpr ⟨_, ?_, hrun⟩, hcounted⟩
    unfold removeNextVersion
    generalize m.remove w.1 = removed at hfound
    obtain ⟨found, m'⟩ := removed
    cases hfound
    rfl

/-- An output that leaves finds its keys. -/
theorem removeSharedObjectNextVersions_spec
    (h : Counted (output.nextVersionWrites ++ ws) q.sharedObjectNextVersions.map) :
    ∃ versions, q.removeSharedObjectNextVersions output =
      .ok { q with sharedObjectNextVersions := versions } ∧ Counted ws versions.map := by
  obtain ⟨versions, hrun, hcounted⟩ := foldlM_removeNextVersion _ h
  refine ⟨versions, ?_, hcounted⟩
  unfold removeSharedObjectNextVersions
  rw [bind_ok hrun]
  rfl

end ConsensusOutputQuarantine

end Sui.Quarantine
