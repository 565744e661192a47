import Sui.ConsensusHandler.Sequence
import Sui.ConsensusHandler.Store

/-! Consensus output is accepted once.

`accepted_once` compares every schedule with the sequence: whatever is flushed, evicted or
replayed after a restart, a commit that is handled gives what the sequence gives for it.

The invariant `Inv` relates a node to the ledger of the commits before the one at hand. The
locks and the processed messages that the node sees are those of the ledger; the cache has no
user transaction that is not passed on; and the phase of the handler is as far as the sequence
would be after the copies that it has gone through. The outputs up to any of them record the
ledger at their last round, which is what a restart finds. -/
namespace Sui.ConsensusHandler

open Sui.Lib Exec Sui.Quarantine List Copy Phase

/-! ### Keys -/

theorem certificateKey_inj : certificateKey digest = certificateKey digest' ↔ digest = digest' :=
  Nat.mul_right_inj (by decide)

variable {copy : Copy} {digest : TransactionDigest} {commits : List Commit} {last : Round}

theorem Copy.key_eq_iff : copy.key = certificateKey digest ↔ copy.userTransactionDigest = some digest := by
  unfold key userTransactionDigest
  cases copy.transaction with
  | userTransactionV2 tx immutableObjects => simp [certificateKey_inj]
  | message kind key verified =>
    simp only [certificateKey, reduceCtorEq, iff_false]
    exact Nat.two_mul_ne_two_mul_add_one.symm

theorem Copy.verify_of_user
    (h : copy.userTransactionDigest = some digest) : copy.verifyConsensusTransaction = true := by
  unfold userTransactionDigest at h
  unfold verifyConsensusTransaction
  cases hkind : copy.transaction with
  | userTransactionV2 tx immutableObjects => rfl
  | message kind key verified =>
    rw [hkind] at h
    cases h

/-! ### The ledger of the first commits -/

namespace Ledger

theorem handleAll_append (ledger : Ledger) (commits commits' : List Commit) :
    ledger.handleAll (commits ++ commits') =
      ledger.handleAll commits ++ (commits.foldl after ledger).handleAll commits' := by
  induction commits generalizing ledger with
  | nil => rfl
  | cons commit commits ih => exact congrArg _ (ih _)

end Ledger

/-- The ledger after the commits up to a round. -/
def ledgerAt (commits : List Commit) (round : Round) : Ledger :=
  (commits.filter fun commit => commit.round ≤ round).foldl Ledger.after .start

/-- The next commit after a round. -/
structure Next (commits : List Commit) (ledger : Ledger) (commit : Commit) : Prop where
  after : ledgerAt commits commit.round = ledger.after commit
  handled : ledger.handled commit ∈ Ledger.start.handleAll commits

variable {commit : Commit}

section
variable (hrounds : (commits.map Commit.round).Pairwise (· < ·))
include hrounds

/-- The commits before and after the next one. -/
theorem split_of_find (h : commits.find? (fun commit => last < commit.round) = some commit) :
    last < commit.round ∧ ∃ before rest, commits = before ++ commit :: rest ∧
      (∀ other ∈ before, other.round ≤ last) ∧ ∀ other ∈ rest, commit.round < other.round := by
  obtain ⟨hlast, before, rest, rfl, hbefore⟩ := List.find?_eq_some_iff_append.mp h
  simp only [Bool.not_eq_true', decide_eq_false_iff_not, not_lt, decide_eq_true_eq] at hbefore hlast
  rw [map_append, map_cons, pairwise_append, pairwise_cons] at hrounds
  exact ⟨hlast, before, rest, rfl, hbefore, fun other hother => hrounds.2.1.1 _ (mem_map_of_mem hother)⟩

theorem next_of_find (h : commits.find? (fun commit => last < commit.round) = some commit) :
    Next commits (ledgerAt commits last) commit := by
  obtain ⟨hlast, before, rest, rfl, hbefore, hrest⟩ := split_of_find hrounds h
  have hat : ledgerAt (before ++ commit :: rest) last = before.foldl Ledger.after .start := by
    unfold ledgerAt
    rw [filter_append, filter_eq_self.mpr, filter_eq_nil_iff.mpr, append_nil]
    · simp only [decide_eq_true_eq, not_le]
      exact forall_mem_cons.mpr ⟨hlast, fun other hother => hlast.trans (hrest other hother)⟩
    · exact fun other hother => decide_eq_true (hbefore other hother)
  refine ⟨?_, ?_⟩
  · rw [hat]
    unfold ledgerAt
    rw [filter_append, filter_eq_self.mpr, filter_cons_of_pos (by simp), filter_eq_nil_iff.mpr, foldl_append]
    · rfl
    · intro other hother
      rw [decide_eq_true_eq, not_le]
      exact hrest other hother
    · exact fun other hother => decide_eq_true ((hbefore other hother).trans hlast.le)
  · rw [hat, Ledger.handleAll_append]
    exact mem_append_right _ (.head _)

end

section
variable (h : commit.makeCheckpoint = false)
include h

/-- A commit that makes no checkpoint has nothing for the ledger. -/
theorem Commit.filter_of_not_made (state : Locks × FilteredConsensusOutput) (copy : Copy) :
    (commit.filter state copy).1 = state.1 ∧
      ∀ other ∈ (commit.filter state copy).2.transactions, other ∈ state.2.transactions ∨
        other.userTransactionDigest = none := by
  have hclosed : commit.initialReconfigState.shouldAcceptConsensusCerts = false := by
    have hmade := commit.made
    rw [h] at hmade
    revert hmade
    cases commit.initialReconfigState <;> decide
  unfold Commit.filter
  rcases screen_cases commit copy with ⟨status, kept, hscreen, hnone, -⟩ | ⟨txDigest, -, -, hopen⟩
  · rw [hscreen]
    refine ⟨rfl, fun other hother => ?_⟩
    dsimp only [FilteredConsensusOutput.add] at hother
    split at hother
    · rename_i hkept
      refine (mem_append.mp hother).imp_right fun hother => ?_
      rw [mem_singleton.mp hother]
      exact hnone hkept
    · exact .inl hother
  · rw [hclosed] at hopen
    cases hopen

theorem Commit.filterAll_of_not_made (locks : Locks) (copies : List Copy) :
    (commit.filterAll locks copies).1 = locks ∧
      ∀ copy ∈ (commit.filterAll locks copies).2.transactions, copy.userTransactionDigest = none := by
  induction copies using List.reverseRecOn with
  | nil => exact ⟨rfl, fun copy hcopy => by cases hcopy⟩
  | append_singleton copies copy ih =>
    rw [commit.filterAll_append]
    obtain ⟨hlocks, hkept⟩ := Commit.filter_of_not_made h (commit.filterAll locks copies) copy
    exact ⟨hlocks.trans ih.1, fun other hother => (hkept other hother).elim (ih.2 other) id⟩

theorem Ledger.after_of_not_made (ledger : Ledger) : ledger.after commit = ledger := by
  obtain ⟨hlocks, hkept⟩ := Commit.filterAll_of_not_made h ledger.locks commit.copies
  have hnone : (ledger.handled commit).userTransactions.filterMap userTransactionDigest = [] := by
    rw [filterMap_eq_nil_iff]
    exact fun copy hcopy => hkept copy (mem_passOnAll hcopy).1
  unfold Ledger.after
  rw [hlocks, hnone, append_nil]

end

/-! ### The invariant -/

/-- Outputs record the ledger at their last round. -/
structure Records (commits : List Commit) (outputs : List ConsensusCommitOutput) : Prop where
  locks : ∀ r, lockOf outputs r = (ledgerAt commits (lastRound outputs)).locks r
  passedOn : ∀ digest, (∃ o ∈ outputs, certificateKey digest ∈ o.consensusMessagesProcessed) ↔
    digest ∈ (ledgerAt commits (lastRound outputs)).passedOn

/-- A system whose outputs record a ledger, and so do the first of them. -/
structure Holds (commits : List Commit) (ledger : Ledger) (system : System)
    (pushed : List ConsensusCommitOutput) : Prop where
  ok : System.Ok {} pushed system
  records : ∀ outputs, outputs <+: pushed → Records commits outputs
  ledger_eq : ledger = ledgerAt commits (lastRound pushed)

/-- The cache has no user transaction but those passed on, or seen in the commit. -/
def Cached (ledger : Ledger) (cache : BTreeSet SequencedConsensusTransactionKey) (seen : List Copy) :
    Prop :=
  ∀ digest, certificateKey digest ∈ cache →
    digest ∈ ledger.passedOn ∨ some digest ∈ seen.map Copy.userTransactionDigest

/-- The locks of the system, with those of the ledger, are the ones of the filter. -/
def SameLocks (ledger : Ledger) (system : System) (locks : Locks) : Prop :=
  ∀ r, locks r = system.ownedObjectLocks[r]?.or (ledger.locks r)

/-- The second loop has gone through some copies. -/
structure Deduped (ledger : Ledger) (state : Deduplicated) (done : List Copy) : Prop where
  passedOn : state.allTransactions.filter Copy.isUserTransaction = passOnAll ledger.passedOn done
  counts : ∀ digest, 0 < state.occurrenceCounts.getD (certificateKey digest) 0 ↔
    some digest ∈ done.map Copy.userTransactionDigest
  processed : ∀ digest, certificateKey digest ∈ state.consensusMessagesProcessed ↔
    some digest ∈ (passOnAll ledger.passedOn done).map Copy.userTransactionDigest

/-- What passes the filter. -/
def kept (ledger : Ledger) (commit : Commit) : List Copy :=
  (commit.filterAll ledger.locks commit.copies).2.transactions

/-- How far the handler is with a commit, with the locks that it sees and the copies that its
second loop has gone through. -/
def InPhase (commits : List Commit) (ledger : Ledger) (last : Round) (locks : Locks)
    (seen : List Copy) : Phase → Prop
  | .idle => ledger = ledgerAt commits last ∧ locks = ledger.locks ∧ seen = []
  | .filtering commit remaining output =>
    (last = commit.round ∧ Next commits ledger commit) ∧ seen = [] ∧
      ∃ done, commit.copies = done ++ remaining ∧ commit.filterAll ledger.locks done = (locks, output)
  | .deduplicating commit statuses remaining state =>
    (last = commit.round ∧ Next commits ledger commit) ∧ locks = (ledger.after commit).locks ∧
      statuses = (ledger.handled commit).statuses ∧ kept ledger commit = seen ++ remaining ∧
      Deduped ledger state seen
  | .scheduling commit state =>
    (last = commit.round ∧ Next commits ledger commit) ∧ locks = (ledger.after commit).locks ∧
      seen = kept ledger commit ∧ Deduped ledger state seen

/-- The invariant of a node. -/
def Inv (commits : List Commit) (node : Node) : Prop :=
  ∃ pushed ledger locks seen, Holds commits ledger node.system pushed ∧
    SameLocks ledger node.system locks ∧ Cached ledger node.processedCache seen ∧
    InPhase commits ledger node.lastCommittedRound locks seen node.phase

section
variable {commits : List Commit} {ledger : Ledger} {pushed : List ConsensusCommitOutput}
  {system : System} {cache : BTreeSet SequencedConsensusTransactionKey} {state : Deduplicated}
  {done : List Copy} {commit : Commit}

theorem Holds.seenLock (h : Holds commits ledger system pushed)
    (hlocks : SameLocks ledger system locks) (r : ObjectRef) : system.seenLock {} pushed r = locks r := by
  have hpushed := (h.records pushed (prefix_refl _)).locks r
  rw [← h.ledger_eq] at hpushed
  rw [hlocks r, ← hpushed, System.seenLock, get_locks_applyOutputs]
  simp

theorem sameLocks_of_empty (h : system.ownedObjectLocks = ∅) : SameLocks ledger system ledger.locks := by
  intro r
  rw [h]
  simp

theorem Holds.processed (h : Holds commits ledger system pushed) (digest : TransactionDigest) :
    isConsensusMessageProcessed system (certificateKey digest) = true ↔ digest ∈ ledger.passedOn := by
  rw [processed_iff h.ok, (h.records pushed (prefix_refl _)).passedOn, ← h.ledger_eq]

/-! ### Restarts -/

theorem records_nil (commits : List Commit) (hrounds : (0 :: commits.map Commit.round).Pairwise (· < ·)) :
    Records commits [] := by
  have hledger : ledgerAt commits (lastRound []) = .start := by
    unfold ledgerAt
    rw [filter_eq_nil_iff.mpr]
    · rfl
    · intro commit hcommit
      rw [decide_eq_true_eq, not_le]
      exact (pairwise_cons.mp hrounds).1 _ (mem_map_of_mem hcommit)
  refine ⟨fun r => ?_, fun digest => ?_⟩
  · rw [hledger]
    rfl
  · rw [hledger]
    simp [Ledger.start]

/-- Whatever the handler was doing, the tables are enough to start again. -/
theorem Holds.restart (h : Holds commits ledger system pushed) (highest : CheckpointSequenceNumber) :
    Inv commits (.ofTables highest system.tables) := by
  obtain ⟨written, hwritten, hok, hround⟩ := restart_ok h.ok highest
  refine ⟨written, ledgerAt commits (lastRound written), _, [], ⟨hok, ?_, rfl⟩, sameLocks_of_empty rfl, ?_, ?_,
    rfl, rfl⟩
  · exact fun outputs houtputs => h.records outputs (houtputs.trans hwritten)
  · exact fun digest hdigest => absurd hdigest Std.ExtTreeSet.not_mem_empty
  · exact congrArg _ hround.symm

theorem start_inv (hrounds : (0 :: commits.map Commit.round).Pairwise (· < ·))
    (highest : CheckpointSequenceNumber) : Inv commits (.start highest) := by
  have hholds : Holds commits (ledgerAt commits (lastRound [])) ⟨.new highest, {}, ∅⟩ [] :=
    ⟨System.ok_new {} highest, fun outputs houtputs => ?_, rfl⟩
  · exact hholds.restart highest
  · rw [prefix_nil.mp houtputs]
    exact records_nil commits hrounds

/-! ### The filter -/

/-- One copy, as the sequence has it. -/
theorem filterConsensusTxn_eq (h : Holds commits ledger system pushed) (commit : Commit)
    (state : Locks × FilteredConsensusOutput) (hlocks : SameLocks ledger system state.1) (copy : Copy) :
    ∃ next, filterConsensusTxn commit system state.2 copy = .ok (next, (commit.filter state copy).2) ∧
      Holds commits ledger next pushed ∧ SameLocks ledger next (commit.filter state copy).1 ∧
      next.consensusQuarantine = system.consensusQuarantine := by
  unfold filterConsensusTxn Commit.filter
  cases hscreen : commit.screen copy with
  | settled status kept => exact ⟨system, rfl, h, hlocks, rfl⟩
  | locks txDigest refs =>
    have hfree : (∀ r ∈ refs, ∀ v ∈ system.seenLock {} pushed r, v = txDigest) ↔ state.1.Free txDigest refs := by
      simp only [h.seenLock hlocks]
      rfl
    rcases System.tryAcquire_eq h.ok refs txDigest with ⟨hall, hacquire⟩ | ⟨hall, conflict, hacquire⟩
    · dsimp only
      rw [if_pos (hfree.mp hall), hacquire]
      refine ⟨_, rfl, ⟨h.ok.acquire hall, h.records, h.ledger_eq⟩, fun r => ?_, rfl⟩
      show state.1.lock txDigest refs r =
        (Writes.apply system.ownedObjectLocks (refs.map (·, txDigest)))[r]?.or (ledger.locks r)
      rw [Writes.get_apply, Option.or_assoc, Writes.last_map_const, ← hlocks r, Locks.lock]
      split <;> rfl
    · dsimp only
      rw [if_neg (fun hfree' => hall (hfree.mpr hfree')), hacquire]
      exact ⟨system, rfl, h, hlocks, rfl⟩

/-! ### Deduplication -/

theorem Deduped.start : Deduped ledger .start [] where
  passedOn := rfl
  counts digest := by simp [Deduplicated.start]
  processed digest := by simp [Deduplicated.start, passOnAll]

/-- A user transaction is new to the loop if and only if the sequence passes it on. -/
theorem Deduped.known_iff (h : Holds commits ledger system pushed)
    (hd : Deduped ledger state done) (hc : Cached ledger cache done) (digest : TransactionDigest) :
    (1 < state.occurrenceCounts.getD (certificateKey digest) 0 + 1 ∨ certificateKey digest ∈ cache ∨
      isConsensusMessageProcessed system (certificateKey digest) = true) ↔
    digest ∈ ledger.passedOn ∨ some digest ∈ (passOnAll ledger.passedOn done).map userTransactionDigest := by
  rw [Nat.lt_add_left_iff_pos, hd.counts, h.processed]
  constructor
  · intro hknown
    rcases hknown with hseen | hcache | hpassed
    · exact passedOn_of_seen hseen
    · rcases hc digest hcache with hpassed | hseen
      · exact .inl hpassed
      · exact passedOn_of_seen hseen
    · exact .inl hpassed
  · intro hknown
    rcases hknown with hpassed | hpassed
    · exact .inr (.inr hpassed)
    · obtain ⟨copy, hcopy, hdigest⟩ := mem_map.mp hpassed
      exact .inl (mem_map.mpr ⟨copy, (mem_passOnAll hcopy).1, hdigest⟩)

theorem Cached.step (hc : Cached ledger cache done) :
    Cached ledger (deduplicateConsensusTxn system cache state copy).1 (done ++ [copy]) := by
  intro digest hdigest
  have hmem : certificateKey digest ∈ cache ∨ copy.key = certificateKey digest := by
    unfold deduplicateConsensusTxn at hdigest
    split at hdigest
    · dsimp only at hdigest
      split at hdigest <;> exact (BTreeSet.mem_insert_iff.mp hdigest).symm
    · exact .inl hdigest
  rw [map_append, mem_append]
  rcases hmem with hmem | hkey
  · exact (hc digest hmem).imp_right .inl
  · exact .inr (.inr (by simp [key_eq_iff.mp hkey]))

/-- One copy, as the sequence has it. -/
theorem Deduped.step (h : Holds commits ledger system pushed) (hd : Deduped ledger state done)
    (hc : Cached ledger cache done) (copy : Copy) :
    Deduped ledger (deduplicateConsensusTxn system cache state copy).2 (done ++ [copy]) := by
  have hseen : ∀ digest, some digest ∈ (done ++ [copy]).map userTransactionDigest ↔
      some digest ∈ done.map userTransactionDigest ∨ copy.key = certificateKey digest := by
    intro digest
    rw [key_eq_iff]
    simp [eq_comm]
  have hcounts : ∀ digest, 0 < (state.occurrenceCounts.insert copy.key
      (state.occurrenceCounts.getD copy.key 0 + 1)).getD (certificateKey digest) 0 ↔
      some digest ∈ (done ++ [copy]).map userTransactionDigest := by
    intro digest
    rw [hseen, ← hd.counts, Std.ExtTreeMap.getD_insert]
    by_cases hkey : copy.key = certificateKey digest
    · simp [hkey]
    · simp [hkey]
  have hpass := passOnAll_append ledger.passedOn done copy
  unfold deduplicateConsensusTxn
  cases hdigest : copy.userTransactionDigest with
  | none =>
    have hne : ∀ digest, copy.key ≠ certificateKey digest := by
      intro digest hkey
      rw [key_eq_iff.mp hkey] at hdigest
      cases hdigest
    rw [passOn, hdigest] at hpass
    split
    · dsimp only
      split
      · exact ⟨hpass ▸ hd.passedOn, hcounts, hpass ▸ hd.processed⟩
      · refine ⟨?_, hcounts, fun digest => ?_⟩
        · rw [hpass, ← hd.passedOn, filter_append]
          simp [isUserTransaction, hdigest]
        · rw [hpass, ← hd.processed, BTreeSet.mem_insert_iff]
          exact or_iff_right (hne digest)
    · refine ⟨hpass ▸ hd.passedOn, fun digest => ?_, hpass ▸ hd.processed⟩
      rw [hd.counts, hseen, or_iff_left (hne digest)]
  | some digest =>
    have hkey : copy.key = certificateKey digest := key_eq_iff.mpr hdigest
    have hknown := hd.known_iff h hc digest
    rw [passOn, hdigest] at hpass
    rw [if_pos (verify_of_user hdigest)]
    rw [hkey] at hcounts ⊢
    dsimp only
    split
    · rename_i hif
      replace hpass := hpass.trans (if_pos (hknown.mp hif))
      exact ⟨hpass ▸ hd.passedOn, hcounts, hpass ▸ hd.processed⟩
    · rename_i hif
      replace hpass := hpass.trans (if_neg fun hpassed => hif (hknown.mpr hpassed))
      refine ⟨?_, hcounts, fun other => ?_⟩
      · rw [hpass, ← hd.passedOn, filter_append]
        simp [isUserTransaction, hdigest]
      · rw [hpass, BTreeSet.mem_insert_iff, certificateKey_inj, hd.processed other]
        simp [hdigest, or_comm, eq_comm]

/-! ### The output -/

/-- A push records the ledger after the commit. -/
theorem Holds.push (h : Holds commits ledger system pushed) (hnext : Next commits ledger commit)
    (hlocks : SameLocks ledger system (ledger.after commit).locks)
    (hd : Deduped ledger state (kept ledger commit)) {height : CheckpointHeight}
    {rest : ConsensusCommitOutput} {pushedOutput : Option ConsensusCommitOutput} {next : System}
    (hpush : system.step (.push (Node.output commit state height rest)) = .ok (pushedOutput, next)) :
    (∃ pushed', Holds commits (ledger.after commit) next pushed') ∧ next.ownedObjectLocks = ∅ := by
  obtain ⟨hok, hempty⟩ := push_ok h.ok hpush
  have hround : lastRound (pushed ++ [system.lockedOutput (Node.output commit state height rest)]) =
      commit.round := by
    rw [lastRound_append pushed ⟨height, commit.round⟩ rfl]
  have hrecords := h.records pushed (prefix_refl _)
  refine ⟨⟨_, hok, fun outputs houtputs => ?_, by rw [hround, hnext.after]⟩, hempty⟩
  rcases prefix_concat_iff.mp houtputs with rfl | houtputs
  · refine ⟨fun r => ?_, fun digest => ?_⟩
    · rw [hround, hnext.after, hlocks r, lockOf_append, lockOf_singleton, hrecords.locks, ← h.ledger_eq]
      rfl
    · have hprocessed : (∃ o ∈ pushed ++ [system.lockedOutput (Node.output commit state height rest)],
            certificateKey digest ∈ o.consensusMessagesProcessed) ↔
          digest ∈ ledger.passedOn ∨ certificateKey digest ∈ state.consensusMessagesProcessed := by
        rw [h.ledger_eq, ← hrecords.passedOn]
        simp only [mem_append, mem_singleton, or_and_right, exists_or, exists_eq_left]
        rfl
      rw [hprocessed, hround, hnext.after, hd.processed]
      simp [Ledger.after, Ledger.handled, kept]
  · exact h.records outputs houtputs

/-- After a commit, everything seen is passed on. -/
theorem Cached.after (hc : Cached ledger cache (kept ledger commit)) :
    Cached (ledger.after commit) cache [] := by
  intro digest hdigest
  left
  have hpassed : digest ∈ ledger.passedOn ∨ some digest ∈
      (passOnAll ledger.passedOn (kept ledger commit)).map userTransactionDigest := by
    rcases hc digest hdigest with hpassed | hseen
    · exact .inl hpassed
    · exact passedOn_of_seen hseen
  simpa [Ledger.after, Ledger.handled, kept] using hpassed

/-- A commit without a checkpoint leaves the system as it was. -/
theorem Holds.forget (h : Holds commits ledger system pushed) :
    Holds commits ledger { system with ownedObjectLocks := ∅ } pushed :=
  ⟨⟨h.ok.represents, h.ok.split, by simp⟩, h.records, h.ledger_eq⟩

end

/-! ### Steps -/

section
variable {commits : List Commit} {node : Node} {handled : Option Handled} {next : Node}
  {ledger : Ledger} {phase : Phase}

/-- The handler's own steps. -/
theorem proceed_inv (hinv : Inv commits node) {height : CheckpointHeight} {rest : ConsensusCommitOutput}
    (hstep : node.proceed height rest = .ok (handled, next)) :
    Inv commits next ∧ ∀ result ∈ handled, result ∈ Ledger.start.handleAll commits := by
  obtain ⟨pushed, ledger, locks, seen, hholds, hlocks, hcached, hphase⟩ := hinv
  unfold Node.proceed at hstep
  cases hcase : node.phase with
  | idle =>
    rw [hcase] at hstep hphase
    cases hstep
    exact ⟨⟨pushed, ledger, locks, seen, hholds, hlocks, hcached, hcase ▸ hphase⟩, by simp⟩
  | filtering commit remaining output =>
    rw [hcase] at hstep hphase
    obtain ⟨hcommit, rfl, done, hcopies, hdone⟩ := hphase
    cases remaining with
    | nil =>
      cases hstep
      rw [← hcopies.trans (append_nil done)] at hdone
      exact ⟨⟨pushed, ledger, locks, [], hholds, hlocks, hcached, hcommit, (congrArg Prod.fst hdone).symm,
        (congrArg (·.2.statuses) hdone).symm, congrArg (·.2.transactions) hdone, .start⟩, by simp⟩
    | cons copy remaining =>
      obtain ⟨⟨system, output'⟩, hfilter, hstep⟩ := bind_eq_ok.mp hstep
      cases hstep
      obtain ⟨system', hfilter', hholds', hlocks', -⟩ :=
        filterConsensusTxn_eq hholds commit (locks, output) hlocks copy
      cases hfilter.symm.trans hfilter'
      refine ⟨⟨pushed, ledger, _, [], hholds', hlocks', hcached, hcommit, rfl, done ++ [copy], ?_, ?_⟩, by simp⟩
      · rw [hcopies, append_assoc]
        rfl
      · rw [commit.filterAll_append, hdone]
  | deduplicating commit statuses remaining state =>
    rw [hcase] at hstep hphase
    obtain ⟨hcommit, hafter, hstatuses, hkept, hd⟩ := hphase
    cases remaining with
    | nil =>
      have hdone : kept ledger commit = seen := hkept.trans (append_nil seen)
      cases hstep
      refine ⟨⟨pushed, ledger, locks, seen, hholds, hlocks, hcached, hcommit, hafter, hdone.symm, hd⟩, ?_⟩
      intro result hresult
      cases hresult
      have hresult : (⟨commit.round, statuses, state.allTransactions.filter isUserTransaction⟩ :
          Handled) = ledger.handled commit := by
        rw [hstatuses, hd.passedOn, ← hdone]
        rfl
      rw [hresult]
      exact hcommit.2.handled
    | cons copy remaining =>
      cases hstep
      refine ⟨⟨pushed, ledger, locks, seen ++ [copy], hholds, hlocks, hcached.step, hcommit, hafter, hstatuses, ?_,
        hd.step hholds hcached copy⟩, by simp⟩
      rw [hkept, append_assoc]
      rfl
  | scheduling commit state =>
    rw [hcase] at hstep hphase
    obtain ⟨⟨hlast, hnext⟩, rfl, rfl, hd⟩ := hphase
    dsimp only at hstep
    split at hstep
    · obtain ⟨⟨_, system⟩, hpush, hstep⟩ := bind_eq_ok.mp hstep
      cases hstep
      obtain ⟨⟨pushed', hholds'⟩, hempty⟩ := hholds.push hnext hlocks hd hpush
      refine ⟨⟨pushed', ledger.after commit, _, [], hholds', sameLocks_of_empty hempty, hcached.after, ?_, rfl, rfl⟩,
        by simp⟩
      rw [hlast, hnext.after]
    · rename_i hmake
      cases hstep
      have hsame := ledger.after_of_not_made (Bool.not_eq_true _ ▸ hmake)
      refine ⟨⟨pushed, ledger, _, [], hholds.forget, sameLocks_of_empty rfl, hsame ▸ hcached.after, ?_, rfl, rfl⟩,
        by simp⟩
      rw [hlast, hnext.after, hsame]

section
variable (hrounds : (commits.map Commit.round).Pairwise (· < ·))
include hrounds

theorem step_inv (hinv : Inv commits node) (hstep : node.step commits action = .ok (handled, next)) :
    Inv commits next ∧ ∀ result ∈ handled, result ∈ Ledger.start.handleAll commits := by
  cases action with
  | next =>
    unfold Node.step at hstep
    dsimp only at hstep
    split at hstep
    · rename_i commit hidle hfind
      cases hstep
      obtain ⟨pushed, ledger, locks, seen, hholds, hlocks, hcached, hphase⟩ := hinv
      rw [hidle] at hphase
      obtain ⟨hledger, rfl, rfl⟩ := hphase
      have hnext := next_of_find hrounds hfind
      rw [← hledger] at hnext
      exact ⟨⟨pushed, ledger, _, [], hholds, hlocks, hcached, ⟨rfl, hnext⟩, rfl, [], rfl, rfl⟩, by simp⟩
    · cases hstep
      exact ⟨hinv, by simp⟩
  | proceed height rest => exact proceed_inv hinv hstep
  | evict key =>
    cases hstep
    obtain ⟨pushed, ledger, locks, seen, hholds, hlocks, hcached, hphase⟩ := hinv
    refine ⟨⟨pushed, ledger, locks, seen, hholds, hlocks, fun digest hdigest => ?_, hphase⟩, by simp⟩
    exact hcached digest (BTreeSet.mem_erase_iff.mp hdigest).2
  | flush flush =>
    obtain ⟨⟨output, system⟩, hflush, hstep⟩ := bind_eq_ok.mp hstep
    cases hstep
    obtain ⟨pushed, ledger, locks, seen, hholds, hlocks, hcached, hphase⟩ := hinv
    obtain ⟨hok, hsame⟩ := flush_ok hholds.ok flush hflush
    refine ⟨⟨pushed, ledger, locks, seen, ⟨hok, hholds.records, hholds.ledger_eq⟩, fun r => ?_, hcached, hphase⟩,
      by simp⟩
    rw [hlocks r, hsame]
  | restart highest =>
    cases hstep
    obtain ⟨pushed, ledger, _, _, hholds, -⟩ := hinv
    exact ⟨hholds.restart highest, by simp⟩

theorem act_inv (hinv : Inv commits node) (action : Action) :
    Inv commits (node.act commits action).2 ∧
      ∀ result ∈ (node.act commits action).1, result ∈ Ledger.start.handleAll commits := by
  unfold Node.act
  cases hstep : node.step commits action with
  | ok result => exact step_inv hrounds hinv hstep
  | error panic =>
    obtain ⟨pushed, ledger, _, _, hholds, -⟩ := hinv
    exact ⟨hholds.restart _, by simp⟩

theorem run_inv (hinv : Inv commits node) (schedule : List Action) :
    Inv commits (node.run commits schedule).2 ∧
      ∀ result ∈ (node.run commits schedule).1, result ∈ Ledger.start.handleAll commits := by
  induction schedule generalizing node with
  | nil => exact ⟨hinv, fun result hresult => by cases hresult⟩
  | cons action schedule ih =>
    obtain ⟨hnext, hhandled⟩ := act_inv hrounds hinv action
    obtain ⟨hlast, hrest⟩ := ih hnext
    refine ⟨hlast, forall_mem_append.mpr ⟨fun result hresult => ?_, hrest⟩⟩
    exact hhandled result (Option.mem_toList.mp hresult)

end

end

/-! ### A schedule without interruptions -/

namespace Phase

/-- How many steps the handler has left, at most. -/
def size : Phase → Nat
  | idle => 0
  | filtering _ remaining output => 2 * remaining.length + output.transactions.length + 3
  | deduplicating _ _ remaining _ => remaining.length + 2
  | scheduling _ _ => 1

/-- The commit that has not been reported yet. -/
def due : Phase → List Round
  | filtering commit _ _ => [commit.round]
  | deduplicating commit _ _ _ => [commit.round]
  | _ => []

end Phase

/-- The builder has nothing that waits. -/
def Quiet (system : System) : Prop := system.consensusQuarantine.builderCheckpointSummary = ∅

theorem push_returns (h : Quiet system) (output : ConsensusCommitOutput) :
    ∃ pushedOutput next, system.step (.push output) = .ok (pushedOutput, next) ∧ Quiet next := by
  unfold System.step
  dsimp only
  rw [System.commitOutput_eq]
  generalize system.lockedOutput output = output
  have hcommit : system.consensusQuarantine.pushConsensusOutput output system.tables =
      .ok (system.consensusQuarantine.enqueue output, ({} : DBBatch).write system.tables) := by
    have hempty : (system.consensusQuarantine.enqueue output).builderCheckpointSummary.toList = [] := by
      show system.consensusQuarantine.builderCheckpointSummary.toList = []
      rw [h]
      simp
    show (system.consensusQuarantine.enqueue output).commit system.tables = _
    unfold ConsensusOutputQuarantine.commit ConsensusOutputQuarantine.commitWithBatch
    rw [hempty]
    rfl
  exact ⟨_, _, bind_ok hcommit _, h⟩

section
variable {commits : List Commit} {node : Node}

theorem add_length (output : FilteredConsensusOutput) (copy : Copy) (status : Option ConsensusTxStatus)
    (kept : Bool) : (output.add copy status kept).transactions.length ≤ output.transactions.length + 1 := by
  unfold FilteredConsensusOutput.add
  split <;> simp

theorem Commit.filter_length (commit : Commit) (state : Locks × FilteredConsensusOutput) (copy : Copy) :
    (commit.filter state copy).2.transactions.length ≤ state.2.transactions.length + 1 := by
  unfold Commit.filter
  split
  · exact add_length ..
  · split <;> exact add_length ..

/-- What a step of the handler leaves to do. -/
structure Progress (node : Node) (handled : Option Handled) (next : Node) : Prop where
  quiet : Quiet next.system
  size : next.phase.size < node.phase.size
  due : handled.toList.map Handled.round ++ next.phase.due = node.phase.due
  last : next.lastCommittedRound = node.lastCommittedRound

theorem proceed_returns (hinv : Inv commits node) (hquiet : Quiet node.system) (hbusy : node.phase ≠ .idle) :
    ∃ handled next, node.proceed 0 {} = .ok (handled, next) ∧ Progress node handled next := by
  obtain ⟨pushed, ledger, locks, seen, hholds, hlocks, -, hphase⟩ := hinv
  unfold Node.proceed
  cases hcase : node.phase with
  | idle => exact absurd hcase hbusy
  | filtering commit remaining output =>
    cases remaining with
    | nil =>
      refine ⟨_, _, rfl, hquiet, ?_, ?_, rfl⟩ <;> rw [hcase]
      · simp [size]
      · rfl
    | cons copy remaining =>
      obtain ⟨system, hfilter, -, -, hsame⟩ := filterConsensusTxn_eq hholds commit (locks, output) hlocks copy
      have hlength : _ ≤ output.transactions.length + 1 := commit.filter_length (locks, output) copy
      dsimp only
      rw [hfilter]
      refine ⟨_, _, rfl, ?_, ?_, ?_, rfl⟩
      · show system.consensusQuarantine.builderCheckpointSummary = ∅
        rw [hsame]
        exact hquiet
      · rw [hcase]
        simp only [size, length_cons]
        omega
      · rw [hcase]
        rfl
  | deduplicating commit statuses remaining state =>
    cases remaining with
    | nil => refine ⟨_, _, rfl, hquiet, ?_, ?_, rfl⟩ <;> rw [hcase] <;> simp [size, due]
    | cons copy remaining =>
      refine ⟨_, _, rfl, hquiet, ?_, ?_, rfl⟩ <;> rw [hcase] <;> simp [size, due]
  | scheduling commit state =>
    dsimp only
    split
    · obtain ⟨pushedOutput, system, hpush, hnext⟩ := push_returns hquiet (Node.output commit state 0 {})
      rw [hpush]
      refine ⟨_, _, rfl, hnext, ?_, ?_, rfl⟩ <;> rw [hcase] <;> simp [size, due]
    · refine ⟨_, _, rfl, hquiet, ?_, ?_, rfl⟩ <;> rw [hcase] <;> simp [size, due]

theorem run_cons (node : Node) (action : Action) (schedule : List Action) :
    node.run commits (action :: schedule) =
      ((node.act commits action).1.toList ++ ((node.act commits action).2.run commits schedule).1,
        ((node.act commits action).2.run commits schedule).2) := rfl

theorem run_append (node : Node) (schedule schedule' : List Action) :
    node.run commits (schedule ++ schedule') =
      ((node.run commits schedule).1 ++ ((node.run commits schedule).2.run commits schedule').1,
        ((node.run commits schedule).2.run commits schedule').2) := by
  induction schedule generalizing node with
  | nil => rfl
  | cons action schedule ih => rw [cons_append, run_cons, run_cons, ih, append_assoc]

/-- The handler comes to the end of its commit. -/
theorem finishes (n : Nat) (hinv : Inv commits node) (hquiet : Quiet node.system) (hsize : node.phase.size ≤ n) :
    ∃ schedule, (node.run commits schedule).2.phase = .idle ∧
      Quiet (node.run commits schedule).2.system ∧
      (node.run commits schedule).2.lastCommittedRound = node.lastCommittedRound ∧
      (node.run commits schedule).1.map Handled.round = node.phase.due := by
  induction n generalizing node with
  | zero =>
    cases hcase : node.phase with
    | idle => exact ⟨[], hcase, hquiet, rfl, rfl⟩
    | _ =>
      rw [hcase] at hsize
      simp [size] at hsize
  | succ n ih =>
    by_cases hidle : node.phase = .idle
    · exact ⟨[], hidle, hquiet, rfl, by rw [hidle]; rfl⟩
    · obtain ⟨handled, next, hstep, hprogress⟩ := proceed_returns hinv hquiet hidle
      have hact : node.act commits (.proceed 0 {}) = (handled, next) := by
        rw [Node.act, Node.step, hstep]
      have hnext := (proceed_inv hinv hstep).1
      obtain ⟨schedule, hphase, hq, hlast, hlog⟩ := ih hnext hprogress.quiet
        (Nat.le_of_lt_succ (hprogress.size.trans_le hsize))
      have hrun : node.run commits (.proceed 0 {} :: schedule) =
          (handled.toList ++ (next.run commits schedule).1, (next.run commits schedule).2) := by
        rw [run_cons, hact]
      refine ⟨.proceed 0 {} :: schedule, ?_⟩
      rw [hrun]
      refine ⟨hphase, hq, hlast.trans hprogress.last, ?_⟩
      rw [map_append, hlog, hprogress.due]

section
variable (hrounds : (commits.map Commit.round).Pairwise (· < ·))
include hrounds

theorem filter_of_find (h : commits.find? (fun commit => last < commit.round) = some commit) :
    commits.filter (fun other => last < other.round) =
      commit :: commits.filter fun other => commit.round < other.round := by
  obtain ⟨hlast, before, rest, rfl, hbefore, hrest⟩ := split_of_find hrounds h
  have hnone : ∀ round, last ≤ round → before.filter (fun other => decide (round < other.round)) = [] := by
    intro round hround
    rw [filter_eq_nil_iff]
    intro other hother
    rw [decide_eq_true_eq, not_lt]
    exact (hbefore other hother).trans hround
  rw [filter_append, filter_append, hnone last le_rfl, hnone commit.round hlast.le,
    filter_cons_of_pos (by simpa using hlast), filter_cons_of_neg (by simp),
    filter_eq_self.mpr, filter_eq_self.mpr]
  · rfl
  · exact fun other hother => decide_eq_true (hrest other hother)
  · exact fun other hother => decide_eq_true (hlast.trans (hrest other hother))

/-- Every commit that is left gets handled. -/
theorem handles_rest (n : Nat) (hinv : Inv commits node) (hidle : node.phase = .idle) (hquiet : Quiet node.system)
    (hlength : (commits.filter fun commit => node.lastCommittedRound < commit.round).length = n) :
    ∃ schedule, (node.run commits schedule).1.map Handled.round =
      (commits.filter fun commit => node.lastCommittedRound < commit.round).map Commit.round := by
  induction n generalizing node with
  | zero =>
    rw [length_eq_zero_iff.mp hlength]
    exact ⟨[], rfl⟩
  | succ n ih =>
    cases hfind : commits.find? fun commit => node.lastCommittedRound < commit.round with
    | none =>
      rw [filter_eq_nil_iff.mpr (List.find?_eq_none.mp hfind)] at hlength
      cases hlength
    | some commit =>
      have hfilter := filter_of_find hrounds hfind
      rw [hfilter] at hlength ⊢
      have hact : node.act commits .next = (none, { node with
          lastCommittedRound := commit.round
          phase := .filtering commit commit.copies ⟨[], []⟩ }) := by
        unfold Node.act Node.step
        rw [hidle, hfind]
        rfl
      have hinv' := (act_inv hrounds hinv .next).1
      rw [hact] at hinv'
      obtain ⟨first, hphase, hq, hlast, hlog⟩ := finishes _ hinv' hquiet le_rfl
      obtain ⟨rest, hrest⟩ := ih (run_inv hrounds hinv' first).1 hphase hq
        (by rw [hlast]; exact Nat.succ.inj hlength)
      refine ⟨.next :: (first ++ rest), ?_⟩
      rw [run_cons, hact, run_append]
      rw [Option.toList_none, nil_append, map_append, hlog, hrest, hlast]
      rfl

end

end

/-- Lists with the same keys, of elements of one that has each key once. -/
theorem eq_of_map_eq (f : α → β) {l l' : List α} (hmap : l.map f = l'.map f)
    (hmem : ∀ a ∈ l, a ∈ l') (hnodup : (l'.map f).Nodup) : l = l' := by
  have hlength : l.length = l'.length := by simpa using congrArg List.length hmap
  refine ext_getElem hlength fun i hi hi' => ?_
  refine inj_on_of_nodup_map hnodup (hmem _ (getElem_mem hi)) (getElem_mem hi') ?_
  have hget := getElem_of_eq hmap (by simpa using hi)
  simpa using hget

/-- **Consensus output is accepted once.** For the commits of an epoch there is one list of
results, with no transaction twice, no owned input in two transactions, and no copy dropped
but for a lock of an earlier one. Whatever the schedule, a commit that is handled has its
result in the list, and without interruptions all of them are. -/
theorem accepted_once (commits : List Commit) (hrounds : (0 :: commits.map Commit.round).Pairwise (· < ·)) :
    ∃ results, Accepts commits results ∧
      (∀ highest schedule, ∀ handled ∈ ((Node.start highest).run commits schedule).1,
        handled ∈ results) ∧ ∃ schedule, ((Node.start 0).run commits schedule).1 = results := by
  have hincreasing := (pairwise_cons.mp hrounds).2
  have haccepts := Ledger.accepts_handleAll commits
  refine ⟨Ledger.start.handleAll commits, haccepts, fun highest schedule => ?_, ?_⟩
  · exact (run_inv hincreasing (start_inv hrounds highest) schedule).2
  · obtain ⟨schedule, hlog⟩ := handles_rest hincreasing _ (start_inv hrounds 0) rfl rfl rfl
    refine ⟨schedule, eq_of_map_eq Handled.round ?_ (run_inv hincreasing (start_inv hrounds 0) schedule).2 ?_⟩
    · rw [hlog, haccepts.rounds, filter_eq_self.mpr]
      exact fun commit hcommit => decide_eq_true ((pairwise_cons.mp hrounds).1 _ (mem_map_of_mem hcommit))
    · rw [haccepts.rounds]
      exact hincreasing.imp ne_of_lt

/-- A transaction with owned inputs at their first version, none of them claimed to be
immutable. -/
def transfer (digest : TransactionDigest) (ids : List ObjectID) : ConsensusTransactionKind × Bool :=
  (.userTransactionV2 ⟨digest, some (ids.map fun id => .immOrOwnedMoveObject (toLex (id, toLex (1, 0))))⟩ [],
    false)

/-- The commit of one block, while all certificates are accepted. -/
def ofBlock (round : Round) (transactions : List (ConsensusTransactionKind × Bool)) : Commit where
  round := round
  blocks := [⟨0, transactions⟩]
  initialReconfigState := .acceptAllCerts
  receivedEndOfPublish := []
  makeCheckpoint := true
  made _ := rfl

/-- The second transaction conflicts with the first, which comes again. -/
def twoCommits : List Commit :=
  [ofBlock 1 [transfer 1 [10], transfer 2 [10, 11]], ofBlock 2 [transfer 1 [10], transfer 3 [11]]]

/-- Each commit in full, the first one once more after a restart. -/
def replay : List Action :=
  let handle := .next :: List.replicate 7 (.proceed 0 {})
  handle ++ .restart 0 :: handle ++ handle

/-- The replay accepts transactions 1 and 3, as every other schedule does. -/
theorem accepted_once_two :
    (((Node.start 0).run twoCommits replay).1.map fun handled =>
      (handled.round, handled.userTransactions.map Copy.userTransactionDigest)) =
        [(1, [some 1]), (1, [some 1]), (2, [some 3])] ∧
      ∃ results, Accepts twoCommits results ∧
        ∀ handled ∈ ((Node.start 0).run twoCommits replay).1, handled ∈ results := by
  obtain ⟨results, haccepts, hall, -⟩ := accepted_once twoCommits (by decide)
  exact ⟨by decide +kernel, results, haccepts, hall 0 replay⟩

end Sui.ConsensusHandler
