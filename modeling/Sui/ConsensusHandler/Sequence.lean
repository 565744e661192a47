import Sui.ConsensusHandler.Basic

/-! The sequence of consensus output, without a node.

A `Ledger` has who holds each lock, and which transactions have been passed on. Commits are
handled one after the other (`handleAll`), and `accepts_handleAll` says what comes of it:
no transaction is passed on twice, two that are passed on have no owned input in common, and
a copy is dropped only for a lock that an earlier copy of another transaction has taken. -/
namespace Sui.ConsensusHandler

open Sui.Lib Sui.Quarantine List

/-! ### Owned inputs -/

namespace Copy

/-- The owned inputs of a user transaction, without those that this copy claims to be immutable. -/
def owned (copy : Copy) : List ObjectRef :=
  match copy.transaction with
  | .userTransactionV2 tx immutableObjects =>
    ownedObjectRefs (tx.inputObjects.getD []) immutableObjects
  | .message _ _ _ => []

end Copy

/-- Only user transactions with valid inputs get to the locks, while the epoch accepts
certificates; one that is kept without locks would have no valid inputs. -/
theorem screen_cases (commit : Commit) (copy : Copy) :
    (∃ status kept, commit.screen copy = .settled status kept ∧
      (kept = true → copy.userTransactionDigest = none) ∧ status ≠ some .finalized ∧
      status ≠ some .dropped) ∨
    ∃ txDigest, commit.screen copy = .locks txDigest copy.owned ∧
      copy.userTransactionDigest = some txDigest ∧
      commit.initialReconfigState.shouldAcceptConsensusCerts = true := by
  unfold Commit.screen
  split
  · refine .inl ⟨_, _, rfl, Bool.false_ne_true.elim, ?_, ?_⟩ <;> split <;> simp
  split
  · exact .inl ⟨_, _, rfl, by simp⟩
  · rename_i hignores
    unfold Commit.ignores at hignores
    unfold Copy.userTransactionDigest Copy.owned
    cases htransaction : copy.transaction with
    | message kind key verified => exact .inl ⟨_, _, rfl, by simp⟩
    | userTransactionV2 tx immutableObjects =>
      cases hinputs : tx.inputObjects with
      | none => exact .inl ⟨none, false, by simp only [hinputs], by simp⟩
      | some inputs =>
        rw [htransaction] at hignores
        refine .inr ⟨tx.digest, by simp only [hinputs]; rfl, rfl, ?_⟩
        simp_all

/-! ### Ledgers -/

abbrev Locks := ObjectRef → Option TransactionDigest

/-- No other transaction holds a lock on the references. -/
def Locks.Free (locks : Locks) (txDigest : TransactionDigest) (refs : List ObjectRef) : Prop :=
  ∀ r ∈ refs, ∀ holder ∈ locks r, holder = txDigest

instance (locks : Locks) (txDigest : TransactionDigest) (refs : List ObjectRef) :
    Decidable (locks.Free txDigest refs) :=
  inferInstanceAs (Decidable (∀ r ∈ refs, ∀ holder ∈ locks r, holder = txDigest))

def Locks.lock (locks : Locks) (txDigest : TransactionDigest) (refs : List ObjectRef) : Locks :=
  fun r => if r ∈ refs then some txDigest else locks r

/-- The filter, with the locks that it finds. -/
def Commit.filter (commit : Commit) (state : Locks × FilteredConsensusOutput) (copy : Copy) :
    Locks × FilteredConsensusOutput :=
  match commit.screen copy with
  | .settled status kept => (state.1, state.2.add copy status kept)
  | .locks txDigest refs =>
    if state.1.Free txDigest refs then
      (state.1.lock txDigest refs, state.2.add copy (some .finalized) true)
    else (state.1, state.2.add copy (some .dropped) false)

def Commit.filterAll (commit : Commit) (locks : Locks) (copies : List Copy) :
    Locks × FilteredConsensusOutput :=
  copies.foldl commit.filter (locks, ⟨[], []⟩)

theorem Commit.filterAll_append (commit : Commit) (locks : Locks) (copies : List Copy) (copy : Copy) :
    commit.filterAll locks (copies ++ [copy]) = commit.filter (commit.filterAll locks copies) copy :=
  foldl_concat ..

/-- Passes on the first copy of a user transaction. -/
def passOn (before : List TransactionDigest) (passed : List Copy) (copy : Copy) : List Copy :=
  match copy.userTransactionDigest with
  | none => passed
  | some digest =>
    if digest ∈ before ∨ some digest ∈ passed.map Copy.userTransactionDigest then passed
    else passed ++ [copy]

def passOnAll (before : List TransactionDigest) (copies : List Copy) : List Copy :=
  copies.foldl (passOn before) []

theorem passOnAll_append (before : List TransactionDigest) (copies : List Copy) (copy : Copy) :
    passOnAll before (copies ++ [copy]) = passOn before (passOnAll before copies) copy :=
  foldl_concat ..

structure Ledger where
  locks : Locks
  passedOn : List TransactionDigest

def Ledger.start : Ledger := ⟨fun _ => none, []⟩

namespace Ledger

/-- What a commit gives, for the ledger before it. -/
def handled (ledger : Ledger) (commit : Commit) : Handled :=
  let output := (commit.filterAll ledger.locks commit.copies).2
  ⟨commit.round, output.statuses, passOnAll ledger.passedOn output.transactions⟩

/-- The ledger after a commit. -/
def after (ledger : Ledger) (commit : Commit) : Ledger where
  locks := (commit.filterAll ledger.locks commit.copies).1
  passedOn := ledger.passedOn ++
    (ledger.handled commit).userTransactions.filterMap Copy.userTransactionDigest

def handleAll (ledger : Ledger) : List Commit → List Handled
  | [] => []
  | commit :: commits => ledger.handled commit :: handleAll (ledger.after commit) commits

end Ledger

/-! ### The filter -/

/-- What the filter has made of the copies of some commits. -/
structure Filtered (locks : Locks) (statuses : List (Copy × Option ConsensusTxStatus)) : Prop where
  /-- A lock is held by a transaction of which a copy has acquired it. -/
  holders : ∀ r, ∀ holder ∈ locks r, ∃ copy : Copy, (copy, some .finalized) ∈ statuses ∧
    copy.userTransactionDigest = some holder ∧ r ∈ copy.owned
  /-- Locks are kept. -/
  kept : ∀ copy, (copy, some .finalized) ∈ statuses → ∃ digest,
    copy.userTransactionDigest = some digest ∧ ∀ r ∈ copy.owned, locks r = some digest
  justified : ∀ before copy after, statuses = before ++ (copy, some .dropped) :: after →
    ∃ other, (other, some .finalized) ∈ before ∧
      other.userTransactionDigest ≠ copy.userTransactionDigest ∧ ∃ r ∈ copy.owned, r ∈ other.owned

section
variable {locks : Locks} {txDigest : TransactionDigest} {refs : List ObjectRef} {r : ObjectRef}

theorem Locks.lock_of_mem (h : r ∈ refs) : locks.lock txDigest refs r = some txDigest := if_pos h

theorem Locks.lock_of_not_mem (h : r ∉ refs) : locks.lock txDigest refs r = locks r := if_neg h

/-- Free locks are taken from no one. -/
theorem Locks.Free.lock_of_some (h : locks.Free txDigest refs)
    (hr : locks r = some holder) : locks.lock txDigest refs r = some holder := by
  by_cases hmem : r ∈ refs
  · rw [lock_of_mem hmem, h r hmem holder hr]
  · rw [lock_of_not_mem hmem, hr]

theorem Locks.not_free (h : ¬locks.Free txDigest refs) :
    ∃ r ∈ refs, ∃ holder, locks r = some holder ∧ holder ≠ txDigest := by
  unfold Locks.Free at h
  push Not at h
  exact h

end

/-- The last of a list is one before the end, or the last one. -/
theorem append_singleton_eq {l before after : List α} (h : l ++ [a] = before ++ b :: after) :
    (∃ after', l = before ++ b :: after') ∨ l = before ∧ a = b := by
  rcases eq_nil_or_concat after with rfl | ⟨after', c, rfl⟩
  · exact .inr ⟨(append_inj' h rfl).1, by simpa using (append_inj' h rfl).2⟩
  · rw [concat_eq_append, ← cons_append, ← append_assoc] at h
    exact .inl ⟨after', (append_inj' h rfl).1⟩

namespace Filtered
variable {locks : Locks} {statuses : List (Copy × Option ConsensusTxStatus)} {copy : Copy}

theorem start : Filtered Ledger.start.locks [] where
  holders r holder h := by cases h
  kept copy h := by cases h
  justified before copy after h := by simp at h

/-- One more copy. The locks are those before it and its own, if it acquires them; if it is
dropped, another transaction holds one of them. -/
theorem append (h : Filtered locks statuses) {locks' : Locks} {status : Option ConsensusTxStatus}
    (hholders : ∀ r, ∀ holder ∈ locks' r, locks r = some holder ∨
      status = some .finalized ∧ copy.userTransactionDigest = some holder ∧ r ∈ copy.owned)
    (hkept : ∀ r, ∀ holder ∈ locks r, locks' r = some holder) (hfinalized : status = some .finalized → ∃ digest,
      copy.userTransactionDigest = some digest ∧ ∀ r ∈ copy.owned, locks' r = some digest)
    (hdropped : status = some .dropped → ∃ r ∈ copy.owned, ∃ holder,
      locks r = some holder ∧ copy.userTransactionDigest ≠ some holder) :
    Filtered locks' (statuses ++ [(copy, status)]) where
  holders r holder hr := by
    rcases hholders r holder hr with hr | ⟨rfl, hcopy⟩
    · obtain ⟨other, hother, hdigest⟩ := h.holders r holder hr
      exact ⟨other, mem_append_left _ hother, hdigest⟩
    · exact ⟨copy, by simp, hcopy⟩
  kept other hother := by
    rcases mem_concat.mp hother with hother | hother
    · obtain ⟨digest, hdigest, hlocks⟩ := h.kept other hother
      exact ⟨digest, hdigest, fun r hr => hkept r digest (hlocks r hr)⟩
    · cases hother
      exact hfinalized rfl
  justified before other after heq := by
    rcases append_singleton_eq heq with ⟨after', hearlier⟩ | ⟨rfl, hlast⟩
    · exact h.justified before other after' hearlier
    · cases hlast
      obtain ⟨r, hr, holder, hholder, hne⟩ := hdropped rfl
      obtain ⟨other, hother, hother', howned⟩ := h.holders r holder hholder
      exact ⟨other, hother, fun heq => hne (heq.symm.trans hother'), r, hr, howned⟩

/-- A copy that acquires its locks. -/
theorem locked (h : Filtered locks statuses)
    (hdigest : copy.userTransactionDigest = some txDigest) (hfree : locks.Free txDigest copy.owned) :
    Filtered (locks.lock txDigest copy.owned) (statuses ++ [(copy, some .finalized)]) := by
  refine h.append (fun r holder hr => ?_) (fun r holder hr => hfree.lock_of_some hr)
    (fun _ => ⟨txDigest, hdigest, fun r hr => Locks.lock_of_mem hr⟩) nofun
  by_cases hmem : r ∈ copy.owned
  · rw [Locks.lock_of_mem hmem] at hr
    cases hr
    exact .inr ⟨rfl, hdigest, hmem⟩
  · rw [Locks.lock_of_not_mem hmem] at hr
    exact .inl hr

end Filtered

/-- Copies that pass, and are user transactions, have been finalized. -/
def FilteredConsensusOutput.Finalized (output : FilteredConsensusOutput) : Prop :=
  ∀ copy ∈ output.transactions, copy.isUserTransaction = true → (copy, some .finalized) ∈ output.statuses

theorem FilteredConsensusOutput.Finalized.add {output : FilteredConsensusOutput}
    (h : output.Finalized) {copy : Copy} {status : Option ConsensusTxStatus} {kept : Bool}
    (hkept : kept = true → copy.isUserTransaction = true → status = some .finalized) :
    (output.add copy status kept).Finalized := by
  intro other hother huser
  unfold FilteredConsensusOutput.add at hother ⊢
  split at hother
  · rename_i hk
    rcases mem_concat.mp hother with hother | hother
    · exact mem_append_left _ (h other hother huser)
    · cases hother
      rw [hkept hk huser]
      simp
  · exact mem_append_left _ (h other hother huser)

section
variable (commit : Commit)

/-- One copy, after the copies of earlier commits. -/
theorem Commit.filter_filtered
    {state : Locks × FilteredConsensusOutput} (h : Filtered state.1 (earlier ++ state.2.statuses))
    (hfinalized : state.2.Finalized) (copy : Copy) :
    Filtered (commit.filter state copy).1 (earlier ++ (commit.filter state copy).2.statuses) ∧
      (commit.filter state copy).2.Finalized := by
  have hadd : ∀ status kept, earlier ++ (state.2.add copy status kept).statuses =
      earlier ++ state.2.statuses ++ [(copy, status)] :=
    fun status kept => (append_assoc ..).symm
  unfold Commit.filter
  rcases screen_cases commit copy with ⟨status, kept, hscreen, hkept, hfin, hdrop⟩ |
    ⟨txDigest, hscreen, hdigest, -⟩ <;> rw [hscreen] <;> dsimp only
  · rw [hadd]
    refine ⟨h.append (fun _ _ => .inl) (fun _ _ => id) (fun h => absurd h hfin) fun h => absurd h hdrop,
      hfinalized.add fun hk huser => ?_⟩
    rw [Copy.isUserTransaction, hkept hk] at huser
    cases huser
  · split
    · rename_i hfree
      rw [hadd]
      exact ⟨h.locked hdigest hfree, hfinalized.add fun _ _ => rfl⟩
    · rename_i hfree
      obtain ⟨r, hr, holder, hholder, hne⟩ := Locks.not_free hfree
      rw [hadd]
      refine ⟨h.append (fun _ _ => .inl) (fun _ _ => id) nofun fun _ => ⟨r, hr, holder, hholder, ?_⟩,
        hfinalized.add Bool.false_ne_true.elim⟩
      rw [hdigest]
      exact fun heq => hne (Option.some.inj heq).symm

theorem Commit.filterAll_filtered (h : Filtered locks earlier) (copies : List Copy) :
    Filtered (commit.filterAll locks copies).1 (earlier ++ (commit.filterAll locks copies).2.statuses) ∧
      (commit.filterAll locks copies).2.Finalized := by
  induction copies using List.reverseRecOn with
  | nil =>
    refine ⟨?_, fun copy hcopy => by cases hcopy⟩
    show Filtered locks (earlier ++ [])
    rwa [append_nil]
  | append_singleton copies copy ih =>
    rw [commit.filterAll_append]
    exact commit.filter_filtered ih.1 ih.2 copy

theorem Commit.filter_statuses (state : Locks × FilteredConsensusOutput) (copy : Copy) :
    ((commit.filter state copy).2.statuses).map Prod.fst = state.2.statuses.map Prod.fst ++ [copy] := by
  unfold Commit.filter
  split
  · simp [FilteredConsensusOutput.add]
  · split <;> simp [FilteredConsensusOutput.add]

/-- Every copy has its place. -/
theorem Commit.filterAll_statuses (locks : Locks) (copies : List Copy) :
    (commit.filterAll locks copies).2.statuses.map Prod.fst = copies := by
  induction copies using List.reverseRecOn with
  | nil => rfl
  | append_singleton copies copy ih =>
    rw [commit.filterAll_append, commit.filter_statuses, ih]

end

/-! ### What is passed on -/

section
variable {before : List TransactionDigest} {copies : List Copy}

theorem mem_passOn (passed : List Copy) (copy : Copy) :
    ∀ other ∈ passOn before passed copy, other ∈ passed ∨ other = copy ∧ copy.isUserTransaction = true := by
  intro other hother
  unfold passOn at hother
  cases hdigest : copy.userTransactionDigest with
  | none =>
    rw [hdigest] at hother
    exact .inl hother
  | some digest =>
    simp only [hdigest] at hother
    split at hother
    · exact .inl hother
    · refine (mem_append.mp hother).imp_right fun h => ⟨mem_singleton.mp h, ?_⟩
      rw [Copy.isUserTransaction, hdigest]
      rfl

theorem mem_passOnAll (h : copy ∈ passOnAll before copies) : copy ∈ copies ∧ copy.isUserTransaction = true := by
  induction copies using List.reverseRecOn with
  | nil => cases h
  | append_singleton copies other ih =>
    rw [passOnAll_append] at h
    rcases mem_passOn _ other copy h with h | ⟨rfl, huser⟩
    · exact ⟨mem_append_left _ (ih h).1, (ih h).2⟩
    · exact ⟨by simp, huser⟩

/-- Whatever has been seen has been passed on, in this commit or before. -/
theorem passedOn_of_seen (h : some digest ∈ copies.map Copy.userTransactionDigest) :
    digest ∈ before ∨ some digest ∈ (passOnAll before copies).map Copy.userTransactionDigest := by
  induction copies using List.reverseRecOn with
  | nil => cases h
  | append_singleton copies copy ih =>
    rw [passOnAll_append]
    generalize passOnAll before copies = passed at ih ⊢
    unfold passOn
    rw [map_append, mem_append] at h
    rcases h with h | h
    · refine (ih h).imp_right fun hpassed => ?_
      split
      · exact hpassed
      · split
        · exact hpassed
        · rw [map_append]
          exact mem_append_left _ hpassed
    · have hdigest : copy.userTransactionDigest = some digest := (mem_singleton.mp h).symm
      simp only [hdigest]
      split
      · assumption
      · right
        simp [hdigest]

/-- What has been passed on, in this commit and before. -/
theorem passOn_nodup
    (h : (before ++ passed.filterMap Copy.userTransactionDigest).Nodup) (copy : Copy) :
    (before ++ (passOn before passed copy).filterMap Copy.userTransactionDigest).Nodup := by
  unfold passOn
  cases hdigest : copy.userTransactionDigest with
  | none => exact h
  | some digest =>
    dsimp only
    split
    · exact h
    · rename_i hnew
      obtain ⟨hbefore, hpassed⟩ := not_or.mp hnew
      rw [filterMap_append, ← append_assoc, nodup_append]
      refine ⟨h, by simp [hdigest], ?_⟩
      intro other hother digest' hdigest' heq
      simp only [filterMap_cons, hdigest, filterMap_nil, mem_singleton] at hdigest'
      subst hdigest' heq
      rcases mem_append.mp hother with hother | hother
      · exact hbefore hother
      · obtain ⟨passedCopy, hmem, heq⟩ := mem_filterMap.mp hother
        exact hpassed (mem_map.mpr ⟨passedCopy, hmem, heq⟩)

theorem passOnAll_nodup (h : before.Nodup) (copies : List Copy) :
    (before ++ (passOnAll before copies).filterMap Copy.userTransactionDigest).Nodup := by
  induction copies using List.reverseRecOn with
  | nil =>
    show (before ++ []).Nodup
    rwa [append_nil]
  | append_singleton copies copy ih =>
    rw [passOnAll_append]
    exact passOn_nodup ih copy

end

/-! ### All commits -/

/-- What comes of the commits of an epoch. -/
structure Accepts (commits : List Commit) (results : List Handled) : Prop where
  rounds : results.map Handled.round = commits.map Commit.round
  /-- Every copy has a status, in the order of the sequence. -/
  copies : results.map (fun handled => handled.statuses.map Prod.fst) = commits.map Commit.copies
  /-- What is passed on are user transactions that hold their locks. -/
  finalized : ∀ handled ∈ results, ∀ copy ∈ handled.userTransactions,
    copy.isUserTransaction = true ∧ (copy, some .finalized) ∈ handled.statuses
  once : ((results.flatMap Handled.userTransactions).map Copy.userTransactionDigest).Nodup
  disjoint : (results.flatMap Handled.userTransactions).Pairwise fun copy other =>
    ∀ r ∈ copy.owned, r ∉ other.owned
  justified : ∀ before copy after,
    results.flatMap Handled.statuses = before ++ (copy, some .dropped) :: after →
    ∃ other, (other, some .finalized) ∈ before ∧
      other.userTransactionDigest ≠ copy.userTransactionDigest ∧ ∃ r ∈ copy.owned, r ∈ other.owned

namespace Ledger

/-- What holds of a ledger after the commits with some results. -/
structure Ok (ledger : Ledger) (results : List Handled) : Prop where
  filtered : Filtered ledger.locks (results.flatMap Handled.statuses)
  passedOn : ledger.passedOn =
    (results.flatMap Handled.userTransactions).filterMap Copy.userTransactionDigest
  nodup : ledger.passedOn.Nodup
  finalized : ∀ handled ∈ results, ∀ copy ∈ handled.userTransactions,
    copy.isUserTransaction = true ∧ (copy, some .finalized) ∈ handled.statuses

theorem Ok.start : Ok .start [] where
  filtered := .start
  passedOn := rfl
  nodup := .nil
  finalized handled h := by cases h

variable {results : List Handled} {ledger : Ledger}

theorem Ok.after (h : Ok ledger results) (commit : Commit) :
    Ok (ledger.after commit) (results ++ [ledger.handled commit]) := by
  obtain ⟨hfiltered, hfinalized⟩ := commit.filterAll_filtered h.filtered commit.copies
  refine ⟨?_, ?_, passOnAll_nodup h.nodup _, ?_⟩
  · rw [flatMap_append, flatMap_singleton]
    exact hfiltered
  · rw [flatMap_append, filterMap_append, ← h.passedOn, flatMap_singleton]
    rfl
  · intro handled hhandled copy hcopy
    rcases mem_concat.mp hhandled with hhandled | hhandled
    · exact h.finalized handled hhandled copy hcopy
    · cases hhandled
      obtain ⟨hmem, huser⟩ := mem_passOnAll hcopy
      exact ⟨huser, hfinalized copy hmem huser⟩

theorem Ok.handleAll (h : Ok ledger results) (commits : List Commit) :
    Ok (commits.foldl Ledger.after ledger) (results ++ ledger.handleAll commits) := by
  induction commits generalizing ledger results with
  | nil =>
    show Ok ledger (results ++ [])
    rwa [append_nil]
  | cons commit commits ih =>
    have hrest := ih (h.after commit)
    rwa [append_assoc] at hrest

theorem handleAll_rounds (ledger : Ledger) (commits : List Commit) :
    (ledger.handleAll commits).map Handled.round = commits.map Commit.round := by
  induction commits generalizing ledger with
  | nil => rfl
  | cons commit commits ih => exact congrArg _ (ih _)

theorem handleAll_copies (ledger : Ledger) (commits : List Commit) :
    (ledger.handleAll commits).map (fun handled => handled.statuses.map Prod.fst) = commits.map Commit.copies := by
  induction commits generalizing ledger with
  | nil => rfl
  | cons commit commits ih =>
    refine cons_eq_cons.mpr ⟨?_, ih _⟩
    exact commit.filterAll_statuses _ _

/-- Two that are passed on hold the locks on their inputs. -/
theorem Ok.disjoint (h : Ok ledger results) :
    (results.flatMap Handled.userTransactions).Pairwise fun copy other => ∀ r ∈ copy.owned, r ∉ other.owned := by
  have hlocked : ∀ copy ∈ results.flatMap Handled.userTransactions, ∃ digest,
      copy.userTransactionDigest = some digest ∧ ∀ r ∈ copy.owned, ledger.locks r = some digest := by
    intro copy hcopy
    obtain ⟨handled, hhandled, hcopy⟩ := mem_flatMap.mp hcopy
    exact h.filtered.kept copy (mem_flatMap.mpr ⟨handled, hhandled, (h.finalized handled hhandled copy hcopy).2⟩)
  have hnodup := h.nodup
  rw [h.passedOn] at hnodup
  refine (pairwise_filterMap.mp hnodup).imp_of_mem ?_
  intro copy other hcopy hother hne r hr hr'
  obtain ⟨digest, hdigest, hlocks⟩ := hlocked copy hcopy
  obtain ⟨digest', hdigest', hlocks'⟩ := hlocked other hother
  have hsame : digest = digest' := Option.some.inj ((hlocks r hr).symm.trans (hlocks' r hr'))
  exact hne digest hdigest digest' hdigest' hsame

theorem accepts_handleAll (commits : List Commit) : Accepts commits (Ledger.start.handleAll commits) := by
  have h : Ok (commits.foldl Ledger.after .start) (Ledger.start.handleAll commits) := Ok.start.handleAll commits
  refine ⟨handleAll_rounds _ _, handleAll_copies _ _, h.finalized, ?_, h.disjoint, h.filtered.justified⟩
  have hnodup := h.nodup
  rw [h.passedOn, List.Nodup, pairwise_filterMap] at hnodup
  rw [List.Nodup, pairwise_map]
  refine hnodup.imp_of_mem ?_
  intro copy other hcopy hother hne heq
  obtain ⟨handled, hhandled, hcopy⟩ := mem_flatMap.mp hcopy
  obtain ⟨digest, hdigest⟩ := Option.isSome_iff_exists.mp (h.finalized handled hhandled copy hcopy).1
  exact hne digest hdigest digest (heq ▸ hdigest) rfl

end Ledger

end Sui.ConsensusHandler
