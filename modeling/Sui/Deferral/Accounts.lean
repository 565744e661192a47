import Sui.Deferral.Ledger

/-! Deferral keeps account of every transaction.

`Kept` says what is to hold after every commit: every transaction accepted so far is
scheduled once or deferred once, in memory as in the table; it is deferred since the round
that accepted it, and to the next round, within the limit, unless it waits for randomness
(`Invariant`); and in the final state of the epoch everything is scheduled. `Reconsiders` says
that the next commit takes up what is due.

Entries of the map are replaced when a commit defers under a key that is still there: then
the transactions of the old entry are gone. The key of a transaction that is deferred for
randomness is the round that it was first deferred from, whatever the reason was.
`deferral_keeps` says that none is lost unless a transaction deferred to a round comes to wait
for randomness while others of its round wait for it; in
`deferred_transaction_lost` two transactions of one round have the same key at different
times. -/
namespace Sui.Deferral

open Sui.Lib Sui.Lib.BTreeMap Sui.Lib.Exec List

section Accounts
variable {κ : Type} {config : Config} {tracker : CongestionTracker κ} {commit : Commit κ}
  {history : History} {commits : List (Commit κ)}

/-! ### Steps -/

abbrev History.last (history : History) : Round := history.state.lastCommittedRound

abbrev History.deferred (history : History) : Deferred := history.state.deferredTransactions

/-- The transactions accepted up to and including a commit. -/
def History.acceptedAfter (history : History) (commit : Commit κ) : List (Round × Transaction) :=
  history.accepted ++ (acceptedTransactions history.state commit).map fun transaction =>
    (commit.round, transaction)

theorem History.acceptedAfter_snd (history : History) (commit : Commit κ) :
    (history.acceptedAfter commit).map Prod.snd =
      history.accepted.map Prod.snd ++ acceptedTransactions history.state commit := by
  rw [acceptedAfter, map_append, map_map]
  exact congrArg _ (map_id _)

/-- What a commit can do. -/
inductive Stepped (config : Config) (tracker : CongestionTracker κ) (history : History)
    (commit : Commit κ) : History → Prop
  | processed (loaded : Loaded) (collected : Collected κ) (status : ReconfigCertStatus)
      (later : history.last < commit.round)
      (collect : collect config tracker history.state commit = .ok (loaded, collected))
      (final : status = .rejectAllTx →
        (insertAll history.deferred collected.deferredTxns.toList).isEmpty = true ∨
          history.state.status = .rejectAllTx) :
      Stepped config tracker history commit
        ⟨⟨commit.round, status,
            eraseAll (insertAll history.deferred collected.deferredTxns.toList) loaded.deletedDeferredTxns,
            history.state.outputs ++ [⟨collected.deferredTxns.toList, loaded.deletedDeferredTxns⟩]⟩,
          history.acceptedAfter commit, history.scheduled ++ collected.scheduledTxns⟩
  | ended (loaded : Loaded) (collected : Collected κ) (status : ReconfigCertStatus)
      (later : history.last < commit.round)
      (collect : collect config tracker history.state commit = .ok (loaded, collected))
      (ended : history.state.status = .rejectAllTx) :
      Stepped config tracker history commit
        ⟨⟨commit.round, status, insertAll history.deferred collected.deferredTxns.toList,
            history.state.outputs⟩,
          history.acceptedAfter commit, history.scheduled ++ []⟩

theorem step_eq_ok {history next : History}
    (h : history.step config tracker commit = .ok next) : Stepped config tracker history commit next := by
  obtain ⟨⟨state, scheduled⟩, hhandle, h⟩ := bind_eq_ok.mp h
  cases h
  obtain ⟨_, hlater, hhandle⟩ := bind_eq_ok.mp hhandle
  obtain ⟨⟨loaded, collected⟩, hcollect, hhandle⟩ := bind_eq_ok.mp hhandle
  have hlater := require_eq_ok.mp hlater
  have hstate := congrArg Prod.fst (pure_eq_ok.mp hhandle)
  have hscheduled := congrArg Prod.snd (pure_eq_ok.mp hhandle)
  unfold finishCommit at hstate hscheduled
  dsimp only at hstate hscheduled
  split at hstate
  · rename_i hprocessed
    rw [if_pos hprocessed] at hscheduled
    cases hstate
    cases hscheduled
    exact .processed loaded collected _ hlater hcollect handleCloseEpoch_rejectAllTx
  · rename_i hended
    rw [if_neg hended] at hscheduled
    cases hstate
    cases hscheduled
    rw [Bool.or_eq_true, not_or, Bool.not_eq_true, Bool.not_eq_true] at hended
    exact .ended loaded collected _ hlater hcollect (handleCloseEpoch_over hended.1 hended.2)

theorem exists_loaded {deferred : Deferred} {round : Round} {randomness : Randomness}
    (hround : round + 1 < 2 ^ 64) : ∃ loaded, loadDeferredTransactions deferred round randomness = .ok loaded := by
  unfold loadDeferredTransactions DeferralKey.rangeForUpToConsensusRound
  rw [require_of hround]
  exact ⟨_, rfl⟩

/-- A commit of a later round is handled. -/
theorem step_ok (config : Config) (tracker : CongestionTracker κ) (hlater : history.last < commit.round)
    (hround : commit.round + 1 < 2 ^ 64) : ∃ next, history.step config tracker commit = .ok next := by
  obtain ⟨pair, hcollect⟩ : ∃ pair, collect config tracker history.state commit = .ok pair := by
    obtain ⟨loaded, hload⟩ := exists_loaded hround
    exact ⟨_, bind_ok hload _⟩
  have hlater : history.state.lastCommittedRound < commit.round := hlater
  unfold History.step handleConsensusCommit
  rw [require_of hlater, hcollect]
  exact ⟨_, rfl⟩

/-! ### The invariant -/

/-- Every transaction accepted is scheduled or deferred, once. -/
def History.Exactly (history : History) : Prop :=
  (history.scheduled : Multiset Transaction) + bag history.deferred =
    (history.accepted.map Prod.snd : List Transaction)

structure Invariant (config : Config) (history : History) : Prop where
  last_lt : history.last + 1 < 2 ^ 64
  exactly : history.Exactly
  nonempty : ∀ (key : DeferralKey) (txns : List Transaction), history.deferred[key]? = some txns → txns ≠ []
  /-- Transactions are deferred since the round that accepted them. -/
  origin : ∀ (key : DeferralKey) (txns : List Transaction), history.deferred[key]? = some txns →
    ∀ transaction ∈ txns, (key.deferredFromRound, transaction) ∈ history.accepted
  due : ∀ futureRound deferredFromRound,
    DeferralKey.consensusRound futureRound deferredFromRound ∈ history.deferred →
    futureRound = history.last + 1 ∧
      futureRound ≤ deferredFromRound + config.maxDeferralRoundsForCongestionControl
  rounds : ∀ entry ∈ history.accepted, entry.1 ≤ history.last
  table : history.state.table = history.deferred
  closed : history.state.status = .rejectAllTx → history.deferred = ∅

namespace Invariant

theorem start : Invariant config .start where
  last_lt := by decide
  exactly := by
    show (0 : Multiset Transaction) + bag ∅ = 0
    rw [bag_empty]
    rfl
  nonempty key txns h := absurd (mem_of_get h) Std.ExtTreeMap.not_mem_empty
  origin key txns h := absurd (mem_of_get h) Std.ExtTreeMap.not_mem_empty
  due future since h := absurd h Std.ExtTreeMap.not_mem_empty
  rounds entry h := by cases h
  table := rfl
  closed _ := rfl

variable {history next : History} {commit : Commit κ} {loaded : Loaded} {collected : Collected κ}

section
variable (h : Collects config history.state commit loaded collected)
include h

/-- Nothing is deferred by a commit that has nothing. -/
theorem toList_eq_nil (hdeferred : history.deferred = ∅)
    (haccepted : acceptedTransactions history.state commit = []) : collected.deferredTxns.toList = [] := by
  have hloaded := h.bag_loaded
  have hdeferred : history.state.deferredTransactions = ∅ := hdeferred
  rw [hdeferred, bag_empty] at hloaded
  have htotal := h.total
  rw [(add_eq_zero.mp hloaded.symm).1, haccepted, zero_add] at htotal
  have hbag := (add_eq_zero.mp htotal).2
  refine eq_nil_iff_forall_not_mem.mpr fun ⟨key, txns⟩ hentry => ?_
  have hget := mem_toList_iff.mp hentry
  obtain ⟨transaction, htransaction⟩ := exists_mem_of_ne_nil _ (h.nonempty key txns hget)
  have hmem : transaction ∈ bag collected.deferredTxns := mem_bag.mpr ⟨key, txns, hget, htransaction⟩
  rw [hbag] at hmem
  exact Multiset.notMem_zero _ hmem

/-- In the final state there is nothing to do. -/
theorem nothing (hinv : Invariant config history) (hstatus : history.state.status = .rejectAllTx) :
    collected.deferredTxns.toList = [] ∧ history.acceptedAfter commit = history.accepted := by
  have haccepted : acceptedTransactions history.state commit = [] := by
    unfold acceptedTransactions
    rw [hstatus]
    rfl
  refine ⟨toList_eq_nil h (hinv.closed hstatus) haccepted, ?_⟩
  rw [History.acceptedAfter, haccepted, map_nil, append_nil]

/-- A transaction that is deferred is deferred since the round that accepted it. -/
theorem origin_new (hinv : Invariant config history)
    (hdigests : ((history.acceptedAfter commit).map fun entry => entry.2.digest).Nodup)
    {key : DeferralKey} {txns : List Transaction} (hget : collected.deferredTxns[key]? = some txns)
    {transaction : Transaction} (htransaction : transaction ∈ txns) :
    (key.deferredFromRound, transaction) ∈ history.acceptedAfter commit := by
  have hloaded : ∀ {key : DeferralKey} {transaction : Transaction},
      (key, transaction) ∈ withKeys loaded.entries →
      (key.deferredFromRound, transaction) ∈ history.acceptedAfter commit := by
    intro key transaction hentry
    obtain ⟨txns, hget, htxns, -⟩ := h.get_of_loaded hentry
    exact mem_append_left _ (hinv.origin key txns hget transaction htxns)
  have hsome : ∃ round, (round, transaction) ∈ history.acceptedAfter commit := by
    rcases h.mem_loaded_or_accepted hget htransaction with ⟨key', hentry⟩ | haccepted
    · exact ⟨_, hloaded hentry⟩
    · exact ⟨commit.round, mem_append_right _ (mem_map_of_mem haccepted)⟩
  obtain ⟨round, hround⟩ := hsome
  rw [(h.allowed key txns hget transaction htransaction).deferredFromRound_eq, deferredFromRound]
  cases hprevious : loaded.previouslyDeferredTxDigests[transaction.digest]? with
  | some key' =>
    obtain ⟨other, hentry, hdigest⟩ := Loaded.previously_eq_some hprevious
    have hsame := inj_on_of_nodup_map hdigests (hloaded hentry) hround hdigest
    rw [← (Prod.mk.inj hsame).2]
    exact hloaded hentry
  | none =>
    rcases h.mem_loaded_or_accepted hget htransaction with ⟨key', hentry⟩ | haccepted
    · exact absurd rfl (Loaded.previously_eq_none hprevious hentry)
    · exact mem_append_right _ (mem_map_of_mem haccepted)

/-- A key of the next round is within the limit. -/
theorem due_new (hkey : DeferralKey.consensusRound futureRound since ∈ collected.deferredTxns) :
    futureRound = commit.round + 1 ∧ futureRound ≤ since + config.maxDeferralRoundsForCongestionControl := by
  obtain ⟨txns, hget⟩ := mem_iff_get.mp hkey
  obtain ⟨transaction, htransaction⟩ := exists_mem_of_ne_nil _ (h.nonempty _ txns hget)
  cases h.allowed _ txns hget transaction htransaction with
  | nextRound hlimit => exact ⟨rfl, Nat.sub_le_iff_le_add'.mp (of_decide_eq_true hlimit)⟩

end

/-- An entry is deferred since a round before the last. -/
theorem since_le (hinv : Invariant config history) (hkey : key ∈ history.deferred) :
    key.deferredFromRound ≤ history.last := by
  obtain ⟨txns, hget⟩ := mem_iff_get.mp hkey
  obtain ⟨transaction, htransaction⟩ := exists_mem_of_ne_nil _ (hinv.nonempty key txns hget)
  exact hinv.rounds _ (hinv.origin key txns hget transaction htransaction)

end Invariant

/-! ### Steps keep it -/

/-- Without randomness, a transaction that uses it and was deferred to a round comes to wait for
it, under the round that it was first deferred from, unless it is deferred once more for unpaid
amplification. No entry waits there already. -/
def Fresh (config : Config) (state : State) (commit : Commit κ) : Prop :=
  config.randomnessStateEnabled = true → (initRandomness config state.status commit).available = false →
  ∀ (futureRound since : Round) (txns : List Transaction),
    state.deferredTransactions[DeferralKey.consensusRound futureRound since]? = some txns →
    ∀ transaction ∈ txns, transaction.usesRandomness = true →
      commit.defersUnpaid config since transaction = false →
      DeferralKey.randomness since ∉ state.deferredTransactions

/-- A key is free unless it is for randomness, and its transaction was deferred to a round before. -/
theorem Fresh.free (hfresh : Fresh config history.state commit) (hinv : Invariant config history)
    (h : Collects config history.state commit loaded collected) (hlater : history.last < commit.round)
    (hdigests : ((history.acceptedAfter commit).map fun entry => entry.2.digest).Nodup) :
    ∀ key ∈ collected.deferredTxns, key ∉ history.deferred := by
  intro key hkey hold
  obtain ⟨txns, htxns⟩ := mem_iff_get.mp hkey
  obtain ⟨transaction, htransaction⟩ := exists_mem_of_ne_nil _ (h.nonempty key txns htxns)
  have hallowed := h.allowed key txns htxns transaction htransaction
  have hsince := hinv.origin_new h hdigests htxns htransaction
  cases hallowed with
  | nextRound hlimit =>
    obtain ⟨hnext, -⟩ := hinv.due _ _ hold
    exact h.not_loads hkey (hnext ▸ hlater : commit.round + 1 ≤ commit.round)
  | randomness hunavailable huses henabled hpaid =>
    rcases h.mem_loaded_or_accepted htxns htransaction with ⟨key', hentry⟩ | haccepted
    · obtain ⟨txns', hget, htxns', hloads⟩ := h.get_of_loaded hentry
      cases key' with
      | consensusRound futureRound since =>
        have hsame := inj_on_of_nodup_map hdigests hsince
          (mem_append_left _ (hinv.origin _ _ hget _ htxns')) rfl
        have hround := (Prod.mk.inj hsame).1
        simp only [DeferralKey.deferredFromRound] at hround
        rw [hround] at hpaid hold
        exact hfresh henabled hunavailable futureRound since txns' hget transaction htxns' huses hpaid hold
      | randomness since => exact Bool.false_ne_true (hunavailable.symm.trans hloads.1)
    · -- A new transaction waits since this round, and an entry of the map since an earlier one.
      have hle := hinv.since_le hold
      have hnew : (commit.round, transaction) ∈ history.acceptedAfter commit :=
        mem_append_right _ (mem_map_of_mem haccepted)
      have hsame := (Prod.mk.inj (inj_on_of_nodup_map hdigests hsince hnew rfl)).1
      exact absurd hlater (not_lt_of_ge (hsame ▸ hle))

theorem eraseAll_empty (keys : List DeferralKey) : eraseAll (∅ : Deferred) keys = ∅ := by
  apply Std.ExtTreeMap.ext_getElem?
  intro key
  rw [get_eraseAll]
  simp

theorem Invariant.step {next : History} (hinv : Invariant config history)
    (hdigests : ((history.acceptedAfter commit).map fun entry => entry.2.digest).Nodup)
    (hfresh : Fresh config history.state commit) (hstep : Stepped config tracker history commit next) :
    Invariant config next := by
  have hrounds : ∀ entry ∈ history.acceptedAfter commit, history.last < commit.round → entry.1 ≤ commit.round := by
    intro entry hentry hlater
    rcases mem_append.mp hentry with hentry | hentry
    · exact (hinv.rounds entry hentry).trans hlater.le
    · obtain ⟨transaction, -, rfl⟩ := mem_map.mp hentry
      exact le_rfl
  cases hstep with
  | processed loaded collected status hlater hcollect hfinal =>
    have h := collect_eq_ok hcollect
    refine ⟨h.round_lt, ?_, ?_, ?_, ?_, fun entry hentry => hrounds entry hentry hlater, ?_, ?_⟩
    · have hbefore : (history.scheduled : Multiset Transaction) + bag history.state.deferredTransactions =
        (history.accepted.map Prod.snd : List Transaction) := hinv.exactly
      show ((history.scheduled ++ collected.scheduledTxns : List Transaction) : Multiset Transaction) +
        bag (eraseAll (insertAll history.state.deferredTransactions _) _) = _
      rw [History.acceptedAfter_snd, ← Multiset.coe_add, ← Multiset.coe_add, ← hbefore, add_assoc, add_assoc,
        h.total_after (hfresh.free hinv h hlater hdigests)]
    · intro key txns htxns
      rcases h.get_after htxns with hnew | ⟨hold, -⟩
      · exact h.nonempty key txns hnew
      · exact hinv.nonempty key txns hold
    · intro key txns htxns transaction htransaction
      rcases h.get_after htxns with hnew | ⟨hold, -⟩
      · exact hinv.origin_new h hdigests hnew htransaction
      · exact mem_append_left _ (hinv.origin key txns hold transaction htransaction)
    · intro futureRound since hkey
      obtain ⟨txns, htxns⟩ := mem_iff_get.mp hkey
      rcases h.get_after htxns with hnew | ⟨hold, hloads⟩
      · exact due_new h (mem_of_get hnew)
      · obtain ⟨hnext, -⟩ := hinv.due futureRound since (mem_of_get hold)
        exact absurd (hnext ▸ hlater : futureRound ≤ commit.round) hloads
    · show (history.state.outputs ++ [_]).foldl Output.writeToBatch ∅ = eraseAll _ _
      rw [foldl_append, h.eraseAll_insertAll]
      show insertAll (eraseAll history.state.table _) _ = _
      rw [hinv.table]
    · intro hstatus
      rcases hfinal hstatus with hempty | hstatus
      · rw [Std.ExtTreeMap.isEmpty_iff.mp hempty, eraseAll_empty]
      · rw [(hinv.nothing h hstatus).1, hinv.closed hstatus]
        exact eraseAll_empty _
  | ended loaded collected status hlater hcollect hended =>
    have h := collect_eq_ok hcollect
    obtain ⟨hnone, hsame⟩ := hinv.nothing h hended
    rw [hnone, hsame, append_nil]
    have hempty := hinv.closed hended
    refine ⟨h.round_lt, hinv.exactly, hinv.nonempty, hinv.origin, ?_, ?_, hinv.table, fun _ => hempty⟩
    · intro futureRound since hkey
      have hkey : DeferralKey.consensusRound futureRound since ∈ history.deferred := hkey
      rw [hempty] at hkey
      exact absurd hkey Std.ExtTreeMap.not_mem_empty
    · intro entry hentry
      exact (hinv.rounds entry hentry).trans hlater.le

/-! ### Runs -/

/-- What is to hold after every commit. -/
structure Kept (config : Config) (history : History) : Prop extends Invariant config history where
  final : history.state.status = .rejectAllTx →
    (history.scheduled : Multiset Transaction) = (history.accepted.map Prod.snd : List Transaction)

/-- The commit takes up all transactions that are deferred to a round and, if there is
randomness or will be none, those that wait for it. -/
def Reconsiders (config : Config) (history : History) (commit : Commit κ) : Prop :=
  ∃ loaded, loadDeferredTransactions history.deferred commit.round
      (initRandomness config history.state.status commit) = .ok loaded ∧
    ∀ (key : DeferralKey) (txns : List Transaction), history.deferred[key]? = some txns →
      (∀ since, key = .randomness since → (initRandomness config history.state.status commit).available) →
      ∀ transaction ∈ txns, transaction ∈
        (mergeAndReorderTransactions config loaded (acceptedTransactions history.state commit)).1 ++
        (mergeAndReorderTransactions config loaded (acceptedTransactions history.state commit)).2

theorem Invariant.kept (hinv : Invariant config history) : Kept config history where
  toInvariant := hinv
  final hstatus := by
    have hall : (history.scheduled : Multiset Transaction) + bag history.deferred =
      (history.accepted.map Prod.snd : List Transaction) := hinv.exactly
    rwa [hinv.closed hstatus, bag_empty, add_zero] at hall

theorem Invariant.reconsiders (hinv : Invariant config history)
    (hlater : history.last < commit.round) (hround : commit.round + 1 < 2 ^ 64) :
    Reconsiders config history commit := by
  obtain ⟨loaded, hload⟩ := exists_loaded hround
  obtain ⟨-, hentries⟩ := loadDeferredTransactions_eq_ok hload
  refine ⟨loaded, hload, fun key txns hget hrandomness transaction htransaction => ?_⟩
  rw [(mergeAndReorderTransactions_perm loaded _).mem_iff]
  refine mem_append_left _ (mem_flatMap.mpr ⟨(key, txns), hentries.mem_iff.mpr ?_, htransaction⟩)
  refine mem_filter.mpr ⟨mem_toList_iff.mpr hget, decide_eq_true ?_⟩
  cases key with
  | consensusRound futureRound since =>
    obtain ⟨hnext, -⟩ := hinv.due futureRound since (mem_of_get hget)
    exact (hnext ▸ hlater : futureRound ≤ commit.round)
  | randomness since =>
    have hle := hinv.since_le (mem_of_get hget)
    exact ⟨hrandomness since rfl, Nat.lt_sub_of_add_lt ((Nat.add_le_add_right hle 1).trans_lt hinv.last_lt)⟩

/-- A run of some commits, up to its state. -/
structure Reached (config : Config) (tracker : CongestionTracker κ) (commits : List (Commit κ))
    (history : History) : Prop where
  run_eq : run config tracker commits = .ok history
  invariant : Invariant config history
  last : history.last = 0 ∧ commits = [] ∨ ∃ commit ∈ commits, history.last = commit.round
  accepted : (history.accepted.map Prod.snd).Sublist (commits.flatMap Commit.userTransactions)

theorem run_append (commits : List (Commit κ)) (commit : Commit κ) :
    run config tracker (commits ++ [commit]) =
      run config tracker commits >>= fun history => history.step config tracker commit := by
  unfold run
  rw [foldlM_append]
  exact congrArg _ (funext fun history => bind_pure _)

theorem acceptedTransactions_sublist (state : State) (commit : Commit κ) :
    (acceptedTransactions state commit).Sublist commit.userTransactions := by
  unfold acceptedTransactions
  split
  · exact .refl _
  · exact nil_sublist _

/-- Commits of increasing rounds, with distinct transactions. -/
structure Wellformed (commits : List (Commit κ)) : Prop where
  rounds : (0 :: commits.map Commit.round).Pairwise (· < ·)
  bounded : ∀ commit ∈ commits, commit.round + 1 < 2 ^ 64
  digests : ((commits.flatMap Commit.userTransactions).map Transaction.digest).Nodup

theorem Wellformed.of_initial {done commits : List (Commit κ)} (h : Wellformed commits)
    (hdone : done <+: commits) : Wellformed done where
  rounds := h.rounds.sublist ((hdone.sublist.map Commit.round).cons_cons 0)
  bounded commit hcommit := h.bounded commit (hdone.subset hcommit)
  digests := by
    obtain ⟨rest, rfl⟩ := hdone
    refine h.digests.sublist (List.Sublist.map _ ?_)
    rw [flatMap_append]
    exact sublist_append_left _ _

section
variable {done : List (Commit κ)} {history : History} (h : Reached config tracker done history)
  {commit : Commit κ}
include h

theorem Reached.later (hwell : Wellformed (done ++ [commit])) : history.last < commit.round := by
  have hrounds := hwell.rounds
  rw [map_append, ← cons_append, pairwise_append] at hrounds
  have hbefore : ∀ round ∈ 0 :: done.map Commit.round, round < commit.round :=
    fun round hround => hrounds.2.2 round hround commit.round (by simp)
  rcases h.last with ⟨hzero, -⟩ | ⟨other, hother, hlast⟩
  · rw [hzero]
    exact hbefore 0 (.head _)
  · rw [hlast]
    exact hbefore _ (.tail _ (mem_map_of_mem hother))

theorem Reached.acceptedAfter :
    ((history.acceptedAfter commit).map Prod.snd).Sublist
      ((done ++ [commit]).flatMap Commit.userTransactions) := by
  rw [History.acceptedAfter_snd, flatMap_append, flatMap_singleton]
  exact h.accepted.append (acceptedTransactions_sublist _ _)

theorem Reached.digests (hwell : Wellformed (done ++ [commit])) :
    ((history.acceptedAfter commit).map fun entry => entry.2.digest).Nodup := by
  have hdigests := hwell.digests.sublist (h.acceptedAfter.map Transaction.digest)
  rwa [map_map] at hdigests

theorem Reached.step (hwell : Wellformed (done ++ [commit])) (hfresh : Fresh config history.state commit) :
    ∃ next, Reached config tracker (done ++ [commit]) next := by
  obtain ⟨next, hnext⟩ := step_ok config tracker (h.later hwell) (hwell.bounded commit (by simp))
  have hstep := step_eq_ok hnext
  have haccepted : next.accepted = history.acceptedAfter commit ∧ next.last = commit.round := by
    cases hstep <;> exact ⟨rfl, rfl⟩
  refine ⟨next, ?_, h.invariant.step (h.digests hwell) hfresh hstep, .inr ⟨commit, by simp, haccepted.2⟩, ?_⟩
  · rw [run_append, h.run_eq]
    exact hnext
  · rw [haccepted.1]
    exact h.acceptedAfter

end

/-- **Deferral.** For commits of increasing rounds with distinct transactions, whatever the
duplicates, the congestion and the randomness: if no commit finds a transaction that is to wait for
randomness where others wait, then after every commit every transaction is accounted for and held
within its limits, and the next commit takes up what is due. -/
theorem deferral_keeps (config : Config) (tracker : CongestionTracker κ) (commits : List (Commit κ))
    (hwell : Wellformed commits)
    (hfresh : ∀ done commit history, done ++ [commit] <+: commits → run config tracker done = .ok history →
      Fresh config history.state commit) :
    ∀ done, done <+: commits → ∃ history, run config tracker done = .ok history ∧ Kept config history ∧
      ∀ commit, done ++ [commit] <+: commits → Reconsiders config history commit := by
  intro done hdone
  have hreached : ∃ history, Reached config tracker done history := by
    induction done using List.reverseRecOn with
    | nil => exact ⟨.start, rfl, .start, .inl ⟨rfl, rfl⟩, nil_sublist _⟩
    | append_singleton done commit ih =>
      obtain ⟨history, hreached⟩ := ih ((prefix_append done [commit]).trans hdone)
      exact hreached.step (hwell.of_initial hdone) (hfresh done commit history hdone hreached.run_eq)
  obtain ⟨history, hreached⟩ := hreached
  refine ⟨history, hreached.run_eq, hreached.invariant.kept, fun commit hnext => ?_⟩
  have hwell' := hwell.of_initial hnext
  exact hreached.invariant.reconsiders (hreached.later hwell') (hwell'.bounded commit (by simp))

end Accounts

/-! ### A transaction that is lost -/

namespace Replaced

/-- A protocol that defers transactions submitted more often than they pay for. -/
def config : Config where
  deferUnpaidAmplification := true
  maxDeferralRoundsForCongestionControl := 10
  consensusTransactionOrdering := .none
  randomnessStateEnabled := true
  referenceGasPrice := 1000

/-- No object is congested. -/
def tracker : CongestionTracker Unit where
  congestedObjects _ _ := none
  bumpObjectExecutionCost costs _ := costs

/-- Waits for randomness. -/
def waiting : Transaction := ⟨1, 1000, true⟩

/-- Uses randomness too, and is submitted five times for two paid. -/
def amplified : Transaction := ⟨2, 1000, true⟩

/-- A commit without randomness, while the key generation goes on. -/
def pending (round : Round) (transactions : List Transaction) : Commit Unit where
  round := round
  userTransactions := transactions
  occurrenceCounts digest :=
    if digest ∈ transactions.map Transaction.digest then if digest = amplified.digest then 5 else 1 else 0
  dkgStatus := .pending
  nextRandomness := none
  costs := ()
  randomnessCosts := ()
  timestampTriggered := false
  collectedEopQuorum := false

/-- A commit with randomness, at the end of the epoch. -/
def closing (round : Round) : Commit Unit :=
  { pending round [] with
    dkgStatus := .successful
    nextRandomness := some round
    timestampTriggered := true
    collectedEopQuorum := true }

/-- The second commit takes up `amplified` and defers it for randomness, under the key of
`waiting`. -/
def commits : List (Commit Unit) :=
  [pending 1 [waiting, amplified], pending 2 [], closing 3, closing 4]

/-- `waiting` is in no entry. -/
def absent (deferred : Deferred) : Bool :=
  deferred.toList.all fun entry => decide (waiting ∉ entry.2)

theorem wellformed : Wellformed commits where
  rounds := by decide
  bounded := by decide
  digests := by decide

/-- The second commit loses a transaction: it is accepted, and neither scheduled nor in an
entry, in memory or in the table. The epoch reaches its final state without it. -/
theorem deferred_transaction_lost : Wellformed commits ∧
    (∃ history, run config tracker (commits.take 2) = .ok history ∧ ¬history.Exactly ∧
      waiting ∈ history.accepted.map Prod.snd ∧ waiting ∉ history.scheduled ∧
      absent history.deferred = true ∧ absent history.state.table = true) ∧
    ∃ history, run config tracker commits = .ok history ∧ history.state.status = .rejectAllTx ∧
      waiting ∈ history.accepted.map Prod.snd ∧ waiting ∉ history.scheduled := by
  have hlost : check (run config tracker (commits.take 2)) (fun history =>
      decide (waiting ∈ history.accepted.map Prod.snd ∧ waiting ∉ history.scheduled ∧
        absent history.deferred = true ∧ absent history.state.table = true)) = true := by
    decide +kernel
  have hfinal : check (run config tracker commits) (fun history =>
      decide (history.state.status = .rejectAllTx ∧ waiting ∈ history.accepted.map Prod.snd ∧
        waiting ∉ history.scheduled)) = true := by
    decide +kernel
  obtain ⟨history, hrun, hlost⟩ := exists_of_check hlost
  obtain ⟨haccepted, hscheduled, habsent, htable⟩ := of_decide_eq_true hlost
  obtain ⟨last, hlast, hfinal⟩ := exists_of_check hfinal
  refine ⟨wellformed, ⟨history, hrun, ?_, haccepted, hscheduled, habsent, htable⟩,
    last, hlast, of_decide_eq_true hfinal⟩
  intro hexactly
  have hmem : waiting ∈ (history.scheduled : Multiset Transaction) + bag history.deferred := by
    rw [hexactly]
    exact haccepted
  rcases Multiset.mem_add.mp hmem with h | h
  · exact hscheduled h
  · obtain ⟨key, txns, hget, htxns⟩ := mem_bag.mp h
    have hentry := all_eq_true.mp habsent (key, txns) (mem_toList_iff.mpr hget)
    exact of_decide_eq_true hentry htxns

/-- Submitted five times for two paid, without randomness. -/
def plain : Transaction := ⟨2, 1000, false⟩

/-- `plain` is deferred to the second commit and `waiting` waits for randomness: none is lost. -/
theorem deferral_keeps_waiting : Wellformed [pending 1 [waiting, plain], pending 2 []] ∧
    ∀ done, done <+: [pending 1 [waiting, plain], pending 2 []] → ∃ history,
      run config tracker done = .ok history ∧ Kept config history ∧
      ∀ commit, done ++ [commit] <+: [pending 1 [waiting, plain], pending 2 []] → Reconsiders config history commit := by
  have hwell : Wellformed [pending 1 [waiting, plain], pending 2 []] := ⟨by decide, by decide, by decide⟩
  refine ⟨hwell, deferral_keeps config tracker _ hwell fun done commit history hnext hrun => ?_⟩
  have hdone : done = [] ∨ done = [pending 1 [waiting, plain]] := by
    have htake := prefix_iff_eq_take.mp ((prefix_append done [commit]).trans hnext)
    have hlength : done.length ≤ 1 := by simpa using hnext.length_le
    rcases Nat.le_one_iff_eq_zero_or_eq_one.mp hlength with hlength | hlength
    · exact .inl (length_eq_zero_iff.mp hlength)
    · rw [hlength] at htake
      exact .inr htake
  have hround : check (run config tracker done) (fun history => history.deferred.toList.all fun entry =>
      entry.2.all fun transaction => !transaction.usesRandomness || entry.1 = .randomness 1) = true := by
    rcases hdone with rfl | rfl <;> decide +kernel
  obtain ⟨_, hrun', hround⟩ := exists_of_check hround
  cases hrun.symm.trans hrun'
  intro _ _ futureRound since txns hget transaction htransaction huses
  have hentry := all_eq_true.mp (all_eq_true.mp hround _ (mem_toList_iff.mpr hget)) transaction htransaction
  simp [huses] at hentry

end Replaced

end Sui.Deferral
