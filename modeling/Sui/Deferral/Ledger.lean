import Sui.Deferral.Basic

/-! What a commit does with the transactions that it has.

Those that a commit loads and those that it brings are each scheduled, or deferred under a
key that this commit has not loaded (`Sorted`). What is scheduled and deferred is what was
loaded and brought. The map of deferred transactions changes by the entries that are taken
out and those that are put in, and what it holds changes accordingly, except for entries
that are replaced: with none there is no loss (`Collects.total_after`). -/
namespace Sui.Deferral

open Sui.Lib Sui.Lib.BTreeMap Sui.Lib.Exec List

/-! ### Ranges of keys -/

namespace DeferralKey

variable {key : DeferralKey}

theorem le_iff : key ≤ key' ↔ key.toLexKey ≤ key'.toLexKey := Iff.rfl

theorem lt_iff : key < key' ↔ key.toLexKey < key'.toLexKey := Iff.rfl

theorem mem_rangeForUpToConsensusRound {round : Round} {key : DeferralKey} :
    consensusRound 0 0 ≤ key ∧ key < consensusRound (round + 1) 0 ↔
      ∃ futureRound deferredFromRound, key = consensusRound futureRound deferredFromRound ∧
        futureRound ≤ round := by
  cases key with
  | randomness deferredFromRound =>
    simp only [le_iff, toLexKey, Prod.Lex.toLex_le_toLex]
    simp
  | consensusRound futureRound deferredFromRound =>
    simp only [le_iff, lt_iff, toLexKey, Prod.Lex.toLex_le_toLex, Prod.Lex.toLex_lt_toLex]
    simp
    exact fun _ => (Nat.eq_zero_or_pos futureRound).symm.imp_right Eq.symm

theorem mem_fullRangeForRandomness :
    fullRangeForRandomness.1 ≤ key ∧ key < fullRangeForRandomness.2 ↔
      ∃ deferredFromRound, key = randomness deferredFromRound ∧ deferredFromRound < 2 ^ 64 - 1 := by
  cases key with
  | randomness deferredFromRound =>
    simp only [fullRangeForRandomness, le_iff, lt_iff, toLexKey, Prod.Lex.toLex_le_toLex, Prod.Lex.toLex_lt_toLex]
    simp
    exact fun _ => (Nat.eq_zero_or_pos deferredFromRound).symm.imp_right Eq.symm
  | consensusRound futureRound deferredFromRound =>
    simp only [fullRangeForRandomness, lt_iff, toLexKey, Prod.Lex.toLex_lt_toLex]
    simp

end DeferralKey

/-! ### Loading -/

/-- The keys that a commit loads. -/
def Loads (round : Round) (randomness : Randomness) : DeferralKey → Prop
  | .consensusRound futureRound _ => futureRound ≤ round
  | .randomness deferredFromRound => randomness.available = true ∧ deferredFromRound < 2 ^ 64 - 1

instance (round : Round) (randomness : Randomness) : DecidablePred (Loads round randomness)
  | .consensusRound futureRound _ => inferInstanceAs (Decidable (futureRound ≤ round))
  | .randomness _ => inferInstanceAs (Decidable (_ ∧ _))

theorem loadDeferredTransactions_eq_ok {deferred : Deferred} {round : Round} {randomness : Randomness}
    {loaded : Loaded} (h : loadDeferredTransactions deferred round randomness = .ok loaded) :
    round + 1 < 2 ^ 64 ∧ loaded.entries.Perm
      (deferred.toList.filter fun entry => Loads round randomness entry.1) := by
  obtain ⟨range, hrange, h⟩ := bind_eq_ok.mp h
  obtain ⟨_, hround, hrange⟩ := bind_eq_ok.mp hrange
  cases hrange
  cases h
  refine ⟨require_eq_ok.mp hround, ?_⟩
  have hsplit := filter_append_perm
    (fun entry : DeferralKey × List Transaction =>
      decide (.consensusRound 0 0 ≤ entry.1 ∧ entry.1 < .consensusRound (round + 1) 0))
    (deferred.toList.filter fun entry => Loads round randomness entry.1)
  rw [filter_filter, filter_filter] at hsplit
  show (loadDeferredTransactionsV2 deferred _ ++ (if _ then _ else _)).Perm _
  convert hsplit using 2
  · refine filter_congr fun entry _ => ?_
    rw [← Bool.decide_and, decide_eq_decide, DeferralKey.mem_rangeForUpToConsensusRound]
    exact ⟨fun ⟨future, since, hkey, hle⟩ => ⟨⟨future, since, hkey, hle⟩, hkey ▸ hle⟩, And.left⟩
  · have hrandomness : ∀ entry : DeferralKey × List Transaction,
        (!decide (.consensusRound 0 0 ≤ entry.1 ∧ entry.1 < .consensusRound (round + 1) 0) &&
          decide (Loads round randomness entry.1)) =
        (randomness.available && decide (DeferralKey.fullRangeForRandomness.1 ≤ entry.1 ∧
          entry.1 < DeferralKey.fullRangeForRandomness.2)) := by
      intro ⟨key, txns⟩
      rw [Bool.eq_iff_iff]
      simp only [Bool.and_eq_true, Bool.not_eq_true', decide_eq_true_eq, decide_eq_false_iff_not,
        DeferralKey.mem_rangeForUpToConsensusRound, DeferralKey.mem_fullRangeForRandomness]
      cases key <;> simp [Loads]
    rw [filter_congr fun entry _ => hrandomness entry]
    cases randomness.available <;> simp [loadDeferredTransactionsV2]

/-! ### Deferring -/

section Handler
variable {κ : Type} {config : Config} {commit : Commit κ} {key : DeferralKey}
  {transaction : Transaction} {randomness : Randomness}
  {previously : BTreeMap TransactionDigest DeferralKey} {deferred : Deferred} {loaded : Loaded}

/-- A commit defers a transaction that is submitted more often than it pays for to the next
round, within the limit from the round it was first deferred from. -/
def Commit.defersUnpaid (config : Config) (commit : Commit κ) (since : Round) (transaction : Transaction) : Bool :=
  unpaidAmplification config commit transaction &&
    transactionDeferralWithinLimit (.consensusRound (commit.round + 1) since)
      config.maxDeferralRoundsForCongestionControl

/-- The keys under which a commit may defer a transaction: to the next round, or for randomness
unless it is deferred for unpaid amplification. -/
inductive Deferrable (config : Config) (commit : Commit κ) (randomness : Randomness)
    (previously : BTreeMap TransactionDigest DeferralKey) (transaction : Transaction) : DeferralKey → Prop
  | nextRound (limit : transactionDeferralWithinLimit (nextRoundKey previously commit.round transaction)
        config.maxDeferralRoundsForCongestionControl = true) :
      Deferrable config commit randomness previously transaction
        (nextRoundKey previously commit.round transaction)
  | randomness (unavailable : randomness.available = false) (uses : transaction.usesRandomness = true)
      (enabled : config.randomnessStateEnabled = true)
      (paid : commit.defersUnpaid config (deferredFromRound previously commit.round transaction) transaction = false) :
      Deferrable config commit randomness previously transaction
        (.randomness (deferredFromRound previously commit.round transaction))

/-- A transaction is scheduled, or deferred under one of its keys. -/
inductive Disposed (config : Config) (commit : Commit κ) (randomness : Randomness)
    (previously : BTreeMap TransactionDigest DeferralKey) (transaction : Transaction)
    (collected collected' : Collected κ) : Prop
  | scheduled (deferred : collected'.deferredTxns = collected.deferredTxns)
      (scheduled : collected'.scheduledTxns = collected.scheduledTxns ++ [transaction])
  | deferred (key : DeferralKey) (allowed : Deferrable config commit randomness previously transaction key)
      (deferred : collected'.deferredTxns = push collected.deferredTxns key transaction)
      (scheduled : collected'.scheduledTxns = collected.scheduledTxns)

section
variable (config : Config) (tracker : CongestionTracker κ) (commit : Commit κ) (randomness : Randomness)
  (previously : BTreeMap TransactionDigest DeferralKey) (collected : Collected κ) (transaction : Transaction)

theorem handleDeferralAndCancellation_disposed :
    Disposed config commit randomness previously transaction collected
      (handleDeferralAndCancellation config tracker commit randomness previously collected transaction) := by
  unfold handleDeferralAndCancellation shouldDefer
  dsimp only
  split
  · rename_i hunpaid
    exact .deferred _ (.nextRound (Bool.and_eq_true_iff.mp hunpaid).2) rfl rfl
  · rename_i hpaid
    by_cases hwaits : (!randomness.available && config.randomnessStateEnabled && transaction.usesRandomness) = true
    · rw [if_pos hwaits]
      simp only [Bool.and_eq_true, Bool.not_eq_true'] at hwaits
      exact .deferred _ (.randomness hwaits.1.1 hwaits.2 hwaits.1.2 (eq_false_of_ne_true hpaid)) rfl rfl
    · rw [if_neg hwaits]
      cases tracker.congestedObjects collected.costs transaction with
      | none => exact .scheduled rfl rfl
      | some objects =>
        simp only [Option.map_some]
        split
        · rename_i hlimit
          exact .deferred _ (.nextRound hlimit) rfl rfl
        · exact .scheduled rfl rfl

theorem handleRandomnessTransaction_disposed :
    Disposed config commit randomness previously transaction collected
      (handleRandomnessTransaction config tracker commit randomness previously collected transaction) := by
  unfold handleRandomnessTransaction
  split
  · exact .scheduled rfl rfl
  · exact handleDeferralAndCancellation_disposed ..

end

/-- What has been collected once some transactions are handled. -/
structure Sorted (config : Config) (commit : Commit κ) (randomness : Randomness)
    (previously : BTreeMap TransactionDigest DeferralKey) (handled : Multiset Transaction)
    (collected : Collected κ) : Prop where
  total : (collected.scheduledTxns : Multiset Transaction) + bag collected.deferredTxns = handled
  nonempty : ∀ (key : DeferralKey) (txns : List Transaction), collected.deferredTxns[key]? = some txns →
    txns ≠ []
  allowed : ∀ (key : DeferralKey) (txns : List Transaction), collected.deferredTxns[key]? = some txns →
    ∀ transaction ∈ txns, Deferrable config commit randomness previously transaction key

namespace Sorted
variable {commit : Commit κ} {randomness : Randomness} {previously : BTreeMap TransactionDigest DeferralKey}
  {handled : Multiset Transaction} {collected collected' : Collected κ} {transaction : Transaction}

theorem start (costs : κ) : Sorted config commit randomness previously 0 ⟨∅, ∅, [], costs⟩ where
  total := by
    rw [bag_empty, add_zero]
    rfl
  nonempty key txns h := by simp at h
  allowed key txns h := by simp at h

theorem disposed (h : Sorted config commit randomness previously handled collected)
    (hdisposed : Disposed config commit randomness previously transaction collected collected') :
    Sorted config commit randomness previously (handled + {transaction}) collected' := by
  cases hdisposed with
  | scheduled hdeferred hscheduled =>
    constructor
    · rw [hdeferred, hscheduled, ← Multiset.coe_add, add_right_comm, h.total, Multiset.coe_singleton]
    · rw [hdeferred]
      exact h.nonempty
    · rw [hdeferred]
      exact h.allowed
  | deferred key hallowed hdeferred hscheduled =>
    have hget : ∀ (key' : DeferralKey) (txns : List Transaction), collected'.deferredTxns[key']? = some txns →
        collected.deferredTxns[key']? = some txns ∨
          key' = key ∧ txns = listAt collected.deferredTxns key ++ [transaction] := by
      intro key' txns hget
      rw [hdeferred, push] at hget
      rcases insert_eq_some.mp hget with ⟨rfl, rfl⟩ | ⟨-, hget⟩
      · exact .inr ⟨rfl, rfl⟩
      · exact .inl hget
    constructor
    · rw [hdeferred, hscheduled, bag_push, ← h.total, ← Multiset.singleton_add, add_assoc,
        add_comm (bag collected.deferredTxns)]
    · intro key' txns htxns
      rcases hget key' txns htxns with htxns | ⟨-, rfl⟩
      · exact h.nonempty key' txns htxns
      · simp
    · intro key' txns htxns other hother
      rcases hget key' txns htxns with htxns | ⟨rfl, rfl⟩
      · exact h.allowed key' txns htxns other hother
      · rcases mem_concat.mp hother with hother | rfl
        · unfold listAt at hother
          cases hlist : collected.deferredTxns[key']? with
          | none =>
            rw [hlist] at hother
            cases hother
          | some txns =>
            rw [hlist] at hother
            exact h.allowed key' txns hlist other hother
        · exact hallowed

theorem foldl
    (hf : ∀ collected transaction, Disposed config commit randomness previously transaction collected
      (f collected transaction))
    (h : Sorted config commit randomness previously handled collected) (transactions : List Transaction) :
    Sorted config commit randomness previously (handled + transactions) (transactions.foldl f collected) := by
  induction transactions generalizing handled collected with
  | nil => rwa [Multiset.coe_nil, add_zero]
  | cons transaction rest ih =>
    rw [foldl_cons, ← Multiset.cons_coe, ← Multiset.singleton_add, ← add_assoc]
    exact ih (h.disposed (hf collected transaction))

theorem withCosts (h : Sorted config commit randomness previously handled collected) (costs : κ) :
    Sorted config commit randomness previously handled { collected with costs } :=
  ⟨h.total, h.nonempty, h.allowed⟩

end Sorted

theorem reorder_perm (transactions : List Transaction) : (reorder config transactions).Perm transactions := by
  unfold reorder
  split
  · exact mergeSort_perm _ _
  · exact .refl _

theorem mergeAndReorderTransactions_perm (loaded : Loaded) (userTransactions : List Transaction) :
    ((mergeAndReorderTransactions config loaded userTransactions).1 ++
      (mergeAndReorderTransactions config loaded userTransactions).2).Perm
      (loaded.entries.flatMap Prod.snd ++ userTransactions) := by
  have hsplit : ∀ transactions : List Transaction,
      ((transactions.filter Transaction.usesRandomness : List Transaction) : Multiset Transaction) +
        (transactions.filter fun transaction => !transaction.usesRandomness : List Transaction) =
      transactions := by
    intro transactions
    exact Multiset.coe_eq_coe.mpr (filter_append_perm _ transactions)
  refine ((reorder_perm _).append (reorder_perm _)).trans (Multiset.coe_eq_coe.mp ?_)
  simp only [Loaded.entries, flatMap_append, ← Multiset.coe_add]
  rw [← hsplit (loaded.deferredTxs.flatMap Prod.snd), ← hsplit userTransactions]
  abel

theorem collectTransactionsToSchedule_sorted (config : Config) (tracker : CongestionTracker κ)
    (commit : Commit κ) (randomness : Randomness) (loaded : Loaded) (userTransactions : List Transaction) :
    Sorted config commit randomness loaded.previouslyDeferredTxDigests
      ((loaded.entries.flatMap Prod.snd : List Transaction) + (userTransactions : Multiset Transaction))
      (collectTransactionsToSchedule config tracker commit randomness loaded userTransactions) := by
  rw [Multiset.coe_add, ← Multiset.coe_eq_coe.mpr (mergeAndReorderTransactions_perm loaded userTransactions),
    ← Multiset.coe_add, ← zero_add ((mergeAndReorderTransactions config loaded userTransactions).1 : Multiset Transaction)]
  exact (((Sorted.start _).foldl (handleDeferralAndCancellation_disposed config tracker commit randomness _) _).withCosts
    _).foldl (handleRandomnessTransaction_disposed config tracker commit randomness _) _

/-! ### A commit -/

/-- What `collect` gives. -/
structure Collects (config : Config) (state : State) (commit : Commit κ) (loaded : Loaded)
    (collected : Collected κ) : Prop extends
    Sorted config commit (initRandomness config state.status commit) loaded.previouslyDeferredTxDigests
      ((loaded.entries.flatMap Prod.snd : List Transaction) + (acceptedTransactions state commit : List Transaction))
      collected where
  round_lt : commit.round + 1 < 2 ^ 64
  entries : loaded.entries.Perm (state.deferredTransactions.toList.filter fun entry =>
    Loads commit.round (initRandomness config state.status commit) entry.1)

theorem collect_eq_ok {state : State} {collected : Collected κ}
    (h : collect config tracker state commit = .ok (loaded, collected)) :
    Collects config state commit loaded collected := by
  obtain ⟨loaded', hloaded, h⟩ := bind_eq_ok.mp h
  cases h
  obtain ⟨hround, hentries⟩ := loadDeferredTransactions_eq_ok hloaded
  exact ⟨collectTransactionsToSchedule_sorted .., hround, hentries⟩

namespace Collects
variable {state : State} {commit : Commit κ} {loaded : Loaded} {collected : Collected κ}
  {key : DeferralKey}

section
variable (h : Collects config state commit loaded collected)
include h

theorem mem_deleted :
    key ∈ loaded.deletedDeferredTxns ↔ key ∈ state.deferredTransactions ∧
      Loads commit.round (initRandomness config state.status commit) key := by
  rw [Loaded.deletedDeferredTxns, (h.entries.map Prod.fst).mem_iff, mem_map]
  constructor
  · intro ⟨⟨_, txns⟩, hentry, hkey⟩
    obtain ⟨hentry, hloads⟩ := mem_filter.mp hentry
    cases hkey
    exact ⟨mem_of_get (mem_toList_iff.mp hentry), of_decide_eq_true hloads⟩
  · intro ⟨hkey, hloads⟩
    obtain ⟨txns, htxns⟩ := BTreeMap.mem_iff_get.mp hkey
    exact ⟨(key, txns), mem_filter.mpr ⟨mem_toList_iff.mpr htxns, decide_eq_true hloads⟩, rfl⟩

/-- What is loaded is what the map loses. -/
theorem bag_loaded :
    bag state.deferredTransactions = (loaded.entries.flatMap Prod.snd : List Transaction) +
      bag (eraseAll state.deferredTransactions loaded.deletedDeferredTxns) := by
  have hsame : eraseAll state.deferredTransactions loaded.deletedDeferredTxns =
      eraseAll state.deferredTransactions ((state.deferredTransactions.toList.filter fun entry =>
        Loads commit.round (initRandomness config state.status commit) entry.1).map Prod.fst) := by
    apply Std.ExtTreeMap.ext_getElem?
    intro key
    rw [get_eraseAll, get_eraseAll, Loaded.deletedDeferredTxns]
    have hiff := (h.entries.map Prod.fst).mem_iff (a := key)
    by_cases hkey : key ∈ loaded.entries.map Prod.fst
    · rw [if_pos hkey, if_pos (hiff.mp hkey)]
    · rw [if_neg hkey, if_neg (mt hiff.mpr hkey)]
  rw [hsame, Multiset.coe_eq_coe.mpr (h.entries.flatMap_right Prod.snd)]
  exact bag_eraseAll_filter _ _

/-- A key under which a commit defers is not one that it loads. -/
theorem not_loads (hkey : key ∈ collected.deferredTxns) :
    ¬Loads commit.round (initRandomness config state.status commit) key := by
  obtain ⟨txns, htxns⟩ := BTreeMap.mem_iff_get.mp hkey
  obtain ⟨transaction, htransaction⟩ := exists_mem_of_ne_nil _ (h.nonempty key txns htxns)
  cases h.allowed key txns htxns transaction htransaction with
  | nextRound hlimit => exact Nat.not_succ_le_self commit.round
  | randomness hunavailable huses henabled hpaid =>
    exact fun hloads => Bool.false_ne_true (hunavailable.symm.trans hloads.1)

end

theorem mem_keys_toList : key ∈ collected.deferredTxns.toList.map Prod.fst ↔ key ∈ collected.deferredTxns := by
  rw [Std.ExtTreeMap.map_fst_toList_eq_keys, Std.ExtTreeMap.mem_keys]

section
variable (h : Collects config state commit loaded collected) {key : DeferralKey}
  {txns : List Transaction} {transaction : Transaction}
include h

/-- In memory entries are put in before others are taken out, in the table after. -/
theorem eraseAll_insertAll (deferred : Deferred) :
    eraseAll (insertAll deferred collected.deferredTxns.toList) loaded.deletedDeferredTxns =
      insertAll (eraseAll deferred loaded.deletedDeferredTxns) collected.deferredTxns.toList := by
  apply BTreeMap.eraseAll_insertAll
  intro key hdeleted hkey
  exact h.not_loads (mem_keys_toList.mp hkey) (h.mem_deleted.mp hdeleted).2

/-- What is scheduled and deferred after a commit is what was deferred before it and what it
brings, if it defers under free keys. -/
theorem total_after (hfree : ∀ key ∈ collected.deferredTxns, key ∉ state.deferredTransactions) :
    (collected.scheduledTxns : Multiset Transaction) +
        bag (eraseAll (insertAll state.deferredTransactions collected.deferredTxns.toList)
          loaded.deletedDeferredTxns) =
      bag state.deferredTransactions + (acceptedTransactions state commit : List Transaction) := by
  have hkeys : (collected.deferredTxns.toList.map Prod.fst).Nodup := by
    rw [Std.ExtTreeMap.map_fst_toList_eq_keys]
    exact Std.ExtTreeMap.nodup_keys
  have hinsert := bag_insertAll (eraseAll state.deferredTransactions loaded.deletedDeferredTxns) hkeys
    fun key hkey hmem => by
      obtain ⟨txns, hget⟩ := mem_iff_get.mp hmem
      rw [get_eraseAll] at hget
      split at hget
      · cases hget
      · exact hfree key (mem_keys_toList.mp hkey) (mem_of_get hget)
  have hdeferred : ((collected.deferredTxns.toList.flatMap Prod.snd : List Transaction) :
      Multiset Transaction) = bag collected.deferredTxns := rfl
  rw [h.eraseAll_insertAll, hinsert, hdeferred, h.bag_loaded, add_left_comm, h.total]
  abel

/-- An entry after a commit is one that it puts in, or an old one that it does not load. -/
theorem get_after
    (hget : (eraseAll (insertAll state.deferredTransactions collected.deferredTxns.toList)
      loaded.deletedDeferredTxns)[key]? = some txns) :
    collected.deferredTxns[key]? = some txns ∨ state.deferredTransactions[key]? = some txns ∧
      ¬Loads commit.round (initRandomness config state.status commit) key := by
  rw [h.eraseAll_insertAll] at hget
  by_cases hkey : key ∈ collected.deferredTxns.toList.map Prod.fst
  · obtain ⟨txns', hentry, hinserted⟩ := get_insertAll_of_mem hkey
    cases (hinserted _).symm.trans hget
    exact .inl (mem_toList_iff.mp hentry)
  · rw [get_insertAll_of_not_mem _ hkey, get_eraseAll] at hget
    split at hget
    · cases hget
    · rename_i hdeleted
      refine .inr ⟨hget, fun hloads => hdeleted (h.mem_deleted.mpr ⟨?_, hloads⟩)⟩
      exact mem_of_get hget

/-- Transactions that are deferred were loaded or accepted. -/
theorem mem_loaded_or_accepted (hget : collected.deferredTxns[key]? = some txns)
    (htransaction : transaction ∈ txns) :
    (∃ key', (key', transaction) ∈ withKeys loaded.entries) ∨ transaction ∈ acceptedTransactions state commit := by
  have hmem : transaction ∈ (collected.scheduledTxns : Multiset Transaction) + bag collected.deferredTxns :=
    Multiset.mem_add.mpr (.inr (mem_bag.mpr ⟨key, txns, hget, htransaction⟩))
  rw [h.total, Multiset.mem_add, Multiset.mem_coe, Multiset.mem_coe] at hmem
  refine hmem.imp_left fun hloaded => ?_
  obtain ⟨⟨key', txns'⟩, hentry, htxns'⟩ := mem_flatMap.mp hloaded
  exact ⟨key', mem_flatMap.mpr ⟨(key', txns'), hentry, mem_map_of_mem htxns'⟩⟩

/-- A transaction that is loaded is in the map, under a key that is due. -/
theorem get_of_loaded (hloaded : (key, transaction) ∈ withKeys loaded.entries) :
    ∃ txns, state.deferredTransactions[key]? = some txns ∧ transaction ∈ txns ∧
      Loads commit.round (initRandomness config state.status commit) key := by
  obtain ⟨⟨key', txns⟩, hentry, hpair⟩ := mem_flatMap.mp hloaded
  obtain ⟨other, hother, heq⟩ := mem_map.mp hpair
  cases heq
  obtain ⟨hentry, hloads⟩ := mem_filter.mp (h.entries.mem_iff.mp hentry)
  exact ⟨txns, mem_toList_iff.mp hentry, hother, of_decide_eq_true hloads⟩

end

end Collects

theorem Loaded.previously_eq_some (h : loaded.previouslyDeferredTxDigests[digest]? = some key) :
    ∃ transaction : Transaction, (key, transaction) ∈ withKeys loaded.entries ∧ transaction.digest = digest := by
  rcases get_foldl_insert ∅ _ _ _ h with h | ⟨⟨key', transaction⟩, hentry, hdigest, hkey⟩
  · simp at h
  · cases hkey
    exact ⟨transaction, hentry, hdigest⟩

theorem Loaded.previously_eq_none (h : loaded.previouslyDeferredTxDigests[digest]? = none)
    (hentry : (key, transaction) ∈ withKeys loaded.entries) : transaction.digest ≠ digest := by
  intro hdigest
  refine not_mem_iff_get.mpr h ((mem_foldl_insert ∅ _ _ _ _).mpr (.inr ?_))
  exact mem_map.mpr ⟨(key, transaction), hentry, hdigest⟩

theorem Deferrable.deferredFromRound_eq
    (h : Deferrable config commit randomness previously transaction key) :
    key.deferredFromRound = deferredFromRound previously commit.round transaction := by
  cases h <;> rfl

/-! ### The end of the epoch -/

variable {status : ReconfigCertStatus}

theorem closeUserCerts_eq_rejectAllTx : status.closeUserCerts = .rejectAllTx ↔ status = .rejectAllTx := by
  cases status <;> simp [ReconfigCertStatus.closeUserCerts]

theorem closeAllCerts_eq_rejectAllTx : status.closeAllCerts = .rejectAllTx ↔ status = .rejectAllTx := by
  cases status <;> simp [ReconfigCertStatus.closeAllCerts]

theorem advanceEopStateMachine_eq
    (h : (advanceEopStateMachine status has deferred).1 = .rejectAllTx) :
    deferred.isEmpty = true ∨ status = .rejectAllTx := by
  unfold advanceEopStateMachine at h
  split at h
  · rename_i hempty
    exact .inl (Bool.and_eq_true_iff.mp hempty).2
  · exact .inr (closeAllCerts_eq_rejectAllTx.mp h)

/-- The final state is reached when nothing is deferred. -/
theorem handleCloseEpoch_rejectAllTx
    (h : (handleCloseEpoch status commit has deferred).1 = .rejectAllTx) :
    deferred.isEmpty = true ∨ status = .rejectAllTx := by
  have hstatus : (if commit.timestampTriggered then status.closeUserCerts else status) = .rejectAllTx →
      status = .rejectAllTx := by
    intro h
    split at h
    · exact closeUserCerts_eq_rejectAllTx.mp h
    · exact h
  unfold handleCloseEpoch at h
  dsimp only at h
  split at h
  · exact (advanceEopStateMachine_eq h).imp_right hstatus
  · exact .inr (hstatus h)

/-- A commit is not processed when the final state was reached before. -/
theorem handleCloseEpoch_over (haccept : (handleCloseEpoch status commit has deferred).2.1 = false)
    (hfinal : (handleCloseEpoch status commit has deferred).2.2 = false) : status = .rejectAllTx := by
  unfold handleCloseEpoch at haccept hfinal
  dsimp only at haccept hfinal
  split at haccept
  · rename_i htriggered
    rw [if_pos htriggered] at hfinal
    have hnext : (advanceEopStateMachine (if commit.timestampTriggered then status.closeUserCerts
        else status) has deferred).1 = .rejectAllTx := by
      simpa [ReconfigCertStatus.shouldAcceptTx] using haccept
    have hbefore : (if commit.timestampTriggered then status.closeUserCerts else status) = .rejectAllTx := by
      by_contra hne
      unfold advanceEopStateMachine at hfinal hnext
      dsimp only at hfinal hnext
      rw [hnext] at hfinal
      simp [hne] at hfinal
    split at hbefore
    · exact closeUserCerts_eq_rejectAllTx.mp hbefore
    · exact hbefore
  · cases haccept

end Handler

end Sui.Deferral
