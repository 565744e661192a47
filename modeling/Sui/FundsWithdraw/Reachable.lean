import Sui.FundsWithdraw.Settle

/-! Runs of the eager scheduler.

Batches come with increasing versions, settlements with consecutive ones. Storage
returns the balance of a settled version that is not behind the scheduler's, and a
settlement takes no more from an account than is reserved at the version it settles.
Then, as long as balances stay below `2 ^ 127`, no call fails and the books of every
tracked account are in order after each (`reachable_books`). The bound is needed: the
scheduler casts a balance to a signed integer (`settleFunds_negative_balance`). -/
namespace Sui.FundsWithdraw.EagerFundsWithdrawScheduler

open Sui.Lib BTreeMap Exec Reservation FundsWithdraw.Frame

variable {L : Ledger} {R : Requests} {next : Nat} {s : EagerFundsWithdrawScheduler}
  {fundsRead : AccountFundsRead} {r : WithdrawReservations} {settlement : FundsSettlement}
  {x : AccumulatorObjId}

/-- The account has a withdraw at the version. -/
def Registered (s : EagerFundsWithdrawScheduler) (v : Nat) (x : AccumulatorObjId) : Prop :=
  ∃ accounts : BTreeSet AccumulatorObjId, s.pendingSettlements[v]? = some accounts ∧ x ∈ accounts

/-- The state between calls, when the next batch has version `next` or a later one. -/
structure Rest (L : Ledger) (next : Nat) (R : Requests) (s : EagerFundsWithdrawScheduler) :
    Prop where
  inv : ∃ g, AtRest L (Frame.rest s.accumulatorVersion (max s.accumulatorVersion (next - 1))
    s.Registered) R g s.accounts s.withdraws
  settlements : ∀ v ∈ s.pendingSettlements, v < next
  unasked : ∀ y v, next ≤ v → R y v = []

theorem rest_new (L : Ledger) (start : Nat) : Rest L 0 (fun _ _ => []) (new start) := by
  have hnone : ∀ x, (new start).accounts x = none := fun x => by simp [accounts, new]
  refine ⟨⟨fun _ _ => [], ⟨?_, ?_, ?_, ?_, List.Pairwise.nil, ?_, ?_, ?_, ?_⟩, ?_⟩, ?_, fun _ _ _ => rfl⟩
  · intro x a ha
    rw [hnone x] at ha
    cases ha
  · exact fun _ _ => ⟨rfl, fun _ _ => rfl⟩
  · exact fun _ _ _ => greedy_nil
  · exact fun _ _ _ => List.forall_mem_nil _
  · exact List.forall_mem_nil _
  · exact fun _ _ => List.forall_mem_nil _
  · intro i w hw
    simp [new] at hw
  · intro x v
    simp [queue, hnone x, queuedRequests]
  · intro x i hi
    simp [queue, hnone x] at hi
  · intro v hv
    simp [new] at hv

/-- A later bound on the versions of batches. -/
theorem Rest.later (h : Rest L next R s) (hle : next ≤ next') : Rest L next' R s := by
  obtain ⟨g, hinv⟩ := h.inv
  refine ⟨⟨g, ?_⟩, fun v hv => (h.settlements v hv).trans_le hle, fun y v hv => h.unasked y v (hle.trans hv)⟩
  exact hinv.frame rfl (max_le_max_left _ (Nat.sub_le_sub_right hle 1)) fun _ _ _ h => h

/-! ### Scheduling -/

/-- Storage returns the balance of a settled version, not behind the scheduler's. -/
def ReadsFrom (s : EagerFundsWithdrawScheduler) (L : Ledger) (fundsRead : AccountFundsRead) : Prop :=
  ∀ x, ((fundsRead x).1 : Int) = L (fundsRead x).2 x ∧ s.accumulatorVersion ≤ (fundsRead x).2

theorem initBalances_spec (h : initBalances fundsRead v l = some init)
    (hx : x ∈ l) : init[x]? = some (fundsRead x) ∧ (fundsRead x).2 ≤ v :=
  (readAll_foldlM fundsRead h).2 x hx

theorem mem_untrackedAccounts : x ∈ s.untrackedAccounts r ↔ x ∈ r.allAccounts ∧ s.accounts x = none := by
  unfold untrackedAccounts accounts
  rw [List.mem_filter, Std.ExtTreeSet.mem_toList, ← not_mem_iff_get,
    Bool.not_eq_true', Bool.eq_false_iff, Ne, Std.ExtTreeMap.contains_iff_mem]

/-- A batch that is skipped, or one that is scheduled. -/
inductive Outcome (R : Requests) (s : EagerFundsWithdrawScheduler) (r : WithdrawReservations) :
    BTreeMap TransactionDigest ScheduleResult → EagerFundsWithdrawScheduler → Requests → Prop
  | skipped : Outcome R s r r.notifySkipSchedule s R
  | scheduled {results : BTreeMap TransactionDigest ScheduleResult}
      {s' : EagerFundsWithdrawScheduler} {R' : Requests}
      (hcurrent : s.accumulatorVersion ≤ r.accumulatorVersion)
      (hrequests : ∀ y u, R' y u = R y u ++ if u = r.accumulatorVersion then
        batchRequests y s.withdraws.length r.withdraws else [])
      (hcells : Cells r.accumulatorVersion s.withdraws.length r.withdraws s'.withdraws)
      (hreports : Reports s.withdraws.length r.withdraws s'.withdraws results) :
      Outcome R s r results s' R'

theorem scheduleWithdraws_spec
    (hfits : Exec.Returns L.Small (s.scheduleWithdraws fundsRead r)) (h : Rest L next R s)
    (hnext : next ≤ r.accumulatorVersion) (hread : s.ReadsFrom L fundsRead) :
    ∃ results s' R', s.scheduleWithdraws fundsRead r = .ok (results, s') ∧
      Rest L (r.accumulatorVersion + 1) R' s' ∧ Grows s.withdraws s'.withdraws ∧
      s'.accumulatorVersion = s.accumulatorVersion ∧ Outcome R s r results s' R' := by
  unfold scheduleWithdraws at hfits ⊢
  by_cases hold : r.accumulatorVersion < s.accumulatorVersion
  · rw [if_pos hold]
    exact ⟨_, s, R, rfl, h.later (by omega), Grows.refl _, rfl, .skipped⟩
  · rw [if_neg hold] at hfits ⊢
    cases hinit : initBalances fundsRead r.accumulatorVersion (s.untrackedAccounts r) with
    | none => exact ⟨_, s, R, rfl, h.later (by omega), Grows.refl _, rfl, .skipped⟩
    | some init =>
      have hc : s.accumulatorVersion ≤ r.accumulatorVersion := Nat.le_of_not_lt hold
      obtain ⟨g, hinv⟩ := h.inv
      -- The accounts of the batch count as registered while it is scheduled.
      let P : Nat → AccumulatorObjId → Prop := fun v y =>
        s.Registered v y ∨ (v = r.accumulatorVersion ∧ y ∈ r.allAccounts)
      have hinv₀ : AtRest L (rest s.accumulatorVersion r.accumulatorVersion P) R g s.accounts s.withdraws := by
        refine hinv.frame rfl ?_ fun _ _ _ h => .inl h
        show max s.accumulatorVersion (next - 1) ≤ r.accumulatorVersion
        omega
      have hall : ∀ w ∈ r.withdraws, ∀ y ∈ w.reservations, y ∈ r.allAccounts :=
        fun w hw y hy => WithdrawReservations.mem_allAccounts.mpr ⟨w, hw, hy⟩
      simp only [hinit] at hfits ⊢
      obtain ⟨s₁, results, hrun, hsched⟩ := scheduleWithdraw_foldlM hfits.first hc rfl ⟨g, hinv₀⟩
        (fun w hw y hy hnone => by
          obtain ⟨hi, hle⟩ := initBalances_spec hinit (mem_untrackedAccounts.mpr ⟨hall w hw y hy, hnone⟩)
          exact ⟨(fundsRead y).1, (fundsRead y).2, hi, (hread y).1, (hread y).2, hle⟩)
        (fun w hw y hy => .inr ⟨rfl, hall w hw y hy⟩)
      have hfresh : r.accumulatorVersion ∉ s₁.pendingSettlements := by
        rw [hsched.same.pendingSettlements]
        exact fun hmem => absurd (h.settlements _ hmem) hnext.not_gt
      obtain ⟨g', R', hinv', hR'⟩ := hsched.inv
      let s' : EagerFundsWithdrawScheduler := { s₁ with
        pendingSettlements := s₁.pendingSettlements.insert r.accumulatorVersion r.allAccounts }
      have hversion : s'.accumulatorVersion = s.accumulatorVersion := hsched.same.accumulatorVersion
      have hregistered : ∀ v y, P v y → s'.Registered v y := by
        intro v y hP
        rcases hP with ⟨accounts, hacc, hy⟩ | ⟨rfl, hy⟩
        · refine ⟨accounts, ?_, hy⟩
          have hne : r.accumulatorVersion ≠ v := by
            intro heq
            have hmem : v ∈ s.pendingSettlements := mem_of_get hacc
            exact absurd (h.settlements v hmem) (by omega)
          rw [get_insert, if_neg hne, hsched.same.pendingSettlements, hacc]
        · exact ⟨r.allAccounts, get_insert_self .., hy⟩
      refine ⟨results, s', R', ?_, ⟨⟨g', ?_⟩, ?_, ?_⟩, hsched.grows, hversion,
        .scheduled hc hR' hsched.cells hsched.reports⟩
      · simp only [bind_ok hrun, bind_require hfresh]
        rfl
      · rw [hversion]
        refine AtRest.frame (F := rest s.accumulatorVersion r.accumulatorVersion P) hinv' rfl ?_
          fun v y _ hP => hregistered v y hP
        show r.accumulatorVersion ≤ max s.accumulatorVersion (r.accumulatorVersion + 1 - 1)
        omega
      · intro v hv
        rcases mem_insert_iff.mp hv with rfl | hv
        · exact Nat.lt_succ_self _
        · rw [hsched.same.pendingSettlements] at hv
          have := h.settlements v hv
          omega
      · intro y v hv
        rw [hR' y v, h.unasked y v (by omega), if_neg (by omega)]
        rfl

/-! ### Settling -/

/-- The amount reserved for a version of an account. -/
def reservedAt (s : EagerFundsWithdrawScheduler) (v : Nat) (x : AccumulatorObjId) : Nat :=
  (s.trackedAccounts[x]?.map fun a => a.reservedFunds.reservedAt v).getD 0

/-- The settlement of the scheduler's version: it changes every account to its next
balance and takes no more from it than is reserved for the version. -/
structure Settles (s : EagerFundsWithdrawScheduler) (L : Ledger) (settlement : FundsSettlement) :
    Prop where
  next : settlement.nextAccumulatorVersion = s.accumulatorVersion + 1
  change : ∀ x, (settlement.fundsChanges[x]?).getD 0 =
    L (s.accumulatorVersion + 1) x - L s.accumulatorVersion x
  taken : ∀ x, L s.accumulatorVersion x ≤
    L (s.accumulatorVersion + 1) x + s.reservedAt s.accumulatorVersion x

theorem mem_affectedAccounts :
    x ∈ s.affectedAccounts settlement ↔ s.Registered s.accumulatorVersion x ∨
      s.Registered settlement.nextAccumulatorVersion x ∨ x ∈ settlement.fundsChanges := by
  have hget : ∀ v, x ∈ (s.pendingSettlements[v]?).getD ∅ ↔ s.Registered v x := by
    intro v
    unfold Registered
    cases s.pendingSettlements[v]? <;> simp
  unfold affectedAccounts
  simp only
  rw [BTreeSet.mem_foldl_insert, hget, List.mem_append, Std.ExtTreeSet.mem_toList, hget, Std.ExtTreeMap.mem_keys]

/-- The state in which the accounts are settled. -/
def bumped (s : EagerFundsWithdrawScheduler) (settlement : FundsSettlement) : EagerFundsWithdrawScheduler :=
  { s with
    accumulatorVersion := settlement.nextAccumulatorVersion
    pendingSettlements := s.pendingSettlements.erase s.accumulatorVersion }

/-- Accounts that a settlement does not touch have nothing at the two versions. -/
theorem Rest.bump (h : Rest L next R s) (hset : s.Settles L settlement) :
    ∃ g, AtRest L (Frame.settling s.accumulatorVersion (max (s.accumulatorVersion + 1) (next - 1))
      s.Registered (s.affectedAccounts settlement).toList) R g s.accounts s.withdraws := by
  obtain ⟨g, hinv⟩ := h.inv
  have htop : max s.accumulatorVersion (next - 1) ≤ max (s.accumulatorVersion + 1) (next - 1) :=
    max_le_max_right _ (Nat.le_succ _)
  refine ⟨g, hinv.advance htop (fun _ => rfl) fun y => ?_, fun y i hi v hv => ?_⟩
  all_goals by_cases hy : y ∈ s.affectedAccounts settlement
  · have hs : (settling s.accumulatorVersion (max (s.accumulatorVersion + 1) (next - 1))
        s.Registered (s.affectedAccounts settlement).toList).settled y = s.accumulatorVersion := by
      simp [settling, hy]
    exact .inl ⟨hs, rfl, fun b hb => (hinv.account y b hb).congr rfl (fun _ _ => rfl) hs htop fun _ _ h => h⟩
  · have hsettled : (settling s.accumulatorVersion (max (s.accumulatorVersion + 1) (next - 1))
        s.Registered (s.affectedAccounts settlement).toList).settled y = s.accumulatorVersion + 1 := by
      simp [settling, hy]
    rw [mem_affectedAccounts, not_or, not_or] at hy
    obtain ⟨hcur, -, hkey⟩ := hy
    -- The balance of an untouched account does not change.
    have hsame : L (s.accumulatorVersion + 1) y = L s.accumulatorVersion y := by
      have := hset.change y
      rw [not_mem_iff_get.mp hkey, Option.getD_none] at this
      omega
    refine .inr ⟨hsettled, fun h => h, fun b hb => ?_⟩
    have hacc := hinv.account y b hb
    have hnone : s.accumulatorVersion ∉ b.reservedFunds.versions := fun hv => hcur (hacc.versions _ hv).2.2
    have hlow : ∀ v ∈ b.reservedFunds.versions, s.accumulatorVersion < v := fun v hv =>
      lt_of_le_of_ne (hacc.funds.low_le v hv) fun heq => hnone (heq ▸ hv)
    have hkeep : ReservedFunds.Settled b.reservedFunds b.reservedFunds s.accumulatorVersion :=
      ⟨by rw [ReservedFunds.reservedAt_of_not_mem hnone]; rfl, fun _ _ => rfl,
        fun v => ⟨fun hv => ⟨hv, hlow v hv⟩, And.left⟩⟩
    refine hacc.settle (c := s.accumulatorVersion) rfl hsettled htop (le_max_left ..) (fun _ h => h) (queue_of hb ▸ hinv.rested y)
      (hinv.ahead y _ (Nat.lt_succ_self _)) ⟨hacc.funds.total_eq, hacc.funds.ordered, hlow⟩ hkeep
      (le_max_right ..) ?_ hacc.covered
    rw [hacc.balance]
    show L (max s.accumulatorVersion b.lastUpdatedVersion) y = _
    rcases Nat.lt_or_ge s.accumulatorVersion b.lastUpdatedVersion with hlt | hge
    · rw [max_eq_right hlt.le, max_eq_right hlt]
    · rw [max_eq_left hge, max_eq_left (by omega), hsame]
  · simpa [settling, rest, hy] using hinv.rested y i hi v hv
  · have hlt : s.accumulatorVersion < v.1 := hinv.rested y i hi v hv
    rw [mem_affectedAccounts, not_or, not_or, hset.next] at hy
    obtain ⟨u, n, hu, hreg⟩ := hinv.queued hi
    cases hu.symm.trans hv
    have hne : s.accumulatorVersion + 1 ≠ u := fun heq => hy.2.1 (heq ▸ hreg)
    exact lt_of_le_of_lt (by simp only [settling]; split <;> omega) (lt_of_le_of_ne hlt hne)

theorem settleFunds_spec (hu128 : L.IsU128)
    (hfits : Exec.Returns L.Small (s.settleFunds settlement)) (h : Rest L next R s)
    (hset : s.Settles L settlement) :
    ∃ s', s.settleFunds settlement = .ok s' ∧ Rest L next R s' ∧
      s'.accumulatorVersion = s.accumulatorVersion + 1 ∧ Grows s.withdraws s'.withdraws ∧
      ∀ x ∈ s.affectedAccounts settlement,
        (s.trackedAccounts[x]? = none → s'.trackedAccounts[x]? = none) ∧
        ∀ a, s.trackedAccounts[x]? = some a → ∃ a',
          Leaves settlement (s.affectedAccounts settlement).toList (s.bumped settlement) x a a' ∧
          s'.trackedAccounts[x]? = if a'.isEmpty then none else some a' := by
  obtain ⟨g, hbump⟩ := h.bump hset
  have hinv₀ : AtRest L (settling s.accumulatorVersion (max (s.accumulatorVersion + 1) (next - 1))
      s.Registered (s.affectedAccounts settlement).toList) R g (s.bumped settlement).accounts
      (s.bumped settlement).withdraws := hbump
  have hnodup : (s.affectedAccounts settlement).toList.Nodup := (BTreeSet.pairwise_toList _).imp ne_of_lt
  have htaken : ∀ y ∈ (s.affectedAccounts settlement).toList, ∀ a, (s.bumped settlement).accounts y = some a →
      L s.accumulatorVersion y ≤
        L (s.accumulatorVersion + 1) y + a.reservedFunds.reservedAt s.accumulatorVersion := by
    intro y _ a ha
    have ha' : s.trackedAccounts[y]? = some a := ha
    have := hset.taken y
    rw [reservedAt, ha', Option.map_some, Option.getD_some] at this
    exact this
  unfold settleFunds at hfits ⊢
  rw [if_neg (by rw [hset.next]; omega), bind_require hset.next] at hfits ⊢
  obtain ⟨s', g', hrun, hinv, hsame, hevolves, -, hnone, hself⟩ :=
    settleAccounts_spec hu128 hfits (le_max_left ..) hset.next hnodup (fun y _ => hset.change y) hinv₀ htaken
  have hversion : s'.accumulatorVersion = s.accumulatorVersion + 1 := hsame.accumulatorVersion.trans hset.next
  have hsettlements : s'.pendingSettlements = s.pendingSettlements.erase s.accumulatorVersion :=
    hsame.pendingSettlements
  refine ⟨s', hrun, ⟨⟨g', ?_⟩, ?_, h.unasked⟩, hversion, hevolves.grows, fun x hx =>
    ⟨hnone x, hself x (Std.ExtTreeSet.mem_toList.mpr hx)⟩⟩
  · rw [hversion]
    refine hinv.frame (by funext y; simp [settling, rest]) le_rfl fun v y hle hreg => ?_
    obtain ⟨accounts, hacc, hy⟩ := hreg
    have hle' : s.accumulatorVersion + 1 ≤ v := by simpa [settling] using hle
    refine ⟨accounts, ?_, hy⟩
    rw [hsettlements, get_erase, if_neg (by omega), hacc]
  · intro v hv
    rw [hsettlements] at hv
    exact h.settlements v (mem_erase_iff.mp hv).2

/-! ### Runs -/

/-- States reached by batches of increasing versions and settlements of consecutive
ones; the next batch has version `next` or a later one. -/
inductive Reachable (L : Ledger) (start : Nat) : EagerFundsWithdrawScheduler → Nat → Prop
  | new : Reachable L start (new start) 0
  | schedule {s s' : EagerFundsWithdrawScheduler} {next : Nat} {fundsRead : AccountFundsRead}
      {r : WithdrawReservations} {results : BTreeMap TransactionDigest ScheduleResult}
      (h : Reachable L start s next) (hread : s.ReadsFrom L fundsRead)
      (hnext : next ≤ r.accumulatorVersion)
      (hrun : s.scheduleWithdraws fundsRead r = .ok (results, s')) :
      Reachable L start s' (r.accumulatorVersion + 1)
  | settle {s s' : EagerFundsWithdrawScheduler} {next : Nat} {settlement : FundsSettlement}
      (h : Reachable L start s next) (hset : s.Settles L settlement)
      (hrun : s.settleFunds settlement = .ok s') : Reachable L start s' next

theorem Reachable.rest (hu128 : L.IsU128) (h : Reachable L start s next) : ∃ R, Rest L next R s := by
  induction h with
  | new => exact ⟨_, rest_new L start⟩
  | schedule _ hread hnext hrun ih =>
    obtain ⟨R, hrest⟩ := ih
    obtain ⟨results, s', R', hrun', hrest', -⟩ := scheduleWithdraws_spec (.inr ⟨_, hrun⟩) hrest hnext hread
    cases hrun.symm.trans hrun'
    exact ⟨R', hrest'⟩
  | settle _ hset hrun ih =>
    obtain ⟨R, hrest⟩ := ih
    obtain ⟨s', hrun', hrest', -⟩ := settleFunds_spec hu128 (.inr ⟨_, hrun⟩) hrest hset
    cases hrun.symm.trans hrun'
    exact ⟨R, hrest'⟩

/-- The versions of the withdraws in an account's queue. -/
def pendingVersions (s : EagerFundsWithdrawScheduler) (a : AccountState) : List Nat :=
  a.pendingReservations.filterMap fun i => s.withdraws[i]?.map (·.accumulatorVersion)

/-- The books of a tracked account. -/
structure BooksOk (s : EagerFundsWithdrawScheduler) (x : AccumulatorObjId) (a : AccountState) :
    Prop where
  total_eq : a.reservedFunds.totalReservedFundsAmount =
    (a.reservedFunds.reservedFunds.map (·.2)).sum
  reserved_ordered : a.reservedFunds.versions.Pairwise (· < ·)
  reserved_current : ∀ v ∈ a.reservedFunds.versions, s.accumulatorVersion ≤ v
  covered : a.reservedFunds.totalReservedFundsAmount ≤ a.lastUpdatedBalance
  pending_there : (s.pendingVersions a).length = a.pendingReservations.length
  pending_ordered : (s.pendingVersions a).Pairwise (· ≤ ·)
  pending_later : ∀ v ∈ s.pendingVersions a, s.accumulatorVersion < v
  registered : ∀ v, v ∈ a.reservedFunds.versions ∨ v ∈ s.pendingVersions a → s.Registered v x

theorem Rest.books (h : Rest L next R s) (ha : s.trackedAccounts[x]? = some a) : s.BooksOk x a := by
  obtain ⟨g, hinv⟩ := h.inv
  have hacc := hinv.account x a ha
  have hcell : ∀ i ∈ a.pendingReservations, ∃ w, s.withdraws[i]? = some w ∧
      s.accumulatorVersion < w.accumulatorVersion ∧ s.Registered w.accumulatorVersion x := by
    intro i hi
    obtain ⟨v, n, hs, hwait⟩ := hacc.waiting i hi
    obtain ⟨w, hw, rfl, -⟩ := seen_eq_some.mp hs
    exact ⟨w, hw, hinv.rested x i (queue_of ha ▸ hi) _ hs, hwait.registered⟩
  have hmem : ∀ v ∈ s.pendingVersions a, s.accumulatorVersion < v ∧ s.Registered v x := by
    intro v hv
    obtain ⟨i, hi, hv⟩ := List.mem_filterMap.mp hv
    obtain ⟨w, hw, hlt, hreg⟩ := hcell i hi
    rw [hw, Option.map_some] at hv
    cases hv
    exact ⟨hlt, hreg⟩
  refine ⟨hacc.funds.total_eq, hacc.funds.ordered, hacc.funds.low_le, hacc.covered, ?_, ?_,
    fun v hv => (hmem v hv).1, fun v hv => ?_⟩
  · apply List.filterMap_length_eq_length.mpr
    intro i hi
    obtain ⟨w, hw, -⟩ := hcell i hi
    simp [hw]
  · -- Positions in a queue increase, and versions do not decrease with the position.
    refine List.pairwise_filterMap.mpr (hacc.ordered.imp fun {i j} hij v hv u hu => ?_)
    obtain ⟨w, hw, rfl⟩ := Option.map_eq_some_iff.mp hv
    obtain ⟨w', hw', rfl⟩ := Option.map_eq_some_iff.mp hu
    exact hinv.version_le (seen_of (x := x) hw) (seen_of (x := x) hw') hij
  · rcases hv with hv | hv
    · exact (hacc.versions v hv).2.2
    · exact (hmem v hv).2

/-- **The books are in order after every call and no call fails**: the next batch and
the next settlement run to their end, and a settlement keeps a tracked account it
touches exactly when a reservation or a withdraw of it is left. -/
theorem reachable_books {start : Nat} (hfits : ∀ v y, L v y < 2 ^ 127) (h : Reachable L start s next) :
    (∀ x a, s.trackedAccounts[x]? = some a → s.BooksOk x a) ∧
    (∀ fundsRead r, s.ReadsFrom L fundsRead → next ≤ r.accumulatorVersion →
      ∃ results s', s.scheduleWithdraws fundsRead r = .ok (results, s')) ∧
    ∀ settlement, s.Settles L settlement → ∃ s', s.settleFunds settlement = .ok s' ∧
      ∀ x ∈ s.affectedAccounts settlement,
        (x ∉ s.trackedAccounts → x ∉ s'.trackedAccounts) ∧
        ∀ a, s.trackedAccounts[x]? = some a → ∃ a',
          Leaves settlement (s.affectedAccounts settlement).toList (s.bumped settlement) x a a' ∧
          (x ∈ s'.trackedAccounts ↔
            a'.reservedFunds.reservedFunds ≠ [] ∨ a'.pendingReservations ≠ []) ∧
          (x ∈ s'.trackedAccounts → s'.trackedAccounts[x]? = some a') := by
  have hu128 : L.IsU128 := fun v y => (hfits v y).trans (by decide)
  obtain ⟨R, hrest⟩ := h.rest hu128
  refine ⟨fun x a ha => hrest.books ha, fun fundsRead r hread hnext => ?_, fun settlement hset => ?_⟩
  · obtain ⟨results, s', -, hrun, -⟩ := scheduleWithdraws_spec (.inl hfits) hrest hnext hread
    exact ⟨results, s', hrun⟩
  · obtain ⟨s', hrun, -, -, -, hleft⟩ := settleFunds_spec hu128 (.inl hfits) hrest hset
    refine ⟨s', hrun, fun x hx => ⟨fun hnone => ?_, fun a ha => ?_⟩⟩
    · rw [not_mem_iff_get] at hnone ⊢
      exact (hleft x hx).1 hnone
    · obtain ⟨a', hleave, htracked⟩ := (hleft x hx).2 a ha
      refine ⟨a', hleave, ?_, ?_⟩
      · rw [mem_iff_get, htracked]
        cases hp : a'.pendingReservations <;> cases hr : a'.reservedFunds.reservedFunds <;>
          simp [AccountState.isEmpty, hp, hr]
      · intro hmem
        rw [mem_iff_get, htracked] at hmem
        obtain ⟨b, hb⟩ := hmem
        by_cases hempty : a'.isEmpty = true
        · rw [if_pos hempty] at hb
          cases hb
        · rw [htracked, if_neg hempty]

/-- One account with balance 10 from which 4 are reserved at the current version. -/
def soloBatch : WithdrawReservations := ⟨0, [⟨1, (∅ : BTreeMap AccumulatorObjId UInt64).insert 7 4⟩]⟩

/-- The state after the batch when storage returns `balance`. -/
def soloState (balance : Nat) : EagerFundsWithdrawScheduler where
  trackedAccounts := (∅ : BTreeMap AccumulatorObjId AccountState).insert 7
    { accountId := 7
      lastUpdatedBalance := balance
      lastUpdatedVersion := 0
      reservedFunds := ⟨[(0, 4)], 4⟩ }
  pendingSettlements := (∅ : BTreeMap Nat (BTreeSet AccumulatorObjId)).insert 0
    ((∅ : BTreeSet AccumulatorObjId).insert 7)
  accumulatorVersion := 0
  withdraws := [⟨0, 1, some .sufficientFunds, (∅ : BTreeMap AccumulatorObjId UInt64)⟩]

theorem soloState_reachable (balance : Nat) (hrun : (new 0).scheduleWithdraws
    (fun _ => (balance, 0)) soloBatch = .ok ((∅ : BTreeMap TransactionDigest ScheduleResult).insert 1
      (.scheduleResult .sufficientFunds), soloState balance)) :
    Reachable (fun _ _ => balance) 0 (soloState balance) 1 := by
  have hread : (new 0).ReadsFrom (fun _ _ => balance) fun _ => (balance, 0) := fun _ => ⟨rfl, le_rfl⟩
  exact .schedule .new hread (Nat.zero_le _) hrun

theorem soloState_settles (balance : Nat) : (soloState balance).Settles (fun _ _ => balance) ⟨1, ∅⟩ :=
  ⟨rfl, fun x => by simp, fun x => by omega⟩

/-- The assumptions are met by a run, and both calls can follow it. -/
theorem reachable_books_solo :
    Reachable (fun _ _ => 10) 0 (soloState 10) 1 ∧ (soloState 10).BooksOk 7
      { accountId := 7, lastUpdatedBalance := 10, lastUpdatedVersion := 0,
        reservedFunds := ⟨[(0, 4)], 4⟩ } ∧
      (soloState 10).Settles (fun _ _ => 10) ⟨1, ∅⟩ ∧
      ∃ s', (soloState 10).settleFunds ⟨1, ∅⟩ = .ok s' ∧ 7 ∉ s'.trackedAccounts := by
  have hreach : Reachable (fun _ _ => 10) 0 (soloState 10) 1 := soloState_reachable 10 rfl
  obtain ⟨hbooks, -, hsettle⟩ := reachable_books (fun _ _ => by norm_num) hreach
  obtain ⟨s', hrun, -⟩ := hsettle _ (soloState_settles 10)
  refine ⟨hreach, hbooks 7 _ rfl, soloState_settles 10, s', hrun, ?_⟩
  cases hrun
  decide

/-- A balance of `2 ^ 127` is negative once it is cast, and the settlement fails. -/
theorem settleFunds_negative_balance :
    ∃ (L : Ledger) (start next : Nat) (s : EagerFundsWithdrawScheduler)
      (settlement : FundsSettlement), Reachable L start s next ∧ s.Settles L settlement ∧
      s.settleFunds settlement = .error .negativeBalance :=
  ⟨fun _ _ => (2 ^ 127 : Nat), 0, 1, soloState (2 ^ 127), ⟨1, ∅⟩, soloState_reachable (2 ^ 127) rfl,
    soloState_settles (2 ^ 127), rfl⟩

end Sui.FundsWithdraw.EagerFundsWithdrawScheduler
