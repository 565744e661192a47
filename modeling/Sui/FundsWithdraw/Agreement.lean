import Sui.FundsWithdraw.Reachable
import Sui.FundsWithdraw.Naive

/-! The eager scheduler decides like the naive one.

Both get the same batches and settlements; each reads storage at times of its own, and
the naive scheduler's waiting tasks are woken at any time. Where both report a status
other than a skip it is the same one, the eager scheduler has reported on every
transaction once the version it reads is settled, and the naive one once the batch has
been woken there (`schedulers_agree`). At that version
the eager decisions on each account are first come, first served from the settled
balance, and so are the naive ones; such decisions are unique. No account is overdrawn
(`withdraws_covered`). -/
namespace Sui.FundsWithdraw

open Sui.Lib BTreeMap Exec Reservation List

/-- A batch and what each scheduler returned for it. -/
structure Call where
  reservations : WithdrawReservations
  eager : BTreeMap TransactionDigest ScheduleResult
  naive : BTreeMap TransactionDigest ScheduleResult

structure System where
  eager : EagerFundsWithdrawScheduler
  naive : NaiveFundsWithdrawScheduler
  calls : List Call := []

/-- Storage returns the balance of a settled version, not behind the scheduler's. -/
def NaiveFundsWithdrawScheduler.ReadsFrom (s : NaiveFundsWithdrawScheduler) (L : Ledger)
    (fundsRead : AccountFundsRead) : Prop :=
  ∀ x, ((fundsRead x).1 : Int) = L (fundsRead x).2 x ∧ s.accumulatorVersion ≤ (fundsRead x).2

namespace System

/-- The status that the eager scheduler has reported. -/
def eagerStatus (σ : System) (call : Call) (d : TransactionDigest) : Option ScheduleStatus :=
  match call.eager[d]? with
  | some (.scheduleResult status) => some status
  | some (.pending i) => σ.eager.withdraws[i]?.bind (·.sent)
  | none => none

/-- The status that the naive scheduler has reported. -/
def naiveStatus (σ : System) (call : Call) (d : TransactionDigest) : Option ScheduleStatus :=
  match call.naive[d]? with
  | some (.scheduleResult status) => some status
  | some (.pending i) => σ.naive.channels[i]?.join
  | none => none

/-- What the transactions with a sufficient status take from an account. Of two with
one digest, the status is the last one's. -/
def sufficientOf (status : TransactionDigest → Option ScheduleStatus) (x : AccumulatorObjId) :
    List TxFundsWithdraw → Nat
  | [] => 0
  | w :: rest =>
    (if status w.txDigest = some .sufficientFunds ∧ w.txDigest ∉ rest.map (·.txDigest) then
      (w.reservations[x]?.map (·.toNat)).getD 0 else 0) + sufficientOf status x rest

/-- What the transactions of a version that were scheduled as sufficient take. -/
def sufficientAt (σ : System) (v : Nat) (x : AccumulatorObjId) : Nat :=
  match σ.calls.find? (·.reservations.accumulatorVersion = v) with
  | some call => sufficientOf (σ.eagerStatus call) x call.reservations.withdraws
  | none => 0

/-- The settlement of the current version: it changes every account to its next balance
and takes no more than the sufficient transactions of the version. -/
structure Settles (σ : System) (L : Ledger) (settlement : FundsSettlement) : Prop where
  next : settlement.nextAccumulatorVersion = σ.eager.accumulatorVersion + 1
  change : ∀ x, (settlement.fundsChanges[x]?).getD 0 =
    L (σ.eager.accumulatorVersion + 1) x - L σ.eager.accumulatorVersion x
  taken : ∀ x, L σ.eager.accumulatorVersion x ≤
    L (σ.eager.accumulatorVersion + 1) x + σ.sufficientAt σ.eager.accumulatorVersion x

/-- Both schedulers on the same calls, with the naive one's tasks woken in between. -/
inductive Reachable (L : Ledger) (start : Nat) : System → Nat → Prop
  | new : Reachable L start ⟨.new start, .new start, []⟩ 0
  | schedule {σ : System} {next : Nat} {r : WithdrawReservations}
      {eagerRead naiveRead : AccountFundsRead}
      {eager : EagerFundsWithdrawScheduler} {naive : NaiveFundsWithdrawScheduler}
      {results results' : BTreeMap TransactionDigest ScheduleResult}
      (h : Reachable L start σ next) (hnext : next ≤ r.accumulatorVersion)
      (haccounts : ∀ w ∈ r.withdraws, ∃ x, x ∈ w.reservations)
      (heager : σ.eager.ReadsFrom L eagerRead) (hnaive : σ.naive.ReadsFrom L naiveRead)
      (hrun : σ.eager.scheduleWithdraws eagerRead r = .ok (results, eager))
      (hrun' : σ.naive.scheduleWithdraws naiveRead r = .ok (results', naive)) :
      Reachable L start ⟨eager, naive, σ.calls ++ [⟨r, results, results'⟩]⟩
        (r.accumulatorVersion + 1)
  | settle {σ : System} {next : Nat} {settlement : FundsSettlement}
      {eager : EagerFundsWithdrawScheduler} {naive : NaiveFundsWithdrawScheduler}
      (h : Reachable L start σ next) (hset : σ.Settles L settlement)
      (hrun : σ.eager.settleFunds settlement = .ok eager)
      (hrun' : σ.naive.settleFunds settlement = .ok naive) :
      Reachable L start ⟨eager, naive, σ.calls⟩ next
  | wake {σ : System} {next i : Nat} {naiveRead : AccountFundsRead}
      {naive : NaiveFundsWithdrawScheduler} (h : Reachable L start σ next)
      (hnaive : σ.naive.ReadsFrom L naiveRead) (hrun : σ.naive.wake naiveRead i = .ok naive) :
      Reachable L start ⟨σ.eager, naive, σ.calls⟩ next

end System

/-! ### What the eager scheduler reports -/

namespace EagerFundsWithdrawScheduler
variable {L : Ledger} {R : Requests} {next : Nat} {s : EagerFundsWithdrawScheduler}

/-- The eager scheduler's side of a call. -/
inductive CallOk (R : Requests) (ws : List PendingWithdraw) (call : Call) : Prop
  | skipped (h : call.eager = call.reservations.notifySkipSchedule)
  | scheduled (base : Nat)
      (hrequests : ∀ x, R x call.reservations.accumulatorVersion =
        batchRequests x base call.reservations.withdraws)
      (hcells : Cells call.reservations.accumulatorVersion base call.reservations.withdraws ws)
      (hreports : Reports base call.reservations.withdraws ws call.eager)

theorem CallOk.grows (h : CallOk R ws call) (hg : Grows ws ws') : CallOk R ws' call := by
  cases h with
  | skipped h => exact .skipped h
  | scheduled base hrequests hcells hreports =>
    exact .scheduled base hrequests (hcells.grows hg) (hreports.grows hg)

variable {g : History} {base : Nat} {r : WithdrawReservations}

section
variable (hinv : AtRest L (Frame.rest s.accumulatorVersion (max s.accumulatorVersion (next - 1)) s.Registered) R g s.accounts s.withdraws)
include hinv

/-- At a settled version nothing waits, so the decisions are those of the whole batch. -/
theorem decides (hle : r.accumulatorVersion ≤ s.accumulatorVersion)
    (hrequests : ∀ x, R x r.accumulatorVersion = batchRequests x base r.withdraws) :
    Decides L r.accumulatorVersion base r.withdraws fun x => g x r.accumulatorVersion := by
  refine ⟨fun x => hinv.greedy x _ hle, fun x => ?_⟩
  have hnil : queuedRequests s.withdraws x r.accumulatorVersion (queue s.accounts x) = [] := by
    unfold queuedRequests
    rw [filterMap_eq_nil_iff]
    intro i hi
    rw [Option.bind_eq_none_iff]
    intro v hv
    have hlater : s.accumulatorVersion < v.1 := hinv.rested x i hi v hv
    rw [if_neg (by omega)]
  rw [← hrequests x, ← hinv.requests x, hnil, append_nil]

/-- The cell of a transaction has sent its status once its version is settled. -/
theorem sent_of_settled (hle : r.accumulatorVersion ≤ s.accumulatorVersion)
    (hrequests : ∀ x, R x r.accumulatorVersion = batchRequests x base r.withdraws)
    (hcells : Cells r.accumulatorVersion base r.withdraws s.withdraws)
    (hw : r.withdraws[j]? = some w) (haccounts : ∃ x, x ∈ w.reservations) :
    ∃ cell status, s.withdraws[base + j]? = some cell ∧ cell.sent = some status ∧
      status ≠ .skipSchedule ∧
      (status = .sufficientFunds ↔ Fulfilled (fun x => g x r.accumulatorVersion) (base + j)) := by
  have hdec := decides hinv hle hrequests
  obtain ⟨cell, hcell, hv, -, hpend⟩ := hcells j w hw
  have hs := hinv.sent _ cell hcell
  rw [← hv] at hdec
  -- Every account of the transaction has decided.
  have hdecided : ∀ x ∈ w.reservations, ∃ d ∈ g x cell.accumulatorVersion, d.ticket = base + j := by
    intro x hx
    obtain ⟨n, hn⟩ := mem_iff_get.mp hx
    have hreq : (⟨base + j, n.toNat⟩ : Request) ∈ batchRequests x base r.withdraws := mem_batchRequests hw hn
    rw [← hdec.requests x] at hreq
    obtain ⟨d, hd, heq⟩ := mem_map.mp hreq
    exact ⟨d, hd, congrArg Request.ticket heq⟩
  have hgrant : ∀ x, ∀ d ∈ g x cell.accumulatorVersion, d.ticket = base + j →
      (d.granted = true ↔ x ∉ cell.pending) := by
    intro x d hd hticket
    obtain ⟨o, ho, hiff⟩ := hinv.decided x _ d hd
    rw [hticket, seen_of hcell] at ho
    cases ho
    rw [hiff, not_mem_iff_get]
  rw [← hv]
  by_cases hful : Fulfilled (fun x => g x cell.accumulatorVersion) (base + j)
  · refine ⟨cell, .sufficientFunds, hcell, ?_, by simp, by simp [hful]⟩
    refine hs.complete (fun y hy => ?_) ?_
    · obtain ⟨n, hn⟩ := mem_iff_get.mp hy
      obtain ⟨d, hd, hticket⟩ := hdecided y (mem_of_get (hpend y n hn))
      exact (hgrant y d hd hticket).mp (hful y d hd hticket) hy
    · obtain ⟨x, hx⟩ := haccounts
      exact ⟨x, hdecided x hx⟩
  · refine ⟨cell, .insufficientFunds, hcell, hs.insufficient.mpr ?_, by simp, by simp [hful]⟩
    unfold Fulfilled at hful
    push Not at hful
    obtain ⟨x, d, hd, hticket, hdeny⟩ := hful
    exact ⟨x, d, hd, hticket, by simpa using hdeny⟩

/-- Reserved at the current version is what was granted at it. -/
theorem reservedAt_eq_granted (x : AccumulatorObjId) :
    s.reservedAt s.accumulatorVersion x = granted (g x s.accumulatorVersion) := by
  unfold reservedAt
  cases ha : s.trackedAccounts[x]? with
  | none => exact (hinv.untracked x ha).1.symm
  | some a => exact (hinv.account x a ha).reserved _ le_rfl

end

end EagerFundsWithdrawScheduler

/-- The reported status is the one that the cell has sent. -/
theorem System.eagerStatus_eq {σ : System} {call : Call} {d : TransactionDigest}
    {w : TxFundsWithdraw} {cell : PendingWithdraw}
    (hreports : Reports base call.reservations.withdraws σ.eager.withdraws call.eager)
    (hlast : LastAt call.reservations.withdraws d j) (hw : call.reservations.withdraws[j]? = some w)
    (hcell : σ.eager.withdraws[base + j]? = some cell) : σ.eagerStatus call d = cell.sent := by
  have hmem : d ∈ call.eager := by
    obtain ⟨⟨w', hw', hd⟩, -⟩ := hlast
    exact hd ▸ hreports.complete w' (mem_of_getElem? hw')
  obtain ⟨result, hres⟩ := mem_iff_get.mp hmem
  obtain ⟨k, hk, hof⟩ := hreports.result d result hres
  have hkj : k = j := LastAt.unique hk hlast
  subst hkj
  unfold System.eagerStatus
  rw [hres]
  rcases hof with rfl | ⟨status, cell', rfl, hcell', hsent⟩
  · simp [hcell]
  · rw [hcell] at hcell'
    cases hcell'
    exact hsent.symm

/-! ### What the sufficient transactions take is reserved -/

theorem batchRequests_cons (y : AccumulatorObjId) (base : Nat) (w : TxFundsWithdraw)
    (rest : List TxFundsWithdraw) :
    batchRequests y base (w :: rest) = (w.reservations[y]?.map fun n => ⟨base, n.toNat⟩).toList ++
      batchRequests y (base + 1) rest := by
  simp [batchRequests, zipIdx_cons]

theorem System.sufficientOf_le_granted {status : TransactionDigest → Option ScheduleStatus}
    {x : AccumulatorObjId} {withdraws : List TxFundsWithdraw} {base : Nat} {h : List Decision}
    (hreq : h.map (·.toRequest) = batchRequests x base withdraws)
    (hgrant : ∀ j d, LastAt withdraws d j → status d = some .sufficientFunds →
      ∀ e ∈ h, e.ticket = base + j → e.granted = true) : System.sufficientOf status x withdraws ≤ granted h := by
  induction withdraws generalizing base h with
  | nil => exact Nat.zero_le _
  | cons w rest ih =>
    rw [batchRequests_cons] at hreq
    obtain ⟨h₁, h₂, rfl, hfirst, hrest⟩ := map_eq_append_iff.mp hreq
    have htail : System.sufficientOf status x rest ≤ granted h₂ := by
      refine ih hrest fun j d hlast hs e he hticket => ?_
      refine hgrant (j + 1) d ⟨?_, fun k w' hw' hd' => ?_⟩ hs e (mem_append_right _ he) (by omega)
      · obtain ⟨⟨w', hw', hd'⟩, -⟩ := hlast
        exact ⟨w', by simpa using hw', hd'⟩
      · cases k with
        | zero => exact Nat.zero_le _
        | succ k => exact Nat.succ_le_succ (hlast.2 k w' (by simpa using hw') hd')
    rw [granted_append]
    unfold System.sufficientOf
    split
    · rename_i hcond
      refine Nat.add_le_add ?_ htail
      cases hn : w.reservations[x]? with
      | none => exact Nat.zero_le _
      | some n =>
        rw [hn, Option.map_some, Option.toList_some] at hfirst
        obtain ⟨e, rfl, he⟩ := map_eq_singleton_iff.mp hfirst
        have hlast : LastAt (w :: rest) w.txDigest 0 := by
          refine ⟨⟨w, rfl, rfl⟩, fun k w' hw' hd' => ?_⟩
          cases k with
          | zero => exact le_rfl
          | succ k =>
            rw [List.getElem?_cons_succ] at hw'
            exact absurd (mem_map.mpr ⟨w', mem_of_getElem? hw', hd'⟩) hcond.2
        have hgranted : e.granted = true := hgrant 0 _ hlast hcond.1 e (by simp) (congrArg Request.ticket he)
        have hamount : e.amount = n.toNat := congrArg Request.amount he
        simp [granted, hgranted, hamount]
    · omega

/-! ### What the naive scheduler reports -/

namespace NaiveFundsWithdrawScheduler

/-- Whose channel is whose: the transaction behind each position. -/
abbrev Owners := List (WithdrawReservations × TransactionDigest)

/-- What has been sent on each channel is right for its owner. -/
structure ChannelsOk (L : Ledger) (version : Nat) (owners : Owners)
    (channels : List (Option ScheduleStatus)) : Prop where
  length_eq : owners.length = channels.length
  told : ∀ (i : Nat) (status : ScheduleStatus), channels[i]? = some (some status) →
    ∃ r d, owners[i]? = some (r, d) ∧ Told L version r d status

/-- The naive scheduler's side of a call. -/
def ResultsOk (L : Ledger) (version : Nat) (owners : Owners) (r : WithdrawReservations)
    (results : BTreeMap TransactionDigest ScheduleResult) : Prop :=
  ∀ (d : TransactionDigest) (result : ScheduleResult), results[d]? = some result →
    (∃ status, result = .scheduleResult status ∧ Told L version r d status) ∨
      ∃ i, result = .pending i ∧ owners[i]? = some (r, d)

structure TaskOk (owners : Owners) (task : WaitingTask) : Prop where
  owned : ∀ (d : TransactionDigest) (i : Nat), task.senders[d]? = some i →
    owners[i]? = some (task.reservations, d)
  complete : ∀ w ∈ task.reservations.withdraws, w.txDigest ∈ task.senders

/-- Something has been sent on the channel. -/
def Sent (channels : List (Option ScheduleStatus)) (i : Nat) : Prop :=
  ∃ status, channels[i]? = some (some status)

/-- The transaction has a result; if that is a channel on which nothing was sent, a task
of its batch still holds the sender. -/
def Heard (s : NaiveFundsWithdrawScheduler) (call : Call) (d : TransactionDigest) : Prop :=
  ∃ result, call.naive[d]? = some result ∧ ∀ i, result = .pending i → Sent s.channels i ∨
    ∃ task ∈ s.tasks, task.reservations = call.reservations ∧ task.senders[d]? = some i

structure NaiveInv (L : Ledger) (next : Nat) (s : NaiveFundsWithdrawScheduler) (owners : Owners)
    (calls : List Call) : Prop where
  channels : ChannelsOk L s.accumulatorVersion owners s.channels
  tasks : ∀ task ∈ s.tasks, TaskOk owners task
  results : ∀ call ∈ calls, ResultsOk L s.accumulatorVersion owners call.reservations call.naive
  heard : ∀ call ∈ calls, ∀ w ∈ call.reservations.withdraws, Heard s call w.txDigest
  tasks_lt : ∀ task ∈ s.tasks, task.reservations.accumulatorVersion < next
  apart : (s.tasks.map (·.reservations.accumulatorVersion)).Nodup

variable {L : Ledger} {version next : Nat} {owners : Owners} {s s' : NaiveFundsWithdrawScheduler}
  {calls : List Call} {call : Call} {fundsRead : AccountFundsRead} {r : WithdrawReservations}
  {d : TransactionDigest} {status : ScheduleStatus}

theorem Told.mono (h : Told L version r d status) (hle : version ≤ version') : Told L version' r d status :=
  ⟨le_trans h.1 hle, h.2⟩

theorem told_skip (hle : r.accumulatorVersion ≤ version) (d : TransactionDigest) :
    Told L version r d .skipSchedule :=
  ⟨hle, fun hne => absurd rfl hne⟩

variable {channels : List (Option ScheduleStatus)}

theorem Sent.set (h : Sent channels i) (j : Nat) (status : ScheduleStatus) :
    Sent (channels.set j (some status)) i := by
  obtain ⟨status', hi⟩ := h
  by_cases hij : j = i
  · subst hij
    exact ⟨status, List.getElem?_set_self (List.getElem?_eq_some_iff.mp hi).1⟩
  · exact ⟨status', by rw [List.getElem?_set_ne hij, hi]⟩

theorem ChannelsOk.sent_set (h : ChannelsOk L version owners channels) (howner : owners[i]? = some (r, d))
    (status : ScheduleStatus) : Sent (channels.set i (some status)) i :=
  ⟨status, List.getElem?_set_self (h.length_eq ▸ (List.getElem?_eq_some_iff.mp howner).1)⟩

theorem Heard.mono (h : Heard s call d) (hsent : ∀ i, Sent s.channels i → Sent s'.channels i)
    (htasks : ∀ task ∈ s.tasks, task ∈ s'.tasks) : Heard s' call d := by
  obtain ⟨result, hres, hheard⟩ := h
  refine ⟨result, hres, fun i hi => ?_⟩
  rcases hheard i hi with hs | ⟨task, hmem, htask⟩
  · exact .inl (hsent i hs)
  · exact .inr ⟨task, htasks task hmem, htask⟩

/-- One more channel is written, for its owner. -/
theorem ChannelsOk.set (h : ChannelsOk L version owners channels)
    (howner : owners[i]? = some (r, d)) (htold : Told L version r d status) :
    ChannelsOk L version owners (channels.set i (some status)) := by
  refine ⟨by rw [length_set, h.length_eq], fun j status' hj => ?_⟩
  by_cases hij : i = j
  · subst hij
    have hlt : i < channels.length := h.length_eq ▸ (List.getElem?_eq_some_iff.mp howner).1
    rw [List.getElem?_set_self hlt] at hj
    cases hj
    exact ⟨r, d, howner, htold⟩
  · rw [List.getElem?_set_ne hij] at hj
    exact h.told j status' hj

theorem skip_foldl {l : List (TransactionDigest × Nat)} (hle : r.accumulatorVersion ≤ version)
    (howned : ∀ p ∈ l, owners[p.2]? = some (r, p.1)) (h : ChannelsOk L version owners channels) :
    ChannelsOk L version owners (l.foldl (fun c e => c.set e.2 (some .skipSchedule)) channels) ∧
      ∀ i, Sent channels i ∨ (∃ p ∈ l, p.2 = i) →
        Sent (l.foldl (fun c e => c.set e.2 (some .skipSchedule)) channels) i := by
  induction l generalizing channels with
  | nil => exact ⟨h, fun i hi => hi.resolve_right (by simp)⟩
  | cons p rest ih =>
    have hp := howned p (.head _)
    obtain ⟨hok, hsent⟩ := ih (fun q hq => howned q (.tail _ hq)) (h.set hp (told_skip hle p.1))
    refine ⟨hok, fun i hi => hsent i ?_⟩
    rcases hi with hi | ⟨q, hq, rfl⟩
    · exact .inl (hi.set _ _)
    · rcases mem_cons.mp hq with rfl | hq
      · exact .inl (h.sent_set hp _)
      · exact .inr ⟨q, hq, rfl⟩

theorem sendResult_foldlM {l : List (TransactionDigest × ScheduleResult)}
    (hnodup : (l.map (·.1)).Nodup) {senders : BTreeMap TransactionDigest Nat}
    (howned : ∀ (d : TransactionDigest) (i : Nat), senders[d]? = some i → owners[i]? = some (r, d))
    (hthere : ∀ p ∈ l, p.1 ∈ senders)
    (htold : ∀ p ∈ l, ∃ status, p.2 = .scheduleResult status ∧ Told L version r p.1 status)
    (h : ChannelsOk L version owners channels) :
    ∃ senders' channels', l.foldlM sendResult (senders, channels) = .ok (senders', channels') ∧
      ChannelsOk L version owners channels' ∧
      ∀ i, Sent channels i ∨ (∃ p ∈ l, senders[p.1]? = some i) → Sent channels' i := by
  induction l generalizing senders channels with
  | nil => exact ⟨senders, channels, rfl, h, fun i hi => hi.resolve_right (by simp)⟩
  | cons p rest ih =>
    obtain ⟨hp, hrest⟩ := nodup_cons.mp hnodup
    obtain ⟨i, hi⟩ := mem_iff_get.mp (hthere p (.head _))
    obtain ⟨status, hstatus, ht⟩ := htold p (.head _)
    have hstep : sendResult (senders, channels) p = .ok (senders.erase p.1, channels.set i (some status)) := by
      unfold sendResult
      rw [bind_unwrap hi, hstatus]
      rfl
    have howned' : ∀ (d : TransactionDigest) (j : Nat), (senders.erase p.1)[d]? = some j →
        owners[j]? = some (r, d) := by
      intro d j hj
      exact howned d j (erase_eq_some.mp hj).2
    have hother : ∀ q ∈ rest, p.1 ≠ q.1 := fun q hq heq => hp (mem_map.mpr ⟨q, hq, heq.symm⟩)
    have hthere' : ∀ q ∈ rest, q.1 ∈ senders.erase p.1 := by
      intro q hq
      rw [BTreeMap.mem_erase_iff]
      exact ⟨hother q hq, hthere q (.tail _ hq)⟩
    obtain ⟨senders', channels', hrun, hok, hsent⟩ := ih hrest howned' hthere'
      (fun q hq => htold q (.tail _ hq)) (h.set (howned p.1 i hi) ht)
    refine ⟨senders', channels', foldlM_cons_eq_ok.mpr ⟨_, hstep, hrun⟩, hok, fun k hk => hsent k ?_⟩
    rcases hk with hk | ⟨q, hq, hk⟩
    · exact .inl (hk.set _ _)
    · rcases mem_cons.mp hq with rfl | hq
      · cases hi.symm.trans hk
        exact .inl (h.sent_set (howned q.1 i hi) _)
      · exact .inr ⟨q, hq, erase_eq_some.mpr ⟨hother q hq, hk⟩⟩

/-- A task is gone once all its channels are written. -/
theorem NaiveInv.woken (h : NaiveInv L next s owners calls) (htask : s.tasks[i]? = some task)
    (hch : ChannelsOk L s.accumulatorVersion owners channels) (hkeep : ∀ k, Sent s.channels k → Sent channels k)
    (hsent : ∀ w ∈ task.reservations.withdraws, ∀ k, task.senders[w.txDigest]? = some k → Sent channels k) :
    NaiveInv L next { s with tasks := s.tasks.eraseIdx i, channels } owners calls := by
  refine ⟨hch, fun task' hmem => h.tasks task' (mem_of_mem_eraseIdx hmem), h.results, fun call hmem w hw => ?_,
    fun task' hmem => h.tasks_lt task' (mem_of_mem_eraseIdx hmem),
    h.apart.sublist ((List.eraseIdx_sublist _ _).map _)⟩
  obtain ⟨result, hres, hheard⟩ := h.heard call hmem w hw
  refine ⟨result, hres, fun k hk => ?_⟩
  rcases hheard k hk with hs | ⟨task', hmem', hr, hk'⟩
  · exact .inl (hkeep k hs)
  · obtain ⟨j, hj⟩ := List.mem_iff_getElem?.mp hmem'
    by_cases hij : j = i
    · subst hij
      cases htask.symm.trans hj
      exact .inl (hsent w (hr ▸ hw) k hk')
    · exact .inr ⟨task', List.mem_eraseIdx_iff_getElem?.mpr ⟨j, hij, hj⟩, hr, hk'⟩

theorem wake_spec (h : NaiveInv L next s owners calls) (hread : s.ReadsFrom L fundsRead) (i : Nat) :
    ∃ s', s.wake fundsRead i = .ok s' ∧ s'.accumulatorVersion = s.accumulatorVersion ∧
      NaiveInv L next s' owners calls ∧ ∀ task, s.tasks[i]? = some task →
        task.reservations.accumulatorVersion ≤ s.accumulatorVersion → s'.tasks = s.tasks.eraseIdx i := by
  unfold wake
  cases htask : s.tasks[i]? with
  | none => exact ⟨s, rfl, rfl, h, by simp⟩
  | some task =>
    have hok := h.tasks task (mem_of_getElem? htask)
    simp only
    by_cases hlt : s.accumulatorVersion < task.reservations.accumulatorVersion
    · rw [if_pos hlt]
      refine ⟨s, rfl, rfl, h, fun task' heq hle => ?_⟩
      cases heq
      omega
    · rw [if_neg hlt]
      by_cases hgt : s.accumulatorVersion > task.reservations.accumulatorVersion
      · rw [if_pos hgt]
        obtain ⟨hch, hsent⟩ := skip_foldl (l := task.senders.toList) (le_of_lt hgt)
          (fun p hp => hok.owned p.1 p.2 (mem_toList_iff.mp hp)) h.channels
        exact ⟨_, rfl, rfl, h.woken htask hch (fun k hk => hsent k (.inl hk))
          fun w _ k hk => hsent k (.inr ⟨(w.txDigest, k), mem_toList_iff.mpr hk, rfl⟩), fun _ _ _ => rfl⟩
      · rw [if_neg hgt]
        have hversion : s.accumulatorVersion = task.reservations.accumulatorVersion := by omega
        obtain ⟨results, hrun, hkeys, hres⟩ := processWithdraws_spec hread hversion.symm
        have hnodup : (results.toList.map (·.1)).Nodup := by
          rw [Std.ExtTreeMap.map_fst_toList_eq_keys]
          exact results.nodup_keys
        obtain ⟨senders', channels', hsend, hch, hsent⟩ := sendResult_foldlM hnodup hok.owned
          (fun p hp => by
            have hmem : p.1 ∈ results := mem_of_get (mem_toList_iff.mp hp)
            obtain ⟨w, hw, hd⟩ := mem_map.mp ((hkeys p.1).mp hmem)
            exact hd ▸ hok.complete w hw)
          (fun p hp => hres p.1 p.2 (mem_toList_iff.mp hp)) h.channels
        refine ⟨{ s with tasks := s.tasks.eraseIdx i, channels := channels' }, ?_, rfl,
          h.woken htask hch (fun k hk => hsent k (.inl hk)) fun w hw k hk => ?_, fun _ _ _ => rfl⟩
        · rw [bind_ok hrun, bind_ok hsend]
          rfl
        · obtain ⟨result, hresult⟩ := mem_iff_get.mp ((hkeys w.txDigest).mpr (mem_map_of_mem hw))
          exact hsent k (.inr ⟨(w.txDigest, result), mem_toList_iff.mpr hresult, hk⟩)

/-- The owners of the channels that a waiting batch opens. -/
theorem openChannel_foldl (r : WithdrawReservations) (withdraws : List TxFundsWithdraw)
    (channels : List (Option ScheduleStatus)) (hlen : owners.length = channels.length) :
    let p := withdraws.foldl openChannel ⟨∅, ∅, channels⟩
    let owners' := owners ++ withdraws.map fun w => (r, w.txDigest)
    p.channels = channels ++ List.replicate withdraws.length none ∧
      (∀ (d : TransactionDigest) (i : Nat), p.senders[d]? = some i → owners'[i]? = some (r, d)) ∧
      (∀ (d : TransactionDigest) (result : ScheduleResult), p.receivers[d]? = some result →
        ∃ i, result = .pending i ∧ owners'[i]? = some (r, d)) ∧
      ∀ w ∈ withdraws, ∃ i, p.senders[w.txDigest]? = some i ∧ p.receivers[w.txDigest]? = some (.pending i) := by
  induction withdraws using List.reverseRecOn with
  | nil => simp
  | append_singleton done w ih =>
    obtain ⟨hch, hsend, hrecv, hall⟩ := ih
    have hlength : (done.foldl openChannel ⟨∅, ∅, channels⟩).channels.length =
        (owners ++ done.map fun w => (r, w.txDigest)).length := by
      rw [hch]
      simp [hlen]
    have hnew : (owners ++ (done ++ [w]).map fun w => (r, w.txDigest))[
        (done.foldl openChannel ⟨∅, ∅, channels⟩).channels.length]? = some (r, w.txDigest) := by
      rw [hlength, map_append, ← append_assoc]
      simp
    have hkeep : ∀ (i : Nat) (p : WithdrawReservations × TransactionDigest),
        (owners ++ done.map fun w => (r, w.txDigest))[i]? = some p →
        (owners ++ (done ++ [w]).map fun w => (r, w.txDigest))[i]? = some p := by
      intro i p hp
      rw [map_append, ← append_assoc, List.getElem?_append_left (List.getElem?_eq_some_iff.mp hp).1, hp]
    simp only [foldl_append, foldl_cons, foldl_nil, openChannel]
    refine ⟨?_, fun d i hd => ?_, fun d result hd => ?_, fun w' hw' => ?_⟩
    · rw [hch, length_append, length_singleton, replicate_succ', append_assoc]
    · rcases insert_eq_some.mp hd with ⟨heq, rfl⟩ | ⟨-, hd⟩
      · exact heq ▸ hnew
      · exact hkeep i _ (hsend d i hd)
    · rcases insert_eq_some.mp hd with ⟨heq, rfl⟩ | ⟨-, hd⟩
      · exact ⟨_, rfl, heq ▸ hnew⟩
      · obtain ⟨i, hi, howner⟩ := hrecv d result hd
        exact ⟨i, hi, hkeep i _ howner⟩
    · by_cases heq : w.txDigest = w'.txDigest
      · exact ⟨_, insert_eq_some.mpr (.inl ⟨heq, rfl⟩), insert_eq_some.mpr (.inl ⟨heq, rfl⟩)⟩
      · have hdone : w' ∈ done := (mem_concat.mp hw').resolve_right fun h => heq (h ▸ rfl)
        obtain ⟨i, hi, hi'⟩ := hall w' hdone
        exact ⟨i, insert_eq_some.mpr (.inr ⟨heq, hi⟩), insert_eq_some.mpr (.inr ⟨heq, hi'⟩)⟩

section
variable (h : NaiveInv L next s owners calls)
include h

theorem NaiveInv.more (owners' : Owners) :
    (∀ task ∈ s.tasks, TaskOk (owners ++ owners') task) ∧
      ∀ call ∈ calls, ResultsOk L s.accumulatorVersion (owners ++ owners') call.reservations call.naive := by
  have hkeep : ∀ (i : Nat) (p : WithdrawReservations × TransactionDigest), owners[i]? = some p →
      (owners ++ owners')[i]? = some p := fun i p hp => by
    rw [List.getElem?_append_left (List.getElem?_eq_some_iff.mp hp).1, hp]
  refine ⟨fun task hmem => ⟨fun d i hd => hkeep i _ ((h.tasks task hmem).owned d i hd),
    (h.tasks task hmem).complete⟩, fun call hmem d result hd => ?_⟩
  rcases h.results call hmem d result hd with hres | ⟨i, hi, howner⟩
  · exact .inl hres
  · exact .inr ⟨i, hi, hkeep i _ howner⟩

/-- A batch whose transactions are all told at once. -/
theorem NaiveInv.told_at_once (hnext : next ≤ r.accumulatorVersion)
    {results eager : BTreeMap TransactionDigest ScheduleResult}
    (hkeys : ∀ d, d ∈ results ↔ d ∈ r.withdraws.map (·.txDigest))
    (hres : ∀ (d : TransactionDigest) (result : ScheduleResult), results[d]? = some result →
      ∃ status, result = .scheduleResult status ∧ Told L s.accumulatorVersion r d status) :
    NaiveInv L (r.accumulatorVersion + 1) s owners (calls ++ [⟨r, eager, results⟩]) := by
  refine ⟨h.channels, h.tasks, forall_mem_concat.mpr ⟨h.results, fun d result hd => .inl (hres d result hd)⟩,
    forall_mem_concat.mpr ⟨h.heard, fun w hw => ?_⟩, fun task hmem => ?_, h.apart⟩
  · obtain ⟨result, hd⟩ := mem_iff_get.mp ((hkeys w.txDigest).mpr (mem_map_of_mem hw))
    obtain ⟨status, rfl, -⟩ := hres _ _ hd
    exact ⟨_, hd, by simp⟩
  · have := h.tasks_lt task hmem
    omega

theorem scheduleWithdraws_spec (hread : s.ReadsFrom L fundsRead) (hnext : next ≤ r.accumulatorVersion)
    (eager : BTreeMap TransactionDigest ScheduleResult) :
    ∃ results s' owners', s.scheduleWithdraws fundsRead r = .ok (results, s') ∧
      s'.accumulatorVersion = s.accumulatorVersion ∧
      NaiveInv L (r.accumulatorVersion + 1) s' owners' (calls ++ [⟨r, eager, results⟩]) := by
  unfold scheduleWithdraws
  by_cases hgt : s.accumulatorVersion > r.accumulatorVersion
  · rw [if_pos hgt]
    refine ⟨_, s, owners, rfl, rfl, h.told_at_once hnext (fun d => mem_notifySkipSchedule) fun d result hd => ?_⟩
    exact ⟨.skipSchedule, notifySkipSchedule_get hd, told_skip (le_of_lt hgt) d⟩
  · rw [if_neg hgt]
    by_cases heq : s.accumulatorVersion = r.accumulatorVersion
    · obtain ⟨results, hrun, hkeys, hres⟩ := processWithdraws_spec hread (Eq.symm heq)
      rw [if_pos heq, bind_ok hrun]
      exact ⟨results, s, owners, rfl, rfl, h.told_at_once hnext hkeys hres⟩
    · rw [if_neg heq]
      obtain ⟨hch, hsend, hrecv, hall⟩ := openChannel_foldl r r.withdraws s.channels h.channels.length_eq
      obtain ⟨htasks, hold⟩ := h.more (r.withdraws.map fun w => (r, w.txDigest))
      have hlt : ∀ task ∈ s.tasks, task.reservations.accumulatorVersion < r.accumulatorVersion :=
        fun task hmem => lt_of_lt_of_le (h.tasks_lt task hmem) hnext
      refine ⟨_, _, owners ++ r.withdraws.map fun w => (r, w.txDigest), rfl, rfl, ⟨?_, ?_⟩,
        forall_mem_concat.mpr ⟨htasks, hsend, fun w hw => ?_⟩,
        forall_mem_concat.mpr ⟨hold, fun d result hd => .inr (hrecv d result hd)⟩,
        forall_mem_concat.mpr ⟨fun call hmem w hw => ?_, fun w hw => ?_⟩,
        forall_mem_concat.mpr ⟨fun task hmem => Nat.lt_succ_of_lt (hlt task hmem), Nat.lt_succ_self _⟩, ?_⟩
      · simp only [hch]
        simp [h.channels.length_eq]
      · intro i status hi
        simp only [hch] at hi
        by_cases hlt : i < s.channels.length
        · rw [List.getElem?_append_left hlt] at hi
          obtain ⟨r', d', howner, htold⟩ := h.channels.told i status hi
          exact ⟨r', d', by rw [List.getElem?_append_left (h.channels.length_eq ▸ hlt), howner], htold⟩
        · rw [List.getElem?_append_right (Nat.le_of_not_lt hlt), List.getElem?_replicate] at hi
          split at hi <;> cases hi
      · obtain ⟨i, hi, -⟩ := hall w hw
        exact mem_of_get hi
      · refine (h.heard call hmem w hw).mono (fun i hi => ?_) fun task ht => mem_append_left _ ht
        obtain ⟨status, hi⟩ := hi
        simp only [hch]
        exact ⟨status, by rw [List.getElem?_append_left (List.getElem?_eq_some_iff.mp hi).1, hi]⟩
      · obtain ⟨i, hi, hi'⟩ := hall w hw
        refine ⟨_, hi', fun k hk => .inr ⟨_, mem_concat_self, rfl, ?_⟩⟩
        cases hk
        exact hi
      · rw [map_append, map_singleton]
        refine h.apart.append (nodup_singleton _) ?_
        intro v hv hv'
        obtain ⟨task, hmem, rfl⟩ := mem_map.mp hv
        exact absurd (mem_singleton.mp hv') (hlt task hmem).ne

theorem settleFunds_spec (hnext : settlement.nextAccumulatorVersion = s.accumulatorVersion + 1) :
    ∃ s', s.settleFunds settlement = .ok s' ∧ s'.accumulatorVersion = s.accumulatorVersion + 1 ∧
      NaiveInv L next s' owners calls := by
  refine ⟨{ s with accumulatorVersion := s.accumulatorVersion + 1 }, ?_, rfl, ⟨h.channels.length_eq,
    fun i status hi => ?_⟩, h.tasks, fun call hmem d result hd => ?_, h.heard, h.tasks_lt, h.apart⟩
  · unfold settleFunds
    rw [if_neg (by omega), bind_require hnext.symm]
    rfl
  · obtain ⟨r, d, howner, htold⟩ := h.channels.told i status hi
    exact ⟨r, d, howner, Told.mono htold (Nat.le_succ _)⟩
  · rcases h.results call hmem d result hd with ⟨status, hres, htold⟩ | hres
    · exact .inl ⟨status, hres, Told.mono htold (Nat.le_succ _)⟩
    · exact .inr hres

end

end NaiveFundsWithdrawScheduler

/-! ### Both schedulers -/

namespace System
open EagerFundsWithdrawScheduler (Rest CallOk rest_new decides sent_of_settled reservedAt_eq_granted)
open NaiveFundsWithdrawScheduler (NaiveInv mem_notifySkipSchedule notifySkipSchedule_get)

variable {L : Ledger} {σ : System} {next : Nat} {call : Call} {d : TransactionDigest} {status : ScheduleStatus}

/-- What holds of the two schedulers between calls. -/
structure BothOk (L : Ledger) (σ : System) (next : Nat) : Prop where
  version_eq : σ.naive.accumulatorVersion = σ.eager.accumulatorVersion
  calls_lt : ∀ call ∈ σ.calls, call.reservations.accumulatorVersion < next
  accounts : ∀ call ∈ σ.calls, ∀ w ∈ call.reservations.withdraws, ∃ x, x ∈ w.reservations
  eager : ∃ R, Rest L next R σ.eager ∧ ∀ call ∈ σ.calls, CallOk R σ.eager.withdraws call
  naive : ∃ owners, NaiveInv L next σ.naive owners σ.calls

/-- The eager decisions of a batch whose version is settled, and what was reported. -/
structure Settled (L : Ledger) (σ : System) (g : History) (call : Call) (base : Nat) : Prop where
  decides : Decides L call.reservations.accumulatorVersion base call.reservations.withdraws
    fun x => g x call.reservations.accumulatorVersion
  status : ∀ d j, LastAt call.reservations.withdraws d j → ∃ status,
    σ.eagerStatus call d = some status ∧ status ≠ .skipSchedule ∧
    (status = .sufficientFunds ↔
      Fulfilled (fun x => g x call.reservations.accumulatorVersion) (base + j))

/-- What the sufficient transactions of a settled batch take was granted. -/
theorem Settled.sufficientOf_le (h : Settled L σ g call base) (x : AccumulatorObjId) :
    sufficientOf (σ.eagerStatus call) x call.reservations.withdraws ≤
      granted (g x call.reservations.accumulatorVersion) := by
  refine sufficientOf_le_granted (h.decides.requests x) fun j d hlast hd e he hticket => ?_
  obtain ⟨status, hstatus, -, hiff⟩ := h.status d j hlast
  cases hd.symm.trans hstatus
  exact hiff.mp rfl x e he hticket

theorem BothOk.settled (h : BothOk L σ next) (hmem : call ∈ σ.calls)
    (hle : call.reservations.accumulatorVersion ≤ σ.eager.accumulatorVersion) :
    call.eager = call.reservations.notifySkipSchedule ∨ ∃ g base, Settled L σ g call base ∧
      ∀ x, σ.eager.reservedAt σ.eager.accumulatorVersion x = granted (g x σ.eager.accumulatorVersion) := by
  obtain ⟨R, hrest, hcalls⟩ := h.eager
  obtain ⟨g, hinv⟩ := hrest.inv
  cases hcalls call hmem with
  | skipped h => exact .inl h
  | scheduled base hrequests hcells hreports =>
    refine .inr ⟨g, base, ⟨decides hinv hle hrequests, fun d j hlast => ?_⟩, reservedAt_eq_granted hinv⟩
    obtain ⟨w, hw, -⟩ := hlast.1
    obtain ⟨cell, status, hcell, hsent, hne, hiff⟩ := sent_of_settled hinv hle hrequests hcells hw
      (h.accounts call hmem w (mem_of_getElem? hw))
    exact ⟨status, by rw [eagerStatus_eq hreports hlast hw hcell, hsent], hne, hiff⟩

theorem eagerStatus_skipped (h : call.eager = call.reservations.notifySkipSchedule)
    (hd : σ.eagerStatus call d = some status) : status = .skipSchedule := by
  unfold eagerStatus at hd
  cases hres : call.eager[d]? with
  | none =>
    rw [hres] at hd
    cases hd
  | some result =>
    rw [h] at hres
    rw [h, hres, notifySkipSchedule_get hres] at hd
    exact (Option.some.inj hd).symm

theorem sufficientOf_skipped (h : call.eager = call.reservations.notifySkipSchedule) (x : AccumulatorObjId)
    (withdraws : List TxFundsWithdraw) : sufficientOf (σ.eagerStatus call) x withdraws = 0 := by
  induction withdraws with
  | nil => rfl
  | cons w rest ih =>
    unfold sufficientOf
    rw [if_neg fun hc => (by cases eagerStatus_skipped h hc.1), ih]

/-- What the sufficient transactions of the current version take is reserved for it. -/
theorem BothOk.sufficientAt_le (h : BothOk L σ next) (x : AccumulatorObjId) :
    σ.sufficientAt σ.eager.accumulatorVersion x ≤ σ.eager.reservedAt σ.eager.accumulatorVersion x := by
  unfold sufficientAt
  cases hfind : σ.calls.find? (·.reservations.accumulatorVersion = σ.eager.accumulatorVersion) with
  | none => exact Nat.zero_le _
  | some call =>
    have hmem : call ∈ σ.calls := mem_of_find?_eq_some hfind
    have hv : call.reservations.accumulatorVersion = σ.eager.accumulatorVersion := by
      simpa using List.find?_some hfind
    simp only
    rcases h.settled hmem hv.le with hskip | ⟨g, base, hset, hreserved⟩
    · rw [sufficientOf_skipped hskip]
      exact Nat.zero_le _
    · rw [hreserved, ← hv]
      exact hset.sufficientOf_le x

theorem BothOk.settles (h : BothOk L σ next) (hset : σ.Settles L settlement) : σ.eager.Settles L settlement := by
  refine ⟨hset.next, hset.change, fun x => ?_⟩
  have htaken := hset.taken x
  have hle := h.sufficientAt_le x
  omega

theorem bothOk_new (L : Ledger) (start : Nat) : BothOk L ⟨.new start, .new start, []⟩ 0 where
  version_eq := rfl
  calls_lt := nofun
  accounts := nofun
  eager := ⟨_, rest_new L start, nofun⟩
  naive := ⟨[], ⟨rfl, fun i status hi => by simp [NaiveFundsWithdrawScheduler.new] at hi⟩,
    nofun, nofun, nofun, nofun, nodup_nil⟩

section Steps
variable {r : WithdrawReservations} {eagerRead naiveRead : AccountFundsRead}
  {settlement : FundsSettlement}

theorem BothOk.schedule (h : BothOk L σ next) (hnext : next ≤ r.accumulatorVersion)
    (haccounts : ∀ w ∈ r.withdraws, ∃ x, x ∈ w.reservations)
    (heager : σ.eager.ReadsFrom L eagerRead) (hnaive : σ.naive.ReadsFrom L naiveRead)
    (hfits : Exec.Returns L.Small (σ.eager.scheduleWithdraws eagerRead r)) :
    ∃ results eager results' naive,
      σ.eager.scheduleWithdraws eagerRead r = .ok (results, eager) ∧
      σ.naive.scheduleWithdraws naiveRead r = .ok (results', naive) ∧
      BothOk L ⟨eager, naive, σ.calls ++ [⟨r, results, results'⟩]⟩ (r.accumulatorVersion + 1) := by
  obtain ⟨R, hrest, hcalls⟩ := h.eager
  obtain ⟨owners, hinv⟩ := h.naive
  obtain ⟨results, eager, R', hrun, hrest', hgrows, hversion, hout⟩ :=
    EagerFundsWithdrawScheduler.scheduleWithdraws_spec hfits hrest hnext heager
  obtain ⟨results', naive, owners', hrun', hversion', hinv'⟩ :=
    NaiveFundsWithdrawScheduler.scheduleWithdraws_spec hinv hnaive hnext results
  refine ⟨results, eager, results', naive, hrun, hrun', ?_, ?_,
    forall_mem_concat.mpr ⟨h.accounts, haccounts⟩, ?_, owners', hinv'⟩
  · rw [hversion', hversion, h.version_eq]
  · refine forall_mem_concat.mpr ⟨fun call hmem => ?_, Nat.lt_succ_self _⟩
    have := h.calls_lt call hmem
    omega
  · refine ⟨R', hrest', ?_⟩
    cases hout with
    | skipped => exact forall_mem_concat.mpr ⟨hcalls, .skipped rfl⟩
    | scheduled hcurrent hrequests hcells hreports =>
      refine forall_mem_concat.mpr ⟨fun call hmem => ?_, ?_⟩
      · -- The requests of earlier batches are at earlier versions.
        have hlt := h.calls_lt call hmem
        cases (hcalls call hmem).grows hgrows with
        | skipped hskip => exact .skipped hskip
        | scheduled base hold hcells' hreports' =>
          refine .scheduled base (fun x => ?_) hcells' hreports'
          rw [hrequests, if_neg (by omega), append_nil, hold x]
      · refine .scheduled σ.eager.withdraws.length (fun x => ?_) hcells hreports
        rw [hrequests, hrest.unasked x _ hnext, if_pos rfl, nil_append]

theorem BothOk.settle (h : BothOk L σ next) (hu128 : L.IsU128) (hset : σ.Settles L settlement)
    (hfits : Exec.Returns L.Small (σ.eager.settleFunds settlement)) :
    ∃ eager naive, σ.eager.settleFunds settlement = .ok eager ∧
      σ.naive.settleFunds settlement = .ok naive ∧ BothOk L ⟨eager, naive, σ.calls⟩ next := by
  obtain ⟨R, hrest, hcalls⟩ := h.eager
  obtain ⟨owners, hinv⟩ := h.naive
  obtain ⟨eager, hrun, hrest', hversion, hgrows, -⟩ :=
    EagerFundsWithdrawScheduler.settleFunds_spec hu128 hfits hrest (h.settles hset)
  obtain ⟨naive, hrun', hversion', hinv'⟩ :=
    NaiveFundsWithdrawScheduler.settleFunds_spec hinv (h.version_eq ▸ hset.next)
  refine ⟨eager, naive, hrun, hrun', ?_, h.calls_lt, h.accounts, ⟨R, hrest', fun call hmem =>
    (hcalls call hmem).grows hgrows⟩, owners, hinv'⟩
  rw [hversion', hversion, h.version_eq]

theorem BothOk.wake (h : BothOk L σ next) (hnaive : σ.naive.ReadsFrom L naiveRead) (i : Nat) :
    ∃ naive, σ.naive.wake naiveRead i = .ok naive ∧ BothOk L ⟨σ.eager, naive, σ.calls⟩ next ∧
      ∀ task, σ.naive.tasks[i]? = some task → task.reservations.accumulatorVersion ≤ σ.naive.accumulatorVersion →
        ∀ task' ∈ naive.tasks, task'.reservations ≠ task.reservations := by
  obtain ⟨owners, hinv⟩ := h.naive
  obtain ⟨naive, hrun, hversion, hinv', hgone⟩ := NaiveFundsWithdrawScheduler.wake_spec hinv hnaive i
  refine ⟨naive, hrun, ⟨hversion.trans h.version_eq, h.calls_lt, h.accounts, h.eager, owners, hinv'⟩,
    fun task htask hle task' hmem heq => ?_⟩
  rw [hgone task htask hle] at hmem
  obtain ⟨j, hji, hj⟩ := List.mem_eraseIdx_iff_getElem?.mp hmem
  -- The tasks wait for different versions.
  have hlt := (List.getElem?_eq_some_iff.mp hj).1
  refine hji ((List.getElem?_inj (by rwa [length_map]) hinv.apart).mp ?_)
  simp [hj, htask, heq]

end Steps

theorem Reachable.bothOk (hu128 : L.IsU128) (h : Reachable L start σ next) : BothOk L σ next := by
  induction h with
  | new => exact bothOk_new L start
  | schedule _ hnext haccounts heager hnaive hrun hrun' ih =>
    obtain ⟨_, _, _, _, hrun₁, hrun₂, hok⟩ := ih.schedule hnext haccounts heager hnaive (.inr ⟨_, hrun⟩)
    cases hrun.symm.trans hrun₁
    cases hrun'.symm.trans hrun₂
    exact hok
  | settle _ hset hrun hrun' ih =>
    obtain ⟨_, _, hrun₁, hrun₂, hok⟩ := ih.settle hu128 hset (.inr ⟨_, hrun⟩)
    cases hrun.symm.trans hrun₁
    cases hrun'.symm.trans hrun₂
    exact hok
  | wake _ hnaive hrun ih =>
    obtain ⟨_, hrun₁, hok, -⟩ := ih.wake hnaive _
    cases hrun.symm.trans hrun₁
    exact hok

theorem BothOk.naiveStatus_told (h : BothOk L σ next) (hmem : call ∈ σ.calls)
    (hd : σ.naiveStatus call d = some status) : Told L σ.eager.accumulatorVersion call.reservations d status := by
  obtain ⟨owners, hinv⟩ := h.naive
  rw [← h.version_eq]
  unfold naiveStatus at hd
  cases hres : call.naive[d]? with
  | none =>
    rw [hres] at hd
    cases hd
  | some result =>
    rw [hres] at hd
    rcases hinv.results call hmem d result hres with ⟨st, rfl, htold⟩ | ⟨i, rfl, howner⟩
    · cases Option.some.inj hd
      exact htold
    · obtain ⟨r, d', howner', htold⟩ := hinv.channels.told i status (Option.join_eq_some_iff.mp hd)
      cases howner.symm.trans howner'
      exact htold

/-- Once no task of a batch waits, each of its transactions has a status. -/
theorem BothOk.naiveStatus_there (h : BothOk L σ next) (hmem : call ∈ σ.calls)
    (htasks : ∀ task ∈ σ.naive.tasks, task.reservations ≠ call.reservations)
    (hw : w ∈ call.reservations.withdraws) : ∃ status, σ.naiveStatus call w.txDigest = some status := by
  obtain ⟨owners, hinv⟩ := h.naive
  obtain ⟨result, hres, hheard⟩ := hinv.heard call hmem w hw
  unfold naiveStatus
  rw [hres]
  cases result with
  | scheduleResult status => exact ⟨status, rfl⟩
  | pending i =>
    rcases hheard i rfl with ⟨status, hi⟩ | ⟨task, htask, hr, -⟩
    · exact ⟨status, by simp [hi]⟩
    · exact absurd hr (htasks task htask)

/-- Once the version of a batch is settled, each of its transactions has a status. -/
theorem BothOk.eagerStatus_there (h : BothOk L σ next) (hmem : call ∈ σ.calls)
    (hle : call.reservations.accumulatorVersion ≤ σ.eager.accumulatorVersion)
    (hw : w ∈ call.reservations.withdraws) : ∃ status, σ.eagerStatus call w.txDigest = some status := by
  rcases h.settled hmem hle with hskip | ⟨g, base, hset, -⟩
  · have hthere : w.txDigest ∈ call.reservations.notifySkipSchedule :=
      mem_notifySkipSchedule.mpr (mem_map_of_mem hw)
    obtain ⟨result, hres⟩ := mem_iff_get.mp hthere
    refine ⟨.skipSchedule, ?_⟩
    unfold eagerStatus
    rw [hskip, hres, notifySkipSchedule_get hres]
  · obtain ⟨j, hlast⟩ := exists_lastAt hw
    obtain ⟨status, hstatus, -⟩ := hset.status w.txDigest j hlast
    exact ⟨status, hstatus⟩

theorem BothOk.agree (h : BothOk L σ next) (hmem : call ∈ σ.calls) (hd : σ.eagerStatus call d = some status)
    (hd' : σ.naiveStatus call d = some status') (hne : status ≠ .skipSchedule)
    (hne' : status' ≠ .skipSchedule) : status = status' := by
  obtain ⟨hle, hstatus'⟩ := h.naiveStatus_told hmem hd'
  obtain ⟨-, j, hlast, hspec⟩ := hstatus' hne'
  rcases h.settled hmem hle with hskip | ⟨g, base, hset, -⟩
  · exact absurd (eagerStatus_skipped hskip hd) hne
  · obtain ⟨st, hst, -, hiff⟩ := hset.status d j hlast
    cases hd.symm.trans hst
    have hiff' := hspec base _ hset.decides
    cases status <;> cases status' <;> simp_all

/-- **The eager scheduler decides like the naive one.** After any run, two statuses of a
transaction that are no skips are the same, and a transaction whose version is settled
has its eager status. A task whose version is reached waits no more once it is woken, and
when no task of a batch waits each of its transactions has a status from both schedulers,
the same one unless one of them skips it. While balances fit a signed integer, no call of
the run fails. -/
theorem schedulers_agree {start : Nat} (hu128 : L.IsU128) (h : Reachable L start σ next) :
    (∀ call ∈ σ.calls, ∀ d status status', σ.eagerStatus call d = some status →
      σ.naiveStatus call d = some status' → status ≠ .skipSchedule → status' ≠ .skipSchedule →
      status = status') ∧
    (∀ call ∈ σ.calls, call.reservations.accumulatorVersion ≤ σ.eager.accumulatorVersion →
      ∀ w ∈ call.reservations.withdraws, ∃ status, σ.eagerStatus call w.txDigest = some status) ∧
    (∀ naiveRead i task, σ.naive.ReadsFrom L naiveRead → σ.naive.tasks[i]? = some task →
      task.reservations.accumulatorVersion ≤ σ.naive.accumulatorVersion →
      ∃ naive, σ.naive.wake naiveRead i = .ok naive ∧
        ∀ task' ∈ naive.tasks, task'.reservations ≠ task.reservations) ∧
    (∀ call ∈ σ.calls, (∀ task ∈ σ.naive.tasks, task.reservations ≠ call.reservations) →
      ∀ w ∈ call.reservations.withdraws, ∃ status status', σ.eagerStatus call w.txDigest = some status ∧
        σ.naiveStatus call w.txDigest = some status' ∧
        (status' = status ∨ status' = .skipSchedule ∨ status = .skipSchedule)) ∧
    (L.Small →
      (∀ r eagerRead naiveRead, next ≤ r.accumulatorVersion →
        (∀ w ∈ r.withdraws, ∃ x, x ∈ w.reservations) → σ.eager.ReadsFrom L eagerRead →
        σ.naive.ReadsFrom L naiveRead → ∃ p p', σ.eager.scheduleWithdraws eagerRead r = .ok p ∧
          σ.naive.scheduleWithdraws naiveRead r = .ok p') ∧
      (∀ settlement, σ.Settles L settlement → ∃ eager naive,
        σ.eager.settleFunds settlement = .ok eager ∧ σ.naive.settleFunds settlement = .ok naive) ∧
      ∀ naiveRead i, σ.naive.ReadsFrom L naiveRead → ∃ naive, σ.naive.wake naiveRead i = .ok naive) := by
  have hok := h.bothOk hu128
  refine ⟨fun call hmem d status status' hd hd' hne hne' => hok.agree hmem hd hd' hne hne',
    fun call hmem hle w hw => hok.eagerStatus_there hmem hle hw, fun naiveRead i task hnaive htask hle => ?_,
    fun call hmem htasks w hw => ?_, fun hsmall => ⟨?_, ?_, ?_⟩⟩
  · obtain ⟨naive, hrun, -, hgone⟩ := hok.wake hnaive i
    exact ⟨naive, hrun, hgone task htask hle⟩
  · obtain ⟨status', hd'⟩ := hok.naiveStatus_there hmem htasks hw
    obtain ⟨status, hd⟩ := hok.eagerStatus_there hmem (hok.naiveStatus_told hmem hd').1 hw
    refine ⟨status, status', hd, hd', ?_⟩
    by_cases hskip : status' = .skipSchedule ∨ status = .skipSchedule
    · exact .inr hskip
    · rw [not_or] at hskip
      exact .inl (hok.agree hmem hd hd' hskip.2 hskip.1).symm
  · intro r eagerRead naiveRead hnext haccounts heager hnaive
    obtain ⟨_, _, _, _, hrun, hrun', -⟩ := hok.schedule hnext haccounts heager hnaive (.inl hsmall)
    exact ⟨_, _, hrun, hrun'⟩
  · intro settlement hset
    obtain ⟨eager, naive, hrun, hrun', -⟩ := hok.settle hu128 hset (.inl hsmall)
    exact ⟨eager, naive, hrun, hrun'⟩
  · intro naiveRead i hnaive
    obtain ⟨naive, hrun, -⟩ := hok.wake hnaive i
    exact ⟨naive, hrun⟩

/-- **No account is overdrawn**: after any run, what the sufficient transactions of a settled batch take
from an account is covered by its balance at their version. Unless all of them were skipped, they are
decided first come, first served. -/
theorem withdraws_covered {start : Nat} (hu128 : L.IsU128) (h : Reachable L start σ next) (hmem : call ∈ σ.calls)
    (hle : call.reservations.accumulatorVersion ≤ σ.eager.accumulatorVersion) :
    (∀ x, sufficientOf (σ.eagerStatus call) x call.reservations.withdraws ≤
      (L call.reservations.accumulatorVersion x).toNat) ∧
    (call.eager = call.reservations.notifySkipSchedule ∨ ∃ base decisions,
      Decides L call.reservations.accumulatorVersion base call.reservations.withdraws decisions ∧
      ∀ d j, LastAt call.reservations.withdraws d j → ∃ status, σ.eagerStatus call d = some status ∧
        status ≠ .skipSchedule ∧ (status = .sufficientFunds ↔ Fulfilled decisions (base + j))) := by
  rcases (h.bothOk hu128).settled hmem hle with hskip | ⟨g, base, hset, -⟩
  · refine ⟨fun x => ?_, .inl hskip⟩
    rw [sufficientOf_skipped hskip]
    exact Nat.zero_le _
  · refine ⟨fun x => ?_, .inr ⟨base, _, hset.decides, hset.status⟩⟩
    exact (hset.sufficientOf_le x).trans (hset.decides.greedy x).granted_le

/-- Account 7 has 10, of which 4 are taken at version 0. -/
def demoLedger : Ledger := fun v x => if x = 7 ∧ 1 ≤ v then 6 else 10

/-- Takes 8 from account 7 at version 1. -/
def demoBatch : WithdrawReservations :=
  ⟨1, [⟨2, (∅ : BTreeMap AccumulatorObjId UInt64).insert 7 8⟩]⟩

/-- The settlement of version 0. -/
def demoSettlement : FundsSettlement :=
  ⟨1, (∅ : BTreeMap AccumulatorObjId Int).insert 7 (-4)⟩

def demoRead (v : Nat) : AccountFundsRead := fun x => (if x = 7 ∧ 1 ≤ v then 6 else 10, v)

theorem demoRead_spec (v : Nat) (x : AccumulatorObjId) :
    ((demoRead v x).1 : Int) = demoLedger (demoRead v x).2 x ∧ v ≤ (demoRead v x).2 := by
  by_cases hx : x = 7 ∧ 1 ≤ v <;> simp [demoRead, demoLedger, hx]

theorem demoLedger_isU128 : demoLedger.IsU128 := by
  intro v x
  unfold demoLedger
  split <;> decide

theorem demo_settles (hv : σ.eager.accumulatorVersion = 0)
    (h : σ.sufficientAt 0 7 = 4) : σ.Settles demoLedger demoSettlement := by
  refine ⟨by rw [hv]; rfl, fun x => ?_, fun x => ?_⟩
  · rw [hv]
    unfold demoLedger demoSettlement
    rw [get_insert]
    by_cases hx : x = 7
    · simp [hx]
    · simp [hx, Ne.symm hx]
  · rw [hv]
    unfold demoLedger
    by_cases hx : x = 7
    · subst hx
      rw [h]
      decide
    · simp [hx]

/-- A withdraw that waits for version 1 is denied by both once that version is settled. -/
theorem schedulers_agree_pending : ∃ σ : System, Reachable demoLedger 0 σ 2 ∧
    ∃ call ∈ σ.calls, σ.eagerStatus call 2 = some .insufficientFunds ∧
      σ.naiveStatus call 2 = some .insufficientFunds ∧
      ∀ w ∈ call.reservations.withdraws, ∃ status status', σ.eagerStatus call w.txDigest = some status ∧
        σ.naiveStatus call w.txDigest = some status' ∧
        (status' = status ∨ status' = .skipSchedule ∨ status = .skipSchedule) := by
  have h₀ : Reachable demoLedger 0 _ 0 := .new
  have h₁ := h₀.schedule (r := EagerFundsWithdrawScheduler.soloBatch) le_rfl
    (fun w hw => ⟨7, by rw [mem_singleton.mp hw]; simp⟩) (demoRead_spec 0) (demoRead_spec 0) rfl rfl
  have h₂ := h₁.schedule (r := demoBatch) le_rfl
    (fun w hw => ⟨7, by rw [mem_singleton.mp hw]; simp⟩) (demoRead_spec 0) (demoRead_spec 0) rfl rfl
  have h₃ := h₂.settle (demo_settles rfl rfl) rfl rfl
  have h₄ := h₃.wake (i := 0) (demoRead_spec 1) rfl
  exact ⟨_, h₄, _, mem_cons_of_mem _ (.head _), rfl, rfl,
    (schedulers_agree demoLedger_isU128 h₄).2.2.2.1 _ (.tail _ (.head _)) fun _ hmem =>
      absurd hmem not_mem_nil⟩

/-- Asks for 4, 8 and 5 from account 7 at version 0. -/
def demoThree : WithdrawReservations :=
  ⟨0, [⟨1, (∅ : BTreeMap AccumulatorObjId UInt64).insert 7 4⟩,
    ⟨2, (∅ : BTreeMap AccumulatorObjId UInt64).insert 7 8⟩,
    ⟨3, (∅ : BTreeMap AccumulatorObjId UInt64).insert 7 5⟩]⟩

/-- Of the 10 on account 7 the first and the third transaction get their 4 and 5; the 8 of
the second are denied. -/
theorem withdraws_covered_denied : ∃ σ : System, Reachable demoLedger 0 σ 1 ∧ ∃ call ∈ σ.calls,
    σ.eagerStatus call 2 = some .insufficientFunds ∧
    sufficientOf (σ.eagerStatus call) 7 call.reservations.withdraws = 9 ∧
    sufficientOf (σ.eagerStatus call) 7 call.reservations.withdraws ≤ (demoLedger 0 7).toNat := by
  have h := Reachable.schedule (L := demoLedger) (r := demoThree) .new le_rfl
    (fun w hw => ⟨7, by rcases hw with _ | ⟨_, _ | ⟨_, _ | ⟨_, ⟨⟩⟩⟩⟩ <;> simp⟩)
    (demoRead_spec 0) (demoRead_spec 0) rfl rfl
  exact ⟨_, h, _, .head _, rfl, rfl, (withdraws_covered demoLedger_isU128 h (.head _) le_rfl).1 7⟩

end System

end Sui.FundsWithdraw
