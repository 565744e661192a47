import Sui.FundsWithdraw.Schedule

/-! The naive scheduler, and what a batch should be told.

The naive scheduler waits until the accumulator is at the version of a batch, reads the
balances there and reserves in order. A waiting batch is a task that holds the senders
of its transactions; it goes on when it is woken, at any later time. Its decisions are
first come, first served on every account (`Decides`), which fixes the status of each
transaction (`SpecStatus`, `processWithdraws_spec`). -/
namespace Sui.FundsWithdraw

open Sui.Lib BTreeMap Exec Reservation List Option

def ScheduleResult.unwrapStatus : ScheduleResult → Exec ScheduleStatus
  | .scheduleResult status => return status
  | .pending _ => .error .resultMissing

/-- A batch that waits for its version, with the channels of its transactions. -/
structure WaitingTask where
  reservations : WithdrawReservations
  senders : BTreeMap TransactionDigest Nat

structure NaiveFundsWithdrawScheduler where
  accumulatorVersion : Nat
  tasks : List WaitingTask := []
  /-- What was sent on each channel. -/
  channels : List (Option ScheduleStatus) := []

namespace NaiveFundsWithdrawScheduler

def new (curAccumulatorVersion : Nat) : NaiveFundsWithdrawScheduler :=
  { accumulatorVersion := curAccumulatorVersion }

def readFunds (fundsRead : AccountFundsRead) (accumulatorVersion : Nat)
    (accounts : List AccumulatorObjId) : Option (BTreeMap AccumulatorObjId Nat) :=
  accounts.foldlM (fun m x =>
    if (fundsRead x).2 > accumulatorVersion then none else some (m.insert x (fundsRead x).1)) ∅

/-- One reservation; a failed one takes nothing and the others go on. -/
def reserve (p : Bool × BTreeMap AccumulatorObjId Nat) (entry : AccumulatorObjId × UInt64) :
    Exec (Bool × BTreeMap AccumulatorObjId Nat) := do
  let funds ← Exec.unwrap p.2[entry.1]? .balanceNotRead
  if funds < entry.2.toNat then
    return (false, p.2)
  else
    return (p.1, p.2.insert entry.1 (funds - entry.2.toNat))

def processWithdraw
    (p : BTreeMap AccumulatorObjId Nat × BTreeMap TransactionDigest ScheduleResult)
    (withdraw : TxFundsWithdraw) :
    Exec (BTreeMap AccumulatorObjId Nat × BTreeMap TransactionDigest ScheduleResult) := do
  let (success, curFunds) ← withdraw.reservations.toList.foldlM reserve (true, p.1)
  let status := if success then ScheduleStatus.sufficientFunds else .insufficientFunds
  return (curFunds, p.2.insert withdraw.txDigest (.scheduleResult status))

def processWithdraws (fundsRead : AccountFundsRead) (r : WithdrawReservations) :
    Exec (BTreeMap TransactionDigest ScheduleResult) :=
  match readFunds fundsRead r.accumulatorVersion r.allAccounts.toList with
  | none => return r.notifySkipSchedule
  | some curFunds => do
    let (_, results) ← r.withdraws.foldlM processWithdraw (curFunds, ∅)
    return results

/-- The senders, receivers and channels after one more transaction. -/
structure Channels where
  senders : BTreeMap TransactionDigest Nat
  receivers : BTreeMap TransactionDigest ScheduleResult
  channels : List (Option ScheduleStatus)

def openChannel (p : Channels) (withdraw : TxFundsWithdraw) : Channels :=
  { senders := p.senders.insert withdraw.txDigest p.channels.length
    receivers := p.receivers.insert withdraw.txDigest (.pending p.channels.length)
    channels := p.channels ++ [none] }

def scheduleWithdraws (s : NaiveFundsWithdrawScheduler) (fundsRead : AccountFundsRead)
    (r : WithdrawReservations) :
    Exec (BTreeMap TransactionDigest ScheduleResult × NaiveFundsWithdrawScheduler) :=
  if s.accumulatorVersion > r.accumulatorVersion then
    return (r.notifySkipSchedule, s)
  else if s.accumulatorVersion = r.accumulatorVersion then do
    let results ← processWithdraws fundsRead r
    return (results, s)
  else
    let p := r.withdraws.foldl openChannel ⟨∅, ∅, s.channels⟩
    return (p.receivers, { s with
      tasks := s.tasks ++ [⟨r, p.senders⟩]
      channels := p.channels })

def sendResult (p : BTreeMap TransactionDigest Nat × List (Option ScheduleStatus))
    (entry : TransactionDigest × ScheduleResult) :
    Exec (BTreeMap TransactionDigest Nat × List (Option ScheduleStatus)) := do
  let sender ← Exec.unwrap p.1[entry.1]? .senderMissing
  let status ← entry.2.unwrapStatus
  return (p.1.erase entry.1, p.2.set sender (some status))

/-- A task looks at the version and goes on if its own is reached. -/
def wake (s : NaiveFundsWithdrawScheduler) (fundsRead : AccountFundsRead) (i : Nat) :
    Exec NaiveFundsWithdrawScheduler :=
  match s.tasks[i]? with
  | none => return s
  | some task =>
    if s.accumulatorVersion < task.reservations.accumulatorVersion then
      return s
    else if s.accumulatorVersion > task.reservations.accumulatorVersion then
      return { s with
        tasks := s.tasks.eraseIdx i
        channels := task.senders.toList.foldl (fun c e => c.set e.2 (some .skipSchedule))
          s.channels }
    else do
      let results ← processWithdraws fundsRead task.reservations
      let (_, channels) ← results.toList.foldlM sendResult (task.senders, s.channels)
      return { s with tasks := s.tasks.eraseIdx i, channels }

def settleFunds (s : NaiveFundsWithdrawScheduler) (settlement : FundsSettlement) :
    Exec NaiveFundsWithdrawScheduler :=
  if settlement.nextAccumulatorVersion < s.accumulatorVersion + 1 then
    return s
  else do
    Exec.require (s.accumulatorVersion + 1 = settlement.nextAccumulatorVersion)
      .settlementOutOfOrder
    return { s with accumulatorVersion := s.accumulatorVersion + 1 }

end NaiveFundsWithdrawScheduler

/-! ### The status of a transaction -/

/-- The decisions on a batch: first come, first served on every account. -/
structure Decides (L : Ledger) (version base : Nat) (withdraws : List TxFundsWithdraw)
    (h : AccumulatorObjId → List Decision) : Prop where
  greedy : ∀ x, Greedy (L version x) (h x)
  requests : ∀ x, (h x).map (·.toRequest) = batchRequests x base withdraws

variable {withdraws : List TxFundsWithdraw} {L : Ledger} {version base : Nat} {w : TxFundsWithdraw}

theorem Decides.unique (hd : Decides L version base withdraws h)
    (hd' : Decides L version base withdraws h') : h = h' := by
  funext x
  exact (hd.greedy x).unique (hd'.greedy x) ((hd.requests x).trans (hd'.requests x).symm)

/-- No account denies the request with ticket `i`. -/
def Fulfilled (h : AccumulatorObjId → List Decision) (i : Nat) : Prop :=
  ∀ x, ∀ d ∈ h x, d.ticket = i → d.granted = true

theorem LastAt.unique (hj : LastAt withdraws d j) (hk : LastAt withdraws d k) : j = k := by
  obtain ⟨⟨w, hw, hd⟩, hlast⟩ := hj
  obtain ⟨⟨w', hw', hd'⟩, hlast'⟩ := hk
  exact le_antisymm (hlast' j w hw hd) (hlast k w' hw' hd')

theorem exists_lastAt (hw : w ∈ withdraws) : ∃ j, LastAt withdraws w.txDigest j := by
  induction withdraws using List.reverseRecOn with
  | nil => cases hw
  | append_singleton rest u ih =>
    by_cases hd : u.txDigest = w.txDigest
    · exact ⟨rest.length, hd ▸ lastAt_length rest u⟩
    · have hrest : w ∈ rest := by
        rcases mem_concat.mp hw with hw | hw
        · exact hw
        · exact absurd (congrArg _ hw.symm) hd
      obtain ⟨j, hlast⟩ := ih hrest
      exact ⟨j, hlast.concat hd⟩

/-- The status of the transaction with digest `d`: sufficient exactly when all its
requests are granted. -/
def SpecStatus (L : Ledger) (r : WithdrawReservations) (d : TransactionDigest)
    (status : ScheduleStatus) : Prop :=
  status ≠ .skipSchedule ∧ ∃ j, LastAt r.withdraws d j ∧
    ∀ base h, Decides L r.accumulatorVersion base r.withdraws h →
      (status = .sufficientFunds ↔ Fulfilled h (base + j))

/-- A status is told at or after the version of the batch, and unless it is a skip it is
the one of first come, first served. -/
def Told (L : Ledger) (version : Nat) (r : WithdrawReservations) (d : TransactionDigest)
    (status : ScheduleStatus) : Prop :=
  r.accumulatorVersion ≤ version ∧ (status ≠ .skipSchedule → SpecStatus L r d status)

theorem mem_batchRequests (hw : withdraws[j]? = some w)
    (hn : w.reservations[y]? = some n) : ⟨base + j, n.toNat⟩ ∈ batchRequests y base withdraws := by
  refine mem_flatMap.mpr ⟨(w, base + j), mem_iff_getElem?.mpr ⟨j, ?_⟩, ?_⟩
  · rw [List.getElem?_zipIdx, hw]
    rfl
  · rw [mem_toList, hn]
    rfl

/-- The ticket of a decision on a batch is the position of one of its transactions. -/
theorem Decides.ticket_lt
    (hd : Decides L version base withdraws h) (hmem : d ∈ h x) : d.ticket < base + withdraws.length := by
  have hreq : d.toRequest ∈ batchRequests x base withdraws := by
    rw [← hd.requests x]
    exact mem_map_of_mem hmem
  obtain ⟨p, hp, hq⟩ := mem_flatMap.mp hreq
  rw [mem_toList] at hq
  obtain ⟨n, -, heq⟩ := map_eq_some_iff.mp hq
  have hticket : p.2 = d.ticket := congrArg Request.ticket heq
  exact hticket ▸ (List.mem_zipIdx hp).2.1

namespace NaiveFundsWithdrawScheduler

/-! ### The naive scheduler decides first come, first served -/

/-- What is left of the funds of an account after a request. -/
def afterRequest (funds n : Nat) : Nat := if n ≤ funds then funds - n else funds

variable {L : Ledger} {funds : BTreeMap AccumulatorObjId Nat} {accounts : BTreeSet AccumulatorObjId}
  {d : TransactionDigest}

theorem reserve_foldlM {l : List (AccumulatorObjId × UInt64)} (hnodup : (l.map (·.1)).Nodup)
    (hall : ∀ p ∈ l, p.1 ∈ funds) (b : Bool) :
    ∃ b' funds', l.foldlM reserve (b, funds) = .ok (b', funds') ∧
      (b' = true ↔ b = true ∧ ∀ p ∈ l, ∀ f, funds[p.1]? = some f → p.2.toNat ≤ f) ∧
      (∀ x, x ∉ l.map (·.1) → funds'[x]? = funds[x]?) ∧
      ∀ p ∈ l, ∀ f, funds[p.1]? = some f → funds'[p.1]? = some (afterRequest f p.2.toNat) := by
  induction l generalizing b funds with
  | nil =>
    exact ⟨b, funds, rfl, by simp, fun _ _ => rfl, nofun⟩
  | cons p rest ih =>
    obtain ⟨hp, hrest⟩ := nodup_cons.mp hnodup
    obtain ⟨f, hf⟩ := BTreeMap.mem_iff_get.mp (hall p (.head _))
    -- The head changes only its own account.
    obtain ⟨b₁, funds₁, hstep, hb₁, hself, hother⟩ : ∃ b₁ funds₁, reserve (b, funds) p = .ok (b₁, funds₁) ∧
        (b₁ = true ↔ b = true ∧ p.2.toNat ≤ f) ∧
        funds₁[p.1]? = some (afterRequest f p.2.toNat) ∧
        ∀ x, x ≠ p.1 → funds₁[x]? = funds[x]? := by
      unfold reserve afterRequest
      rw [bind_unwrap hf]
      by_cases hlt : f < p.2.toNat
      · rw [if_pos hlt, if_neg hlt.not_ge]
        exact ⟨false, funds, rfl, by simp [Nat.not_le.mpr hlt], hf, fun _ _ => rfl⟩
      · rw [if_neg hlt, if_pos (Nat.le_of_not_lt hlt)]
        exact ⟨b, _, rfl, by simp [Nat.le_of_not_lt hlt], get_insert_self .., fun x hx =>
          get_insert_of_ne _ _ (Ne.symm hx)⟩
    have hne : ∀ q ∈ rest, q.1 ≠ p.1 := fun q hq heq =>
      hp (mem_map.mpr ⟨q, hq, heq⟩)
    have hthere : ∀ q ∈ rest, q.1 ∈ funds₁ := by
      intro q hq
      rw [BTreeMap.mem_iff_get, hother q.1 (hne q hq), ← BTreeMap.mem_iff_get]
      exact hall q (.tail _ hq)
    obtain ⟨b', funds', hrun, hb', hout, hin⟩ := ih hrest hthere b₁
    refine ⟨b', funds', foldlM_cons_eq_ok.mpr ⟨(b₁, funds₁), hstep, hrun⟩, ?_, ?_, ?_⟩
    · rw [hb', hb₁]
      constructor
      · intro ⟨⟨hb, hle⟩, hall'⟩
        refine ⟨hb, fun q hq f' hf' => ?_⟩
        rcases mem_cons.mp hq with rfl | hq
        · cases hf.symm.trans hf'
          exact hle
        · exact hall' q hq f' (by rw [hother q.1 (hne q hq), hf'])
      · intro ⟨hb, hall'⟩
        refine ⟨⟨hb, hall' p (.head _) f hf⟩, fun q hq f' hf' => ?_⟩
        rw [hother q.1 (hne q hq)] at hf'
        exact hall' q (.tail _ hq) f' hf'
    · intro x hx
      rw [map_cons, mem_cons, not_or] at hx
      rw [hout x hx.2, hother x hx.1]
    · intro q hq f' hf'
      rcases mem_cons.mp hq with rfl | hq
      · cases hf.symm.trans hf'
        rw [hout q.1 hp, hself]
      · exact hin q hq f' (by rw [hother q.1 (hne q hq), hf'])

/-- The state of the loop after the first transactions of a batch. -/
structure Processed (L : Ledger) (v base : Nat) (accounts : BTreeSet AccumulatorObjId)
    (done : List TxFundsWithdraw) (funds : BTreeMap AccumulatorObjId Nat)
    (results : BTreeMap TransactionDigest ScheduleResult)
    (h : AccumulatorObjId → List Decision) : Prop where
  decides : Decides L v base done h
  funds : ∀ x ∈ accounts, ∃ f : Nat, funds[x]? = some f ∧ (f : Int) = L v x - granted (h x)
  result : ∀ (d : TransactionDigest) (result : ScheduleResult), results[d]? = some result →
    ∃ j status, LastAt done d j ∧ result = .scheduleResult status ∧ status ≠ .skipSchedule ∧
      (status = .sufficientFunds ↔ Fulfilled h (base + j))
  complete : ∀ w ∈ done, w.txDigest ∈ results

theorem processWithdraw_spec {done : List TxFundsWithdraw}
    {results : BTreeMap TransactionDigest ScheduleResult} {h : AccumulatorObjId → List Decision}
    (hp : Processed L v base accounts done funds results h) {w : TxFundsWithdraw}
    (hw : ∀ x ∈ w.reservations, x ∈ accounts) :
    ∃ funds' results' h', processWithdraw (funds, results) w = .ok (funds', results') ∧
      Processed L v base accounts (done ++ [w]) funds' results' h' := by
  have hkeys : (w.reservations.toList.map (·.1)).Nodup := by
    rw [Std.ExtTreeMap.map_fst_toList_eq_keys]
    exact w.reservations.nodup_keys
  have hentry : ∀ p, p ∈ w.reservations.toList ↔ w.reservations[p.1]? = some p.2 := fun p =>
    mem_toList_iff
  have hfunds : ∀ p ∈ w.reservations.toList, p.1 ∈ funds := by
    intro p hpmem
    obtain ⟨f, hf, -⟩ := hp.funds p.1 (hw p.1 (mem_of_get ((hentry p).mp hpmem)))
    exact mem_of_get hf
  obtain ⟨b, funds', hrun, hb, hout, hin⟩ := reserve_foldlM hkeys hfunds true
  -- The new decision on an account, if the transaction asks for it.
  let last : AccumulatorObjId → List Decision := fun x =>
    (w.reservations[x]?.map fun n =>
      ⟨⟨base + done.length, n.toNat⟩, decide (n.toNat ≤ (funds[x]?).getD 0)⟩).toList
  have hlast : ∀ x d, d ∈ last x ↔ ∃ n, w.reservations[x]? = some n ∧
      d = ⟨⟨base + done.length, n.toNat⟩, decide (n.toNat ≤ (funds[x]?).getD 0)⟩ := by
    intro x d
    simp only [last]
    cases w.reservations[x]? <;> simp
  have hold : ∀ x, ∀ d ∈ h x, d.ticket < base + done.length := fun x d hd => hp.decides.ticket_lt hd
  let h' : AccumulatorObjId → List Decision := fun x => h x ++ last x
  have hdecides : Decides L v base (done ++ [w]) h' := by
    refine ⟨fun x => ?_, fun x => ?_⟩
    · simp only [h', last]
      cases hn : w.reservations[x]? with
      | none => simpa using hp.decides.greedy x
      | some n =>
        obtain ⟨f, hf, hleft⟩ := hp.funds x (hw x (mem_of_get hn))
        simp only [map_some, toList_some, hf, getD_some]
        refine (hp.decides.greedy x).concat ?_
        simp only [decide_eq_true_eq]
        omega
    · simp only [h', map_append, hp.decides.requests x, batchRequests_concat]
      congr 1
      simp only [last]
      cases w.reservations[x]? <;> rfl
  have hful : b = true ↔ Fulfilled h' (base + done.length) := by
    rw [hb]
    constructor
    · intro ⟨_, hall⟩ x d hd hticket
      rcases mem_append.mp hd with hd | hd
      · exact absurd hticket (ne_of_lt (hold x d hd))
      · obtain ⟨n, hn, rfl⟩ := (hlast x d).mp hd
        obtain ⟨f, hf, -⟩ := hp.funds x (hw x (mem_of_get hn))
        have hle := hall (x, n) ((hentry (x, n)).mpr hn) f hf
        simpa [hf] using hle
    · intro hful
      refine ⟨rfl, fun p hpmem f hf => ?_⟩
      have hgrant := hful p.1 _ (mem_append_right _ ((hlast p.1 _).mpr ⟨p.2, (hentry p).mp hpmem, rfl⟩)) rfl
      simpa [hf] using hgrant
  refine ⟨funds', results.insert w.txDigest
    (.scheduleResult (if b then .sufficientFunds else .insufficientFunds)), h', ?_, hdecides, ?_, ?_, ?_⟩
  · unfold processWithdraw
    rw [bind_ok hrun]
    rfl
  · intro x hx
    obtain ⟨f, hf, hleft⟩ := hp.funds x hx
    simp only [h', last, granted_append]
    cases hn : w.reservations[x]? with
    | none =>
      refine ⟨f, ?_, by simpa using hleft⟩
      rw [hout x, hf]
      rw [Std.ExtTreeMap.map_fst_toList_eq_keys, Std.ExtTreeMap.mem_keys]
      exact not_mem_iff_get.mpr hn
    | some n =>
      refine ⟨afterRequest f n.toNat, hin (x, n) ((hentry (x, n)).mpr hn) f hf, ?_⟩
      simp only [map_some, toList_some, hf, getD_some]
      unfold afterRequest
      by_cases hle : n.toNat ≤ f
      · have hgrant : granted [⟨⟨base + done.length, n.toNat⟩, true⟩] = n.toNat := by simp [granted]
        simp only [hle, if_true, decide_true, hgrant]
        omega
      · have hdeny : granted [⟨⟨base + done.length, n.toNat⟩, false⟩] = 0 := by simp [granted]
        simp only [hle, if_false, decide_false, hdeny]
        omega
  · intro d result hd
    rcases insert_eq_some.mp hd with ⟨rfl, rfl⟩ | ⟨hdig, hd⟩
    · refine ⟨done.length, _, lastAt_length done w, rfl, ?_, ?_⟩
      · cases b <;> simp
      · rw [← hful]
        cases b <;> simp
    · obtain ⟨j, status, hlastAt, hres, hskip, hiff⟩ := hp.result d result hd
      have hj : j < done.length := by
        obtain ⟨⟨w₀, hw₀, -⟩, -⟩ := hlastAt
        exact (List.getElem?_eq_some_iff.mp hw₀).1
      refine ⟨j, status, hlastAt.concat hdig, hres, hskip, hiff.trans ?_⟩
      constructor
      · intro hf x e he hticket
        rcases mem_append.mp he with he | he
        · exact hf x e he hticket
        · obtain ⟨n, -, rfl⟩ := (hlast x e).mp he
          have hlen : base + done.length = base + j := hticket
          omega
      · exact fun hf x e he => hf x e (mem_append_left _ he)
  · intro w' hw'
    rw [BTreeMap.mem_insert_iff]
    rcases mem_concat.mp hw' with hw' | rfl
    · exact .inr (hp.complete w' hw')
    · exact .inl rfl

theorem processWithdraw_foldlM (base : Nat)
    (hfunds : ∀ x ∈ accounts, ∃ f : Nat, curFunds[x]? = some f ∧ (f : Int) = L v x)
    (hw : ∀ w ∈ withdraws, ∀ x ∈ w.reservations, x ∈ accounts) :
    ∃ funds results h, withdraws.foldlM processWithdraw (curFunds, ∅) = .ok (funds, results) ∧
      Processed L v base accounts withdraws funds results h := by
  induction withdraws using List.reverseRecOn with
  | nil =>
    refine ⟨curFunds, ∅, fun _ => [], rfl, ⟨fun _ => greedy_nil, fun _ => rfl⟩, fun x hx => ?_,
      fun d r hr => by simp at hr, by simp⟩
    obtain ⟨f, hf, hl⟩ := hfunds x hx
    exact ⟨f, hf, by simpa using hl⟩
  | append_singleton done w ih =>
    obtain ⟨funds, results, h, hrun, hproc⟩ := ih fun w' hw' => hw w' (mem_append_left _ hw')
    obtain ⟨funds', results', h', hstep, hproc'⟩ := processWithdraw_spec hproc (hw w (by simp))
    refine ⟨funds', results', h', ?_, hproc'⟩
    rw [foldlM_append, bind_ok hrun, foldlM_cons, bind_ok hstep]
    rfl

variable {r : WithdrawReservations}

theorem notifySkipSchedule_get (h : r.notifySkipSchedule[d]? = some result) :
    result = .scheduleResult .skipSchedule := by
  rcases get_foldl_insert _ (fun w : TxFundsWithdraw => w.txDigest) _ _ h with h | ⟨w, -, -, h⟩
  · simp at h
  · exact h.symm

theorem mem_notifySkipSchedule : d ∈ r.notifySkipSchedule ↔ d ∈ r.withdraws.map (·.txDigest) := by
  unfold WithdrawReservations.notifySkipSchedule
  rw [mem_foldl_insert]
  simp

/-- With storage at the version of the batch or ahead of it, every transaction is
skipped or gets the status of first come, first served. -/
theorem processWithdraws_spec (hread : ∀ x, ((fundsRead x).1 : Int) = L (fundsRead x).2 x ∧
      version ≤ (fundsRead x).2) (hversion : r.accumulatorVersion = version) :
    ∃ results, processWithdraws fundsRead r = .ok results ∧
      (∀ d, d ∈ results ↔ d ∈ r.withdraws.map (·.txDigest)) ∧
      ∀ (d : TransactionDigest) (result : ScheduleResult), results[d]? = some result →
        ∃ status, result = .scheduleResult status ∧ Told L version r d status := by
  subst hversion
  unfold processWithdraws
  cases hfunds : readFunds fundsRead r.accumulatorVersion r.allAccounts.toList with
  | none =>
    refine ⟨_, rfl, fun d => mem_notifySkipSchedule, fun d result hd => ?_⟩
    exact ⟨.skipSchedule, notifySkipSchedule_get hd, le_rfl, fun hne => absurd rfl hne⟩
  | some curFunds =>
    obtain ⟨-, hin⟩ := readAll_foldlM (fun x => (fundsRead x).1) hfunds
    have hcur : ∀ x ∈ r.allAccounts, ∃ f : Nat, curFunds[x]? = some f ∧ (f : Int) = L r.accumulatorVersion x := by
      intro x hx
      obtain ⟨hget, hle⟩ := hin x (Std.ExtTreeSet.mem_toList.mpr hx)
      obtain ⟨hbal, hge⟩ := hread x
      exact ⟨_, hget, by rw [hbal, le_antisymm hle hge]⟩
    have hall : ∀ w ∈ r.withdraws, ∀ x ∈ w.reservations, x ∈ r.allAccounts :=
      fun w hw x hx => WithdrawReservations.mem_allAccounts.mpr ⟨w, hw, hx⟩
    obtain ⟨funds, results, h₀, hrun, hproc⟩ := processWithdraw_foldlM 0 hcur hall
    refine ⟨results, ?_, fun d => ⟨fun hd => ?_, fun hd => ?_⟩, fun d result hd => ?_⟩
    · simp only [bind_ok hrun]
      rfl
    · obtain ⟨result, hres⟩ := BTreeMap.mem_iff_get.mp hd
      obtain ⟨j, -, ⟨⟨w, hw, hdig⟩, -⟩, -⟩ := hproc.result d result hres
      exact mem_map.mpr ⟨w, mem_of_getElem? hw, hdig⟩
    · obtain ⟨w, hw, rfl⟩ := mem_map.mp hd
      exact hproc.complete w hw
    · obtain ⟨j, status, hlast, hres, hskip, -⟩ := hproc.result d result hd
      refine ⟨status, hres, le_rfl, fun _ => ⟨hskip, j, hlast, fun base h hdec => ?_⟩⟩
      -- The loop makes the same decisions whatever the first ticket is called.
      obtain ⟨funds', results', h', hrun', hproc'⟩ := processWithdraw_foldlM base hcur hall
      cases hrun.symm.trans hrun'
      obtain ⟨k, status', hlast', hres', -, hiff⟩ := hproc'.result d result hd
      cases hres.symm.trans hres'
      rw [hdec.unique hproc'.decides, hlast.unique hlast']
      exact hiff

end NaiveFundsWithdrawScheduler

end Sui.FundsWithdraw
