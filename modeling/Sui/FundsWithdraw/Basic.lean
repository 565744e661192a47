import Sui.Lib.BTree
import Sui.Lib.Except

/-! Withdraws from address funds, and the eager scheduler that decides them.

Transactions come in batches. All of a batch read one version of the accumulator,
and each asks to reserve amounts from accounts. A settlement moves the accumulator
to its next version and changes balances. The eager scheduler grants reservations
ahead of the settlements they depend on, as long as the last balance it knows covers
everything reserved so far; what it cannot grant yet waits in a queue per account.

A `PendingWithdraw` is shared by the queues of several accounts. Its cells are kept in
one list, and a queue holds their positions. The channel that reports a transaction's
status is the cell's `sent`: empty while the sender is there, then the status that was
sent. Account ids and digests are only compared, and versions only compared and
incremented, so they are natural numbers; amounts and balances keep the source's
widths wherever an operation checks or casts them. -/
namespace Sui.FundsWithdraw

open Sui.Lib

abbrev AccumulatorObjId := Nat

abbrev TransactionDigest := Nat

/-- The assertions and unwraps of the schedulers, by source file. -/
inductive Panic
  /- account_state.rs -/
  | withdrawsOutOfOrder
  | behindUpdatedVersion
  | behindSettledVersion
  | balanceOverflow
  | negativeBalance
  | reservedOverflow
  | reservedOutOfOrder
  | reservedUnderflow
  | reservedNotSettled
  /- pending_withdraw.rs -/
  | accountNotPending
  | senderTaken
  /- eager_scheduler/mod.rs, naive_scheduler.rs -/
  | balanceNotRead
  | versionScheduledTwice
  | settlementOutOfOrder
  | resultMissing
  | senderMissing
  /- Of the model: a position with no cell, and a loop bound. -/
  | danglingWithdraw
  | outOfFuel
deriving DecidableEq, Repr

abbrev Exec := Except Panic

/-! ### Machine integers -/

def checkedU128 (n : Nat) : Exec Nat := if n < 2 ^ 128 then .ok n else .error .reservedOverflow

variable {n : Nat}

theorem checkedU128_of (h : n < 2 ^ 128) : checkedU128 n = .ok n := if_pos h

theorem lt_of_checkedU128 (h : checkedU128 n = .ok m) : n < 2 ^ 128 := by
  unfold checkedU128 at h
  by_contra hn
  rw [if_neg hn] at h
  cases h

/-- The cast of a `u128` to `i128`. -/
def asI128 (n : Nat) : Int := if n < 2 ^ 127 then n else n - 2 ^ 128

theorem asI128_of (h : n < 2 ^ 127) : asI128 n = n := if_pos h

def checkedAddI128 (a b : Int) : Option Int :=
  if -2 ^ 127 ≤ a + b ∧ a + b < 2 ^ 127 then some (a + b) else none

/-- The change of a balance that fits to one that fits. -/
theorem checkedAddI128_asI128 (hn : (n : Int) = old)
    (hold : old < 2 ^ 127) (hnew : new < 2 ^ 127) (hpos : 0 ≤ new) :
    checkedAddI128 (asI128 n) (new - old) = some new := by
  rw [asI128_of (by omega), hn]
  unfold checkedAddI128
  rw [if_pos (by constructor <;> omega)]
  congr 1
  omega

/-- A balance that was cast to a negative number stays negative. -/
theorem eq_of_checkedAddI128 (hn : (n : Int) = old)
    (hnew : new < 2 ^ 128) (h : checkedAddI128 (asI128 n) (new - old) = some sum)
    (hpos : 0 ≤ sum) : sum = new := by
  have hsum : asI128 n + (new - old) = sum := by
    unfold checkedAddI128 at h
    split at h
    · exact Option.some.inj h
    · cases h
  unfold asI128 at hsum
  split at hsum <;> omega

/-! ### Requests and settlements -/

inductive ScheduleStatus
  | sufficientFunds
  | insufficientFunds
  | skipSchedule
deriving DecidableEq, Repr

/-- A decision, or the receiver of one: the position of the withdraw that will send it. -/
inductive ScheduleResult
  | scheduleResult (status : ScheduleStatus)
  | pending (receiver : Nat)
deriving DecidableEq, Repr

structure FundsSettlement where
  nextAccumulatorVersion : Nat
  fundsChanges : BTreeMap AccumulatorObjId Int

structure TxFundsWithdraw where
  txDigest : TransactionDigest
  reservations : BTreeMap AccumulatorObjId UInt64

structure WithdrawReservations where
  accumulatorVersion : Nat
  withdraws : List TxFundsWithdraw

namespace WithdrawReservations

def notifySkipSchedule (r : WithdrawReservations) : BTreeMap TransactionDigest ScheduleResult :=
  r.withdraws.foldl (fun m w => m.insert w.txDigest (.scheduleResult .skipSchedule)) ∅

def allAccounts (r : WithdrawReservations) : BTreeSet AccumulatorObjId :=
  (r.withdraws.flatMap fun w => w.reservations.keys).foldl (fun s x => s.insert x) ∅

theorem mem_allAccounts {r : WithdrawReservations} {x : AccumulatorObjId} :
    x ∈ r.allAccounts ↔ ∃ w ∈ r.withdraws, x ∈ w.reservations := by
  unfold allAccounts
  rw [BTreeSet.mem_foldl_insert]
  simp

end WithdrawReservations

/-! ### Withdraws that wait -/

structure PendingWithdraw where
  accumulatorVersion : Nat
  txDigest : TransactionDigest
  /-- The status that was sent; the sender is there as long as it is empty. -/
  sent : Option ScheduleStatus
  pending : BTreeMap AccumulatorObjId UInt64

namespace PendingWithdraw

def new (accumulatorVersion : Nat) (withdraw : TxFundsWithdraw) : PendingWithdraw :=
  { accumulatorVersion
    txDigest := withdraw.txDigest
    sent := none
    pending := withdraw.reservations }

def pendingAmount (w : PendingWithdraw) (accountId : AccumulatorObjId) : Exec Nat := do
  let amount ← Exec.unwrap w.pending[accountId]? .accountNotPending
  return amount.toNat

def removePendingAccount (w : PendingWithdraw) (accountId : AccumulatorObjId) :
    Exec PendingWithdraw := do
  Exec.require (accountId ∈ w.pending) .accountNotPending
  let pending := w.pending.erase accountId
  if pending.isEmpty then
    Exec.require (w.sent = none) .senderTaken
    return { w with pending, sent := some .sufficientFunds }
  else
    return { w with pending }

def notifyInsufficientFunds (w : PendingWithdraw) : PendingWithdraw :=
  match w.sent with
  | none => { w with sent := some .insufficientFunds }
  | some _ => w

/-- The status if it was sent, or else the receiver; the cell is at position `i`. -/
def result (w : PendingWithdraw) (i : Nat) : ScheduleResult :=
  match w.sent with
  | some status => .scheduleResult status
  | none => .pending i

end PendingWithdraw

/-! ### Accounts -/

/-- The amounts reserved at each version, and their sum. -/
structure ReservedFunds where
  reservedFunds : List (Nat × Nat) := []
  totalReservedFundsAmount : Nat := 0
deriving DecidableEq, Repr

namespace ReservedFunds

def addReservedFund (f : ReservedFunds) (accumulatorVersion amount : Nat) :
    Exec ReservedFunds := do
  let total ← checkedU128 (f.totalReservedFundsAmount + amount)
  match f.reservedFunds.getLast? with
  | none => return ⟨[(accumulatorVersion, amount)], total⟩
  | some entry =>
    if entry.1 = accumulatorVersion then
      let sum ← checkedU128 (entry.2 + amount)
      return ⟨f.reservedFunds.dropLast ++ [(entry.1, sum)], total⟩
    else
      -- Reservations are processed in order of version.
      Exec.require (entry.1 < accumulatorVersion) .reservedOutOfOrder
      return ⟨f.reservedFunds ++ [(accumulatorVersion, amount)], total⟩

def settleFund (f : ReservedFunds) (nextVersion : Nat) : Exec ReservedFunds :=
  match f.reservedFunds with
  | [] => return f
  | entry :: rest =>
    if entry.1 + 1 = nextVersion then do
      Exec.require (entry.2 ≤ f.totalReservedFundsAmount) .reservedUnderflow
      return ⟨rest, f.totalReservedFundsAmount - entry.2⟩
    else do
      Exec.require (nextVersion ≤ entry.1) .reservedNotSettled
      return f

/-- The amount reserved at a version. -/
def reservedAt (f : ReservedFunds) (version : Nat) : Nat :=
  (f.reservedFunds.lookup version).getD 0

end ReservedFunds

structure AccountState where
  accountId : AccumulatorObjId
  lastUpdatedBalance : Nat
  /-- The version the balance was read or settled at. -/
  lastUpdatedVersion : Nat
  reservedFunds : ReservedFunds := {}
  /-- Withdraws without a decision on this account, in order of version. -/
  pendingReservations : List Nat := []
deriving DecidableEq, Repr

namespace AccountState

def new (accountId : AccumulatorObjId) (initBalance initVersion : Nat) : AccountState :=
  { accountId, lastUpdatedBalance := initBalance, lastUpdatedVersion := initVersion }

/-- Decides the withdraw at the front of the queue if that is possible now; says
whether it was. -/
def tryReserveFront (a : AccountState) (withdraws : List PendingWithdraw)
    (lastSettledVersion : Nat) : Exec (Bool × AccountState × List PendingWithdraw) :=
  match a.pendingReservations with
  | [] => return (false, a, withdraws)
  | i :: rest => do
    let w ← Exec.unwrap withdraws[i]? .danglingWithdraw
    Exec.require (a.lastUpdatedVersion ≤ w.accumulatorVersion) .behindUpdatedVersion
    Exec.require (lastSettledVersion ≤ w.accumulatorVersion) .behindSettledVersion
    let toReserve ← w.pendingAmount a.accountId
    let needed ← checkedU128 (a.reservedFunds.totalReservedFundsAmount + toReserve)
    if needed ≤ a.lastUpdatedBalance then
      let reservedFunds ← a.reservedFunds.addReservedFund w.accumulatorVersion toReserve
      let w ← w.removePendingAccount a.accountId
      return (true, { a with pendingReservations := rest, reservedFunds }, withdraws.set i w)
    else if w.accumulatorVersion = lastSettledVersion then
      return (true, { a with pendingReservations := rest },
        withdraws.set i w.notifyInsufficientFunds)
    else
      return (false, a, withdraws)

/-- The assertion on the order of the last two withdraws of the queue. -/
def checkOrder (withdraws : List PendingWithdraw) (previous i : Nat) : Exec Unit := do
  let p ← Exec.unwrap withdraws[previous]? .danglingWithdraw
  let w ← Exec.unwrap withdraws[i]? .danglingWithdraw
  Exec.require (p.accumulatorVersion ≤ w.accumulatorVersion) .withdrawsOutOfOrder

def tryReserveNewWithdraw (a : AccountState) (withdraws : List PendingWithdraw) (i : Nat)
    (lastSettledVersion : Nat) : Exec (Bool × AccountState × List PendingWithdraw) :=
  let a' := { a with pendingReservations := a.pendingReservations ++ [i] }
  match a.pendingReservations.getLast? with
  | some previous => do
    checkOrder withdraws previous i
    return (false, a', withdraws)
  | none => a'.tryReserveFront withdraws lastSettledVersion

/-- The loop that decides from the front of the queue as long as it can. -/
def reserveFronts (lastSettledVersion : Nat) :
    Nat → AccountState → List PendingWithdraw → Exec (AccountState × List PendingWithdraw)
  | 0, _, _ => .error .outOfFuel
  | fuel + 1, a, withdraws => do
    let (decided, a, withdraws) ← a.tryReserveFront withdraws lastSettledVersion
    if decided then reserveFronts lastSettledVersion fuel a withdraws
    else return (a, withdraws)

/-- A balance that is already newer than the settlement stays as it is. -/
def updateBalance (a : AccountState) (settled : Int) (nextVersion : Nat) : Exec AccountState :=
  if a.lastUpdatedVersion < nextVersion then do
    let newBalance ← Exec.unwrap (checkedAddI128 (asI128 a.lastUpdatedBalance) settled)
      .balanceOverflow
    Exec.require (0 ≤ newBalance) .negativeBalance
    return { a with lastUpdatedBalance := newBalance.toNat, lastUpdatedVersion := nextVersion }
  else
    return a

def settleFunds (a : AccountState) (withdraws : List PendingWithdraw) (settled : Int)
    (nextVersion : Nat) : Exec (AccountState × List PendingWithdraw) := do
  let a ← a.updateBalance settled nextVersion
  let reservedFunds ← a.reservedFunds.settleFund nextVersion
  reserveFronts nextVersion (a.pendingReservations.length + 1) { a with reservedFunds } withdraws

def isEmpty (a : AccountState) : Bool :=
  a.pendingReservations.isEmpty && a.reservedFunds.reservedFunds.isEmpty

end AccountState

/-! ### The scheduler -/

/-- A read of an account from storage: its balance, and the version it is consistent with. -/
abbrev AccountFundsRead := AccumulatorObjId → Nat × Nat

structure EagerFundsWithdrawScheduler where
  trackedAccounts : BTreeMap AccumulatorObjId AccountState := ∅
  /-- The accounts with a withdraw at each version that is not settled. -/
  pendingSettlements : BTreeMap Nat (BTreeSet AccumulatorObjId) := ∅
  accumulatorVersion : Nat
  /-- The cells that the queues share. -/
  withdraws : List PendingWithdraw := []

namespace EagerFundsWithdrawScheduler

def new (startingAccumulatorVersion : Nat) : EagerFundsWithdrawScheduler :=
  { accumulatorVersion := startingAccumulatorVersion }

/-- Reads the balances of untracked accounts, and gives up on one that is ahead of the batch. -/
def initBalances (fundsRead : AccountFundsRead) (accumulatorVersion : Nat)
    (untracked : List AccumulatorObjId) : Option (BTreeMap AccumulatorObjId (Nat × Nat)) :=
  untracked.foldlM (fun m x =>
    if (fundsRead x).2 > accumulatorVersion then none else some (m.insert x (fundsRead x))) ∅

def untrackedAccounts (s : EagerFundsWithdrawScheduler) (r : WithdrawReservations) :
    List AccumulatorObjId :=
  r.allAccounts.toList.filter fun x => !s.trackedAccounts.contains x

/-- The entry of an account, started from the balance that was read. -/
def entry (s : EagerFundsWithdrawScheduler) (init : BTreeMap AccumulatorObjId (Nat × Nat))
    (x : AccumulatorObjId) : Exec AccountState :=
  match s.trackedAccounts[x]? with
  | some a => return a
  | none => do
    let (balance, version) ← Exec.unwrap init[x]? .balanceNotRead
    return AccountState.new x balance version

def reserveAccount (init : BTreeMap AccumulatorObjId (Nat × Nat)) (i : Nat)
    (s : EagerFundsWithdrawScheduler) (x : AccumulatorObjId) :
    Exec EagerFundsWithdrawScheduler := do
  let a ← s.entry init x
  let (_, a, withdraws) ← a.tryReserveNewWithdraw s.withdraws i s.accumulatorVersion
  return { s with trackedAccounts := s.trackedAccounts.insert x a, withdraws }

def scheduleWithdraw (init : BTreeMap AccumulatorObjId (Nat × Nat)) (accumulatorVersion : Nat)
    (p : EagerFundsWithdrawScheduler × BTreeMap TransactionDigest ScheduleResult)
    (withdraw : TxFundsWithdraw) :
    Exec (EagerFundsWithdrawScheduler × BTreeMap TransactionDigest ScheduleResult) := do
  let i := p.1.withdraws.length
  let withdraws := p.1.withdraws ++ [PendingWithdraw.new accumulatorVersion withdraw]
  let s ← withdraw.reservations.keys.foldlM (reserveAccount init i) { p.1 with withdraws }
  let w ← Exec.unwrap s.withdraws[i]? .danglingWithdraw
  return (s, p.2.insert w.txDigest (w.result i))

def scheduleWithdraws (s : EagerFundsWithdrawScheduler) (fundsRead : AccountFundsRead)
    (r : WithdrawReservations) :
    Exec (BTreeMap TransactionDigest ScheduleResult × EagerFundsWithdrawScheduler) :=
  if r.accumulatorVersion < s.accumulatorVersion then
    return (r.notifySkipSchedule, s)
  else
    match initBalances fundsRead r.accumulatorVersion (s.untrackedAccounts r) with
    | none => return (r.notifySkipSchedule, s)
    | some init => do
      let (s, results) ← r.withdraws.foldlM (scheduleWithdraw init r.accumulatorVersion) (s, ∅)
      Exec.require (r.accumulatorVersion ∉ s.pendingSettlements) .versionScheduledTwice
      let pendingSettlements := s.pendingSettlements.insert r.accumulatorVersion r.allAccounts
      return (results, { s with pendingSettlements })

/-- The accounts with withdraws at the settled version or at the next one, and those
whose funds change. -/
def affectedAccounts (s : EagerFundsWithdrawScheduler) (settlement : FundsSettlement) :
    BTreeSet AccumulatorObjId :=
  let settled := (s.pendingSettlements[s.accumulatorVersion]?).getD ∅
  let current := (s.pendingSettlements[settlement.nextAccumulatorVersion]?).getD ∅
  (current.toList ++ settlement.fundsChanges.keys).foldl (fun t x => t.insert x) settled

def settleAccount (settlement : FundsSettlement) (s : EagerFundsWithdrawScheduler)
    (x : AccumulatorObjId) : Exec EagerFundsWithdrawScheduler :=
  match s.trackedAccounts[x]? with
  | none => return s
  | some a => do
    let (a, withdraws) ← a.settleFunds s.withdraws ((settlement.fundsChanges[x]?).getD 0)
      settlement.nextAccumulatorVersion
    let trackedAccounts :=
      if a.isEmpty then s.trackedAccounts.erase x else s.trackedAccounts.insert x a
    return { s with trackedAccounts, withdraws }

def settleFunds (s : EagerFundsWithdrawScheduler) (settlement : FundsSettlement) :
    Exec EagerFundsWithdrawScheduler :=
  if settlement.nextAccumulatorVersion ≤ s.accumulatorVersion then
    return s
  else do
    Exec.require (settlement.nextAccumulatorVersion = s.accumulatorVersion + 1)
      .settlementOutOfOrder
    let bumped : EagerFundsWithdrawScheduler := { s with
      accumulatorVersion := settlement.nextAccumulatorVersion
      pendingSettlements := s.pendingSettlements.erase s.accumulatorVersion }
    (s.affectedAccounts settlement).toList.foldlM (settleAccount settlement) bumped

end EagerFundsWithdrawScheduler

end Sui.FundsWithdraw
