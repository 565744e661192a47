import Sui.FundsWithdraw.Invariant

/-! Scheduling a batch.

Inside a batch the version of the batch is the highest in use, so a withdraw joins the
end of every queue. The loops over the accounts of a withdraw and over the withdraws of
a batch run to their end and keep the invariant (`scheduleWithdraw_foldlM`); the cells
and the results of a batch are described by `Cells` and `Reports`. -/
namespace Sui.FundsWithdraw

open Sui.Lib BTreeMap Exec Reservation List Function AccountState FundsWithdraw.Frame

variable {L : Ledger} {R : Requests} {g : History} {ws : List PendingWithdraw}
  {x : AccumulatorObjId}

/-- The loop that reads storage: every account is read at a version that is not too late. -/
theorem readAll_foldlM {fundsRead : AccountFundsRead} (read : AccumulatorObjId → β)
    {l : List AccumulatorObjId} {m m' : BTreeMap AccumulatorObjId β} (h : l.foldlM (fun m x =>
      if (fundsRead x).2 > v then none else some (m.insert x (read x))) m = some m') :
    (∀ x, x ∉ l → m'[x]? = m[x]?) ∧ ∀ x ∈ l, m'[x]? = some (read x) ∧ (fundsRead x).2 ≤ v := by
  induction l generalizing m with
  | nil =>
    rw [foldlM_nil] at h
    cases h
    exact ⟨fun _ _ => rfl, nofun⟩
  | cons y rest ih =>
    rw [foldlM_cons] at h
    by_cases hy : (fundsRead y).2 > v
    · rw [if_pos hy] at h
      cases h
    · rw [if_neg hy] at h
      obtain ⟨hout, hin⟩ := ih h
      refine ⟨fun x hx => ?_, fun x hx => ?_⟩
      · rw [mem_cons, not_or] at hx
        rw [hout x hx.2, get_insert, if_neg (Ne.symm hx.1)]
      · by_cases hrest : x ∈ rest
        · exact hin x hrest
        · have hxy : x = y := (mem_cons.mp hx).resolve_right hrest
          subst hxy
          exact ⟨by rw [hout x hrest, get_insert_self], Nat.le_of_not_lt hy⟩

/-! ### A new account, a new cell, a new request -/

section
variable (h : Inv L F R g t ws)
include h

/-- One account changes, and the requests with its queue. -/
theorem Inv.update (hsome : ∀ b, o = some b → AccountInv L F g ws x b)
    (hnone : o = none → granted (g x (F.settled x)) = 0 ∧ ∀ v, F.settled x < v → g x v = [])
    (hself : ∀ v, (g x v).map (·.toRequest) ++
      queuedRequests ws x v ((o.map (·.pendingReservations)).getD []) = R' x v)
    (hother : ∀ y, y ≠ x → R' y = R y) : Inv L F R' g (Function.update t x o) ws := by
  refine ⟨fun y b hb => ?_, fun y hy => ?_, h.greedy, h.ahead, h.versions, h.version_le_top, h.decided,
    h.sent, fun y v => ?_⟩
  all_goals by_cases hyx : y = x
  · subst hyx
    exact hsome b (by simpa using hb)
  · exact h.account y b (by simpa [hyx] using hb)
  · subst hyx
    exact hnone (by simpa using hy)
  · exact h.untracked y (by simpa [hyx] using hy)
  · subst hyx
    simpa [queue] using hself v
  · rw [hother y hyx, ← h.requests y v]
    simp [queue, hyx]

/-- The account starts from the balance that was read. -/
theorem Inv.track (hx : t x = none) {balance version : Nat}
    (hbalance : (balance : Int) = L version x) (hver : F.settled x ≤ version)
    (htop : version ≤ F.top) : Inv L F R g (Function.update t x (some (new x balance version))) ws := by
  obtain ⟨hzero, hnone⟩ := h.untracked x hx
  refine h.update (fun b hb => ?_) nofun (fun v => ?_) fun _ _ => rfl
  · cases hb
    refine ⟨rfl, ReservedFunds.ok_empty _, Nat.zero_le _, ?_, ?_, ?_, htop, ?_, List.Pairwise.nil, ?_, ?_⟩
    · show (balance : Int) = L (max (F.settled x) version) x
      rw [max_eq_right hver, hbalance]
    · intro v hv
      rcases Nat.eq_or_lt_of_le hv with rfl | hlt
      · exact hzero.symm
      · rw [hnone v hlt]
        rfl
    · intro v hv hne
      exact absurd (hnone v hv) hne
    all_goals simp [new, ReservedFunds.versions]
  · rw [← h.requests x v]
    simp [queue, hx, new]

/-- A decision's ticket is the position of a cell. -/
theorem Inv.ticket_lt (hd : d ∈ g x v) : d.ticket < ws.length := by
  obtain ⟨o, ho, -⟩ := h.decided x v d hd
  exact lt_of_seen ho

theorem Inv.queued (hi : i ∈ queue t x) : ∃ v n, seen ws x i = some (v, some n) ∧ F.registered v x := by
  unfold queue at hi
  cases ha : t x with
  | none => simp [ha] at hi
  | some a =>
    obtain ⟨v, n, hs, hwait⟩ := (h.account x a ha).waiting i (by simpa [ha] using hi)
    exact ⟨v, n, hs, hwait.registered⟩

theorem Inv.queue_lt (hi : i ∈ queue t x) : i < ws.length := by
  obtain ⟨v, n, hs, -⟩ := h.queued hi
  exact lt_of_seen hs

theorem Inv.alloc (withdraw : TxFundsWithdraw) : Inv L F R g t (ws ++ [PendingWithdraw.new F.top withdraw]) := by
  refine ⟨?_, h.untracked, h.greedy, h.ahead, ?_, ?_, ?_, ?_, ?_⟩
  · intro y b hb
    exact (h.account y b hb).congr rfl (fun i hi => seen_append (h.queue_lt (queue_of hb ▸ hi)))
      rfl le_rfl fun _ _ h => h
  · rw [map_append]
    refine pairwise_append.mpr ⟨h.versions, by simp, ?_⟩
    intro v hv v' hv'
    rw [mem_singleton.mp hv']
    exact h.version_le_top v hv
  · rw [map_append]
    intro v hv
    rcases mem_concat.mp hv with hv | rfl
    · exact h.version_le_top v hv
    · exact le_rfl
  · intro y v d hd
    rw [seen_append (h.ticket_lt hd)]
    exact h.decided y v d hd
  · intro i w hw
    by_cases hi : i < ws.length
    · rw [List.getElem?_append_left hi] at hw
      exact h.sent i w hw
    · -- The new cell: no decision has its position as ticket.
      have hlen : i = ws.length := by
        have := (List.getElem?_eq_some_iff.mp hw).1
        rw [length_append, length_singleton] at this
        omega
      subst hlen
      rw [List.getElem?_append_right le_rfl, Nat.sub_self] at hw
      cases hw
      have hno : ¬∃ y, ∃ d ∈ g y F.top, d.ticket = ws.length := by
        intro ⟨y, d, hd, hticket⟩
        exact absurd (h.ticket_lt hd) (by omega)
      refine ⟨fun h => (by cases h), ⟨fun h => (by cases h), ?_⟩, ?_, fun h => by cases h⟩
      · intro ⟨y, d, hd, hticket, _⟩
        exact absurd ⟨y, d, hd, hticket⟩ hno
      · intro _ hex
        exact absurd hex hno
  · intro y v
    rw [← h.requests y v, queuedRequests_congr fun i hi => seen_append (h.queue_lt hi)]

end

def Requests.add (R : Requests) (x : AccumulatorObjId) (v : Nat) (r : Request) : Requests :=
  fun y u => if y = x ∧ u = v then R y u ++ [r] else R y u

/-- A withdraw at the highest version joins the end of a queue. -/
theorem Inv.enqueue (h : Inv L F R g t ws) (ha : t x = some a) (hs : seen ws x i = some (F.top, some n))
    (hsettled : F.settled x ≤ F.top)
    (hqueue : ∀ j ∈ a.pendingReservations, j < i) (htickets : ∀ v, ∀ d ∈ g x v, d.ticket < i)
    (hreg : F.registered F.top x) :
    Inv L F (R.add x F.top ⟨i, n.toNat⟩) g
      (Function.update t x (some { a with pendingReservations := a.pendingReservations ++ [i] }))
      ws := by
  have hacc := h.account x a ha
  refine h.update (fun b hb => ?_) nofun (fun v => ?_) fun y hy => ?_
  · cases hb
    refine ⟨hacc.accountId, hacc.funds, hacc.covered, hacc.balance, hacc.reserved, hacc.present,
      hacc.updated_le_top, hacc.versions, ?_, ?_, ?_⟩
    · refine pairwise_append.mpr ⟨hacc.ordered, by simp, ?_⟩
      intro j hj k hk
      rw [mem_singleton.mp hk]
      exact hqueue j hj
    · intro j hj
      rcases mem_concat.mp hj with hj | rfl
      · obtain ⟨v, m, hj, hwait⟩ := hacc.waiting j hj
        exact ⟨v, m, hj, hwait.settled_le, hwait.updated_le, hwait.reserved_le, hwait.registered⟩
      · exact ⟨_, n, hs, hsettled, hacc.updated_le_top, fun v hv => (hacc.versions v hv).2.1, hreg⟩
    · intro j hj v d hd
      rcases mem_concat.mp hj with hj | rfl
      · exact hacc.later j hj v d hd
      · exact htickets v d hd
  · have hreq := h.requests x v
    rw [queue_of ha] at hreq
    have happend : queuedRequests ws x v (a.pendingReservations ++ [i]) =
        queuedRequests ws x v a.pendingReservations ++ if v = F.top then [⟨i, n.toNat⟩] else [] := by
      unfold queuedRequests
      rw [filterMap_append]
      congr 1
      by_cases hv : v = F.top
      · simp [hs, hv]
      · simp [hs, hv, Ne.symm hv]
    rw [Option.map_some, Option.getD_some, happend, ← append_assoc, hreq]
    by_cases hv : v = F.top
    · simp [Requests.add, hv]
    · simp [Requests.add, hv]
  · funext v
    simp [Requests.add, hy]

/-! ### Between calls -/

/-- The withdraws of a queue read versions above `v`. -/
def Later (v : Nat) (ws : List PendingWithdraw) (x : AccumulatorObjId) (queue : List Nat) : Prop :=
  ∀ i ∈ queue, ∀ s ∈ seen ws x i, v < s.1

/-- No withdraw waits at the version its account is settled at. -/
structure AtRest (L : Ledger) (F : Frame) (R : Requests) (g : History)
    (t : AccumulatorObjId → Option AccountState) (ws : List PendingWithdraw) : Prop
    extends Inv L F R g t ws where
  rested : ∀ y, Later (F.settled y) ws y (queue t y)

/-- Only account `x` has moved. -/
theorem AtRest.update (h : AtRest L F R g t ws) (hinv : Inv L F' R' g' (Function.update t x o) ws')
    (htouched : Touched x ws ws') (hsettled : ∀ y, y ≠ x → F'.settled y = F.settled y)
    (hx : Later (F'.settled x) ws' x ((o.map (·.pendingReservations)).getD [])) :
    AtRest L F' R' g' (Function.update t x o) ws' := by
  refine ⟨hinv, fun y => ?_⟩
  by_cases hy : y = x
  · subst hy
    simpa [queue] using hx
  · intro i hi
    rw [htouched.elsewhere y hy, hsettled y hy]
    exact h.rested y i (by simpa [queue, hy] using hi)

/-- The frame of a batch: every account is settled at version `c`. -/
def Frame.rest (c top : Nat) (registered : Nat → AccumulatorObjId → Prop) : Frame :=
  ⟨fun _ => c, top, registered⟩

/-! ### A batch -/

section Batch
variable {c top : Nat} {P : Nat → AccumulatorObjId → Prop} {ws : List PendingWithdraw}
  {w : TxFundsWithdraw} {result : ScheduleResult} {base : Nat}
  {results : BTreeMap TransactionDigest ScheduleResult}

theorem tryReserveNewWithdraw_spec (hfits : Exec.Returns L.Small (a.tryReserveNewWithdraw ws i c))
    (h : AtRest L (rest c top P) R g t ws) (hc : c ≤ top) (ha : t x = some a) {n : UInt64}
    (hs : seen ws x i = some (top, some n)) (hqueue : ∀ j ∈ a.pendingReservations, j < i)
    (htickets : ∀ v, ∀ d ∈ g x v, d.ticket < i) (hreg : P top x) :
    ∃ b a' ws' g', a.tryReserveNewWithdraw ws i c = .ok (b, a', ws') ∧
      AtRest L (rest c top P) (R.add x top ⟨i, n.toNat⟩) g' (Function.update t x (some a')) ws' ∧
      Touched x ws ws' ∧ ∀ y, y ≠ x → g' y = g y := by
  have hpush := h.enqueue ha hs hc hqueue htickets hreg
  have hrested : Later c ws x a.pendingReservations := queue_of ha ▸ h.rested x
  unfold tryReserveNewWithdraw at hfits ⊢
  cases hlast : a.pendingReservations.getLast? with
  | some previous =>
    have hprev : previous ∈ a.pendingReservations := mem_of_getLast? hlast
    obtain ⟨v, m, hp, -⟩ := (h.account x a ha).waiting previous hprev
    have hle : v ≤ top := h.le_top hp
    have hlt : c < v := hrested previous hprev _ hp
    have hcheck : checkOrder ws previous i = .ok () := by
      obtain ⟨p, hq, rfl, -⟩ := seen_eq_some.mp hp
      obtain ⟨w, hw, rfl, -⟩ := seen_eq_some.mp hs
      unfold checkOrder
      rw [bind_unwrap hq, bind_unwrap hw]
      exact require_of hle
    refine ⟨false, _, ws, g, ?_, h.update hpush (Touched.refl x ws) (fun _ _ => rfl) ?_,
      Touched.refl x ws, fun _ _ => rfl⟩
    · simp only [bind_ok hcheck]
      rfl
    · intro j hj s hjs
      rcases mem_concat.mp hj with hj | rfl
      · exact hrested j hj s hjs
      · cases hs.symm.trans hjs
        exact hlt.trans_le hle
  | none =>
    have hnil : a.pendingReservations = [] := List.getLast?_eq_none_iff.mp hlast
    simp only [hlast] at hfits ⊢
    rcases tryReserveFront_spec hfits hpush (update_self ..)
      (show _ = i :: [] by simp [hnil]) with
      ⟨v, d, a', ws', hrun, hrest, hinv, htouched⟩ | ⟨hrun, hlater⟩
    · rw [update_idem] at hinv
      refine ⟨true, a', ws', _, hrun, h.update hinv htouched (fun _ _ => rfl) ?_, htouched,
        fun y hy => History.record_of_ne g d hy⟩
      rw [Option.map_some, Option.getD_some, hrest]
      exact fun j hj => by cases hj
    · refine ⟨false, _, ws, g, hrun, h.update hpush (Touched.refl x ws) (fun _ _ => rfl) ?_,
        Touched.refl x ws, fun _ _ => rfl⟩
      intro j hj
      have hji : j = i := by simpa [hnil] using hj
      subst hji
      exact hlater

namespace EagerFundsWithdrawScheduler

def accounts (s : EagerFundsWithdrawScheduler) : AccumulatorObjId → Option AccountState :=
  fun x => s.trackedAccounts[x]?

theorem accounts_insert (s : EagerFundsWithdrawScheduler) (x : AccumulatorObjId) (a : AccountState) :
    (fun y => (s.trackedAccounts.insert x a)[y]?) = Function.update s.accounts x (some a) := by
  funext y
  rw [get_insert]
  by_cases hy : x = y
  · subst hy
    simp
  · rw [if_neg hy, update_of_ne (Ne.symm hy)]
    rfl

theorem accounts_erase (s : EagerFundsWithdrawScheduler) (x : AccumulatorObjId) :
    (fun y => (s.trackedAccounts.erase x)[y]?) = Function.update s.accounts x none := by
  funext y
  rw [get_erase]
  by_cases hy : x = y
  · subst hy
    simp
  · rw [if_neg hy, update_of_ne (Ne.symm hy)]
    rfl

/-- Only the accounts and the cells differ. -/
structure SameBooks (s s' : EagerFundsWithdrawScheduler) : Prop where
  accumulatorVersion : s'.accumulatorVersion = s.accumulatorVersion
  pendingSettlements : s'.pendingSettlements = s.pendingSettlements

theorem SameBooks.refl (s : EagerFundsWithdrawScheduler) : SameBooks s s := ⟨rfl, rfl⟩

theorem SameBooks.trans (h : SameBooks s s') (h' : SameBooks s' s'') : SameBooks s s'' :=
  ⟨h'.accumulatorVersion.trans h.accumulatorVersion, h'.pendingSettlements.trans h.pendingSettlements⟩

/-- What the reservation of cell `i` on account `y` finds. -/
structure Ready (L : Ledger) (c top : Nat) (P : Nat → AccumulatorObjId → Prop)
    (reservations : BTreeMap AccumulatorObjId UInt64)
    (init : BTreeMap AccumulatorObjId (Nat × Nat)) (i : Nat) (s : EagerFundsWithdrawScheduler)
    (g : History) (y : AccumulatorObjId) : Prop where
  amount : ∃ n, reservations[y]? = some n ∧ seen s.withdraws y i = some (top, some n)
  tickets : ∀ v, ∀ d ∈ g y v, d.ticket < i
  queued : ∀ j ∈ queue s.accounts y, j < i
  balance : s.accounts y = none →
    ∃ b u : Nat, init[y]? = some (b, u) ∧ (b : Int) = L u y ∧ c ≤ u ∧ u ≤ top
  registered : P top y

variable {s : EagerFundsWithdrawScheduler} {reservations : BTreeMap AccumulatorObjId UInt64}
  {init : BTreeMap AccumulatorObjId (Nat × Nat)} {i : Nat}

theorem entry_spec (h : AtRest L (rest c top P) R g s.accounts s.withdraws)
    (hready : Ready L c top P reservations init i s g x) :
    ∃ a, s.entry init x = .ok a ∧ a.pendingReservations = queue s.accounts x ∧
      AtRest L (rest c top P) R g (Function.update s.accounts x (some a)) s.withdraws := by
  unfold entry
  cases ha : s.trackedAccounts[x]? with
  | some a =>
    have hself : update s.accounts x (some a) = s.accounts := by
      rw [← ha]
      exact update_eq_self ..
    refine ⟨a, rfl, by simp [queue, accounts, ha], ?_⟩
    rw [hself]
    exact h
  | none =>
    obtain ⟨b, u, hinit, hb, hcu, hu⟩ := hready.balance ha
    refine ⟨AccountState.new x b u, ?_, by simp [queue, accounts, ha, AccountState.new],
      h.update (h.track ha hb hcu hu) (Touched.refl ..) (fun _ _ => rfl) fun j hj => by cases hj⟩
    simp only [bind_unwrap hinit]
    rfl

theorem reserveAccount_spec (hfits : Exec.Returns L.Small (reserveAccount init i s x))
    (h : AtRest L (rest c top P) R g s.accounts s.withdraws) (hc : c ≤ top) (hversion : s.accumulatorVersion = c)
    (hready : Ready L c top P reservations init i s g x) :
    ∃ s' g' n, reserveAccount init i s x = .ok s' ∧ reservations[x]? = some n ∧
      AtRest L (rest c top P) (R.add x top ⟨i, n.toNat⟩) g' s'.accounts s'.withdraws ∧
      SameBooks s s' ∧ Evolves s.withdraws s'.withdraws ∧
      (∀ y, s'.accounts y = none → s.accounts y = none) ∧
      ∀ y, y ≠ x → Ready L c top P reservations init i s g y → Ready L c top P reservations init i s' g' y := by
  obtain ⟨n, hres, hs⟩ := hready.amount
  obtain ⟨a, hentry, hqueue, htracked⟩ := entry_spec h hready
  unfold reserveAccount at hfits ⊢
  rw [bind_ok hentry, hversion] at hfits ⊢
  obtain ⟨b, a', ws', g', hrun, hinv, htouched, hg⟩ :=
    tryReserveNewWithdraw_spec hfits.first htracked hc (update_self ..) hs
      (fun j hj => hready.queued j (hqueue ▸ hj)) hready.tickets hready.registered
  rw [update_idem] at hinv
  have haccounts : (⟨s.trackedAccounts.insert x a', s.pendingSettlements, s.accumulatorVersion,
      ws'⟩ : EagerFundsWithdrawScheduler).accounts = update s.accounts x (some a') :=
    accounts_insert s x a'
  refine ⟨{ s with trackedAccounts := s.trackedAccounts.insert x a', withdraws := ws' }, g', n, ?_,
    hres, ?_, ⟨rfl, rfl⟩, htouched.toEvolves, ?_, ?_⟩
  · rw [bind_ok hrun, hversion]
    rfl
  · rw [haccounts]
    exact hinv
  · intro y hy
    rw [haccounts] at hy
    by_cases hyx : y = x
    · subst hyx
      simp at hy
    · rwa [update_of_ne hyx] at hy
  · intro y hyx hy
    have hsame : update s.accounts x (some a') y = s.accounts y := update_of_ne hyx ..
    refine ⟨?_, ?_, ?_, ?_, hy.registered⟩
    · rw [htouched.elsewhere y hyx]
      exact hy.amount
    · rw [hg y hyx]
      exact hy.tickets
    · rw [haccounts]
      simp only [queue, hsame]
      exact hy.queued
    · rw [haccounts, hsame]
      exact hy.balance

/-- The loop over the accounts of one withdraw. -/
theorem reserveAccounts_spec {accounts : List AccumulatorObjId}
    (hfits : Exec.Returns L.Small (accounts.foldlM (reserveAccount init i) s)) (hc : c ≤ top)
    (hnodup : accounts.Nodup) (h : AtRest L (rest c top P) R g s.accounts s.withdraws)
    (hversion : s.accumulatorVersion = c) (hready : ∀ y ∈ accounts, Ready L c top P reservations init i s g y) :
    ∃ s' g' R', accounts.foldlM (reserveAccount init i) s = .ok s' ∧
      AtRest L (rest c top P) R' g' s'.accounts s'.withdraws ∧
      SameBooks s s' ∧ Evolves s.withdraws s'.withdraws ∧
      (∀ y, s'.accounts y = none → s.accounts y = none) ∧
      ∀ y u, R' y u = R y u ++
        if u = top ∧ y ∈ accounts then (reservations[y]?.map fun n => ⟨i, n.toNat⟩).toList else [] := by
  induction accounts generalizing s g R with
  | nil =>
    exact ⟨s, g, R, rfl, h, SameBooks.refl s, Evolves.refl _, fun _ h => h, fun y u => by simp⟩
  | cons x rest ih =>
    obtain ⟨hx, hrest⟩ := nodup_cons.mp hnodup
    rw [foldlM_cons] at hfits
    obtain ⟨s₁, g₁, n, hrun, hn, hinv, hsame, hevolves, hnone, hready₁⟩ :=
      reserveAccount_spec hfits.first h hc hversion (hready x (.head _))
    obtain ⟨s', g', R', hrun', hinv', hsame', hevolves', hnone', hR⟩ :=
      ih (hfits.second hrun) hrest hinv (hsame.accumulatorVersion.trans hversion) (fun y hy =>
        hready₁ y (fun hyx => hx (hyx ▸ hy)) (hready y (.tail _ hy)))
    refine ⟨s', g', R', foldlM_cons_eq_ok.mpr ⟨s₁, hrun, hrun'⟩, hinv', hsame.trans hsame',
      hevolves.trans hevolves', fun y hy => hnone y (hnone' y hy), fun y u => ?_⟩
    rw [hR y u]
    by_cases hyx : y = x
    · subst hyx
      by_cases hu : u = top
      · simp [Requests.add, hu, hx, hn]
      · simp [Requests.add, hu]
    · simp [Requests.add, hyx]

end EagerFundsWithdrawScheduler

/-- The requests that the withdraws of a batch make of an account; the first one has
position `base`. -/
def batchRequests (y : AccumulatorObjId) (base : Nat) (withdraws : List TxFundsWithdraw) :
    List Request :=
  (withdraws.zipIdx base).flatMap fun p =>
    (p.1.reservations[y]?.map fun n => ⟨p.2, n.toNat⟩).toList

theorem batchRequests_concat (y : AccumulatorObjId) (base : Nat) (withdraws : List TxFundsWithdraw)
    (w : TxFundsWithdraw) :
    batchRequests y base (withdraws ++ [w]) = batchRequests y base withdraws ++
      (w.reservations[y]?.map fun n => ⟨base + withdraws.length, n.toNat⟩).toList := by
  simp [batchRequests, zipIdx_append]

/-- The cells of a batch. -/
def Cells (version base : Nat) (withdraws : List TxFundsWithdraw) (ws : List PendingWithdraw) :
    Prop :=
  ∀ (j : Nat) (w : TxFundsWithdraw), withdraws[j]? = some w → ∃ cell : PendingWithdraw,
    ws[base + j]? = some cell ∧ cell.accumulatorVersion = version ∧ cell.txDigest = w.txDigest ∧
    ∀ (y : AccumulatorObjId) (n : UInt64), cell.pending[y]? = some n → w.reservations[y]? = some n

theorem Cells.grows (h : Cells version base withdraws ws) (hg : Grows ws ws') :
    Cells version base withdraws ws' := by
  intro j w hw
  obtain ⟨cell, hcell, hv, hd, hp⟩ := h j w hw
  obtain ⟨cell', hcell', hv', hd', hp', -⟩ := hg _ cell hcell
  exact ⟨cell', hcell', hv'.trans hv, hd'.trans hd, fun y n hn => hp y n (hp' y n hn)⟩

/-- Position `j` is the last of the transactions with digest `d`. -/
def LastAt (withdraws : List TxFundsWithdraw) (d : TransactionDigest) (j : Nat) : Prop :=
  (∃ w, withdraws[j]? = some w ∧ w.txDigest = d) ∧
    ∀ (k : Nat) (w : TxFundsWithdraw), withdraws[k]? = some w → w.txDigest = d → k ≤ j

theorem lastAt_length (withdraws : List TxFundsWithdraw) (w : TxFundsWithdraw) :
    LastAt (withdraws ++ [w]) w.txDigest withdraws.length := by
  refine ⟨⟨w, by simp, rfl⟩, fun k w' hw' _ => ?_⟩
  have hk := (List.getElem?_eq_some_iff.mp hw').1
  rw [length_append, length_singleton] at hk
  omega

theorem LastAt.concat (h : LastAt withdraws d j) (hd : w.txDigest ≠ d) : LastAt (withdraws ++ [w]) d j := by
  obtain ⟨⟨w₀, hw₀, hd₀⟩, hlast⟩ := h
  have hj := (List.getElem?_eq_some_iff.mp hw₀).1
  refine ⟨⟨w₀, by rw [List.getElem?_append_left hj, hw₀], hd₀⟩, fun k w' hw' hd' => ?_⟩
  by_cases hk : k < withdraws.length
  · rw [List.getElem?_append_left hk] at hw'
    exact hlast k w' hw' hd'
  · rw [List.getElem?_append_right (Nat.le_of_not_lt hk)] at hw'
    rw [mem_singleton.mp (mem_of_getElem? hw')] at hd'
    exact absurd hd' hd

/-- What is reported for the cell at position `i`. -/
def ResultOf (ws : List PendingWithdraw) (i : Nat) (result : ScheduleResult) : Prop :=
  result = .pending i ∨ ∃ (status : ScheduleStatus) (cell : PendingWithdraw),
    result = .scheduleResult status ∧ ws[i]? = some cell ∧ cell.sent = some status

theorem ResultOf.grows (h : ResultOf ws i result) (hg : Grows ws ws') : ResultOf ws' i result := by
  rcases h with h | ⟨status, cell, h, hcell, hsent⟩
  · exact .inl h
  · obtain ⟨cell', hcell', -, -, -, hs⟩ := hg i cell hcell
    exact .inr ⟨status, cell', h, hcell', hs status hsent⟩

/-- The results of a batch: of two withdraws with one digest, the later one's. -/
structure Reports (base : Nat) (withdraws : List TxFundsWithdraw) (ws : List PendingWithdraw)
    (results : BTreeMap TransactionDigest ScheduleResult) : Prop where
  result : ∀ (d : TransactionDigest) (result : ScheduleResult), results[d]? = some result →
    ∃ j, LastAt withdraws d j ∧ ResultOf ws (base + j) result
  complete : ∀ w ∈ withdraws, w.txDigest ∈ results

theorem Reports.grows (h : Reports base withdraws ws results) (hg : Grows ws ws') :
    Reports base withdraws ws' results := by
  refine ⟨fun d result hd => ?_, h.complete⟩
  obtain ⟨j, hlast, hres⟩ := h.result d result hd
  exact ⟨j, hlast, hres.grows hg⟩

theorem Reports.concat (h : Reports base withdraws ws results)
    (hres : ResultOf ws (base + withdraws.length) result) :
    Reports base (withdraws ++ [w]) ws (results.insert w.txDigest result) := by
  refine ⟨fun d r hr => ?_, fun w' hw' => ?_⟩
  · rcases insert_eq_some.mp hr with ⟨rfl, rfl⟩ | ⟨hd, hr⟩
    · exact ⟨_, lastAt_length withdraws w, hres⟩
    · obtain ⟨j, hlast, hres₀⟩ := h.result d r hr
      exact ⟨j, hlast.concat hd, hres₀⟩
  · rw [BTreeMap.mem_insert_iff]
    rcases mem_concat.mp hw' with hw' | rfl
    · exact .inr (h.complete w' hw')
    · exact .inl rfl

namespace EagerFundsWithdrawScheduler

/-- The state after the first withdraws of a batch. -/
structure Scheduled (L : Ledger) (c top : Nat) (P : Nat → AccumulatorObjId → Prop) (R : Requests)
    (s : EagerFundsWithdrawScheduler) (done : List TxFundsWithdraw)
    (s' : EagerFundsWithdrawScheduler) (results : BTreeMap TransactionDigest ScheduleResult) :
    Prop where
  inv : ∃ g R', AtRest L (Frame.rest c top P) R' g s'.accounts s'.withdraws ∧
    ∀ y u, R' y u = R y u ++
      if u = top then batchRequests y s.withdraws.length done else []
  same : SameBooks s s'
  length_eq : s'.withdraws.length = s.withdraws.length + done.length
  grows : Grows s.withdraws s'.withdraws
  untracked : ∀ y, s'.accounts y = none → s.accounts y = none
  cells : Cells top s.withdraws.length done s'.withdraws
  reports : Reports s.withdraws.length done s'.withdraws results

variable {s : EagerFundsWithdrawScheduler} {init : BTreeMap AccumulatorObjId (Nat × Nat)}

theorem scheduleWithdraw_spec {done : List TxFundsWithdraw} {w : TxFundsWithdraw}
    {s₁ : EagerFundsWithdrawScheduler} {results : BTreeMap TransactionDigest ScheduleResult}
    (hfits : Exec.Returns L.Small (scheduleWithdraw init top (s₁, results) w)) (hc : c ≤ top)
    (hversion : s.accumulatorVersion = c) (h : Scheduled L c top P R s done s₁ results)
    (hinit : ∀ y ∈ w.reservations, s.accounts y = none →
      ∃ b u : Nat, init[y]? = some (b, u) ∧ (b : Int) = L u y ∧ c ≤ u ∧ u ≤ top)
    (hreg : ∀ y ∈ w.reservations, P top y) :
    ∃ s' results', scheduleWithdraw init top (s₁, results) w = .ok (s', results') ∧
      Scheduled L c top P R s (done ++ [w]) s' results' := by
  obtain ⟨g, R₁, hinv, hR⟩ := h.inv
  let s₂ : EagerFundsWithdrawScheduler := { s₁ with withdraws := s₁.withdraws ++ [PendingWithdraw.new top w] }
  have hnew : s₂.withdraws[s₁.withdraws.length]? = some (PendingWithdraw.new top w) := List.getElem?_concat_length
  have hgrows₂ : Grows s₁.withdraws s₂.withdraws := Grows.append _ _
  have halloc : AtRest L (rest c top P) R₁ g s₂.accounts s₂.withdraws := by
    refine ⟨hinv.alloc w, fun y j hj => ?_⟩
    rw [seen_append (hinv.queue_lt hj)]
    exact hinv.rested y j hj
  have hversion₂ : s₂.accumulatorVersion = c := h.same.accumulatorVersion.trans hversion
  have hready : ∀ y ∈ w.reservations.keys, Ready L c top P w.reservations init s₁.withdraws.length s₂ g y := by
    intro y hy
    have hmem : y ∈ w.reservations := Std.ExtTreeMap.mem_keys.mp hy
    obtain ⟨n, hn⟩ := mem_iff_get.mp hmem
    exact ⟨⟨n, hn, by rw [seen_of hnew, ← hn]; rfl⟩, fun v d hd => hinv.ticket_lt hd,
      fun j hj => hinv.queue_lt hj, fun hnone => hinit y hmem (h.untracked y hnone), hreg y hmem⟩
  obtain ⟨s', g', R', hrun, hinv', hsame, hevolves, hnone, hR'⟩ :=
    reserveAccounts_spec hfits.first hc w.reservations.nodup_keys halloc hversion₂ hready
  obtain ⟨cell, hcell, hv, hd, hp, -⟩ := hevolves.grows _ _ hnew
  have hgrows : Grows s₁.withdraws s'.withdraws := hgrows₂.trans hevolves.grows
  refine ⟨s', results.insert cell.txDigest (cell.result s₁.withdraws.length), ?_, ?_⟩
  · unfold scheduleWithdraw
    simp only
    rw [bind_ok hrun, bind_unwrap hcell]
    rfl
  · have hlength : s'.withdraws.length = s₁.withdraws.length + 1 := by
      rw [hevolves.length_eq]
      simp
    have hdigest : cell.txDigest = w.txDigest := hd
    refine ⟨⟨g', R', hinv', fun y u => ?_⟩,
      h.same.trans ⟨hsame.accumulatorVersion, hsame.pendingSettlements⟩, ?_, h.grows.trans hgrows,
      fun y hy => h.untracked y (hnone y hy), ?_, ?_⟩
    · rw [hR' y u, hR y u, batchRequests_concat, h.length_eq]
      by_cases hu : u = top
      · by_cases hy : y ∈ w.reservations.keys
        · simp [hu, hy]
        · have hnone : w.reservations[y]? = none :=
            not_mem_iff_get.mp fun hmem => hy (Std.ExtTreeMap.mem_keys.mpr hmem)
          simp [hu, hnone]
      · simp [hu]
    · rw [hlength, h.length_eq, length_append, length_singleton, Nat.add_assoc]
    · intro j w' hw'
      by_cases hj : j < done.length
      · rw [List.getElem?_append_left hj] at hw'
        exact (h.cells.grows hgrows) j w' hw'
      · have hlen := (List.getElem?_eq_some_iff.mp hw').1
        rw [length_append, length_singleton] at hlen
        have hjeq : j = done.length := by omega
        subst hjeq
        rw [List.getElem?_concat_length] at hw'
        cases hw'
        rw [← h.length_eq]
        exact ⟨cell, hcell, hv, hd, hp⟩
    · rw [hdigest]
      refine (h.reports.grows hgrows).concat ?_
      rw [← h.length_eq]
      unfold ResultOf PendingWithdraw.result
      cases hsent : cell.sent with
      | none => exact .inl rfl
      | some status => exact .inr ⟨status, cell, rfl, hcell, hsent⟩

theorem scheduleWithdraw_foldlM {withdraws : List TxFundsWithdraw}
    (hfits : Exec.Returns L.Small (withdraws.foldlM (scheduleWithdraw init top) (s, ∅)))
    (hc : c ≤ top) (hversion : s.accumulatorVersion = c) (h : ∃ g, AtRest L (rest c top P) R g s.accounts s.withdraws)
    (hinit : ∀ w ∈ withdraws, ∀ y ∈ w.reservations, s.accounts y = none →
      ∃ b u : Nat, init[y]? = some (b, u) ∧ (b : Int) = L u y ∧ c ≤ u ∧ u ≤ top)
    (hreg : ∀ w ∈ withdraws, ∀ y ∈ w.reservations, P top y) :
    ∃ s' results, withdraws.foldlM (scheduleWithdraw init top) (s, ∅) = .ok (s', results) ∧
      Scheduled L c top P R s withdraws s' results := by
  induction withdraws using List.reverseRecOn with
  | nil =>
    obtain ⟨g, hinv⟩ := h
    refine ⟨s, ∅, rfl, ⟨g, R, hinv, fun y u => by simp [batchRequests]⟩, SameBooks.refl s, rfl,
      Grows.refl _, fun _ h => h, fun j w hw => by simp at hw, fun d r hr => by simp at hr, by simp⟩
  | append_singleton done w ih =>
    rw [foldlM_append] at hfits
    obtain ⟨s₁, results₁, hrun₁, hsched⟩ :=
      ih hfits.first (fun w' hw' => hinit w' (mem_append_left _ hw'))
        (fun w' hw' => hreg w' (mem_append_left _ hw'))
    have hlast := hfits.second hrun₁
    rw [foldlM_cons] at hlast
    obtain ⟨s', results', hrun, hsched'⟩ := scheduleWithdraw_spec hlast.first hc hversion hsched
      (hinit w (by simp)) (hreg w (by simp))
    refine ⟨s', results', ?_, hsched'⟩
    rw [foldlM_append, bind_ok hrun₁, foldlM_cons, bind_ok hrun]
    rfl

end EagerFundsWithdrawScheduler

end Batch

end Sui.FundsWithdraw
