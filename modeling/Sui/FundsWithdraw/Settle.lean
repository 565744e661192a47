import Sui.FundsWithdraw.Schedule

/-! Settling a version.

A settlement moves the accounts to the next version one by one. An account's grants
ahead of that version are covered by its balance there (`AccountInv.greedy`), so the
decisions at the version go on first come, first served, and the loop over its queue
ends with none of them undecided (`reserveFronts_spec`). -/
namespace Sui.FundsWithdraw

open Sui.Lib Exec Reservation List Function FundsWithdraw.Frame AccountState

variable {L : Ledger} {R : Requests} {g : History} {t : AccumulatorObjId → Option AccountState}
  {ws : List PendingWithdraw} {x : AccumulatorObjId} {a : AccountState}

/-! ### Moving accounts to the next version -/

/-- An account whose lowest version is settled and whose balance is the next version's. The
grants made ahead of that version are covered by the balance. -/
theorem AccountInv.settle (h : AccountInv L F g ws x a) {c : Nat} (hc : F.settled x = c)
    (hc' : F'.settled x = c + 1) (htop : F.top ≤ F'.top) (hctop : c + 1 ≤ F'.top)
    (hreg : ∀ v, F.registered v x → F'.registered v x) (hlater : Later c ws x a.pendingReservations)
    (hahead : ∀ d ∈ g x (c + 1), d.granted = true) {funds : ReservedFunds} (hok : funds.Ok (c + 1))
    (hfunds : ReservedFunds.Settled a.reservedFunds funds c)
    {balance version : Nat} (hversion : version ≤ max (c + 1) a.lastUpdatedVersion)
    (hbalance : (balance : Int) = L (max (c + 1) version) x)
    (hcovered : funds.totalReservedFundsAmount ≤ balance) :
    AccountInv L F' g ws x { a with
      lastUpdatedBalance := balance, lastUpdatedVersion := version, reservedFunds := funds } ∧
      Greedy (L (c + 1) x) (g x (c + 1)) := by
  have hreserved : ∀ v, c + 1 ≤ v → funds.reservedAt v = granted (g x v) := fun v hv => by
    rw [hfunds.reservedAt v hv, h.reserved v (by omega)]
  refine ⟨⟨h.accountId, hc' ▸ hok, hcovered, by rw [hc']; exact hbalance, by rw [hc']; exact hreserved, ?_,
    hversion.trans (max_le hctop (h.updated_le_top.trans htop)), ?_, h.ordered, ?_, h.later⟩, ?_⟩
  · rw [hc']
    intro v hv hne
    exact (hfunds.mem_versions v).mpr ⟨h.present v (by omega) hne, by omega⟩
  · intro v hv
    obtain ⟨hv, hlt⟩ := (hfunds.mem_versions v).mp hv
    obtain ⟨hle, hvtop, hvreg⟩ := h.versions v hv
    exact ⟨hversion.trans (max_le hlt hle), hvtop.trans htop, hreg v hvreg⟩
  · intro i hi
    obtain ⟨v, n, hs, hwait⟩ := h.waiting i hi
    have hle : c + 1 ≤ v := hlater i hi _ hs
    exact ⟨v, n, hs, hc' ▸ hle, hversion.trans (max_le hle hwait.updated_le),
      fun u hu => hwait.reserved_le u ((hfunds.mem_versions u).mp hu).1, hreg v hwait.registered⟩
  · by_cases hnil : g x (c + 1) = []
    · rw [hnil]
      exact greedy_nil
    · apply Greedy.of_granted hahead
      have hle := ReservedFunds.reservedAt_le_total hok (c + 1)
      have hupdated := (h.versions _ (h.present (c + 1) (by omega) hnil)).1
      rw [hreserved _ le_rfl] at hle
      rw [max_eq_left (hversion.trans (max_le le_rfl hupdated))] at hbalance
      rw [← hbalance]
      exact_mod_cast hle.trans hcovered

/-- Some accounts are at their next version now, the others stay. -/
theorem Inv.advance (h : Inv L F R g t ws) (htop : F.top ≤ F'.top) (hqueue : ∀ y, queue t' y = queue t y)
    (hstep : ∀ y,
      (F'.settled y = F.settled y ∧ t' y = t y ∧ ∀ b, t y = some b → AccountInv L F' g ws y b) ∨
      (F'.settled y = F.settled y + 1 ∧ (t' y = none → t y = none) ∧
        ∀ b, t' y = some b → AccountInv L F' g ws y b ∧ Greedy (L (F.settled y + 1) y) (g y (F.settled y + 1)))) :
    Inv L F' R g t' ws := by
  refine ⟨?_, ?_, ?_, ?_, h.versions, fun v hv => (h.version_le_top v hv).trans htop, h.decided, h.sent, ?_⟩
  · intro y b hb
    rcases hstep y with ⟨_, hty, hacc⟩ | ⟨_, _, hacc⟩
    · exact hacc b (hty ▸ hb)
    · exact (hacc b hb).1
  · intro y hy
    rcases hstep y with ⟨hs, hty, _⟩ | ⟨hs, hty, _⟩
    · rw [hs]
      exact h.untracked y (hty ▸ hy)
    · obtain ⟨_, hnone⟩ := h.untracked y (hty hy)
      rw [hs, hnone _ (Nat.lt_succ_self _)]
      exact ⟨rfl, fun v hv => hnone v (by omega)⟩
  · intro y v hv
    rcases hstep y with ⟨hs, _, _⟩ | ⟨hs, hty, hacc⟩
    · exact h.greedy y v (hs ▸ hv)
    · by_cases hle : v ≤ F.settled y
      · exact h.greedy y v hle
      · have hveq : v = F.settled y + 1 := by omega
        subst hveq
        cases ht : t' y with
        | none =>
          rw [(h.untracked y (hty ht)).2 _ (Nat.lt_succ_self _)]
          exact greedy_nil
        | some b => exact (hacc b ht).2
  · intro y v hv
    rcases hstep y with ⟨hs, _, _⟩ | ⟨hs, _, _⟩
    · exact h.ahead y v (hs ▸ hv)
    · exact h.ahead y v (by omega)
  · intro y v
    rw [hqueue y]
    exact h.requests y v

/-- A later bound on the versions, and more accounts registered. -/
theorem AtRest.frame (h : AtRest L F R g t ws) (hsettled : F'.settled = F.settled) (htop : F.top ≤ F'.top)
    (hreg : ∀ v y, F.settled y ≤ v → F.registered v y → F'.registered v y) : AtRest L F' R g t ws :=
  ⟨h.advance htop (fun _ => rfl) fun y => .inl ⟨by rw [hsettled], rfl, fun b hb =>
    (h.account y b hb).congr rfl (fun _ _ => rfl) (by rw [hsettled]) htop fun v => hreg v y⟩,
    hsettled ▸ h.rested⟩

/-- An account without reservations and withdraws is no longer tracked. -/
theorem Inv.untrack (h : Inv L F R g t ws) (ha : t x = some a) (hempty : a.isEmpty = true) :
    Inv L F R g (Function.update t x none) ws := by
  have hacc := h.account x a ha
  simp only [AccountState.isEmpty, Bool.and_eq_true, List.isEmpty_iff] at hempty
  have hversions : a.reservedFunds.versions = [] := by
    simp [ReservedFunds.versions, hempty.2]
  refine h.update (fun b hb => ?_) (fun _ => ⟨?_, fun v hv => ?_⟩) (fun v => ?_) fun _ _ => rfl
  · cases hb
  · rw [← hacc.reserved _ le_rfl]
    exact ReservedFunds.reservedAt_of_not_mem (by simp [hversions])
  · by_contra hne
    have hmem := hacc.present v hv hne
    rw [hversions] at hmem
    cases hmem
  · rw [← h.requests x v]
    simp [queue, ha, hempty.1]

/-! ### A settlement -/

/-- The loop stops at a withdraw that reads a later version. -/
theorem reserveFronts_spec
    (hfits : Exec.Returns L.Small (reserveFronts (F.settled x) fuel a ws))
    (h : Inv L F R g t ws) (ha : t x = some a)
    (hfuel : a.pendingReservations.length < fuel) :
    ∃ g' a' ws', reserveFronts (F.settled x) fuel a ws = .ok (a', ws') ∧
      Inv L F R g' (Function.update t x (some a')) ws' ∧ Touched x ws ws' ∧
      Later (F.settled x) ws' x a'.pendingReservations := by
  induction fuel generalizing g t ws a with
  | zero => omega
  | succ fuel ih =>
    have hself : update t x (some a) = t := by
      rw [← ha]
      exact update_eq_self ..
    unfold reserveFronts at hfits ⊢
    cases hq : a.pendingReservations with
    | nil =>
      have hrun : a.tryReserveFront ws (F.settled x) = .ok (false, a, ws) := by
        unfold tryReserveFront
        simp only [hq]
        rfl
      rw [bind_ok hrun]
      refine ⟨g, a, ws, rfl, hself.symm ▸ h, Touched.refl x ws, fun i hi => ?_⟩
      rw [hq] at hi
      cases hi
    | cons i rest =>
      rcases tryReserveFront_spec hfits.first h ha hq with
        ⟨v, d, a₁, ws₁, hrun, hrest, hinv, htouched⟩ | ⟨hrun, hlt⟩
      · have hlen : a₁.pendingReservations.length < fuel := by
          rw [hq, length_cons] at hfuel
          rw [hrest]
          omega
        obtain ⟨g', a', ws', hrun', hinv', htouched', hlater⟩ := ih (hfits.second hrun) hinv (update_self ..) hlen
        rw [update_idem] at hinv'
        rw [bind_ok hrun]
        exact ⟨g', a', ws', hrun', hinv', htouched.trans htouched', hlater⟩
      · rw [bind_ok hrun]
        refine ⟨g, a, ws, rfl, hself.symm ▸ h, Touched.refl x ws, fun j hj s hs => ?_⟩
        -- The withdraws behind the front read the same version or later ones.
        have hacc := h.account x a ha
        have hord := hacc.ordered
        rw [hq, pairwise_cons] at hord
        rw [hq] at hj
        rcases mem_cons.mp hj with rfl | hj
        · exact hlt s hs
        · obtain ⟨v, n, hi, -⟩ := hacc.waiting i (hq ▸ mem_cons_self ..)
          exact (hlt _ hi).trans_le (h.version_le hi hs (hord.1 j hj))

theorem updateBalance_spec (hu128 : L.IsU128)
    (hfits : Exec.Returns L.Small (a.updateBalance (L (c + 1) x - L c x) (c + 1)))
    (h : AccountInv L F g ws x a) (hc : F.settled x = c) (htaken : L c x ≤ L (c + 1) x + a.reservedFunds.reservedAt c) :
    ∃ balance version, a.updateBalance (L (c + 1) x - L c x) (c + 1) =
        .ok { a with lastUpdatedBalance := balance, lastUpdatedVersion := version } ∧
      version ≤ max (c + 1) a.lastUpdatedVersion ∧
      (balance : Int) = L (max (c + 1) version) x ∧
      a.reservedFunds.totalReservedFundsAmount ≤ balance + a.reservedFunds.reservedAt c := by
  have hbal := h.balance
  have hcov := h.covered
  rw [hc] at hbal
  unfold updateBalance at hfits ⊢
  by_cases hlt : a.lastUpdatedVersion < c + 1
  · rw [max_eq_left (Nat.le_of_lt_succ hlt)] at hbal
    have hle := ReservedFunds.reservedAt_le_total h.funds c
    have hnonneg : 0 ≤ L (c + 1) x := by omega
    rw [if_pos hlt] at hfits ⊢
    have hadd : checkedAddI128 (asI128 a.lastUpdatedBalance) (L (c + 1) x - L c x) = some (L (c + 1) x) := by
      rcases hfits with hsmall | ⟨a', ha'⟩
      · exact checkedAddI128_asI128 hbal (hsmall c x) (hsmall (c + 1) x) hnonneg
      · obtain ⟨sum, hsum, hrest⟩ := bind_eq_ok.mp ha'
        obtain ⟨_, hpos, -⟩ := bind_eq_ok.mp hrest
        have heq := eq_of_checkedAddI128 hbal (hu128 (c + 1) x) (unwrap_eq_ok.mp hsum) (require_eq_ok.mp hpos)
        rw [unwrap_eq_ok.mp hsum, heq]
    refine ⟨(L (c + 1) x).toNat, c + 1, ?_, le_max_left _ _, ?_, ?_⟩
    · rw [bind_unwrap hadd, bind_require hnonneg]
      rfl
    · rw [max_self, Int.toNat_of_nonneg hnonneg]
    · omega
  · refine ⟨a.lastUpdatedBalance, a.lastUpdatedVersion, ?_, le_max_right _ _, ?_, ?_⟩
    · rw [if_neg hlt]
      rfl
    · rw [max_eq_right (by omega)] at hbal ⊢
      exact hbal
    · omega

/-- The frame while the accounts of `todo` are still at version `c`. -/
def Frame.settling (c top : Nat) (registered : Nat → AccumulatorObjId → Prop)
    (todo : List AccumulatorObjId) : Frame :=
  ⟨fun y => if y ∈ todo then c else c + 1, top, registered⟩

section Settling
variable {c top : Nat} {P : Nat → AccumulatorObjId → Prop} {todo : List AccumulatorObjId}

variable (c top P todo) in
/-- Other accounts do not notice that `x` is settled. -/
theorem settling_other (y : AccumulatorObjId) (hy : y ≠ x) :
    (settling c top P todo).settled y = (settling c top P (x :: todo)).settled y := by
  simp [settling, hy]

section
variable (h : AtRest L (settling c top P (x :: todo)) R g t ws) (hx : x ∉ todo)
include h hx

/-- One account moves to the next version. -/
theorem AtRest.settle (hnone : o = none → t x = none) (hqueue : (o.map (·.pendingReservations)).getD [] = queue t x)
    (hacc : ∀ b, o = some b → AccountInv L (settling c top P todo) g ws x b ∧ Greedy (L (c + 1) x) (g x (c + 1))) :
    Inv L (settling c top P todo) R g (Function.update t x o) ws := by
  have hc : (settling c top P (x :: todo)).settled x = c := by simp [settling]
  refine h.advance le_rfl (fun y => ?_) fun y => ?_
  all_goals by_cases hy : y = x
  · subst hy
    simpa [queue] using hqueue
  · simp [queue, hy]
  · subst hy
    rw [update_self, hc]
    exact .inr ⟨by simp [settling, hx], hnone, hacc⟩
  · have hs := settling_other c top P todo y hy
    exact .inl ⟨hs, update_of_ne hy .., fun b hb =>
      (h.account y b hb).congr rfl (fun _ _ => rfl) hs le_rfl fun _ _ h => h⟩

theorem AtRest.settle_untracked (ht : t x = none) : AtRest L (settling c top P todo) R g t ws := by
  have hinv := h.settle hx (o := none) (fun _ => ht) (by simp [queue, ht]) nofun
  have hrest := h.update hinv (Touched.refl x ws) (settling_other c top P todo) fun i hi => by cases hi
  rwa [← ht, update_eq_self] at hrest

theorem settleFunds_account (hu128 : L.IsU128)
    (hfits : Exec.Returns L.Small (a.settleFunds ws (L (c + 1) x - L c x) (c + 1)))
    (hctop : c + 1 ≤ top)
    (ha : t x = some a) (htaken : L c x ≤ L (c + 1) x + a.reservedFunds.reservedAt c) :
    ∃ g' a' ws', a.settleFunds ws (L (c + 1) x - L c x) (c + 1) = .ok (a', ws') ∧
      AtRest L (settling c top P todo) R g'
        (Function.update t x (if a'.isEmpty then none else some a')) ws' ∧ Evolves ws ws' := by
  have hacc := h.account x a ha
  have hc : (settling c top P (x :: todo)).settled x = c := by simp [settling]
  have hsettled : (settling c top P todo).settled x = c + 1 := by simp [settling, hx]
  obtain ⟨balance, version, hupdate, hversion, hbalance, hcov⟩ :=
    updateBalance_spec hu128 hfits.first hacc hc htaken
  obtain ⟨funds, hsettle, hok, hfunds⟩ := ReservedFunds.settleFund_spec (hc ▸ hacc.funds)
  have hloop := (hfits.second hupdate).second hsettle
  have hlater := h.rested x
  rw [hc, queue_of ha] at hlater
  have hcovered : funds.totalReservedFundsAmount ≤ balance := by
    have := hfunds.total
    omega
  have hacc₁ := hacc.settle hc hsettled le_rfl hctop (fun _ h => h) hlater
    (h.ahead x _ (by rw [hc]; exact Nat.lt_succ_self c)) hok hfunds hversion hbalance hcovered
  have hinv₁ := h.settle hx (o := some _) nofun (by rw [queue_of ha]; rfl) fun b hb =>
    Option.some.inj hb ▸ hacc₁
  obtain ⟨g', a', ws', hrun, hinv, htouched, hlater'⟩ :=
    reserveFronts_spec (hsettled ▸ hloop) hinv₁ (update_self ..) (Nat.lt_succ_self _)
  rw [update_idem] at hinv
  rw [hsettled] at hrun
  refine ⟨g', a', ws', ?_, h.update ?_ htouched (settling_other c top P todo) ?_, htouched.toEvolves⟩
  · unfold settleFunds
    rw [bind_ok hupdate, bind_ok hsettle]
    exact hrun
  all_goals by_cases hempty : a'.isEmpty = true
  · rw [if_pos hempty]
    have hun := hinv.untrack (update_self ..) hempty
    rwa [update_idem] at hun
  · rw [if_neg hempty]
    exact hinv
  · rw [if_pos hempty]
    exact fun i hi => by cases hi
  · rw [if_neg hempty]
    exact hlater'

end

namespace EagerFundsWithdrawScheduler
theorem settleAccount_spec (hu128 : L.IsU128) (hfits : Exec.Returns L.Small (settleAccount settlement s x))
    (h : AtRest L (settling c top P (x :: todo)) R g s.accounts s.withdraws) (hx : x ∉ todo)
    (hctop : c + 1 ≤ top) (hnext : settlement.nextAccumulatorVersion = c + 1)
    (hchange : (settlement.fundsChanges[x]?).getD 0 = L (c + 1) x - L c x)
    (htaken : ∀ a, s.accounts x = some a → L c x ≤ L (c + 1) x + a.reservedFunds.reservedAt c) :
    ∃ s' g', settleAccount settlement s x = .ok s' ∧
      AtRest L (settling c top P todo) R g' s'.accounts s'.withdraws ∧ SameBooks s s' ∧
      Evolves s.withdraws s'.withdraws ∧ (∀ y, y ≠ x → s'.accounts y = s.accounts y) ∧
      (s.accounts x = none → s'.accounts x = none) ∧
      ∀ a, s.accounts x = some a → ∃ a' ws', a.settleFunds s.withdraws (L (c + 1) x - L c x) (c + 1) =
        .ok (a', ws') ∧ s'.accounts x = if a'.isEmpty then none else some a' := by
  unfold settleAccount at hfits ⊢
  cases ha : s.trackedAccounts[x]? with
  | none =>
    refine ⟨s, g, rfl, h.settle_untracked hx ha, SameBooks.refl s, Evolves.refl _, fun _ _ => rfl, fun h => h, ?_⟩
    intro a ha'
    cases ha.symm.trans ha'
  | some a =>
    simp only [ha, hchange, hnext] at hfits ⊢
    obtain ⟨g', a', ws', hrun, hinv, hevolves⟩ := settleFunds_account h hx hu128 hfits.first hctop ha (htaken a ha)
    have haccounts : (⟨if a'.isEmpty then s.trackedAccounts.erase x else s.trackedAccounts.insert x a',
        s.pendingSettlements, s.accumulatorVersion, ws'⟩ : EagerFundsWithdrawScheduler).accounts =
        update s.accounts x (if a'.isEmpty then none else some a') := by
      by_cases hempty : a'.isEmpty = true
      · simp only [hempty, if_true]
        exact accounts_erase s x
      · simp only [hempty]
        exact accounts_insert s x a'
    refine ⟨{ s with trackedAccounts := (if a'.isEmpty then s.trackedAccounts.erase x else
        s.trackedAccounts.insert x a'), withdraws := ws' }, g', ?_, ?_, ⟨rfl, rfl⟩, hevolves, ?_, ?_,
      ?_⟩
    · rw [bind_ok hrun]
      rfl
    · rw [haccounts]
      exact hinv
    · intro y hy
      rw [haccounts, update_of_ne hy]
    · intro hnone
      cases ha.symm.trans hnone
    · intro b hb
      cases ha.symm.trans hb
      exact ⟨a', ws', hrun, by rw [haccounts, update_self]⟩

/-- What a settlement leaves of an account, with the withdraws as the accounts before it in the loop
leave them. -/
def Leaves (settlement : FundsSettlement) (todo : List AccumulatorObjId) (s : EagerFundsWithdrawScheduler)
    (x : AccumulatorObjId) (a a' : AccountState) : Prop :=
  ∃ before after s' ws', todo = before ++ x :: after ∧
    before.foldlM (settleAccount settlement) s = .ok s' ∧
    a.settleFunds s'.withdraws ((settlement.fundsChanges[x]?).getD 0) settlement.nextAccumulatorVersion =
      .ok (a', ws')

/-- The loop over the affected accounts. -/
theorem settleAccounts_spec (hu128 : L.IsU128)
    (hfits : Exec.Returns L.Small (todo.foldlM (settleAccount settlement) s)) (hctop : c + 1 ≤ top)
    (hnext : settlement.nextAccumulatorVersion = c + 1) (hnodup : todo.Nodup)
    (hchange : ∀ y ∈ todo, (settlement.fundsChanges[y]?).getD 0 = L (c + 1) y - L c y)
    (h : AtRest L (settling c top P todo) R g s.accounts s.withdraws)
    (htaken : ∀ y ∈ todo, ∀ a, s.accounts y = some a →
      L c y ≤ L (c + 1) y + a.reservedFunds.reservedAt c) :
    ∃ s' g', todo.foldlM (settleAccount settlement) s = .ok s' ∧
      AtRest L (settling c top P []) R g' s'.accounts s'.withdraws ∧ SameBooks s s' ∧
      Evolves s.withdraws s'.withdraws ∧ (∀ y, y ∉ todo → s'.accounts y = s.accounts y) ∧
      (∀ y, s.accounts y = none → s'.accounts y = none) ∧
      ∀ y ∈ todo, ∀ a, s.accounts y = some a → ∃ a', Leaves settlement todo s y a a' ∧
        s'.accounts y = if a'.isEmpty then none else some a' := by
  induction todo generalizing s g with
  | nil =>
    exact ⟨s, g, rfl, h, SameBooks.refl s, Evolves.refl _, fun _ _ => rfl, fun _ h => h, nofun⟩
  | cons x rest ih =>
    obtain ⟨hx, hrest⟩ := nodup_cons.mp hnodup
    rw [foldlM_cons] at hfits
    obtain ⟨s₁, g₁, hrun, hinv, hsame, hevolves, hother, hnone, hself⟩ :=
      settleAccount_spec hu128 hfits.first h hx hctop hnext (hchange x (.head _)) (htaken x (.head _))
    have hkeep : ∀ y ∈ rest, s₁.accounts y = s.accounts y := fun y hy =>
      hother y fun hyx => hx (hyx ▸ hy)
    obtain ⟨s', g', hrun', hinv', hsame', hevolves', hother', hnone', hself'⟩ :=
      ih (hfits.second hrun) hrest (fun y hy => hchange y (.tail _ hy)) hinv (fun y hy a ha =>
        htaken y (.tail _ hy) a (hkeep y hy ▸ ha))
    refine ⟨s', g', foldlM_cons_eq_ok.mpr ⟨s₁, hrun, hrun'⟩, hinv', hsame.trans hsame',
      hevolves.trans hevolves', fun y hy => ?_, fun y hy => hnone' y ?_, fun y hy a ha => ?_⟩
    · rw [hother' y fun h => hy (.tail _ h), hother y fun hyx => hy (hyx ▸ mem_cons_self ..)]
    · by_cases hyx : y = x
      · subst hyx
        exact hnone hy
      · rw [hother y hyx, hy]
    · by_cases hyx : y = x
      · subst hyx
        obtain ⟨a', ws', hset, hacc⟩ := hself a ha
        rw [← hchange y (.head _), ← hnext] at hset
        exact ⟨a', ⟨[], rest, s, ws', rfl, rfl, hset⟩, by rw [hother' y hx, hacc]⟩
      · have hy : y ∈ rest := (mem_cons.mp hy).resolve_left hyx
        obtain ⟨a', ⟨before, after, s₂, ws', rfl, hbefore, hset⟩, hacc⟩ := hself' y hy a (by rw [hkeep y hy, ha])
        exact ⟨a', ⟨x :: before, after, s₂, ws', rfl, foldlM_cons_eq_ok.mpr ⟨s₁, hrun, hbefore⟩, hset⟩, hacc⟩

end EagerFundsWithdrawScheduler

end Settling

end Sui.FundsWithdraw
