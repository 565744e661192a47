import Sui.Lib.Reservation
import Sui.FundsWithdraw.Account

/-! The invariant of the eager scheduler, and the step that decides a withdraw.

`Inv` relates the scheduler's accounts and cells to the decisions made so far
(`History`), which the source does not keep. Up to the version an account is settled
at, its decisions are those of first come, first served from the settled balance
(`Inv.greedy`); above it there are only grants, all of them reserved and covered by
the last known balance. What varies between and inside calls is a `Frame`. Deciding
the withdraw at the front of a queue keeps the invariant (`Inv.decide`), and
`tryReserveFront` does that or leaves a withdraw that is not settled yet
(`tryReserveFront_spec`). -/
namespace Sui.FundsWithdraw

open Sui.Lib BTreeMap Exec Reservation PendingWithdraw

/-- The balance of each account after each settlement. -/
abbrev Ledger := Nat → AccumulatorObjId → Int

/-- Storage holds the balances as unsigned integers of 128 bits. -/
def Ledger.IsU128 (L : Ledger) : Prop := ∀ v y, L v y < 2 ^ 128

/-- The balances fit a signed integer of 128 bits. -/
def Ledger.Small (L : Ledger) : Prop := ∀ v y, L v y < 2 ^ 127

/-- The decisions made, by account and version. -/
abbrev History := AccumulatorObjId → Nat → List Decision

namespace History
variable (g : History) (x : AccumulatorObjId) (v : Nat) (d : Decision)

def record : History := Function.update g x (Function.update (g x) v (g x v ++ [d]))

@[simp] theorem record_self : g.record x v d x v = g x v ++ [d] := by
  simp [record]

variable {x v} in
theorem record_of_ne (h : y ≠ x) : g.record x v d y = g y := by
  simp [record, h]

variable {v} in
theorem record_of_ne_version (h : u ≠ v) : g.record x v d x u = g x u := by
  simp [record, h]

theorem mem_record : e ∈ g.record x v d y u ↔ e ∈ g y u ∨ (y = x ∧ u = v ∧ e = d) := by
  by_cases hy : y = x
  · subst hy
    by_cases hu : u = v
    · subst hu
      simp
    · rw [record_of_ne_version g y d hu]
      simp [hu]
  · rw [record_of_ne g d hy]
    simp [hy]

variable {x v d} in
theorem exists_record {p : Decision → Prop} (hp : ¬p d) :
    (∃ y, ∃ e ∈ g.record x v d y u, p e) ↔ ∃ y, ∃ e ∈ g y u, p e := by
  constructor
  · rintro ⟨y, e, he, hpe⟩
    rcases (g.mem_record ..).mp he with he | ⟨-, -, rfl⟩
    · exact ⟨y, e, he, hpe⟩
    · exact absurd hpe hp
  · rintro ⟨y, e, he, hpe⟩
    exact ⟨y, e, (g.mem_record ..).mpr (.inl he), hpe⟩

end History

/-- What changes between calls and inside them: the version each account is settled
at, the highest version in use, and the accounts registered for settlement at each
version. -/
structure Frame where
  settled : AccumulatorObjId → Nat
  top : Nat
  registered : Nat → AccumulatorObjId → Prop

/-- The requests made, by account and version. -/
abbrev Requests := AccumulatorObjId → Nat → List Request

/-- What an account sees of the cell at a position: its version and the amount pending. -/
def seen (ws : List PendingWithdraw) (x : AccumulatorObjId) (i : Nat) :
    Option (Nat × Option UInt64) :=
  ws[i]?.map fun w => (w.accumulatorVersion, w.pending[x]?)

/-- The requests of the withdraws in a queue that read version `v`. -/
def queuedRequests (ws : List PendingWithdraw) (x : AccumulatorObjId) (v : Nat)
    (queue : List Nat) : List Request :=
  queue.filterMap fun i => (seen ws x i).bind fun s =>
    if s.1 = v then s.2.map fun n => ⟨i, n.toNat⟩ else none

/-- Version `v` of a withdraw that waits for an account. -/
structure Waiting (F : Frame) (x : AccumulatorObjId) (a : AccountState) (v : Nat) : Prop where
  settled_le : F.settled x ≤ v
  updated_le : a.lastUpdatedVersion ≤ v
  reserved_le : ∀ u ∈ a.reservedFunds.versions, u ≤ v
  registered : F.registered v x

structure AccountInv (L : Ledger) (F : Frame) (g : History) (ws : List PendingWithdraw)
    (x : AccumulatorObjId) (a : AccountState) : Prop where
  accountId : a.accountId = x
  funds : a.reservedFunds.Ok (F.settled x)
  covered : a.reservedFunds.totalReservedFundsAmount ≤ a.lastUpdatedBalance
  balance : (a.lastUpdatedBalance : Int) = L (max (F.settled x) a.lastUpdatedVersion) x
  reserved : ∀ v, F.settled x ≤ v → a.reservedFunds.reservedAt v = granted (g x v)
  present : ∀ v, F.settled x < v → g x v ≠ [] → v ∈ a.reservedFunds.versions
  updated_le_top : a.lastUpdatedVersion ≤ F.top
  versions : ∀ v ∈ a.reservedFunds.versions,
    a.lastUpdatedVersion ≤ v ∧ v ≤ F.top ∧ F.registered v x
  ordered : a.pendingReservations.Pairwise (· < ·)
  waiting : ∀ i ∈ a.pendingReservations, ∃ v n, seen ws x i = some (v, some n) ∧ Waiting F x a v
  later : ∀ i ∈ a.pendingReservations, ∀ v, ∀ d ∈ g x v, d.ticket < i

/-- What a cell has sent follows from the decisions on its accounts. -/
structure SentOk (g : History) (i : Nat) (w : PendingWithdraw) : Prop where
  sufficient : w.sent = some .sufficientFunds → ∀ y, y ∉ w.pending
  insufficient : w.sent = some .insufficientFunds ↔
    ∃ y, ∃ d ∈ g y w.accumulatorVersion, d.ticket = i ∧ d.granted = false
  complete : (∀ y, y ∉ w.pending) → (∃ y, ∃ d ∈ g y w.accumulatorVersion, d.ticket = i) →
    w.sent = some .sufficientFunds
  not_skip : w.sent ≠ some .skipSchedule

/-- The queue of an account; one that is not tracked has none. -/
def queue (t : AccumulatorObjId → Option AccountState) (x : AccumulatorObjId) : List Nat :=
  ((t x).map (·.pendingReservations)).getD []

structure Inv (L : Ledger) (F : Frame) (R : Requests) (g : History)
    (t : AccumulatorObjId → Option AccountState) (ws : List PendingWithdraw) : Prop where
  account : ∀ x a, t x = some a → AccountInv L F g ws x a
  untracked : ∀ x, t x = none →
    granted (g x (F.settled x)) = 0 ∧ ∀ v, F.settled x < v → g x v = []
  greedy : ∀ x v, v ≤ F.settled x → Greedy (L v x) (g x v)
  ahead : ∀ x v, F.settled x < v → ∀ d ∈ g x v, d.granted = true
  versions : (ws.map (·.accumulatorVersion)).Pairwise (· ≤ ·)
  version_le_top : ∀ v ∈ ws.map (·.accumulatorVersion), v ≤ F.top
  decided : ∀ x v, ∀ d ∈ g x v, ∃ o, seen ws x d.ticket = some (v, o) ∧ (d.granted = true ↔ o = none)
  sent : ∀ i w, ws[i]? = some w → SentOk g i w
  requests : ∀ x v, (g x v).map (·.toRequest) ++ queuedRequests ws x v (queue t x) =
    R x v

variable {L : Ledger} {F F' : Frame} {R : Requests} {g g' : History} {t : AccumulatorObjId → Option AccountState}
  {ws ws' : List PendingWithdraw} {x : AccumulatorObjId} {a : AccountState}

theorem queue_of (ha : t x = some a) : queue t x = a.pendingReservations := by
  rw [queue, ha, Option.map_some, Option.getD_some]

/-! ### Cells that change -/

/-- Cells keep their version and digest, lose pending accounts and keep what they sent. -/
def Grows (ws ws' : List PendingWithdraw) : Prop :=
  ∀ (i : Nat) (w : PendingWithdraw), ws[i]? = some w → ∃ w' : PendingWithdraw, ws'[i]? = some w' ∧
    w'.accumulatorVersion = w.accumulatorVersion ∧ w'.txDigest = w.txDigest ∧
    (∀ (y : AccumulatorObjId) (n : UInt64), w'.pending[y]? = some n → w.pending[y]? = some n) ∧
    (∀ status, w.sent = some status → w'.sent = some status)

theorem Grows.refl (ws : List PendingWithdraw) : Grows ws ws :=
  fun _ w hw => ⟨w, hw, rfl, rfl, fun _ _ h => h, fun _ h => h⟩

theorem Grows.trans (h : Grows ws ws') (h' : Grows ws' ws'') : Grows ws ws'' := by
  intro i w hw
  obtain ⟨w₁, hw₁, hv₁, hd₁, hp₁, hs₁⟩ := h i w hw
  obtain ⟨w₂, hw₂, hv₂, hd₂, hp₂, hs₂⟩ := h' i w₁ hw₁
  exact ⟨w₂, hw₂, hv₂.trans hv₁, hd₂.trans hd₁, fun y n hn => hp₁ y n (hp₂ y n hn),
    fun status hs => hs₂ status (hs₁ status hs)⟩

theorem Grows.append (ws : List PendingWithdraw) (w : PendingWithdraw) : Grows ws (ws ++ [w]) := by
  intro i u hu
  have hlt : i < ws.length := (List.getElem?_eq_some_iff.mp hu).1
  exact ⟨u, by rw [List.getElem?_append_left hlt, hu], rfl, rfl, fun _ _ h => h, fun _ h => h⟩

/-- The same cells, further on. -/
structure Evolves (ws ws' : List PendingWithdraw) : Prop where
  length_eq : ws'.length = ws.length
  grows : Grows ws ws'

theorem Evolves.refl (ws : List PendingWithdraw) : Evolves ws ws := ⟨rfl, Grows.refl ws⟩

theorem Evolves.trans (h : Evolves ws ws') (h' : Evolves ws' ws'') : Evolves ws ws'' :=
  ⟨h'.length_eq.trans h.length_eq, h.grows.trans h'.grows⟩

variable {w : PendingWithdraw} {i : Nat} {w' : PendingWithdraw}

theorem getElem?_set_self (h : ws[i]? = some w) : (ws.set i w')[i]? = some w' := by
  have hlt : i < ws.length := (List.getElem?_eq_some_iff.mp h).1
  simp [hlt]

theorem seen_of (hw : ws[i]? = some w) : seen ws x i = some (w.accumulatorVersion, w.pending[x]?) := by
  rw [seen, hw, Option.map_some]

theorem seen_eq_some : seen ws x i = some (v, o) ↔
    ∃ w, ws[i]? = some w ∧ w.accumulatorVersion = v ∧ w.pending[x]? = o := by
  simp only [seen, Option.map_eq_some_iff, Prod.mk.injEq]

theorem lt_of_seen (h : seen ws x i = some (v, o)) : i < ws.length := by
  obtain ⟨w, hw, -⟩ := seen_eq_some.mp h
  exact (List.getElem?_eq_some_iff.mp hw).1

theorem seen_append (hi : i < ws.length) : seen (ws ++ ws') x i = seen ws x i := by
  rw [seen, List.getElem?_append_left hi, seen]

theorem seen_set (hw : ws[i]? = some w) (hv : w'.accumulatorVersion = w.accumulatorVersion)
    (hp : j = i → w'.pending[x]? = w.pending[x]?) : seen (ws.set i w') x j = seen ws x j := by
  by_cases hij : i = j
  · subst hij
    rw [seen_of hw, seen_of (getElem?_set_self hw), hv, hp rfl]
  · rw [seen, List.getElem?_set_ne hij, seen]

/-- The cells after a step on account `x`: the other accounts do not see it. -/
structure Touched (x : AccumulatorObjId) (ws ws' : List PendingWithdraw) : Prop
    extends Evolves ws ws' where
  elsewhere : ∀ y, y ≠ x → ∀ i, seen ws' y i = seen ws y i

theorem Touched.refl (x : AccumulatorObjId) (ws : List PendingWithdraw) : Touched x ws ws :=
  ⟨Evolves.refl ws, fun _ _ _ => rfl⟩

theorem Touched.trans (h : Touched x ws ws') (h' : Touched x ws' ws'') : Touched x ws ws'' :=
  ⟨h.toEvolves.trans h'.toEvolves, fun y hy i => (h'.elsewhere y hy i).trans (h.elsewhere y hy i)⟩

theorem Touched.set (hw : ws[i]? = some w)
    (hv : w'.accumulatorVersion = w.accumulatorVersion) (hd : w'.txDigest = w.txDigest)
    (hp : ∀ (y : AccumulatorObjId) (n : UInt64), w'.pending[y]? = some n → w.pending[y]? = some n)
    (hs : ∀ status, w.sent = some status → w'.sent = some status)
    (hother : ∀ y, y ≠ x → w'.pending[y]? = w.pending[y]?) : Touched x ws (ws.set i w') := by
  refine ⟨⟨List.length_set .., fun j u hu => ?_⟩, fun y hy j => seen_set hw hv fun _ => hother y hy⟩
  by_cases hij : i = j
  · subst hij
    cases hw.symm.trans hu
    exact ⟨w', getElem?_set_self hw, hv, hd, hp, hs⟩
  · exact ⟨u, by rw [List.getElem?_set_ne hij, hu], rfl, rfl, fun _ _ h => h, fun _ h => h⟩

/-- What an account depends on: its decisions, what it sees of the cells in its queue, and
the frame. -/
theorem AccountInv.congr (h : AccountInv L F g ws x a) (hg : g' x = g x)
    (hseen : ∀ i ∈ a.pendingReservations, seen ws' x i = seen ws x i)
    (hsettled : F'.settled x = F.settled x) (htop : F.top ≤ F'.top)
    (hreg : ∀ v, F.settled x ≤ v → F.registered v x → F'.registered v x) :
    AccountInv L F' g' ws' x a where
  accountId := h.accountId
  funds := hsettled ▸ h.funds
  covered := h.covered
  balance := by rw [hsettled]; exact h.balance
  reserved := by rw [hg, hsettled]; exact h.reserved
  present := by rw [hg, hsettled]; exact h.present
  updated_le_top := h.updated_le_top.trans htop
  versions := fun v hv =>
    (h.versions v hv).imp_right (And.imp (·.trans htop) (hreg v (h.funds.low_le v hv)))
  ordered := h.ordered
  waiting := by
    intro i hi
    obtain ⟨v, n, hs, hwait⟩ := h.waiting i hi
    exact ⟨v, n, by rw [hseen i hi, hs], hsettled ▸ hwait.settled_le, hwait.updated_le, hwait.reserved_le,
      hreg v hwait.settled_le hwait.registered⟩
  later := by rw [hg]; exact h.later

theorem queuedRequests_congr {v : Nat} {queue : List Nat}
    (h : ∀ i ∈ queue, seen ws' x i = seen ws x i) :
    queuedRequests ws' x v queue = queuedRequests ws x v queue :=
  List.filterMap_congr fun i hi => by rw [h i hi]

/-! ### Deciding the front of a queue -/

theorem AccountInv.waits (h : AccountInv L F g ws x a)
    (hi : i ∈ a.pendingReservations) (hw : ws[i]? = some w) :
    x ∈ w.pending ∧ Waiting F x a w.accumulatorVersion := by
  obtain ⟨v, n, hs, hwait⟩ := h.waiting i hi
  obtain ⟨w', hw', rfl, hn⟩ := seen_eq_some.mp hs
  cases hw.symm.trans hw'
  exact ⟨mem_of_get hn, hwait⟩

theorem Inv.le_top (h : Inv L F R g t ws) (hs : seen ws x i = some (v, o)) : v ≤ F.top := by
  obtain ⟨w, hw, rfl, -⟩ := seen_eq_some.mp hs
  exact h.version_le_top _ (List.mem_map_of_mem (List.mem_of_getElem? hw))

theorem Inv.version_le (h : Inv L F R g t ws) (hs : seen ws x i = some (v, o)) (hs' : seen ws y j = some (u, o'))
    (hij : i < j) : v ≤ u := by
  obtain ⟨w, hw, rfl, -⟩ := seen_eq_some.mp hs
  obtain ⟨w', hw', rfl, -⟩ := seen_eq_some.mp hs'
  obtain ⟨hi, rfl⟩ := List.getElem?_eq_some_iff.mp hw
  obtain ⟨hj, rfl⟩ := List.getElem?_eq_some_iff.mp hw'
  exact List.pairwise_iff_getElem.mp (List.pairwise_map.mp h.versions) i j hi hj hij

/-- No decision on the account has the ticket that waits. -/
theorem Inv.ticket_ne (h : Inv L F R g t ws) (ha : t x = some a) {i v : Nat} {d : Decision}
    (hi : i ∈ a.pendingReservations) (hd : d ∈ g x v) : d.ticket ≠ i :=
  ne_of_lt ((h.account x a ha).later i hi v d hd)

section Decide
variable (h : Inv L F R g t ws) (ha : t x = some a) {rest : List Nat} (hq : a.pendingReservations = i :: rest)
  (hw : ws[i]? = some w) (hp : ∀ y, y ≠ x → w'.pending[y]? = w.pending[y]?)
  (hv : w'.accumulatorVersion = w.accumulatorVersion)

include hw hp hv in
/-- Another account, or an account at another position, sees no change. -/
theorem seen_decide {y : AccumulatorObjId} {j : Nat} (hne : y ≠ x ∨ j ≠ i) :
    seen (ws.set i w') y j = seen ws y j :=
  seen_set hw hv fun hji => hp y (hne.resolve_right (not_not.mpr hji))

variable {n : UInt64} {b : Bool} {funds : ReservedFunds} (hfunds : funds.Ok (F.settled x))
  (hcovered : funds.totalReservedFundsAmount ≤ a.lastUpdatedBalance)
  (hres : ∀ u, funds.reservedAt u =
    a.reservedFunds.reservedAt u + if u = w.accumulatorVersion ∧ b = true then n.toNat else 0)
  (hver : ∀ u, u ∈ funds.versions ↔ u ∈ a.reservedFunds.versions ∨ (b = true ∧ u = w.accumulatorVersion))
  (hahead : F.settled x < w.accumulatorVersion → b = true)
include h ha hq hw hp hv hfunds hcovered hres hver hahead

theorem AccountInv.decide : AccountInv L F (g.record x w.accumulatorVersion ⟨⟨i, n.toNat⟩, b⟩) (ws.set i w') x
    { a with pendingReservations := rest, reservedFunds := funds } := by
  have hacc := h.account x a ha
  have hrest : ∀ j ∈ rest, j ∈ a.pendingReservations := fun j hj => hq ▸ List.mem_cons_of_mem _ hj
  obtain ⟨-, hwait⟩ := hacc.waits (hq ▸ List.mem_cons_self ..) hw
  have hord := hacc.ordered
  rw [hq, List.pairwise_cons] at hord
  have hmem : ∀ u ∈ funds.versions, u ∈ a.reservedFunds.versions ∨ u = w.accumulatorVersion :=
    fun u hu => ((hver u).mp hu).imp_right And.right
  refine ⟨hacc.accountId, hfunds, hcovered, hacc.balance, ?_, ?_, hacc.updated_le_top, ?_, hord.2, ?_, ?_⟩
  · intro u hu
    rw [hres u, hacc.reserved u hu]
    by_cases huv : u = w.accumulatorVersion
    · subst huv
      rw [History.record_self]
      cases b
      · simp [granted_concat_deny]
      · simp [granted_concat_grant]
    · rw [History.record_of_ne_version g _ _ huv]
      simp [huv]
  · intro u hu hne
    by_cases huv : u = w.accumulatorVersion
    · exact (hver u).mpr (.inr ⟨hahead (huv ▸ hu), huv⟩)
    · rw [History.record_of_ne_version g _ _ huv] at hne
      exact (hver u).mpr (.inl (hacc.present u hu hne))
  · intro u hu
    rcases hmem u hu with hu | rfl
    · exact hacc.versions u hu
    · exact ⟨hwait.updated_le, h.le_top (seen_of (x := x) hw), hwait.registered⟩
  · intro j hj
    obtain ⟨v, m, hs, hwait'⟩ := hacc.waiting j (hrest j hj)
    refine ⟨v, m, by rw [seen_decide hw hp hv (.inr (hord.1 j hj).ne'), hs], hwait'.settled_le,
      hwait'.updated_le, ?_, hwait'.registered⟩
    intro u hu
    rcases hmem u hu with hu | rfl
    · exact hwait'.reserved_le u hu
    · exact h.version_le (seen_of (x := x) hw) hs (hord.1 j hj)
  · intro j hj v d hd
    rcases (History.mem_record g ..).mp hd with hd | ⟨-, -, rfl⟩
    · exact hacc.later j (hrest j hj) v d hd
    · exact hord.1 j hj

/-- The queue moves up by one, the decision is recorded, and the cell and the
reservations change accordingly. -/
theorem Inv.decide (hn : w.pending[x]? = some n) (hpx : b = true ↔ w'.pending[x]? = none)
    (hsent : SentOk (g.record x w.accumulatorVersion ⟨⟨i, n.toNat⟩, b⟩) i w')
    (hgreedy : w.accumulatorVersion ≤ F.settled x →
      (b = true ↔ (granted (g x w.accumulatorVersion) + n.toNat : Nat) ≤ L w.accumulatorVersion x)) :
    Inv L F R (g.record x w.accumulatorVersion ⟨⟨i, n.toNat⟩, b⟩)
      (Function.update t x (some { a with pendingReservations := rest, reservedFunds := funds }))
      (ws.set i w') := by
  have hi : i ∈ a.pendingReservations := hq ▸ List.mem_cons_self ..
  have hord := (h.account x a ha).ordered
  rw [hq, List.pairwise_cons] at hord
  have hseen : ∀ y j, y ≠ x ∨ j ≠ i → seen (ws.set i w') y j = seen ws y j := fun _ _ => seen_decide hw hp hv
  have hversions : (ws.set i w').map (·.accumulatorVersion) = ws.map (·.accumulatorVersion) := by
    obtain ⟨hlt, rfl⟩ := List.getElem?_eq_some_iff.mp hw
    rw [List.map_set, hv, ← List.getElem_map fun w : PendingWithdraw => w.accumulatorVersion, List.set_getElem_self]
    rwa [List.length_map]
  refine ⟨?_, ?_, ?_, ?_, ?_, ?_, ?_, ?_, ?_⟩
  · -- Accounts.
    intro y b' hb'
    by_cases hy : y = x
    · subst hy
      rw [Function.update_self] at hb'
      cases hb'
      exact AccountInv.decide h ha hq hw hp hv hfunds hcovered hres hver hahead
    · rw [Function.update_of_ne hy] at hb'
      exact (h.account y b' hb').congr (History.record_of_ne g _ hy) (fun j _ => hseen y j (.inl hy)) rfl le_rfl
        fun _ _ h => h
  · -- Accounts that are not tracked.
    intro y hy
    by_cases hyx : y = x
    · subst hyx
      simp at hy
    · rw [Function.update_of_ne hyx] at hy
      rw [History.record_of_ne g _ hyx]
      exact h.untracked y hy
  · intro y v hle
    by_cases hyx : y = x
    · subst hyx
      by_cases hvv : v = w.accumulatorVersion
      · subst hvv
        rw [History.record_self]
        exact (h.greedy y _ hle).concat (hgreedy hle)
      · rw [History.record_of_ne_version g _ _ hvv]
        exact h.greedy y v hle
    · rw [History.record_of_ne g _ hyx]
      exact h.greedy y v hle
  · intro y v hlt d hd
    rcases (History.mem_record g ..).mp hd with hd | ⟨rfl, rfl, rfl⟩
    · exact h.ahead y v hlt d hd
    · exact hahead hlt
  · rw [hversions]
    exact h.versions
  · rw [hversions]
    exact h.version_le_top
  · -- Decisions and the pending accounts of their cells.
    intro y v d hrec
    rcases (History.mem_record g ..).mp hrec with hd | ⟨rfl, rfl, rfl⟩
    · have hne : y ≠ x ∨ d.ticket ≠ i := by
        by_cases hyx : y = x
        · subst hyx
          exact .inr (h.ticket_ne ha hi hd)
        · exact .inl hyx
      rw [hseen y _ hne]
      exact h.decided y v d hd
    · exact ⟨_, by rw [seen_of (getElem?_set_self hw), hv], hpx⟩
  · intro j u hu
    by_cases hij : i = j
    · subst hij
      cases (getElem?_set_self hw).symm.trans hu
      exact hsent
    · rw [List.getElem?_set_ne hij] at hu
      have hs := h.sent j u hu
      refine ⟨hs.sufficient, ?_, ?_, hs.not_skip⟩
      · rw [History.exists_record g fun hd => hij hd.1]
        exact hs.insufficient
      · rw [History.exists_record g hij]
        exact hs.complete
  · -- Requests.
    intro y v
    rw [← h.requests y v]
    by_cases hyx : y = x
    · subst hyx
      rw [queue_of ha, hq, queue_of (Function.update_self ..), queuedRequests_congr fun j hj => hseen y j (.inr (hord.1 j hj).ne')]
      by_cases hvv : v = w.accumulatorVersion
      · subst hvv
        rw [History.record_self]
        simp [queuedRequests, seen_of hw, hn]
      · rw [History.record_of_ne_version g _ _ hvv]
        simp [queuedRequests, seen_of hw, Ne.symm hvv]
    · rw [History.record_of_ne g _ hyx, queuedRequests_congr fun j _ => hseen y j (.inl hyx)]
      simp [queue, hyx]

end Decide

/-- The cell after account `x` is granted: the last one sends the status. -/
def PendingWithdraw.grant (w : PendingWithdraw) (x : AccumulatorObjId) : PendingWithdraw :=
  { w with
    pending := w.pending.erase x
    sent := if (w.pending.erase x).isEmpty then some .sufficientFunds else w.sent }

theorem removePendingAccount_eq (hx : x ∈ w.pending) (hs : (w.pending.erase x).isEmpty = true → w.sent = none) :
    w.removePendingAccount x = .ok (w.grant x) := by
  unfold removePendingAccount grant
  rw [bind_require hx]
  by_cases hempty : (w.pending.erase x).isEmpty = true
  · simp only [hempty, if_true, bind_require (hs hempty)]
    rfl
  · simp only [hempty]
    rfl

/-- While an account of a cell is pending, the cell has no status but that of a denial. -/
theorem SentOk.sent_of_pending (h : SentOk g i w) (hx : x ∈ w.pending) :
    w.sent = none ∨ w.sent = some .insufficientFunds := by
  cases hsent : w.sent with
  | none => exact .inl rfl
  | some status =>
    cases status with
    | sufficientFunds => exact absurd hx (h.sufficient hsent x)
    | skipSchedule => exact absurd hsent h.not_skip
    | insufficientFunds => exact .inr rfl

/-- The account whose grant empties a cell finds the sender there: a denied account
would still be pending. -/
theorem Inv.sender_there (h : Inv L F R g t ws) (ha : t x = some a)
    (hi : i ∈ a.pendingReservations) (hw : ws[i]? = some w)
    (hempty : ∀ y, y ∉ w.pending.erase x) : w.sent = none := by
  have hwait := (h.account x a ha).waits hi hw
  have hs := h.sent i w hw
  rcases hs.sent_of_pending hwait.1 with hsent | hsent
  · exact hsent
  · obtain ⟨y, d, hd, hticket, hdeny⟩ := hs.insufficient.mp hsent
    have hne : y ≠ x := by
      rintro rfl
      exact h.ticket_ne ha hi hd hticket
    obtain ⟨o, ho, hgrant⟩ := h.decided y _ d hd
    rw [hticket, seen_of hw] at ho
    cases ho
    have hy : y ∈ w.pending := by
      by_contra hy
      exact absurd (hgrant.mpr (not_mem_iff_get.mp hy)) (by simp [hdeny])
    exact absurd (mem_erase_iff.mpr ⟨hne.symm, hy⟩) (hempty y)

theorem Inv.sentOk_grant (h : Inv L F R g t ws) (ha : t x = some a)
    (hi : i ∈ a.pendingReservations) (hw : ws[i]? = some w) (n : Nat) :
    SentOk (g.record x w.accumulatorVersion ⟨⟨i, n⟩, true⟩) i (w.grant x) := by
  have hwait := (h.account x a ha).waits hi hw
  have hs := h.sent i w hw
  have hdeny : (∃ y, ∃ d ∈ g.record x w.accumulatorVersion ⟨⟨i, n⟩, true⟩ y w.accumulatorVersion,
      d.ticket = i ∧ d.granted = false) ↔ w.sent = some .insufficientFunds := by
    rw [hs.insufficient]
    exact History.exists_record g fun hd => by simp at hd
  by_cases hempty : (w.pending.erase x).isEmpty = true
  · have hall := isEmpty_iff_forall.mp hempty
    have hnone := h.sender_there ha hi hw hall
    refine ⟨fun _ => hall, ?_, fun _ _ => if_pos hempty, ?_⟩
    · show (if (w.pending.erase x).isEmpty then some ScheduleStatus.sufficientFunds else w.sent) =
        some .insufficientFunds ↔ _
      rw [if_pos hempty]
      exact ⟨fun h => (by cases h), fun h => (by rw [hdeny.mp h] at hnone; cases hnone)⟩
    · show (if (w.pending.erase x).isEmpty then some ScheduleStatus.sufficientFunds else w.sent) ≠ _
      rw [if_pos hempty]
      exact fun h => by cases h
  · have hsent : (w.grant x).sent = w.sent := if_neg hempty
    refine ⟨fun hsuff => ?_, ?_, fun hall => ?_, ?_⟩
    · exact absurd hwait.1 (hs.sufficient (hsent ▸ hsuff) x)
    · rw [hsent]
      exact hdeny.symm
    · exact absurd (isEmpty_iff_forall.mpr hall) hempty
    · rw [hsent]
      exact hs.not_skip

theorem Inv.sentOk_deny (h : Inv L F R g t ws) (ha : t x = some a)
    (hi : i ∈ a.pendingReservations) (hw : ws[i]? = some w) (n : Nat) :
    w.notifyInsufficientFunds = { w with sent := some .insufficientFunds } ∧
      SentOk (g.record x w.accumulatorVersion ⟨⟨i, n⟩, false⟩) i w.notifyInsufficientFunds := by
  have hwait := (h.account x a ha).waits hi hw
  have hs := h.sent i w hw
  have heq : w.notifyInsufficientFunds = { w with sent := some .insufficientFunds } := by
    unfold notifyInsufficientFunds
    rcases hs.sent_of_pending hwait.1 with hsent | hsent
    · rw [hsent]
    · rw [hsent]
      simp only [← hsent]
  refine ⟨heq, ?_⟩
  rw [heq]
  refine ⟨fun h => (by cases h), ⟨fun _ => ?_, fun _ => rfl⟩, fun hall _ => ?_, fun h => by cases h⟩
  · exact ⟨x, ⟨⟨i, n⟩, false⟩, (History.mem_record g ..).mpr (.inr ⟨rfl, rfl, rfl⟩), rfl, rfl⟩
  · exact absurd hwait.1 (hall x)

/-- The front of a queue is decided, or waits for a version that is not settled yet. -/
theorem tryReserveFront_spec (hfits : Exec.Returns L.Small (a.tryReserveFront ws (F.settled x)))
    (h : Inv L F R g t ws) (ha : t x = some a) (hq : a.pendingReservations = i :: rest) :
    (∃ v d a' ws', a.tryReserveFront ws (F.settled x) = .ok (true, a', ws') ∧
      a'.pendingReservations = rest ∧
      Inv L F R (g.record x v d) (Function.update t x (some a')) ws' ∧ Touched x ws ws') ∨
    (a.tryReserveFront ws (F.settled x) = .ok (false, a, ws) ∧
      ∀ s ∈ seen ws x i, F.settled x < s.1) := by
  have hacc := h.account x a ha
  have hi : i ∈ a.pendingReservations := hq ▸ List.mem_cons_self ..
  obtain ⟨v, n, hs, hwait⟩ := hacc.waiting i hi
  obtain ⟨w, hw, rfl, hn⟩ := seen_eq_some.mp hs
  have hle : F.settled x ≤ w.accumulatorVersion := hwait.settled_le
  have hamount : w.pendingAmount a.accountId = .ok n.toNat := by
    unfold pendingAmount
    rw [hacc.accountId, bind_unwrap hn]
    rfl
  -- At the settled version everything reserved was granted at that version.
  have htotal : w.accumulatorVersion ≤ F.settled x →
      a.reservedFunds.totalReservedFundsAmount = granted (g x w.accumulatorVersion) ∧
      (a.lastUpdatedBalance : Int) = L w.accumulatorVersion x := by
    intro hge
    have heq : w.accumulatorVersion = F.settled x := le_antisymm hge hle
    refine ⟨?_, ?_⟩
    · rw [ReservedFunds.total_eq_reservedAt hacc.funds (fun v hv => heq ▸ hwait.reserved_le v hv),
        hacc.reserved _ le_rfl, heq]
    · rw [hacc.balance, max_eq_left (heq ▸ hwait.updated_le), heq]
  unfold AccountState.tryReserveFront at hfits ⊢
  simp only [hq] at hfits ⊢
  rw [bind_unwrap hw, bind_require hwait.updated_le, bind_require hle, bind_ok hamount] at hfits ⊢
  have hfit : a.reservedFunds.totalReservedFundsAmount + n.toNat < 2 ^ 128 := by
    rcases hfits.first with hsmall | ⟨m, hm⟩
    · have hbal : (a.lastUpdatedBalance : Int) < 2 ^ 127 := hacc.balance ▸ hsmall _ _
      have hnlt : n.toNat < 2 ^ 64 := n.toNat_lt
      have hcov := hacc.covered
      omega
    · exact lt_of_checkedU128 hm
  rw [bind_ok (checkedU128_of hfit)]
  by_cases hfunds : a.reservedFunds.totalReservedFundsAmount + n.toNat ≤ a.lastUpdatedBalance
  · left
    obtain ⟨funds, hadd, hok, hadded⟩ := ReservedFunds.addReservedFund_spec hacc.funds hle hwait.reserved_le hfit
    have hremove : w.removePendingAccount a.accountId = .ok (w.grant x) := by
      rw [hacc.accountId]
      exact removePendingAccount_eq (mem_of_get hn) fun hempty =>
        h.sender_there ha hi hw (isEmpty_iff_forall.mp hempty)
    rw [if_pos hfunds, bind_ok hadd, bind_ok hremove]
    have hp : ∀ y, y ≠ x → (w.grant x).pending[y]? = w.pending[y]? := fun y hy => by
      rw [grant, get_erase, if_neg hy.symm]
    refine ⟨w.accumulatorVersion, ⟨⟨i, n.toNat⟩, true⟩, _, _, rfl, rfl,
      h.decide ha hq hw hp rfl hok ?_ ?_ ?_ (fun _ => rfl) hn ?_ (h.sentOk_grant ha hi hw _) ?_,
      Touched.set hw rfl rfl ?_ ?_ hp⟩
    · rw [hadded.total]
      exact hfunds
    · intro u
      rw [hadded.reservedAt u]
      simp
    · intro u
      rw [hadded.mem_versions u]
      simp
    · simp [grant]
    · intro hge
      obtain ⟨htot, hbalance⟩ := htotal hge
      rw [← htot, ← hbalance]
      exact ⟨fun _ => by exact_mod_cast hfunds, fun _ => rfl⟩
    · intro y m hm
      exact (erase_eq_some.mp hm).2
    · intro status hs
      unfold grant
      by_cases hempty : (w.pending.erase x).isEmpty = true
      · rw [h.sender_there ha hi hw (isEmpty_iff_forall.mp hempty)] at hs
        cases hs
      · simp only [hempty]
        exact hs
  · rw [if_neg hfunds]
    by_cases hver : w.accumulatorVersion = F.settled x
    · left
      obtain ⟨heq, hsent⟩ := h.sentOk_deny ha hi hw n.toNat
      have hpend : w.notifyInsufficientFunds.pending = w.pending := by rw [heq]
      obtain ⟨htot, hbalance⟩ := htotal (le_of_eq hver)
      rw [if_pos hver]
      refine ⟨w.accumulatorVersion, ⟨⟨i, n.toNat⟩, false⟩, _, _, rfl, rfl,
        h.decide ha hq hw (fun y _ => by rw [hpend]) (by rw [heq]) hacc.funds hacc.covered (fun u => by simp)
          (fun u => by simp) (fun hlt => absurd hver hlt.ne') hn ?_ hsent ?_,
        Touched.set hw (by rw [heq]) (by rw [heq]) ?_ ?_ (fun y _ => by rw [hpend])⟩
      · rw [hpend, hn]
        simp
      · intro _
        rw [← htot, ← hbalance]
        refine ⟨fun h => (by cases h), fun hge => absurd ?_ hfunds⟩
        exact_mod_cast hge
      · intro y m hm
        rwa [hpend] at hm
      · intro status hs
        unfold notifyInsufficientFunds
        rw [hs]
        exact hs
    · right
      rw [if_neg hver]
      refine ⟨rfl, fun s hs => ?_⟩
      cases (seen_of hw).symm.trans hs
      exact lt_of_le_of_ne hle (Ne.symm hver)

end Sui.FundsWithdraw
