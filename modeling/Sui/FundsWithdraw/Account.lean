import Sui.FundsWithdraw.Basic

/-! What the operations on one account's reservations and withdraws do.

`ReservedFunds.Ok` is the shape of an account's reservations: one entry per version,
in order, none below the settled version, with their sum beside them. Adding at a
version not below the last keeps it (`addReservedFund_spec`), and so does settling
the lowest version (`settleFund_spec`). -/
namespace Sui.FundsWithdraw

open Sui.Lib Exec List

namespace ReservedFunds

def versions (f : ReservedFunds) : List Nat := f.reservedFunds.map (·.1)

/-- One entry per version, in order, none below `low`; the total is their sum. -/
structure Ok (f : ReservedFunds) (low : Nat) : Prop where
  total_eq : f.totalReservedFundsAmount = (f.reservedFunds.map (·.2)).sum
  ordered : f.versions.Pairwise (· < ·)
  low_le : ∀ v ∈ f.versions, low ≤ v

theorem ok_empty (low : Nat) : Ok {} low := ⟨rfl, List.Pairwise.nil, by simp [versions]⟩

variable {low : Nat} {l : List (Nat × Nat)}

theorem lookup_eq_none (h : v ∉ l.map (·.1)) : l.lookup v = none := by
  rw [lookup_eq_none_iff]
  intro p hp
  simp only [bne_iff_ne, ne_eq]
  intro hv
  exact h (mem_map.mpr ⟨p, hp, hv.symm⟩)

theorem lookup_cons_entry (entry : Nat × Nat) (l : List (Nat × Nat)) (u : Nat) :
    (entry :: l).lookup u = if u = entry.1 then some entry.2 else l.lookup u := by
  obtain ⟨v, n⟩ := entry
  rw [lookup_cons]
  by_cases hu : u = v
  · simp [hu]
  · have hbeq : (u == v) = false := by simpa using hu
    rw [hbeq, if_neg hu]

variable {f : ReservedFunds}

theorem reservedAt_of_not_mem (h : v ∉ f.versions) : f.reservedAt v = 0 := by
  unfold reservedAt
  rw [lookup_eq_none h]
  rfl

theorem lookup_concat (h : v ∉ l.map (·.1)) (u : Nat) :
    ((l ++ [(v, n)]).lookup u).getD 0 = (l.lookup u).getD 0 + if u = v then n else 0 := by
  rw [lookup_append, lookup_cons_entry, lookup_nil]
  by_cases hu : u = v
  · subst hu
    rw [lookup_eq_none h]
    simp
  · rw [if_neg hu, if_neg hu]
    cases l.lookup u <;> simp

theorem reservedAt_le_total (h : f.Ok low) (v : Nat) : f.reservedAt v ≤ f.totalReservedFundsAmount := by
  rw [h.total_eq]
  unfold reservedAt
  cases hv : f.reservedFunds.lookup v with
  | none => exact Nat.zero_le _
  | some n =>
    obtain ⟨l₁, l₂, hsplit, _⟩ := lookup_eq_some_iff.mp hv
    rw [hsplit, map_append, sum_append, map_cons, sum_cons, Option.getD_some]
    omega

/-- When nothing is reserved above the lowest version, that version has it all. -/
theorem total_eq_reservedAt (h : f.Ok low)
    (hle : ∀ v ∈ f.versions, v ≤ low) : f.totalReservedFundsAmount = f.reservedAt low := by
  have hall : ∀ v ∈ f.versions, v = low := fun v hv => le_antisymm (hle v hv) (h.low_le v hv)
  have hsum := h.total_eq
  have hord := h.ordered
  unfold versions at hall hord
  unfold reservedAt
  cases hl : f.reservedFunds with
  | nil =>
    rw [hl] at hsum
    exact hsum
  | cons p rest =>
    rw [hl] at hsum hall hord
    cases rest with
    | nil =>
      have hp : p.1 = low := hall p.1 (by simp)
      rw [hsum]
      rw [lookup_cons_entry, if_pos hp.symm]
      simp
    | cons p' rest' =>
      have hlt : p.1 < p'.1 := (pairwise_cons.mp hord).1 _ (by simp)
      have hp : p.1 = low := hall p.1 (by simp)
      have hp' : p'.1 = low := hall p'.1 (by simp)
      omega

/-- The outcome of reserving at a version not below the ones that are there. -/
structure Added (f f' : ReservedFunds) (v amount : Nat) : Prop where
  total : f'.totalReservedFundsAmount = f.totalReservedFundsAmount + amount
  reservedAt : ∀ u, f'.reservedAt u = f.reservedAt u + if u = v then amount else 0
  mem_versions : ∀ u, u ∈ f'.versions ↔ u ∈ f.versions ∨ u = v

/-- A new entry behind the last. -/
theorem Ok.concat (h : f.Ok low) (hlow : low ≤ v) (hbelow : ∀ u ∈ f.versions, u < v) : let f' : ReservedFunds :=
      ⟨f.reservedFunds ++ [(v, amount)], f.totalReservedFundsAmount + amount⟩
    f'.Ok low ∧ Added f f' v amount := by
  refine ⟨⟨?_, ?_, ?_⟩, rfl, fun u => ?_, fun u => ?_⟩
  · simp [h.total_eq]
  · simp only [versions, map_append, map_cons, map_nil]
    refine pairwise_append.mpr ⟨h.ordered, by simp, fun u hu w hw => ?_⟩
    exact mem_singleton.mp hw ▸ hbelow u hu
  · simp only [versions, map_append, map_cons, map_nil, mem_append, mem_singleton]
    rintro u (hu | rfl)
    · exact h.low_le u hu
    · exact hlow
  · exact lookup_concat (fun hmem => absurd (hbelow v hmem) (lt_irrefl _)) u
  · simp [versions]

theorem addReservedFund_spec (h : f.Ok low) (hlow : low ≤ v) (hle : ∀ u ∈ f.versions, u ≤ v)
    (hfit : f.totalReservedFundsAmount + amount < 2 ^ 128) :
    ∃ f', f.addReservedFund v amount = .ok f' ∧ f'.Ok low ∧ Added f f' v amount := by
  have hsum := h.total_eq
  have hord := h.ordered
  have hge := h.low_le
  unfold versions at hord hge hle
  unfold addReservedFund
  rw [bind_ok (checkedU128_of hfit)]
  cases hlast : f.reservedFunds.getLast? with
  | none =>
    have hnil : f.reservedFunds = [] := List.getLast?_eq_none_iff.mp hlast
    refine ⟨_, rfl, ?_⟩
    rw [show [(v, amount)] = f.reservedFunds ++ [(v, amount)] by rw [hnil]; rfl]
    exact h.concat hlow (by simp [versions, hnil])
  | some entry =>
    obtain ⟨init, hinit⟩ := List.getLast?_eq_some_iff.mp hlast
    rw [hinit] at hsum hord hge hle
    rw [map_append, pairwise_append] at hord
    rw [map_append, sum_append] at hsum
    simp only [map_cons, map_nil, sum_cons, sum_nil, Nat.add_zero] at hsum
    have hfresh : entry.1 ∉ init.map (·.1) := fun hmem =>
      absurd (hord.2.2 entry.1 hmem entry.1 (by simp)) (lt_irrefl _)
    by_cases hv : entry.1 = v
    · -- The last entry grows.
      have hfit' : entry.2 + amount < 2 ^ 128 := by omega
      simp only [if_pos hv, bind_ok (checkedU128_of hfit')]
      refine ⟨_, rfl, ⟨?_, ?_, ?_⟩, ?_, ?_, ?_⟩
      · simp only [hinit, dropLast_concat, map_append, map_cons, map_nil, sum_append, sum_cons, sum_nil]
        omega
      · simp only [versions, hinit, dropLast_concat, map_append, map_cons, map_nil]
        exact pairwise_append.mpr hord
      · simpa only [versions, hinit, dropLast_concat, map_append, map_cons, map_nil] using hge
      · rfl
      · intro u
        simp only [reservedAt, hinit, dropLast_concat]
        have hold := lookup_concat (n := entry.2) hfresh u
        rw [lookup_concat hfresh, hold]
        split <;> split <;> omega
      · intro u
        simp only [versions, hinit, dropLast_concat, map_append, map_cons, map_nil, mem_append, mem_singleton, hv]
        tauto
    · -- A new entry behind the last.
      have hlt : entry.1 < v := lt_of_le_of_ne (hle entry.1 (by simp)) hv
      simp only [if_neg hv, bind_require hlt]
      refine ⟨_, rfl, h.concat hlow fun u hu => ?_⟩
      rw [versions, hinit, map_append, mem_append] at hu
      rcases hu with hu | hu
      · exact (hord.2.2 u hu entry.1 (by simp)).trans hlt
      · simp only [map_cons, map_nil, mem_singleton] at hu
        exact hu ▸ hlt

/-- The outcome of settling version `low`. -/
structure Settled (f f' : ReservedFunds) (low : Nat) : Prop where
  total : f'.totalReservedFundsAmount + f.reservedAt low = f.totalReservedFundsAmount
  reservedAt : ∀ u, low < u → f'.reservedAt u = f.reservedAt u
  mem_versions : ∀ u, u ∈ f'.versions ↔ u ∈ f.versions ∧ low < u

theorem settleFund_spec (h : f.Ok low) :
    ∃ f', f.settleFund (low + 1) = .ok f' ∧ f'.Ok (low + 1) ∧ Settled f f' low := by
  have hsum := h.total_eq
  have hord := h.ordered
  have hge := h.low_le
  unfold versions at hord hge
  unfold settleFund
  cases hl : f.reservedFunds with
  | nil =>
    refine ⟨f, rfl, ⟨h.total_eq, h.ordered, ?_⟩, ?_, ?_, ?_⟩
    · simp [versions, hl]
    · simp [reservedAt, hl]
    · exact fun _ _ => rfl
    · simp [versions, hl]
  | cons entry rest =>
    rw [hl] at hsum hord hge
    rw [map_cons, sum_cons] at hsum
    rw [map_cons, pairwise_cons] at hord
    have hentry : low ≤ entry.1 := hge entry.1 (by simp)
    by_cases hv : entry.1 = low
    · have hpop : entry.2 ≤ f.totalReservedFundsAmount := by omega
      simp only [hv, if_true, bind_require hpop]
      refine ⟨_, rfl, ⟨?_, hord.2, ?_⟩, ?_, ?_, ?_⟩
      · show f.totalReservedFundsAmount - entry.2 = (rest.map (·.2)).sum
        omega
      · intro u hu
        have := hord.1 u hu
        omega
      · simp only [reservedAt, hl, lookup_cons_entry, hv, if_true, Option.getD_some]
        omega
      · intro u hu
        have hne : ¬u = entry.1 := by omega
        simp only [reservedAt, hl, lookup_cons_entry, if_neg hne]
      · intro u
        simp only [versions, hl, map_cons, mem_cons]
        constructor
        · intro hu
          have := hord.1 u hu
          exact ⟨.inr hu, by omega⟩
        · rintro ⟨hu | hu, hlt⟩
          · omega
          · exact hu
    · have hlt : low + 1 ≤ entry.1 := by omega
      have hne : ¬entry.1 + 1 = low + 1 := by omega
      simp only [if_neg hne, bind_require hlt]
      have hall : ∀ u ∈ f.versions, low < u := by
        intro u hu
        simp only [versions, hl, map_cons, mem_cons] at hu
        rcases hu with hu | hu
        · omega
        · have := hord.1 u hu
          omega
      refine ⟨f, rfl, ⟨h.total_eq, h.ordered, hall⟩, ?_, fun _ _ => rfl, ?_⟩
      · rw [reservedAt_of_not_mem fun hmem => absurd (hall low hmem) (lt_irrefl _)]
        rfl
      · exact fun u => ⟨fun hu => ⟨hu, hall u hu⟩, fun hu => hu.1⟩

end ReservedFunds

end Sui.FundsWithdraw
