import Mathlib

/-! Rosters.

A roster has members with a name and an id. They are listed or in reserve, by their name; an index
finds the name of an id, and ids of former members are retired. `Consistent` says that each name
has one place and that the index holds exactly the members. It is kept when a member enrols in the
reserve, goes from there to the list or back, and leaves from either. -/
namespace Sui.Lib

open List Function

section Update
variable {α β : Type} [DecidableEq α] {f : α → Option β} {a b : α} {x : Option β} {w : β}

theorem update_eq_some : Function.update f a x b = some w ↔ b = a ∧ x = some w ∨ b ≠ a ∧ f b = some w := by
  by_cases hb : b = a
  · subst hb
    simp
  · simp [hb]

theorem update_none_eq_some : Function.update f a none b = some w ↔ b ≠ a ∧ f b = some w := by
  simp [update_eq_some]

end Update

variable {ν ι : Type}

structure Roster (ν ι : Type) where
  listed : List (ν × ι)
  reserve : ν → Option (ν × ι)
  index : ι → Option ν
  retired : ι → Option ι

namespace Roster

def Member (r : Roster ν ι) (a : ν) (i : ι) : Prop := (a, i) ∈ r.listed ∨ r.reserve a = some (a, i)

structure Consistent (r : Roster ν ι) : Prop where
  nodup : (r.listed.map Prod.fst).Nodup
  reserveKey : ∀ {a k}, r.reserve a = some k → k.1 = a
  apart : ∀ {a k}, r.reserve a = some k → a ∉ r.listed.map Prod.fst
  indexed : ∀ {i a}, r.index i = some a ↔ r.Member a i
  retiredKey : ∀ {i j}, r.retired i = some j → j = i
  retiredApart : ∀ {i j}, r.retired i = some j → r.index i = none

namespace Consistent
variable {r : Roster ν ι} {a b : ν} {i j : ι}

section
variable (h : r.Consistent)
include h

/-- An id has one member. -/
theorem name_unique (ha : r.Member a i) (hb : r.Member b i) : a = b :=
  Option.some.inj ((h.indexed.mpr ha).symm.trans (h.indexed.mpr hb))

theorem not_retired (ha : r.Member a i) : r.retired i = none := by
  cases hr : r.retired i with
  | none => rfl
  | some j => exact absurd ((h.retiredApart hr).symm.trans (h.indexed.mpr ha)) nofun

theorem reserve_of_listed (ha : a ∈ r.listed.map Prod.fst) : r.reserve a = none := by
  cases hr : r.reserve a with
  | none => rfl
  | some k => exact absurd ha (h.apart hr)

/-- A name has one member. -/
theorem id_unique (hi : r.Member a i) (hj : r.Member a j) : i = j := by
  rcases hi with hi | hi
  · rcases hj with hj | hj
    · exact congrArg Prod.snd (inj_on_of_nodup_map h.nodup hi hj rfl)
    · exact absurd (mem_map_of_mem hi) (h.apart hj)
  · rcases hj with hj | hj
    · exact absurd (mem_map_of_mem hj) (h.apart hi)
    · exact congrArg Prod.snd (Option.some.inj (hi.symm.trans hj))

/-- The ids of the listed members are distinct. -/
theorem ids_nodup : (r.listed.map Prod.snd).Nodup := by
  refine (List.Nodup.of_map _ h.nodup).map_on fun k hk l hl hkl => ?_
  exact Prod.ext (h.name_unique (.inl hk) (.inl (hkl ▸ hl))) hkl

/-- Listed members and those in reserve have different ids. -/
theorem id_ne_of_reserve (ha : (a, i) ∈ r.listed) (hb : r.reserve b = some (b, j)) : i ≠ j := by
  intro hij
  have hab := h.name_unique (.inl ha) (.inr (hij ▸ hb))
  exact h.apart hb (hab ▸ mem_map_of_mem ha)

theorem perm {listed : List (ν × ι)} (hp : listed.Perm r.listed) :
    Consistent { r with listed } where
  nodup := (hp.map Prod.fst).nodup_iff.mpr h.nodup
  reserveKey := h.reserveKey
  apart hr ha := h.apart hr ((hp.map Prod.fst).mem_iff.mp ha)
  indexed := h.indexed.trans (or_congr hp.mem_iff.symm Iff.rfl)
  retiredKey := h.retiredKey
  retiredApart := h.retiredApart

end

variable {rest : List (ν × ι)}

theorem mem_of_perm (hp : r.listed.Perm ((a, i) :: rest)) : (a, i) ∈ r.listed :=
  hp.mem_iff.mpr (.head _)

section
variable (h : r.Consistent)
include h

/-- Without one of the listed members the names are still distinct, and that one is free. -/
theorem nodup_rest (hp : r.listed.Perm ((a, i) :: rest)) : a ∉ rest.map Prod.fst ∧ (rest.map Prod.fst).Nodup :=
  nodup_cons.mp ((hp.map Prod.fst).nodup_iff.mp h.nodup)

theorem apart_rest (hp : r.listed.Perm ((a, i) :: rest)) (hb : r.reserve b = some k) : b ∉ rest.map Prod.fst :=
  fun hm => h.apart hb ((hp.map Prod.fst).mem_iff.mpr (.tail _ hm))

/-- The id of a member that leaves is taken out of the index. -/
theorem index_erase [DecidableEq ι] (hi : r.Member a i) :
    Function.update r.index i none j = some b ↔ r.Member b j ∧ b ≠ a := by
  rw [update_none_eq_some, h.indexed]
  constructor
  · intro ⟨hj, hm⟩
    exact ⟨hm, fun hb => hj (h.id_unique (hb ▸ hm) hi)⟩
  · intro ⟨hm, hb⟩
    exact ⟨fun hj => hb (h.name_unique (hj ▸ hm) hi), hm⟩

theorem retire [DecidableEq ι] (hr : Function.update r.retired i (some i) j = some k) :
    k = j ∧ Function.update r.index i none j = none := by
  rcases update_eq_some.mp hr with ⟨rfl, hk⟩ | ⟨hj, hr⟩
  · exact ⟨(Option.some.inj hk).symm, update_self ..⟩
  · exact ⟨h.retiredKey hr, (update_of_ne hj ..).trans (h.retiredApart hr)⟩

/-- A listed member leaves. -/
theorem leave [DecidableEq ι] (hp : r.listed.Perm ((a, i) :: rest)) :
    Consistent { r with
      listed := rest
      index := update r.index i none
      retired := update r.retired i (some i) } where
  nodup := (h.nodup_rest hp).2
  reserveKey := h.reserveKey
  apart hb := h.apart_rest hp hb
  indexed {j b} := by
    rw [h.index_erase (.inl (mem_of_perm hp))]
    simp only [Member, hp.mem_iff, mem_cons, Prod.mk.injEq]
    by_cases hb : b = a
    · subst hb
      have hnone := h.reserve_of_listed (mem_map_of_mem (mem_of_perm hp))
      have hrest : (b, j) ∉ rest := fun hm => (h.nodup_rest hp).1 (mem_map_of_mem hm)
      simp [hnone, hrest]
    · simp [hb]
  retiredKey hr := (h.retire hr).1
  retiredApart hr := (h.retire hr).2

end

section Moves
variable [DecidableEq ν]

section
variable (h : r.Consistent)
include h

/-- A new member, in reserve. -/
theorem enrol [DecidableEq ι] (hlisted : a ∉ r.listed.map Prod.fst) (hreserve : r.reserve a = none)
    (hindex : r.index i = none) (hretired : r.retired i = none) :
    Consistent { r with
      reserve := update r.reserve a (some (a, i))
      index := update r.index i (some a) } where
  nodup := h.nodup
  reserveKey {b k} hr := by
    rcases update_eq_some.mp hr with ⟨rfl, hk⟩ | ⟨-, hr⟩
    · cases hk
      rfl
    · exact h.reserveKey hr
  apart {b k} hr := by
    rcases update_eq_some.mp hr with ⟨rfl, -⟩ | ⟨-, hr⟩
    · exact hlisted
    · exact h.apart hr
  indexed {j b} := by
    -- the id is new, and the name too
    have hid {c : ν} (hm : r.Member c j) : j ≠ i := by
      intro hj
      rw [← h.indexed, hj, hindex] at hm
      cases hm
    have hname {k : ι} (hm : r.Member a k) : False := by
      rcases hm with hm | hm
      · exact hlisted (mem_map_of_mem hm)
      · exact absurd (hreserve.symm.trans hm) nofun
    simp only [Member, update_eq_some, Option.some.injEq, Prod.mk.injEq]
    constructor
    · intro hj
      rcases hj with ⟨rfl, rfl⟩ | ⟨-, hj⟩
      · exact .inr (.inl ⟨rfl, rfl, rfl⟩)
      · have hm := h.indexed.mp hj
        exact hm.imp_right fun hr => .inr ⟨fun hb => hname (hb ▸ hm), hr⟩
    · intro hm
      rcases hm with hm | ⟨rfl, -, rfl⟩ | ⟨-, hm⟩
      · exact .inr ⟨hid (.inl hm), h.indexed.mpr (.inl hm)⟩
      · exact .inl ⟨rfl, rfl⟩
      · exact .inr ⟨hid (.inr hm), h.indexed.mpr (.inr hm)⟩
  retiredKey := h.retiredKey
  retiredApart {j k} hr := by
    have hj : j ≠ i := by
      rintro rfl
      cases hretired.symm.trans hr
    exact (update_of_ne hj ..).trans (h.retiredApart hr)

/-- A member goes from the reserve to the list. -/
theorem promote (hr : r.reserve a = some (a, i)) :
    Consistent { r with
      listed := r.listed ++ [(a, i)]
      reserve := update r.reserve a none } where
  nodup := by
    rw [map_append, map_singleton, ← concat_eq_append, nodup_concat]
    exact ⟨h.apart hr, h.nodup⟩
  reserveKey hb := h.reserveKey (update_none_eq_some.mp hb).2
  apart {b k} hb := by
    obtain ⟨hne, hb⟩ := update_none_eq_some.mp hb
    simp only [map_append, map_cons, map_nil, mem_append, mem_singleton]
    exact not_or.mpr ⟨h.apart hb, hne⟩
  indexed {j b} := by
    simp only [h.indexed, Member, update_none_eq_some, mem_append, mem_singleton, Prod.mk.injEq]
    by_cases hb : b = a
    · subst hb
      simp [hr, eq_comm]
    · simp [hb]
  retiredKey := h.retiredKey
  retiredApart := h.retiredApart

/-- A member goes from the list to the reserve. -/
theorem demote (hp : r.listed.Perm ((a, i) :: rest)) :
    Consistent { r with
      listed := rest
      reserve := update r.reserve a (some (a, i)) } where
  nodup := (h.nodup_rest hp).2
  reserveKey {b k} hb := by
    rcases update_eq_some.mp hb with ⟨rfl, hk⟩ | ⟨-, hb⟩
    · cases hk
      rfl
    · exact h.reserveKey hb
  apart {b k} hb := by
    rcases update_eq_some.mp hb with ⟨rfl, -⟩ | ⟨-, hb⟩
    · exact (h.nodup_rest hp).1
    · exact h.apart_rest hp hb
  indexed {j b} := by
    simp only [h.indexed, Member, update_eq_some, hp.mem_iff, mem_cons, Prod.mk.injEq]
    by_cases hb : b = a
    · subst hb
      have hnone := h.reserve_of_listed (mem_map_of_mem (mem_of_perm hp))
      simp [hnone, eq_comm, or_comm]
    · simp [hb]
  retiredKey := h.retiredKey
  retiredApart := h.retiredApart

/-- A member in reserve leaves. -/
theorem dismiss [DecidableEq ι] (hr : r.reserve a = some (a, i)) :
    Consistent { r with
      reserve := update r.reserve a none
      index := update r.index i none
      retired := update r.retired i (some i) } where
  nodup := h.nodup
  reserveKey hb := h.reserveKey (update_none_eq_some.mp hb).2
  apart hb := h.apart (update_none_eq_some.mp hb).2
  indexed {j b} := by
    rw [h.index_erase (.inr hr)]
    simp only [Member, update_none_eq_some]
    by_cases hb : b = a
    · subst hb
      have hlisted : (b, j) ∉ r.listed := fun hm => h.apart hr (mem_map_of_mem hm)
      simp [hlisted]
    · simp [hb]
  retiredKey hr := (h.retire hr).1
  retiredApart hr := (h.retire hr).2

end

end Moves

end Consistent

end Roster

end Sui.Lib
