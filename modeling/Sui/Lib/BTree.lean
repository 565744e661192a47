import Mathlib

/-! Ordered maps and sets.

`BTreeMap` and `BTreeSet` are the standard library's extensional search trees at
the key type's own order: two maps with the same lookups are equal, and
enumeration is ascending. The lemmas here restate the ones used everywhere with
`=` on keys in place of a comparison result, and read the ends of a tree as the
least and greatest key. -/
namespace Sui.Lib

open List

open Std (ExtTreeMap ExtTreeSet LawfulEqOrd)

abbrev BTreeMap (κ : Type*) (ν : Type*) [Ord κ] := ExtTreeMap κ ν compare

abbrev BTreeSet (κ : Type*) [Ord κ] := ExtTreeSet κ compare

/-- A linear order's comparison decides equality of keys. -/
instance lawfulEqOrd_of_linearOrder {κ : Type*} [LinearOrder κ] : LawfulEqOrd κ where
  eq_of_compare h := compare_eq_iff_eq.mp h

instance transOrd_of_linearOrder {κ : Type*} [LinearOrder κ] : Std.TransOrd κ := inferInstance

namespace BTreeMap
variable {κ ν : Type*} [LinearOrder κ] (m : BTreeMap κ ν) {a : κ} {v : ν} {γ : Type*}

theorem get_insert (a b : κ) (v : ν) : (m.insert a v)[b]? = if a = b then some v else m[b]? := by
  rw [ExtTreeMap.getElem?_insert]
  simp only [compare_eq_iff_eq]

@[simp] theorem get_insert_self (a : κ) (v : ν) : (m.insert a v)[a]? = some v := by
  simp

theorem get_insert_of_ne (v : ν) (h : a ≠ b) : (m.insert a v)[b]? = m[b]? := by
  simp [get_insert, h]

theorem get_erase (a b : κ) : (m.erase a)[b]? = if a = b then none else m[b]? := by
  rw [ExtTreeMap.getElem?_erase]
  simp only [compare_eq_iff_eq]

theorem get_modify (a b : κ) (f : ν → ν) : (m.modify a f)[b]? = if a = b then m[b]?.map f else m[b]? := by
  rw [ExtTreeMap.getElem?_modify]
  simp only [compare_eq_iff_eq]
  split
  · rename_i h; rw [h]
  · rfl

section Mem
variable {m} {a b : κ} {v w : ν}

theorem mem_iff_get : a ∈ m ↔ ∃ v, m[a]? = some v := by
  rw [ExtTreeMap.mem_iff_isSome_getElem?, Option.isSome_iff_exists]

theorem mem_of_get (h : m[a]? = some v) : a ∈ m := mem_iff_get.mpr ⟨v, h⟩

theorem not_mem_iff_get : a ∉ m ↔ m[a]? = none := by
  rw [mem_iff_get]
  cases m[a]? <;> simp

theorem mem_insert_iff : b ∈ m.insert a v ↔ a = b ∨ b ∈ m := by
  rw [ExtTreeMap.mem_insert, compare_eq_iff_eq]

theorem mem_erase_iff : b ∈ m.erase a ↔ a ≠ b ∧ b ∈ m := by
  rw [ExtTreeMap.mem_erase, Ne, compare_eq_iff_eq]

theorem insert_eq_some : (m.insert a v)[b]? = some w ↔ (a = b ∧ v = w) ∨ (a ≠ b ∧ m[b]? = some w) := by
  rw [get_insert]
  split <;> simp_all

theorem erase_eq_some : (m.erase a)[b]? = some v ↔ a ≠ b ∧ m[b]? = some v := by
  rw [get_erase]
  split <;> simp_all

theorem isEmpty_iff_forall : m.isEmpty = true ↔ ∀ a, a ∉ m := by
  rw [ExtTreeMap.isEmpty_iff]
  constructor
  · intro h a
    rw [h]
    exact ExtTreeMap.not_mem_empty
  · intro h
    apply ExtTreeMap.ext_getElem?
    intro a
    rw [not_mem_iff_get.mp (h a), ExtTreeMap.getElem?_empty]

/-- The enumeration holds exactly the bindings. -/
theorem mem_toList_iff : (a, v) ∈ m.toList ↔ m[a]? = some v :=
  ExtTreeMap.mem_toList_iff_getElem?_eq_some

/-- A key stands once in the enumeration. -/
theorem toList_key_ne (h : m.toList = done ++ (a, v) :: rest) : ∀ y ∈ done, y.1 ≠ a := by
  intro y hy heq
  have hdistinct := m.distinct_keys_toList
  rw [h, pairwise_append] at hdistinct
  exact hdistinct.2.2 y hy (a, v) (.head _) (compare_eq_iff_eq.mpr heq)

end Mem

section Lookup
variable [DecidableEq κ] {γ : Type*}

/-- Lookups after an insertion, as a function. -/
theorem lookup_insert (a : κ) (v : ν) :
    (fun b => (m.insert a v)[b]?) = Function.update (fun b => m[b]?) a (some v) := by
  funext b
  rw [get_insert]
  by_cases h : a = b
  · subst h
    simp
  · simp [h, Function.update_of_ne (Ne.symm h)]

theorem lookup_erase (a : κ) : (fun b => (m.erase a)[b]?) = Function.update (fun b => m[b]?) a none := by
  funext b
  rw [get_erase]
  by_cases h : a = b
  · subst h
    simp
  · simp [h, Function.update_of_ne (Ne.symm h)]

theorem lookup_map_insert (f : ν → γ) (a : κ) (v : ν) :
    (fun b => (m.insert a v)[b]?.map f) = Function.update (fun b => m[b]?.map f) a (some (f v)) := by
  funext b
  rw [congrFun (lookup_insert m a v) b]
  exact Function.apply_update (fun _ => Option.map f) (fun b => m[b]?) a (some v) b

theorem lookup_map_erase (f : ν → γ) (a : κ) :
    (fun b => (m.erase a)[b]?.map f) = Function.update (fun b => m[b]?.map f) a none := by
  funext b
  rw [congrFun (lookup_erase m a) b]
  exact Function.apply_update (fun _ => Option.map f) (fun b => m[b]?) a none b

end Lookup

/-- The least key, computed from the enumeration. -/
def firstKey? : Option κ := m.keys.head?

theorem firstKey_eq_some (h : firstKey? m = some a) : a ∈ m ∧ ∀ b ∈ m, a ≤ b := by
  obtain ⟨rest, hkeys⟩ := head?_eq_some_iff.mp h
  have hsorted := m.ordered_keys
  rw [hkeys, pairwise_cons] at hsorted
  refine ⟨ExtTreeMap.mem_keys.mp (hkeys ▸ mem_cons_self ..), fun b hb => ?_⟩
  have hmem : b ∈ a :: rest := hkeys ▸ ExtTreeMap.mem_keys.mpr hb
  rcases mem_cons.mp hmem with rfl | hmem
  · exact le_refl b
  · exact (compare_lt_iff_lt.mp (hsorted.1 b hmem)).le

/-- The entry of the least key. -/
def firstEntry? : Option (κ × ν) := m.toList.head?

theorem firstEntry_eq_some (h : firstEntry? m = some (a, v)) : m[a]? = some v ∧ ∀ b ∈ m, a ≤ b := by
  obtain ⟨rest, hlist⟩ := head?_eq_some_iff.mp h
  have hkeys : m.keys = a :: rest.map Prod.fst := by
    rw [← ExtTreeMap.map_fst_toList_eq_keys, hlist, map_cons]
  refine ⟨mem_toList_iff.mp (hlist ▸ mem_cons_self ..), ?_⟩
  exact (firstKey_eq_some m (head?_eq_some_iff.mpr ⟨_, hkeys⟩)).2

theorem firstEntry_eq_none (h : firstEntry? m = none) : ∀ a, a ∉ m := by
  intro a ha
  obtain ⟨v, hv⟩ := mem_iff_get.mp ha
  have hmem := mem_toList_iff.mpr hv
  rw [head?_eq_none_iff.mp h] at hmem
  cases hmem

/-- The keys. -/
def keySet : Finset κ := m.keys.toFinset

@[simp] theorem mem_keySet : a ∈ keySet m ↔ a ∈ m := by
  rw [keySet, mem_toFinset, ExtTreeMap.mem_keys]

theorem card_keySet_le : (keySet m).card ≤ m.size := by
  rw [← ExtTreeMap.length_keys]
  exact toFinset_card_le _

theorem size_erase_of_mem (h : a ∈ m) : (m.erase a).size + 1 = m.size := by
  have hpos : m.size ≠ 0 := by
    intro hzero
    rw [← ExtTreeMap.eq_empty_iff_size_eq_zero] at hzero
    rw [hzero] at h
    exact ExtTreeMap.not_mem_empty h
  rw [ExtTreeMap.size_erase, if_pos (ExtTreeMap.contains_iff_mem.mpr h)]
  omega

theorem size_insert_of_mem (h : a ∈ m) : (m.insert a v).size = m.size := by
  rw [ExtTreeMap.size_insert, if_pos (ExtTreeMap.contains_iff_mem.mpr h)]

theorem get_foldl_erase (l : List κ) (a : κ) :
    (l.foldl (fun m k => m.erase k) m)[a]? = if a ∈ l then none else m[a]? := by
  induction l generalizing m with
  | nil => simp
  | cons k rest ih =>
    rw [foldl_cons, ih, get_erase]
    by_cases hka : k = a
    · simp [hka]
    · by_cases ha : a ∈ rest
      · simp [ha]
      · simp [ha, hka, Ne.symm hka]

/-- Inserting the elements of a list under their keys keeps what was there, except
under those keys. -/
theorem mem_foldl_insert (key : γ → κ) (val : γ → ν) (l : List γ) (a : κ) :
    a ∈ l.foldl (fun m c => m.insert (key c) (val c)) m ↔ a ∈ m ∨ a ∈ l.map key := by
  induction l generalizing m with
  | nil => simp
  | cons c rest ih =>
    rw [foldl_cons, ih, mem_insert_iff, map_cons, mem_cons, eq_comm (a := a), or_assoc, or_left_comm]

theorem get_foldl_insert (key : γ → κ) (val : γ → ν) (l : List γ)
    (h : (l.foldl (fun m c => m.insert (key c) (val c)) m)[a]? = some v) :
    m[a]? = some v ∨ ∃ c ∈ l, key c = a ∧ val c = v := by
  induction l generalizing m with
  | nil => exact .inl h
  | cons c rest ih =>
    rcases ih _ h with h | ⟨c', hc', h⟩
    · rw [get_insert] at h
      split at h
      · rename_i hc
        cases h
        exact .inr ⟨c, mem_cons_self .., hc, rfl⟩
      · exact .inl h
    · exact .inr ⟨c', mem_cons_of_mem _ hc', h⟩

/-! ### Maps that agree -/

/-- The same keys, with values that look the same through `f`. -/
def Agree {γ : Type*} (f : ν → γ) (m m' : BTreeMap κ ν) : Prop := ∀ a : κ, m'[a]?.map f = m[a]?.map f

namespace Agree
variable {m} {γ : Type*} {f : ν → γ} {m' m'' : BTreeMap κ ν} {a : κ}

theorem refl : Agree f m m := fun _ => rfl

section
variable (h : Agree f m m')
include h

theorem trans (h' : Agree f m' m'') : Agree f m m'' :=
  fun a => (h' a).trans (h a)

theorem mem_iff : a ∈ m' ↔ a ∈ m := by
  have ha := congrArg Option.isSome (h a)
  simp only [Option.isSome_map] at ha
  rw [ExtTreeMap.mem_iff_isSome_getElem?, ExtTreeMap.mem_iff_isSome_getElem?, ha]

/-- A value of one map has a counterpart in the other. -/
theorem get (hv : m'[a]? = some v) : ∃ u, m[a]? = some u ∧ f u = f v := by
  have ha := h a
  rw [hv, Option.map_some] at ha
  exact Option.map_eq_some_iff.mp ha.symm

theorem symm : Agree f m' m := fun a => (h a).symm

end

/-- Replacing a value by one that looks the same. -/
theorem insert (hu : m[a]? = some u) (huv : f v = f u) : Agree f m (m.insert a v) := by
  intro b
  rw [get_insert]
  split
  · rename_i hab
    rw [← hab, hu, Option.map_some, Option.map_some, huv]
  · rfl

end Agree

end BTreeMap

/-- On a sorted list, taking while a downward closed test holds is filtering. -/
theorem mem_takeWhile_of_pairwise {κ : Type*} [LinearOrder κ] {p : κ → Bool} {l : List κ}
    (hl : l.Pairwise (· < ·)) (hp : ∀ a b, a < b → p b = true → p a = true) {x : κ} :
    x ∈ l.takeWhile p ↔ x ∈ l ∧ p x = true := by
  induction l with
  | nil => simp
  | cons a rest ih =>
    obtain ⟨hlt, hrest⟩ := pairwise_cons.mp hl
    rw [takeWhile_cons]
    by_cases ha : p a = true
    · rw [if_pos ha, mem_cons, mem_cons, ih hrest]
      constructor
      · rintro (rfl | ⟨hx, hpx⟩)
        · exact ⟨.inl rfl, ha⟩
        · exact ⟨.inr hx, hpx⟩
      · rintro ⟨rfl | hx, hpx⟩
        · exact .inl rfl
        · exact .inr ⟨hx, hpx⟩
    · rw [if_neg ha]
      constructor
      · intro h
        cases h
      · rintro ⟨hx, hpx⟩
        rcases mem_cons.mp hx with rfl | hx
        · exact absurd hpx ha
        · exact absurd (hp a x (hlt x hx) hpx) ha

namespace BTreeSet
variable {κ : Type*} [LinearOrder κ] {s : BTreeSet κ}

theorem mem_insert_iff : b ∈ s.insert a ↔ a = b ∨ b ∈ s := by
  rw [ExtTreeSet.mem_insert, compare_eq_iff_eq]

theorem mem_erase_iff : b ∈ s.erase a ↔ a ≠ b ∧ b ∈ s := by
  rw [ExtTreeSet.mem_erase, Ne, compare_eq_iff_eq]

theorem isEmpty_iff_forall : s.isEmpty = true ↔ ∀ a, a ∉ s := by
  rw [ExtTreeSet.isEmpty_iff]
  constructor
  · rintro rfl a
    exact ExtTreeSet.not_mem_empty
  · intro h
    exact ExtTreeSet.ext_mem fun k => by simp [h k]

variable (s) {a : κ}

theorem pairwise_toList : s.toList.Pairwise (· < ·) :=
  s.ordered_toList.imp compare_lt_iff_lt.mp

/-- The greatest element, computed from the enumeration. -/
def last? : Option κ := s.toList.getLast?

theorem last_eq_some_iff : last? s = some a ↔ a ∈ s ∧ ∀ b ∈ s, b ≤ a := by
  have hle : ∀ x, last? s = some x → x ∈ s ∧ ∀ b ∈ s, b ≤ x := by
    intro x h
    obtain ⟨pre, hlist⟩ := getLast?_eq_some_iff.mp h
    have hsorted := pairwise_toList s
    rw [hlist, pairwise_append] at hsorted
    have hmem : ∀ b, b ∈ s ↔ b ∈ pre ++ [x] := fun b => by rw [← hlist, ExtTreeSet.mem_toList]
    refine ⟨(hmem x).mpr (by simp), fun b hb => ?_⟩
    rcases mem_append.mp ((hmem b).mp hb) with hb | hb
    · exact (hsorted.2.2 b hb x (mem_singleton.mpr rfl)).le
    · exact le_of_eq (mem_singleton.mp hb)
  refine ⟨hle a, fun ⟨ha, hmax⟩ => ?_⟩
  cases h : last? s with
  | none =>
    have hnil : s.toList = [] := getLast?_eq_none_iff.mp h
    rw [← ExtTreeSet.mem_toList, hnil] at ha
    cases ha
  | some x =>
    obtain ⟨hx, hxmax⟩ := hle x h
    rw [le_antisymm (hmax x hx) (hxmax a ha)]

theorem last_eq_none_iff : last? s = none ↔ ∀ a, a ∉ s := by
  rw [last?, getLast?_eq_none_iff, eq_nil_iff_forall_not_mem]
  simp only [ExtTreeSet.mem_toList]

theorem mem_foldl_erase (l : List κ) : a ∈ l.foldl (fun t b => t.erase b) s ↔ a ∈ s ∧ a ∉ l := by
  induction l generalizing s with
  | nil => simp
  | cons b rest ih =>
    rw [foldl_cons, ih, mem_erase_iff, mem_cons, not_or]
    constructor
    · rintro ⟨⟨hne, h⟩, hr⟩
      exact ⟨h, Ne.symm hne, hr⟩
    · rintro ⟨h, hne, hr⟩
      exact ⟨⟨Ne.symm hne, h⟩, hr⟩

theorem mem_foldl_insert (l : List κ) : a ∈ l.foldl (fun t b => t.insert b) s ↔ a ∈ s ∨ a ∈ l := by
  induction l generalizing s with
  | nil => simp
  | cons b rest ih =>
    rw [foldl_cons, ih, mem_insert_iff, mem_cons, eq_comm (a := a), or_assoc, or_left_comm]

end BTreeSet

end Sui.Lib
