import Sui.Lib.BTree

/-! Maps to lists, as bags of what the lists hold.

`bag` is everything that the lists of a map hold, with multiplicity. What an operation on
the map does to it is an equation: an insertion takes out the list that it replaces
(`bag_insert`), so a loop of insertions under free keys keeps what was there (`bag_insertAll`). -/
namespace Sui.Lib.BTreeMap

open List

open Std (ExtTreeMap)

variable {κ α : Type} [LinearOrder κ] {ν : Type} {entries : List (κ × ν)}

/-- What a map holds under a key. -/
def listAt (m : BTreeMap κ (List α)) (k : κ) : List α := m[k]?.getD []

def bag (m : BTreeMap κ (List α)) : Multiset α := ((m.toList.flatMap Prod.snd : List α) : Multiset α)

theorem mem_bag {m : BTreeMap κ (List α)} : a ∈ bag m ↔ ∃ (k : κ) (l : List α), m[k]? = some l ∧ a ∈ l := by
  rw [bag, Multiset.mem_coe, mem_flatMap]
  constructor
  · intro ⟨⟨k, l⟩, hentry, ha⟩
    exact ⟨k, l, mem_toList_iff.mp hentry, ha⟩
  · intro ⟨k, l, hentry, ha⟩
    exact ⟨(k, l), mem_toList_iff.mpr hentry, ha⟩

@[simp] theorem bag_empty : bag (∅ : BTreeMap κ (List α)) = 0 := by
  refine Multiset.eq_zero_of_forall_notMem fun a ha => ?_
  obtain ⟨k, l, hget, -⟩ := mem_bag.mp ha
  rw [ExtTreeMap.getElem?_empty] at hget
  cases hget

theorem nodup_toList (m : BTreeMap κ ν) : m.toList.Nodup := by
  refine List.Nodup.of_map Prod.fst ?_
  rw [ExtTreeMap.map_fst_toList_eq_keys]
  exact ExtTreeMap.nodup_keys

theorem bag_erase (m : BTreeMap κ (List α)) (k : κ) : bag m = (listAt m k : Multiset α) + bag (m.erase k) := by
  cases hk : m[k]? with
  | none =>
    have hsame : m.erase k = m := by
      apply ExtTreeMap.ext_getElem?
      intro a
      rw [get_erase]
      split
      · rename_i heq
        rw [← heq, hk]
      · rfl
    rw [hsame, listAt, hk]
    exact (zero_add _).symm
  | some l =>
    have hperm : m.toList.Perm ((k, l) :: (m.erase k).toList) := by
      rw [perm_ext_iff_of_nodup (nodup_toList m)]
      · intro ⟨a, v⟩
        rw [mem_cons, mem_toList_iff, mem_toList_iff, get_erase]
        by_cases hka : k = a
        · subst hka
          rw [hk]
          simp [eq_comm]
        · simp [hka, Ne.symm hka]
      · rw [nodup_cons, mem_toList_iff, get_erase]
        exact ⟨by simp, nodup_toList _⟩
    rw [listAt, hk, bag, bag, Multiset.coe_add]
    exact Multiset.coe_eq_coe.mpr (hperm.flatMap_right Prod.snd)

/-- An insertion adds a list and takes out the one that it replaces. -/
theorem bag_insert (m : BTreeMap κ (List α)) (k : κ) (l : List α) :
    bag (m.insert k l) + (listAt m k : Multiset α) = bag m + (l : Multiset α) := by
  have herase : (m.insert k l).erase k = m.erase k := by
    apply ExtTreeMap.ext_getElem?
    intro a
    rw [get_erase, get_erase, get_insert]
    split <;> rfl
  rw [bag_erase (m.insert k l) k, herase, bag_erase m k, listAt, get_insert_self]
  simp only [Option.getD_some]
  abel

/-! ### Pushing to a list -/

/-- One more element in the list under a key. -/
def push (m : BTreeMap κ (List α)) (k : κ) (a : α) : BTreeMap κ (List α) := m.insert k (listAt m k ++ [a])

theorem bag_push (m : BTreeMap κ (List α)) (k : κ) (a : α) : bag (push m k a) = a ::ₘ bag m := by
  have h := bag_insert m k (listAt m k ++ [a])
  rw [← Multiset.coe_add, ← add_assoc] at h
  rw [push, ← Multiset.singleton_add]
  refine add_right_cancel (b := (listAt m k : Multiset α)) (h.trans ?_)
  rw [Multiset.coe_singleton]
  abel

/-! ### Taking lists out -/

/-- The map without the keys. -/
def eraseAll {ν : Type} (m : BTreeMap κ ν) (keys : List κ) : BTreeMap κ ν := keys.foldl (fun m k => m.erase k) m

theorem get_eraseAll (m : BTreeMap κ ν) (keys : List κ) (k : κ) :
    (eraseAll m keys)[k]? = if k ∈ keys then none else m[k]? := get_foldl_erase m keys k

/-- The entries that pass a test hold what the map loses without them. -/
theorem bag_eraseAll_filter (m : BTreeMap κ (List α)) (p : κ × List α → Bool) :
    bag m = (((m.toList.filter p).flatMap Prod.snd : List α) : Multiset α) +
      bag (eraseAll m ((m.toList.filter p).map Prod.fst)) := by
  have hrest : (m.toList.filter fun entry => !p entry).Perm
      (eraseAll m ((m.toList.filter p).map Prod.fst)).toList := by
    rw [perm_ext_iff_of_nodup ((nodup_toList m).filter _) (nodup_toList _)]
    intro ⟨k, l⟩
    rw [mem_filter, mem_toList_iff, mem_toList_iff, get_eraseAll]
    constructor
    · intro ⟨hget, hp⟩
      rw [if_neg, hget]
      intro hk
      obtain ⟨⟨k', l'⟩, hentry, rfl⟩ := mem_map.mp hk
      obtain ⟨hmem, hp'⟩ := mem_filter.mp hentry
      cases hget.symm.trans (mem_toList_iff.mp hmem)
      rw [hp'] at hp
      cases hp
    · intro hget
      split at hget
      · cases hget
      · rename_i hk
        refine ⟨hget, ?_⟩
        rw [Bool.not_eq_true', ← Bool.not_eq_true]
        intro hp
        exact hk (mem_map.mpr ⟨(k, l), mem_filter.mpr ⟨mem_toList_iff.mpr hget, hp⟩, rfl⟩)
  rw [bag, bag, Multiset.coe_add, Multiset.coe_eq_coe, ← flatMap_append]
  apply List.Perm.flatMap_right
  exact (filter_append_perm p m.toList).symm.trans (hrest.append_left _)

/-! ### Putting lists in -/

def insertAll {ν : Type} (m : BTreeMap κ ν) (entries : List (κ × ν)) : BTreeMap κ ν :=
  entries.foldl (fun m entry => m.insert entry.1 entry.2) m

theorem get_insertAll_of_not_mem (m : BTreeMap κ ν)
    (h : k ∉ entries.map Prod.fst) : (insertAll m entries)[k]? = m[k]? := by
  induction entries generalizing m with
  | nil => rfl
  | cons entry entries ih =>
    rw [map_cons, mem_cons, not_or] at h
    show (insertAll (m.insert entry.1 entry.2) entries)[k]? = _
    rw [ih _ h.2, get_insert_of_ne m _ (Ne.symm h.1)]

/-- What is inserted does not depend on what was there. -/
theorem get_insertAll_of_mem
    (h : k ∈ entries.map Prod.fst) : ∃ v, (k, v) ∈ entries ∧ ∀ m' : BTreeMap κ ν, (insertAll m' entries)[k]? = some v := by
  induction entries with
  | nil => cases h
  | cons entry entries ih =>
    by_cases hk : k ∈ entries.map Prod.fst
    · obtain ⟨v, hmem, hget⟩ := ih hk
      exact ⟨v, mem_cons_of_mem _ hmem, fun m' => hget (m'.insert entry.1 entry.2)⟩
    · rw [map_cons, mem_cons] at h
      have hfirst := h.resolve_right hk
      refine ⟨entry.2, hfirst ▸ mem_cons_self, fun m' => ?_⟩
      show (insertAll (m'.insert entry.1 entry.2) entries)[k]? = _
      rw [get_insertAll_of_not_mem _ hk, hfirst, get_insert_self]

/-- Insertions and deletions under different keys commute. -/
theorem eraseAll_insertAll (m : BTreeMap κ ν) {keys : List κ} (h : ∀ k ∈ keys, k ∉ entries.map Prod.fst) :
    eraseAll (insertAll m entries) keys = insertAll (eraseAll m keys) entries := by
  apply ExtTreeMap.ext_getElem?
  intro k
  rw [get_eraseAll]
  by_cases hentry : k ∈ entries.map Prod.fst
  · obtain ⟨v, -, hget⟩ := get_insertAll_of_mem hentry
    rw [if_neg fun hk => h k hk hentry, hget, hget]
  · rw [get_insertAll_of_not_mem m hentry, get_insertAll_of_not_mem _ hentry, get_eraseAll]

/-- Under distinct keys that are free, what the insertions add comes to what was there. -/
theorem bag_insertAll (m : BTreeMap κ (List α)) {entries : List (κ × List α)}
    (hkeys : (entries.map Prod.fst).Nodup) (hfree : ∀ k ∈ entries.map Prod.fst, k ∉ m) :
    bag (insertAll m entries) = bag m + ((entries.flatMap Prod.snd : List α) : Multiset α) := by
  induction entries generalizing m with
  | nil => exact (add_zero _).symm
  | cons entry entries ih =>
    obtain ⟨hentry, hkeys⟩ := nodup_cons.mp hkeys
    obtain ⟨hfirst, hfree⟩ := forall_mem_cons.mp hfree
    have hinsert : bag (m.insert entry.1 entry.2) + 0 = bag m + (entry.2 : Multiset α) := by
      rw [← bag_insert, listAt, not_mem_iff_get.mp hfirst]
      rfl
    have hlater : ∀ k ∈ entries.map Prod.fst, k ∉ m.insert entry.1 entry.2 := by
      intro k hk hmem
      rcases mem_insert_iff.mp hmem with rfl | hmem
      · exact hentry hk
      · exact hfree k hk hmem
    show bag (insertAll (m.insert entry.1 entry.2) entries) = _
    rw [ih _ hkeys hlater, ← add_zero (bag (m.insert _ _)), hinsert, flatMap_cons, ← Multiset.coe_add, add_assoc]

end Sui.Lib.BTreeMap
