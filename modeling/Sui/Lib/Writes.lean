import Sui.Lib.BTree

/-! Writes to a map in the order they are made.

A key reads as the last write to it (`get_apply`). `Counted` is the invariant of an
overlay that keeps, for each key some write waits for, the newest value and the number of
writes that wait: writes join it at the end and leave it at the front. -/
namespace Sui.Lib.Writes
open BTreeMap List
variable {κ ν : Type} [LinearOrder κ] {ws : List (κ × ν)} {k : κ} {v : ν} {m : BTreeMap κ (Nat × ν)}

/-- The value of the last write to a key. -/
def last : List (κ × ν) → κ → Option ν
  | [], _ => none
  | (a, v) :: ws, k => (last ws k).or (if a = k then some v else none)

/-- Makes the writes. -/
def apply (m : BTreeMap κ ν) (ws : List (κ × ν)) : BTreeMap κ ν :=
  ws.foldl (fun m w => m.insert w.1 w.2) m

theorem last_append (ws ws' : List (κ × ν)) (k : κ) : last (ws ++ ws') k = (last ws' k).or (last ws k) := by
  induction ws with
  | nil => simp [last]
  | cons w ws ih => simp only [cons_append, last, ih, Option.or_assoc]

theorem apply_append (m : BTreeMap κ ν) (ws ws' : List (κ × ν)) : apply m (ws ++ ws') = apply (apply m ws) ws' :=
  foldl_append

theorem get_apply (m : BTreeMap κ ν) (ws : List (κ × ν)) (k : κ) : (apply m ws)[k]? = (last ws k).or m[k]? := by
  induction ws generalizing m with
  | nil => rfl
  | cons w ws ih =>
    show (apply (m.insert w.1 w.2) ws)[k]? = _
    rw [ih, get_insert, last, Option.or_assoc]
    split <;> simp

theorem last_eq_none_iff : last ws k = none ↔ k ∉ ws.map Prod.fst := by
  induction ws with
  | nil => simp [last]
  | cons w ws ih =>
    rw [last, Option.or_eq_none_iff, ih, map_cons, mem_cons, not_or, and_comm]
    simp [eq_comm]

theorem mem_of_last (h : last ws k = some v) : (k, v) ∈ ws := by
  induction ws with
  | nil => cases h
  | cons w ws ih =>
    rw [last, Option.or_eq_some_iff] at h
    rcases h with h | ⟨-, h⟩
    · exact mem_cons_of_mem _ (ih h)
    · split at h
      · rename_i hw
        cases h
        exact hw ▸ mem_cons_self ..
      · cases h

theorem last_map_const (l : List κ) (v : ν) (k : κ) :
    last (l.map (·, v)) k = if k ∈ l then some v else none := by
  induction l with
  | nil => rfl
  | cons a l ih =>
    rw [map_cons, last, ih]
    by_cases hk : k ∈ l
    · simp [hk]
    · simp [hk, eq_comm]

/-- The entries of a map write the map. -/
theorem last_toList (m : BTreeMap κ ν) (k : κ) : last m.toList k = m[k]? := by
  cases h : last m.toList k with
  | some v => exact (mem_toList_iff.mp (mem_of_last h)).symm
  | none =>
    refine (not_mem_iff_get.mp fun hk => last_eq_none_iff.mp h ?_).symm
    obtain ⟨v, hv⟩ := mem_iff_get.mp hk
    exact mem_map.mpr ⟨(k, v), mem_toList_iff.mpr hv, rfl⟩

/-- Of writes in groups, those of the last group with the key count. -/
theorem last_flatMap (f : γ → List (κ × ν)) (l : List γ) (k : κ) :
    last (l.flatMap f) k = l.reverse.findSome? fun c => last (f c) k := by
  induction l with
  | nil => rfl
  | cons c l ih =>
    rw [flatMap_cons, last_append, ih, reverse_cons, findSome?_append]
    simp

/-! ### Counts -/

/-- The newest value of each key, with the number of writes to it. -/
def Counted (ws : List (κ × ν)) (m : BTreeMap κ (Nat × ν)) : Prop :=
  ∀ k : κ, m[k]? = (last ws k).map fun v => ((ws.map Prod.fst).count k, v)

theorem counted_nil : Counted [] (∅ : BTreeMap κ (Nat × ν)) := by
  intro k
  simp [last]

theorem Counted.eq_empty (h : Counted [] m) : m = ∅ :=
  Std.ExtTreeMap.ext_getElem? fun k => (h k).trans (counted_nil k).symm

/-- What is kept of a key that is not written. -/
theorem count_append_of_ne (v : ν) (h : k ≠ j) :
    ((ws ++ [(k, v)]).map Prod.fst).count j = (ws.map Prod.fst).count j := by
  simp [h]

/-- A write joins at the end. -/
theorem Counted.push (h : Counted ws m) (k : κ) (v : ν) (hn : n = (ws.map Prod.fst).count k + 1) :
    Counted (ws ++ [(k, v)]) (m.insert k (n, v)) := by
  intro j
  rw [get_insert, last_append]
  by_cases hkj : k = j
  · subst hkj
    simp [last, hn]
  · rw [if_neg hkj, h j, count_append_of_ne v hkj]
    simp [last, hkj]

/-- Before the first write leaves, its key is counted. -/
theorem Counted.get_head (h : Counted ((k, v) :: ws) m) :
    m[k]? = some ((ws.map Prod.fst).count k + 1, (last ws k).getD v) := by
  rw [h k, last, if_pos rfl]
  cases last ws k <;> simp

/-- The first write leaves, and the last one with its key takes it along. -/
theorem Counted.pop (h : Counted ((k, v) :: ws) m) (hm' : m' = if (ws.map Prod.fst).count k = 0 then m.erase k
      else m.insert k ((ws.map Prod.fst).count k, (last ws k).getD v)) : Counted ws m' := by
  intro j
  by_cases hkj : k = j
  · subst hkj
    by_cases hcount : (ws.map Prod.fst).count k = 0
    · rw [hm', if_pos hcount, get_erase, if_pos rfl,
        last_eq_none_iff.mpr (count_eq_zero.mp hcount), Option.map_none]
    · rw [hm', if_neg hcount, get_insert_self]
      cases hlast : last ws k with
      | none => exact absurd (count_eq_zero.mpr (last_eq_none_iff.mp hlast)) hcount
      | some u => rfl
  · have hm : m'[j]? = m[j]? := by
      rw [hm']
      split
      · rw [get_erase, if_neg hkj]
      · exact get_insert_of_ne _ _ hkj
    rw [hm, h j]
    simp [last, hkj]

end Sui.Lib.Writes
