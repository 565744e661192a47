import Mathlib

/-! Maps that keep the order in which their entries were added.

A `VecMap` is a list of entries with distinct keys; an entry is found by its key. -/
namespace Sui.Lib

structure VecMap (κ ν : Type) where
  entries : List (κ × ν)
  nodup : (entries.map Prod.fst).Nodup

namespace VecMap
variable {κ ν : Type}

def keys (m : VecMap κ ν) : List κ := m.entries.map Prod.fst

variable [DecidableEq κ]

def get? (m : VecMap κ ν) (k : κ) : Option ν :=
  (m.entries.find? fun e => e.1 = k).map Prod.snd

variable {m : VecMap κ ν} {k : κ}

theorem mem_keys_iff : k ∈ m.keys ↔ ∃ v, m.get? k = some v := by
  unfold keys get?
  simp only [Option.map_eq_some_iff, List.mem_map]
  constructor
  · rintro ⟨e, he, rfl⟩
    have hsome : (m.entries.find? fun e' => e'.1 = e.1).isSome :=
      List.find?_isSome.mpr ⟨e, he, decide_eq_true rfl⟩
    obtain ⟨found, hfound⟩ := Option.isSome_iff_exists.mp hsome
    exact ⟨found.2, found, hfound, rfl⟩
  · rintro ⟨_, found, hfound, -⟩
    have hkey := List.find?_some hfound
    exact ⟨found, List.mem_of_find?_eq_some hfound, of_decide_eq_true hkey⟩

end VecMap

end Sui.Lib
