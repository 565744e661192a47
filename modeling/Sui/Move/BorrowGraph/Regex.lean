import Mathlib

/-! The regular expressions on the edges of the borrow graph.

A regular expression is a list of labels, possibly followed by `.*`. When a reference is
extended, the paths to it are extended (`extend_matches`); the paths from it, and to those
that lie between, are what is left after a prefix is removed (`removePrefix_iff`,
`Extension.removePrefix_iff`). -/
namespace Sui.Move.BorrowGraph

open List

@[ext]
structure Regex (Lbl : Type) where
  labels : List Lbl
  endsInDotStar : Bool
deriving DecidableEq, Repr

inductive Extension (Lbl : Type)
  | epsilon
  | label (lbl : Lbl)
  | dotStar
deriving DecidableEq, Repr

instance {Lbl : Type} [LinearOrder Lbl] : LinearOrder (Regex Lbl) :=
  LinearOrder.lift' (fun r => toLex (r.labels, r.endsInDotStar)) fun r s h => by
    have h := toLex_inj.mp h
    exact Regex.ext (congrArg Prod.fst h) (congrArg Prod.snd h)

instance {Lbl : Type} [LinearOrder Lbl] : Std.TransOrd (Regex Lbl) := inferInstance

/-! ### Walks -/

inductive Walk (Lbl : Type)
  | emptySet
  | epsilon
  | regex (r : Regex Lbl) (idx : Nat)

inductive WalkPeek (Lbl : Type)
  | emptySet
  | epsilon
  | label (lbl : Lbl)
  | dotStar

namespace Walk
variable {Lbl : Type}

def peek : Walk Lbl → WalkPeek Lbl
  | .emptySet => .emptySet
  | .epsilon => .epsilon
  | .regex r idx =>
    match r.labels[idx]? with
    | some lbl => .label lbl
    | none => if r.endsInDotStar then .dotStar else .epsilon

def next : Walk Lbl → Walk Lbl
  | .emptySet => .emptySet
  | .epsilon => .emptySet
  | .regex r idx =>
    let idx := if idx < r.labels.length then idx + 1 else idx
    if r.labels.length ≤ idx ∧ r.endsInDotStar = false then .epsilon else .regex r idx

def remaining : Walk Lbl → Option (Regex Lbl)
  | .emptySet => none
  | .epsilon => some ⟨[], false⟩
  | .regex r idx => some ⟨r.labels.drop idx, r.endsInDotStar⟩

/-- What remains at each step, until nothing does. -/
def drain : Nat → Walk Lbl → List (Regex Lbl)
  | 0, _ => []
  | fuel + 1, walk =>
    match walk.remaining with
    | some rem => rem :: drain fuel walk.next
    | none => []

end Walk

/-! ### Regular expressions -/

namespace Regex
variable {Lbl : Type}

def epsilon : Regex Lbl := ⟨[], false⟩

def label (lbl : Lbl) : Regex Lbl := ⟨[lbl], false⟩

def dotStar : Regex Lbl := ⟨[], true⟩

def isEpsilon (self : Regex Lbl) : Bool := self.labels.isEmpty && !self.endsInDotStar

def abstractSize (self : Regex Lbl) : Nat := 1 + self.labels.length + self.endsInDotStar.toNat

def extend (self : Regex Lbl) (ext : Extension Lbl) : Regex Lbl :=
  if self.endsInDotStar then self
  else match ext with
    | .epsilon => self
    | .label lbl => { self with labels := self.labels ++ [lbl] }
    | .dotStar => { self with endsInDotStar := true }

def walk (self : Regex Lbl) : Walk Lbl := if self.isEpsilon then .epsilon else .regex self 0

def removePrefix [DecidableEq Lbl] (self : Regex Lbl) : Extension Lbl → List (Regex Lbl)
  | .epsilon => self.walk.remaining.toList
  | .label lblP =>
    match self.walk.peek with
    | .emptySet => []
    | .epsilon => []
    | .label lblSelf => if lblP ≠ lblSelf then [] else self.walk.next.remaining.toList
    | .dotStar => [dotStar]
  | .dotStar =>
    if self.endsInDotStar then [dotStar]
    else self.walk.drain (self.labels.length + 2)

end Regex

namespace Extension
variable {Lbl : Type}

def intoRegex : Extension Lbl → Regex Lbl
  | .epsilon => .epsilon
  | .label lbl => .label lbl
  | .dotStar => .dotStar

def removePrefix [DecidableEq Lbl] (self : Extension Lbl) (p : Regex Lbl) : List (Regex Lbl) :=
  match p.walk.peek with
  | .emptySet => []
  | .epsilon => [self.intoRegex]
  | .label lblP =>
    match self with
    | .epsilon => []
    | .label lblSelf =>
      if lblP ≠ lblSelf then []
      else
        match p.walk.next.peek with
        | .emptySet => []
        | .epsilon | .dotStar => [.epsilon]
        | .label _ => []
    | .dotStar => [.dotStar]
  | .dotStar =>
    match self with
    | .dotStar => [.dotStar]
    | .epsilon => [.epsilon]
    | .label _ => [self.intoRegex, .epsilon]

end Extension

/-! ### Matching -/

section Matching
variable {Lbl : Type} {p : List Lbl} {r : Regex Lbl} {ext : Extension Lbl} {labels : List Lbl}
  {lbl : Lbl}

/-- The path is the labels, with anything after them if there is a dot star. -/
def Regex.Matches (r : Regex Lbl) (p : List Lbl) : Prop :=
  ∃ rest, p = r.labels ++ rest ∧ (r.endsInDotStar = true ∨ rest = [])

def Extension.Matches : Extension Lbl → List Lbl → Prop
  | .epsilon, p => p = []
  | .label lbl, p => p = [lbl]
  | .dotStar, _ => True

theorem matches_nil : (⟨[], dot⟩ : Regex Lbl).Matches p ↔ dot = true ∨ p = [] := by
  simp [Regex.Matches]

theorem matches_cons :
    (⟨lbl :: labels, dot⟩ : Regex Lbl).Matches p ↔ ∃ q, p = lbl :: q ∧ (⟨labels, dot⟩ : Regex Lbl).Matches q := by
  constructor
  · rintro ⟨rest, rfl, hend⟩
    exact ⟨labels ++ rest, rfl, rest, rfl, hend⟩
  · rintro ⟨_, rfl, rest, rfl, hend⟩
    exact ⟨rest, rfl, hend⟩

theorem epsilon_matches : (Regex.epsilon : Regex Lbl).Matches p ↔ p = [] := by
  simp [Regex.Matches, Regex.epsilon]

theorem dotStar_matches (p : List Lbl) : (Regex.dotStar : Regex Lbl).Matches p :=
  ⟨p, rfl, .inl rfl⟩

theorem isEpsilon_iff : r.isEpsilon = true ↔ r = .epsilon := by
  obtain ⟨labels, dot⟩ := r
  simp [Regex.isEpsilon, Regex.epsilon]

theorem label_matches : (Regex.label lbl).Matches p ↔ p = [lbl] := by
  simp [Regex.Matches, Regex.label]

theorem intoRegex_matches : ext.intoRegex.Matches p ↔ ext.Matches p := by
  cases ext with
  | epsilon => exact epsilon_matches
  | label lbl => exact label_matches
  | dotStar => exact iff_of_true (dotStar_matches p) trivial

/-- A path to a reference, and on to its extension. -/
theorem extend_matches (hp : r.Matches p) (hq : ext.Matches q) : (r.extend ext).Matches (p ++ q) := by
  obtain ⟨rest, rfl, hend⟩ := hp
  unfold Regex.extend
  split
  · rename_i hdot
    exact ⟨rest ++ q, append_assoc .., .inl hdot⟩
  · rename_i hdot
    rw [hend.resolve_left hdot]
    cases ext with
    | epsilon => exact ⟨[], by rw [show q = [] from hq]; simp, .inr rfl⟩
    | label lbl => exact ⟨[], by rw [show q = [lbl] from hq]; simp, .inr rfl⟩
    | dotStar => exact ⟨q, by simp, .inl rfl⟩

/-- Without a dot star, a path to the extension is nothing else. -/
theorem extend_split (hdot : r.endsInDotStar = false) (h : (r.extend ext).Matches w) :
    ∃ p q, w = p ++ q ∧ r.Matches p ∧ ext.Matches q := by
  obtain ⟨labels, dot⟩ := r
  subst hdot
  obtain ⟨rest, rfl, hend⟩ := h
  have hlabels : (⟨labels, false⟩ : Regex Lbl).Matches labels := ⟨[], (append_nil _).symm, .inr rfl⟩
  cases ext with
  | epsilon => exact ⟨labels, rest, rfl, hlabels, hend.resolve_left Bool.false_ne_true⟩
  | label lbl =>
    rw [hend.resolve_left Bool.false_ne_true]
    exact ⟨labels, [lbl], append_nil _, hlabels, rfl⟩
  | dotStar => exact ⟨labels, rest, rfl, hlabels, trivial⟩

/-- The first label of a walk. -/
theorem walk_peek_cons : (⟨lbl :: labels, dot⟩ : Regex Lbl).walk.peek = .label lbl := rfl

theorem walk_next_cons (lbl : Lbl) (labels : List Lbl) (dot : Bool) :
    (⟨lbl :: labels, dot⟩ : Regex Lbl).walk.next.remaining = some ⟨labels, dot⟩ := by
  have hwalk : (⟨lbl :: labels, dot⟩ : Regex Lbl).walk = .regex ⟨lbl :: labels, dot⟩ 0 := rfl
  rw [hwalk]
  simp only [Walk.next, length_cons, Nat.zero_lt_succ, if_true, Nat.zero_add]
  split
  · rename_i hend
    have hnil : labels = [] := length_eq_zero_iff.mp (by omega)
    rw [hnil, hend.2]
    rfl
  · rfl

theorem walk_remaining (r : Regex Lbl) : r.walk.remaining = some r := by
  obtain ⟨labels, dot⟩ := r
  unfold Regex.walk
  split
  · rename_i heps
    rw [isEpsilon_iff.mp heps]
    rfl
  · rfl

/-- The walk of an expression without dot star leaves every suffix. -/
theorem drain_eq (idx fuel : Nat) (hlt : idx < labels.length) (hfuel : labels.length ≤ fuel + idx) :
    (Walk.regex ⟨labels, false⟩ idx).drain (fuel + 2) = (labels.drop idx).tails.map (⟨·, false⟩) := by
  induction fuel generalizing idx with
  | zero => omega
  | succ fuel ih =>
    rw [drop_eq_getElem_cons hlt, tails_cons, map_cons, ← drop_eq_getElem_cons hlt]
    have hnext : (Walk.regex (⟨labels, false⟩ : Regex Lbl) idx).next =
        if labels.length ≤ idx + 1 then .epsilon else .regex ⟨labels, false⟩ (idx + 1) := by
      simp only [Walk.next, hlt, if_true, and_true]
    refine congrArg (_ :: ·) ?_
    rw [hnext]
    split
    · rename_i hend
      rw [drop_of_length_le hend]
      rfl
    · exact ih (idx + 1) (by omega) (by omega)

variable [DecidableEq Lbl]

/-- Removing an extension leaves what can come after one. -/
theorem removePrefix_iff :
    (∃ r' ∈ r.removePrefix ext, r'.Matches q) ↔ ∃ p, ext.Matches p ∧ r.Matches (p ++ q) := by
  obtain ⟨labels, dot⟩ := r
  cases ext with
  | epsilon => simp [Regex.removePrefix, walk_remaining, Extension.Matches]
  | label lbl =>
    cases labels with
    | nil =>
      cases dot <;>
        simp [Regex.removePrefix, Regex.walk, Regex.isEpsilon, Walk.peek, Extension.Matches,
          matches_nil, dotStar_matches]
    | cons lbl' labels =>
      simp only [Regex.removePrefix, walk_peek_cons, walk_next_cons, Extension.Matches,
        exists_eq_left, singleton_append, matches_cons, cons.injEq, ne_eq, ite_not]
      split <;> simp_all
  | dotStar =>
    cases dot with
    | true =>
      exact iff_of_true ⟨.dotStar, mem_singleton_self _, dotStar_matches q⟩ ⟨labels, trivial, q, rfl, .inl rfl⟩
    | false =>
      have hdrain : (⟨labels, false⟩ : Regex Lbl).removePrefix .dotStar = labels.tails.map (⟨·, false⟩) := by
        cases labels with
        | nil => rfl
        | cons lbl labels => exact drain_eq 0 _ (Nat.zero_lt_succ _) le_rfl
      rw [hdrain]
      simp only [mem_map, mem_tails, exists_exists_and_eq_and, Extension.Matches, true_and,
        Regex.Matches, Bool.false_eq_true, false_or, exists_eq_right, append_nil]
      constructor
      · rintro ⟨_, ⟨p, hp⟩, rfl⟩
        exact ⟨p, hp⟩
      · rintro ⟨p, hp⟩
        exact ⟨q, ⟨p, hp⟩, rfl⟩

/-- Removing a path from an extension leaves what can come after one. -/
theorem Extension.removePrefix_iff :
    (∃ r' ∈ ext.removePrefix r, r'.Matches q) ↔ ∃ p, r.Matches p ∧ ext.Matches (p ++ q) := by
  obtain ⟨labels, dot⟩ := r
  cases labels with
  | nil =>
    cases dot with
    | false =>
      simp [Extension.removePrefix, Regex.walk, Regex.isEpsilon, Walk.peek, matches_nil, intoRegex_matches]
    | true =>
      cases ext <;>
        simp [Extension.removePrefix, Regex.walk, Regex.isEpsilon, Walk.peek, matches_nil,
          Extension.Matches, Extension.intoRegex, epsilon_matches, label_matches, dotStar_matches,
          append_eq_singleton_iff, exists_or]
  | cons lbl' labels =>
    cases ext with
    | dotStar =>
      exact iff_of_true ⟨.dotStar, mem_singleton_self _, dotStar_matches q⟩
        ⟨lbl' :: labels, ⟨[], (append_nil _).symm, .inr rfl⟩, trivial⟩
    | epsilon => simp [Extension.removePrefix, walk_peek_cons, matches_cons, Extension.Matches]
    | label lbl =>
      simp only [Extension.removePrefix, walk_peek_cons, ne_eq, ite_not, matches_cons, Extension.Matches]
      cases labels with
      | nil =>
        cases dot <;> by_cases heq : lbl' = lbl <;>
          simp [heq, Regex.walk, Regex.isEpsilon, Walk.next, Walk.peek, matches_nil, epsilon_matches]
      | cons _ _ =>
        by_cases heq : lbl' = lbl <;> simp [heq, Regex.walk, Regex.isEpsilon, Walk.next, Walk.peek, matches_cons]
end Matching

end Sui.Move.BorrowGraph
