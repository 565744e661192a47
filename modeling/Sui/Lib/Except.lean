import Mathlib

/-! Computations that may fail.

`bind_eq_ok` takes a `do` block apart into the results of its steps; the fold
lemmas say what a loop keeps when each of its iterations keeps it. -/
namespace Sui.Lib

open List

/-- What a loop has been through: the elements before, and the last one. -/
theorem mem_concat : x ∈ l ++ [a] ↔ x ∈ l ∨ x = a := by
  simp

theorem forall_mem_concat {p : α → Prop} : (∀ x ∈ l ++ [a], p x) ↔ (∀ x ∈ l, p x) ∧ p a := by
  rw [forall_mem_append, forall_mem_singleton]

namespace Exec

variable {ε α β σ : Type} {e : ε} {x : Except ε α} {f : α → Except ε β} {a : α} {c : Prop}
  {xs : List α}

/-- `bind` succeeds when both parts do. -/
theorem bind_eq_ok : (x >>= f) = .ok b ↔ ∃ a, x = .ok a ∧ f a = .ok b := by
  cases x <;> simp [bind, Except.bind]

theorem bind_ok (h : x = .ok a) (f : α → Except ε β) : (x >>= f) = f a := by
  rw [h]
  rfl

/-- A failure comes from one of the two parts. -/
theorem bind_eq_error : (x >>= f) = .error e ↔ x = .error e ∨ ∃ a, x = .ok a ∧ f a = .error e := by
  cases x <;> simp [bind, Except.bind]

@[simp] theorem pure_eq_ok : (pure a : Except ε α) = .ok b ↔ a = b := by
  simp [pure, Except.pure]

@[simp] theorem pure_ne_error : (pure a : Except ε α) ≠ .error e := by
  simp [pure, Except.pure]

/-! ### Checks -/

/-- Fails with `e` unless the condition holds. -/
def require (c : Prop) [Decidable c] (e : ε) : Except ε Unit := if c then .ok () else .error e

@[simp] theorem require_eq_ok [Decidable c] : require c e = .ok u ↔ c := by
  unfold require
  split <;> simp_all

theorem require_of [Decidable c] (h : c) : require c e = .ok () := if_pos h

theorem bind_require [Decidable c] (h : c) (f : Unit → Except ε β) : (require c e >>= f) = f () :=
  bind_ok (require_of h) f

/-- Fails with `e` on an absent value. -/
def unwrap (x : Option α) (e : ε) : Except ε α :=
  match x with
  | some a => .ok a
  | none => .error e

@[simp] theorem unwrap_eq_ok {x : Option α} : unwrap x e = .ok a ↔ x = some a := by
  cases x <;> simp [unwrap]

theorem toOption_eq_some : x.toOption = some a ↔ x = .ok a := by
  cases x <;> simp [Except.toOption]

theorem bind_unwrap {x : Option α} (h : x = some a) (f : α → Except ε β) : (unwrap x e >>= f) = f a :=
  bind_ok (unwrap_eq_ok.mpr h) f

/-! ### Outcomes -/

/-- A result satisfies `P`, a failure `E`. -/
def Sat (x : Except ε α) (P : α → Prop) (E : ε → Prop) : Prop :=
  match x with
  | .ok a => P a
  | .error e => E e

namespace Sat
variable {x : Except ε α} {P Q : α → Prop} {E : ε → Prop} {f : α → Except ε β} {xs : List α} {a : α}
  {R : β → Prop} {e : ε}

theorem intro (hok : ∀ a, x = .ok a → P a) (herror : ∀ e, x = .error e → E e) : Sat x P E := by
  cases x with
  | ok a => exact hok a rfl
  | error e => exact herror e rfl

theorem of_eq (h : x = .ok a) (ha : P a) : Sat x P E := by
  rw [h]
  exact ha

theorem mono (h : Sat x P E) (hPQ : ∀ a, P a → Q a) : Sat x Q E := by
  cases x with
  | ok a => exact hPQ a h
  | error e => exact h

theorem bind (h : Sat x P E) (hf : ∀ a, P a → Sat (f a) R E) : Sat (x >>= f) R E := by
  cases x with
  | ok a => exact hf a h
  | error e => exact h

/-- A computation whose result is known. -/
theorem bind_eq (h : Sat x (fun b => b = a) E) (hf : Sat (f a) R E) : Sat (x >>= f) R E :=
  h.bind fun _ hb => hb.symm ▸ hf

theorem bind_eq_and (h : Sat x (fun b => b = a ∧ c) E) (hf : c → Sat (f a) R E) : Sat (x >>= f) R E :=
  h.bind fun _ hb => hb.1.symm ▸ hf hb.2

theorem ok (h : Sat x P E) (ha : x = .ok a) : P a := by
  rw [ha] at h
  exact h

theorem error (h : Sat x P E) (he : x = .error e) : E e := by
  rw [he] at h
  exact h

theorem require [Decidable c] (h : ¬c → E e) : Sat (require c e) (fun _ => c) E := by
  by_cases hc : c
  · exact of_eq (require_of hc) hc
  · have herror : Exec.require c e = .error e := if_neg hc
    rw [herror]
    exact h hc

theorem unwrap (h : o = none → E e) : Sat (unwrap o e) (fun a => o = some a) E := by
  cases o with
  | some a => exact rfl
  | none => exact h rfl

/-- A loop, with what holds after each part of the list. -/
theorem foldlM {f : σ → α → Except ε σ} {P : List α → σ → Prop} {s : σ} (hs : P [] s)
    (step : ∀ done x rest t, xs = done ++ x :: rest → P done t → Sat (f t x) (P (done ++ [x])) E) :
    Sat (xs.foldlM f s) (P xs) E := by
  suffices h : ∀ rest done t, xs = done ++ rest → P done t → Sat (rest.foldlM f t) (P xs) E from h xs [] s rfl hs
  intro rest
  induction rest with
  | nil =>
    intro done t hxs ht
    rw [hxs, append_nil]
    exact ht
  | cons x rest ih =>
    intro done t hxs ht
    rw [foldlM_cons]
    refine (step done x rest t hxs ht).bind fun t' ht' => ?_
    apply ih (done ++ [x]) t' _ ht'
    rw [hxs, append_assoc, singleton_append]

/-- A loop whose iterations all keep `P`. -/
theorem foldlM_keep {f : σ → α → Except ε σ} {P : σ → Prop} {s : σ} (hs : P s)
    (step : ∀ x ∈ xs, ∀ t, P t → Sat (f t x) P E) : Sat (xs.foldlM f s) P E := by
  refine foldlM (P := fun _ => P) hs fun done x rest t hxs ht => step x ?_ t ht
  rw [hxs]
  exact mem_append_right _ (.head _)

/-- Each result is related to its element. -/
theorem mapM {R : α → β → Prop} (h : ∀ x ∈ xs, Sat (f x) (R x) E) : Sat (xs.mapM f) (List.Forall₂ R xs) E := by
  induction xs with
  | nil => exact List.Forall₂.nil
  | cons x rest ih =>
    rw [mapM_cons]
    refine (h x (.head _)).bind fun y hy => ?_
    refine (ih fun z hz => h z (.tail _ hz)).bind fun ys hys => ?_
    exact List.Forall₂.cons hy hys

theorem forM {f : α → Except ε PUnit}
    (h : ∀ x ∈ xs, Sat (f x) (fun _ => True) E) : Sat (xs.forM f) (fun _ => True) E := by
  induction xs with
  | nil => exact trivial
  | cons x rest ih =>
    exact (h x (.head _)).bind fun _ _ =>
      ih fun z hz => h z (.tail _ hz)

end Sat

/-- The computation returns, or `B` holds, under which it does. -/
def Returns (B : Prop) (x : Except ε α) : Prop := B ∨ ∃ a, x = .ok a

namespace Returns
variable {B : Prop} {x : Except ε α} {f : α → Except ε β}

theorem first (h : Returns B (x >>= f)) : Returns B x := by
  rcases h with h | ⟨b, hb⟩
  · exact .inl h
  · obtain ⟨a, ha, -⟩ := bind_eq_ok.mp hb
    exact .inr ⟨a, ha⟩

theorem second (h : Returns B (x >>= f)) (ha : x = .ok a) : Returns B (f a) := by
  rwa [bind_ok ha] at h

end Returns

/-- Runs the computation and tests its result. -/
def check (x : Except ε α) (p : α → Bool) : Bool :=
  match x with
  | .ok a => p a
  | .error _ => false

theorem exists_of_check (h : check x p = true) : ∃ a, x = .ok a ∧ p a = true := by
  cases x with
  | ok a => exact ⟨a, rfl, h⟩
  | error e => cases h

/-! ### Loops -/

section Fold
variable {f : σ → α → Except ε σ} {xs : List α} {s s' : σ} {P : σ → Prop}

theorem foldlM_cons_eq_ok {x : α} :
    (x :: xs).foldlM f s = .ok s' ↔ ∃ t, f s x = .ok t ∧ xs.foldlM f t = .ok s' := by
  rw [foldlM_cons, bind_eq_ok]

theorem foldlM_append_eq_ok :
    (xs ++ ys).foldlM f s = .ok s' ↔ ∃ t, xs.foldlM f s = .ok t ∧ ys.foldlM f t = .ok s' := by
  rw [foldlM_append, bind_eq_ok]

/-- A loop inside a loop is one loop. -/
theorem foldlM_flatMap (xs : List γ) (g : γ → List α) (s : σ) :
    (xs.flatMap g).foldlM f s = xs.foldlM (fun s x => (g x).foldlM f s) s := by
  induction xs generalizing s with
  | nil => rfl
  | cons x rest ih =>
    rw [flatMap_cons, foldlM_append, foldlM_cons]
    exact bind_congr fun t => ih t

/-- A loop that succeeds has made each of its iterations. -/
theorem step_of_foldlM {x : α} (hx : x ∈ xs) (h : xs.foldlM f s = .ok s') : ∃ t t', f t x = .ok t' := by
  obtain ⟨before, after, rfl⟩ := append_of_mem hx
  obtain ⟨t, -, h⟩ := foldlM_append_eq_ok.mp h
  obtain ⟨t', ht', -⟩ := foldlM_cons_eq_ok.mp h
  exact ⟨t, t', ht'⟩

/-- What every iteration keeps, the loop keeps. -/
theorem foldlM_inv (step : ∀ s x s', x ∈ xs → P s → f s x = .ok s' → P s') (hs : P s)
    (h : xs.foldlM f s = .ok s') : P s' := by
  induction xs generalizing s with
  | nil =>
    simp only [foldlM_nil, pure_eq_ok] at h
    exact h ▸ hs
  | cons x rest ih =>
    obtain ⟨t, ht, hrest⟩ := foldlM_cons_eq_ok.mp h
    have hP : P t := step s x t (.head _) hs ht
    exact ih (fun s y s' hy => step s y s' (.tail _ hy)) hP hrest

/-- A loop whose every iteration succeeds under the invariant succeeds. -/
theorem foldlM_ok (step : ∀ s x, x ∈ xs → P s → ∃ s', f s x = .ok s' ∧ P s') (hs : P s) :
    ∃ s', xs.foldlM f s = .ok s' ∧ P s' := by
  induction xs generalizing s with
  | nil => exact ⟨s, rfl, hs⟩
  | cons x rest ih =>
    obtain ⟨t, ht, hP⟩ := step s x (.head _) hs
    obtain ⟨s', hs', hP'⟩ := ih (fun s y hy => step s y (.tail _ hy)) hP
    exact ⟨s', foldlM_cons_eq_ok.mpr ⟨t, ht, hs'⟩, hP'⟩

/-- A failing loop fails in one of its iterations. -/
theorem foldlM_error {Q : ε → Prop} (step : ∀ s x e, f s x = .error e → Q e) {s : σ}
    {e : ε} (h : xs.foldlM f s = .error e) : Q e := by
  induction xs generalizing s with
  | nil => exact absurd h pure_ne_error
  | cons x rest ih =>
    rw [foldlM_cons] at h
    rcases bind_eq_error.mp h with h | ⟨t, _, h⟩
    · exact step s x e h
    · exact ih h

end Fold

/-- The first result that is there, trying the elements in order. -/
def firstSome (f : α → Except ε (Option β)) : List α → Except ε (Option β)
  | [] => .ok none
  | x :: xs => do
    match ← f x with
    | some b => return some b
    | none => firstSome f xs

theorem firstSome_eq {f : α → Except ε (Option β)} {g : α → Option β}
    (h : ∀ x ∈ xs, f x = .ok (g x)) : firstSome f xs = .ok (xs.findSome? g) := by
  induction xs with
  | nil => rfl
  | cons x rest ih =>
    have hrest := ih fun y hy => h y (.tail _ hy)
    rw [firstSome, bind_ok (h x (.head _)), findSome?_cons]
    cases g x with
    | none => exact hrest
    | some b => rfl

/-- The elements that pass a fallible test. -/
def filter (p : α → Except ε Bool) : List α → Except ε (List α)
  | [] => .ok []
  | x :: xs => do
    let keep ← p x
    let rest ← filter p xs
    return if keep then x :: rest else rest

theorem filter_eq {p : α → Except ε Bool} {q : α → Bool}
    (h : ∀ x ∈ xs, p x = .ok (q x)) : filter p xs = .ok (xs.filter q) := by
  induction xs with
  | nil => rfl
  | cons x rest ih =>
    have hrest := ih fun y hy => h y (.tail _ hy)
    rw [filter, bind_ok (h x (.head _)), bind_ok hrest, filter_cons]
    rfl

theorem mapM_eq_ok (h : ∀ x ∈ xs, f x = .ok (g x)) : xs.mapM f = .ok (xs.map g) := by
  induction xs with
  | nil => rfl
  | cons x rest ih =>
    have hrest := ih fun y hy => h y (.tail _ hy)
    rw [mapM_cons, bind_ok (h x (.head _)), bind_ok hrest]
    rfl

/-- A map whose every step succeeds gives exactly the results of its steps. -/
theorem mapM_ok (h : ∀ x ∈ xs, ∃ b, f x = .ok b) :
    ∃ l, xs.mapM f = .ok l ∧ ∀ b, b ∈ l ↔ ∃ x ∈ xs, f x = .ok b := by
  induction xs with
  | nil => exact ⟨[], rfl, by simp⟩
  | cons x rest ih =>
    obtain ⟨b, hb⟩ := h x (.head _)
    obtain ⟨l, hl, hmem⟩ := ih fun y hy => h y (.tail _ hy)
    refine ⟨b :: l, ?_, ?_⟩
    · rw [mapM_cons, bind_ok hb, bind_ok hl]
      rfl
    · simp [hmem, hb, eq_comm]

end Exec

end Sui.Lib
