import Sui.Lib.Except

/-! Arithmetic that aborts.

Unsigned integers of 64 bits are natural numbers, and an operation whose result does not fit
aborts. A product that is divided at once is computed with twice the width. The lemmas say, for
each operation, what it returns and that it aborts in no other way. -/
namespace Sui.Lib

/-- Why a computation aborts: arithmetic, a table or a vector, a balance, or a code of its own. -/
inductive Abort (ε : Type)
  | overflow
  | underflow
  | divisionByZero
  | fieldExists
  | fieldMissing
  | outOfBounds
  | notEnough
  | code (e : ε)
deriving DecidableEq, Repr

namespace U64
variable {ε : Type}

def add (a b : Nat) : Except (Abort ε) Nat := if a + b < 2 ^ 64 then .ok (a + b) else .error .overflow

def sub (a b : Nat) : Except (Abort ε) Nat := if b ≤ a then .ok (a - b) else .error .underflow

def div (a b : Nat) : Except (Abort ε) Nat := if b = 0 then .error .divisionByZero else .ok (a / b)

/-- Division that rounds up. -/
def divCeil (a b : Nat) : Except (Abort ε) Nat :=
  if b = 0 then .error .divisionByZero
  else .ok (if a % b = 0 then a / b else a / b + 1)

/-- `a * b / c`, with the product of 128 bits. -/
def mulDiv (a b c : Nat) : Except (Abort ε) Nat :=
  if c = 0 then .error .divisionByZero
  else if a * b / c < 2 ^ 64 then .ok (a * b / c) else .error .overflow

/-- Takes a part of a balance. -/
def split (balance amount : Nat) : Except (Abort ε) Nat :=
  if amount ≤ balance then .ok (balance - amount) else .error .notEnough

variable {a b c d : Nat}

@[simp] theorem add_eq_ok : (add a b : Except (Abort ε) Nat) = .ok c ↔ c = a + b ∧ a + b < 2 ^ 64 := by
  unfold add
  split <;> simp_all [eq_comm]

@[simp] theorem sub_eq_ok : (sub a b : Except (Abort ε) Nat) = .ok c ↔ c = a - b ∧ b ≤ a := by
  unfold sub
  split <;> simp_all [eq_comm]

@[simp] theorem split_eq_ok : (split a b : Except (Abort ε) Nat) = .ok c ↔ c = a - b ∧ b ≤ a := by
  unfold split
  split <;> simp_all [eq_comm]

theorem mulDiv_eq_ok :
    (mulDiv a b c : Except (Abort ε) Nat) = .ok d ↔ d = a * b / c ∧ c ≠ 0 ∧ a * b / c < 2 ^ 64 := by
  unfold mulDiv
  split
  · simp_all
  · split <;> simp_all [eq_comm]

open Exec (Sat)
variable {P : Nat → Prop} {E : Abort ε → Prop}

theorem add_sat (h : E .overflow) : Sat (add a b) (fun c => c = a + b ∧ a + b < 2 ^ 64) E := by
  unfold add
  split
  · rename_i hlt
    exact ⟨rfl, hlt⟩
  · exact h

theorem sub_sat (h : b ≤ a) : Sat (sub a b) (fun c => c = a - b) E :=
  Sat.of_eq (sub_eq_ok.mpr ⟨rfl, h⟩) rfl

theorem split_sat (h : ¬b ≤ a → E .notEnough) : Sat (split a b) (fun c => c = a - b ∧ b ≤ a) E := by
  unfold split
  split
  · rename_i hle
    exact ⟨rfl, hle⟩
  · rename_i hgt
    exact h hgt

theorem div_sat (hzero : b = 0 → E .divisionByZero) : Sat (div a b) (fun c => c = a / b) E := by
  unfold div
  split
  · rename_i hb
    exact hzero hb
  · exact rfl

theorem divCeil_sat (hzero : b = 0 → E .divisionByZero) : Sat (divCeil a b) (fun _ => True) E := by
  unfold divCeil
  split
  · rename_i hb
    exact hzero hb
  · exact trivial

/-- A difference that may underflow. -/
theorem sub_sat_of (h : E .underflow) : Sat (sub a b) (fun c => c = a - b ∧ b ≤ a) E := by
  unfold sub
  split
  · rename_i hle
    exact ⟨rfl, hle⟩
  · exact h

theorem mulDiv_sat (hzero : c = 0 → E .divisionByZero) (hover : E .overflow) :
    Sat (mulDiv a b c) (fun d => d = a * b / c ∧ c ≠ 0 ∧ a * b / c < 2 ^ 64) E := by
  unfold mulDiv
  split
  · rename_i hc
    exact hzero hc
  · rename_i hc
    split
    · rename_i hlt
      exact ⟨rfl, hc, hlt⟩
    · exact hover

end U64

end Sui.Lib
