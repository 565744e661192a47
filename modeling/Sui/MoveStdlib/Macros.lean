import Sui.Lib.Except

/-! Powers and square roots of the standard library.

`numPow` squares the base before it is known whether the square is needed, and `numSqrt` finds the
root digit by digit in a type of twice the width. `pow_sqrt_exact`: both are exact, and abort only
if the result does not fit its type. -/
namespace Sui.MoveStdlib

open Sui.Lib Exec

inductive Abort
  | arithmeticError

/-- A result that does not fit the type aborts. -/
def fit (bits n : Nat) : Except Abort Nat := do
  require (n < 2 ^ bits) .arithmeticError
  return n

theorem fit_of_lt (h : n < 2 ^ bits) : fit bits n = .ok n := bind_require h _

theorem fit_of_le (h : 2 ^ bits ≤ n) : fit bits n = .error .arithmeticError := by
  simp [fit, require, h.not_gt]

/-- An intermediate result that does not fit is one of a result that does not fit. -/
theorem fit_bind (hle : 2 ^ bits ≤ n → 2 ^ bits ≤ m) (hf : n < 2 ^ bits → f n = fit bits m) :
    (fit bits n >>= f) = fit bits m := by
  rcases lt_or_ge n (2 ^ bits) with hlt | hge
  · rw [bind_ok (fit_of_lt hlt), hf hlt]
  · rw [fit_of_le hge, fit_of_le (hle hge)]
    rfl

/-! ### Powers -/

def numPowLoop (bits base exponent res : Nat) : Except Abort Nat := do
  if exponent ≥ 1 then
    if exponent % 2 = 0 then numPowLoop bits (← fit bits (base * base)) (exponent / 2) res
    else numPowLoop bits base (exponent - 1) (← fit bits (res * base))
  else return res
termination_by exponent

def numPow (bits base exponent : Nat) : Except Abort Nat := numPowLoop bits base exponent 1

/-- Both products divide what the loop computes, so they fit if it does. -/
theorem numPowLoop_eq (hres : res < 2 ^ bits) (hzero : 0 < res ∨ base = 0) :
    numPowLoop bits base exponent res = fit bits (res * base ^ exponent) := by
  have hpow := Nat.two_pow_pos bits
  induction exponent using Nat.strong_induction_on generalizing base res with
  | _ exponent ih =>
    rw [numPowLoop]
    split
    · rename_i hpos
      split
      · rename_i heven
        refine fit_bind (fun hge => ?_) fun hlt => ?_
        · have hbase : 0 < base := Nat.pos_of_mul_pos_left (hpow.trans_le hge)
          calc
            2 ^ bits ≤ base ^ 2 := sq base ▸ hge
            _ ≤ base ^ exponent := Nat.pow_le_pow_right hbase (by omega)
            _ ≤ _ := Nat.le_mul_of_pos_left _ (hzero.resolve_right hbase.ne')
        · rw [ih _ (by omega) hres (hzero.imp_right fun h => by simp [h]), ← sq, ← pow_mul,
            Nat.mul_div_cancel' (Nat.dvd_of_mod_eq_zero heven)]
      · have hprod : res * base * base ^ (exponent - 1) = res * base ^ exponent := by
          rw [mul_assoc, ← pow_succ', Nat.sub_add_cancel hpos]
        rw [← hprod]
        refine fit_bind (fun hge => ?_) fun hlt => ih _ (by omega) hlt ?_
        · have hbase : 0 < base := Nat.pos_of_mul_pos_left (hpow.trans_le hge)
          exact hge.trans (Nat.le_mul_of_pos_right _ (Nat.pow_pos hbase))
        · rcases Nat.eq_zero_or_pos base with hbase | hbase
          · exact .inr hbase
          · exact .inl (Nat.mul_pos (hzero.resolve_right hbase.ne') hbase)
    · rename_i hzero
      rw [Nat.eq_zero_of_not_pos hzero, pow_zero, mul_one, fit_of_lt hres]
      rfl

/-! ### Square roots -/

def numSqrtLoop (wide bit res x : Nat) : Except Abort Nat := do
  if bit ≠ 0 then
    let sum ← fit wide (res + bit)
    if x ≥ sum then numSqrtLoop wide (bit >>> 2) (← fit wide ((res >>> 1) + bit)) (x - sum)
    else numSqrtLoop wide (bit >>> 2) (res >>> 1) x
  else return res
termination_by bit

def numSqrt (bits wide x bitsize : Nat) : Except Abort Nat := do
  require (bitsize < wide) .arithmeticError
  let x ← fit wide x
  fit bits (← numSqrtLoop wide (1 <<< bitsize) 0 x)

theorem four_pow_eq (m : Nat) : 4 ^ m = 2 ^ m * 2 ^ m := Nat.mul_pow 2 2 m

section
variable (hn : n < 4 ^ half) (hwide : 4 ^ half * 4 ≤ 2 ^ wide) (hle : root * root ≤ n)
include hn hwide hle

/-- What is compared with `x` fits the wide type. -/
theorem sum_lt (hk : k ≤ half) : root * 2 ^ (k + 1) + 4 ^ k < 2 ^ wide := by
  have hroot : root < 2 ^ half := Nat.mul_self_lt_mul_self_iff.mp (hle.trans_lt (four_pow_eq half ▸ hn))
  have hpow : 2 ^ k ≤ 2 ^ half := Nat.pow_le_pow_right two_pos hk
  have hshifted := Nat.mul_le_mul hroot.le hpow
  have hdigit := Nat.mul_le_mul hpow hpow
  rw [← four_pow_eq half] at hshifted hdigit
  rw [pow_succ, ← mul_assoc, four_pow_eq k]
  omega

/-- With `k` digits to come, `res` is the root so far, shifted, and `x` what its square leaves. -/
theorem numSqrtLoop_eq (hk : k ≤ half + 1) (hlt : n < (root + 2 ^ k) * (root + 2 ^ k)) :
    numSqrtLoop wide (4 ^ k / 4) (root * 2 ^ k) (n - root * root) = .ok (Nat.sqrt n) := by
  induction k generalizing root with
  | zero =>
    rw [numSqrtLoop, Nat.eq_sqrt.mpr ⟨hle, by simpa using hlt⟩]
    simp
  | succ k ih =>
    have hsum := sum_lt hn hwide hle (Nat.le_of_succ_le_succ hk)
    have hsquare : (root + 2 ^ k) * (root + 2 ^ k) = root * root + (root * 2 ^ (k + 1) + 4 ^ k) := by
      rw [four_pow_eq k]
      ring
    have hdigit : 4 ^ (k + 1) / 4 = 4 ^ k := by rw [pow_succ, Nat.mul_div_cancel _ four_pos]
    have hshift : (root * 2 ^ (k + 1)) >>> 1 = root * 2 ^ k := by
      rw [Nat.shiftRight_eq_div_pow, pow_succ, ← mul_assoc, pow_one, Nat.mul_div_cancel _ two_pos]
    have hbit : 4 ^ k >>> 2 = 4 ^ k / 4 := Nat.shiftRight_eq_div_pow _ 2
    rw [numSqrtLoop, hdigit, if_pos (by positivity), bind_ok (fit_of_lt hsum), hshift, hbit]
    have hk := Nat.le_of_succ_le hk
    split
    · rename_i hge
      have hnext : root * 2 ^ k + 4 ^ k = (root + 2 ^ k) * 2 ^ k := by rw [four_pow_eq k, add_mul]
      have hfit : root * 2 ^ k + 4 ^ k < 2 ^ wide := by omega
      rw [bind_ok (fit_of_lt hfit), hnext, Nat.sub_sub, ← hsquare]
      refine ih (by omega) hk ?_
      rwa [add_assoc, ← mul_two, ← pow_succ]
    · exact ih hle hk (by omega)

end

/-! ### The integer types -/

inductive Width
  | u8 | u16 | u32 | u64 | u128 | u256

namespace Width

def bits : Width → Nat
  | u8 => 8
  | u16 => 16
  | u32 => 32
  | u64 => 64
  | u128 => 128
  | u256 => 256

def pow (self : Width) (base exponent : Nat) : Except Abort Nat := numPow self.bits base exponent

/-- The widest type has no square root. -/
def sqrt (x : Nat) : Width → Option (Except Abort Nat)
  | u8 => some (numSqrt 8 16 x 8)
  | u16 => some (numSqrt 16 32 x 16)
  | u32 => some (numSqrt 32 64 x 32)
  | u64 => some (numSqrt 64 128 x 64)
  | u128 => some (numSqrt 128 256 x 128)
  | u256 => none

end Width

theorem numSqrt_eq (half : Nat) (hhalf : 0 < half) (hx : x < 4 ^ half) :
    numSqrt (2 * half) (2 * (2 * half)) x (2 * half) = .ok (Nat.sqrt x) := by
  have hbits (m : Nat) : 2 ^ (2 * m) = 4 ^ m := pow_mul 2 2 m
  have hwide : 4 ^ half * 4 ≤ 2 ^ (2 * (2 * half)) := by
    rw [hbits, ← pow_succ]
    exact Nat.pow_le_pow_right four_pos (by omega)
  have hbound : x < (0 + 2 ^ (half + 1)) * (0 + 2 ^ (half + 1)) := by
    rw [zero_add, ← Nat.mul_pow]
    exact hx.trans (Nat.pow_lt_pow_succ (by decide))
  have hloop := numSqrtLoop_eq hx hwide (Nat.zero_le x) le_rfl hbound
  rw [pow_succ, Nat.mul_div_cancel _ four_pos, zero_mul, zero_mul, Nat.sub_zero] at hloop
  unfold numSqrt
  rw [bind_require (by omega), bind_ok (fit_of_lt (by omega)), Nat.one_shiftLeft, hbits half,
    bind_ok hloop]
  exact fit_of_lt (hbits half ▸ (Nat.sqrt_le_self x).trans_lt hx)

/-- **Powers and square roots are exact.** A power aborts exactly when it does not fit, and a square
root never. -/
theorem pow_sqrt_exact (width : Width) :
    (∀ base exponent, base < 2 ^ width.bits → exponent < 2 ^ 8 →
      if base ^ exponent < 2 ^ width.bits then width.pow base exponent = .ok (base ^ exponent)
      else width.pow base exponent = .error .arithmeticError) ∧
    (width ≠ .u256 → ∀ x, x < 2 ^ width.bits →
      ∃ root, width.sqrt x = some (.ok root) ∧ IsGreatest {r | r * r ≤ x} root) := by
  constructor
  · intro base exponent hbase hexponent
    have hpow : width.pow base exponent = fit width.bits (1 * base ^ exponent) :=
      numPowLoop_eq (Nat.one_lt_two_pow (by cases width <;> decide)) (.inl one_pos)
    rw [hpow, one_mul]
    split
    · rename_i hlt
      exact fit_of_lt hlt
    · rename_i hge
      exact fit_of_le (not_lt.mp hge)
  · intro hwidth x hx
    refine ⟨Nat.sqrt x, ?_, Nat.sqrt_le x, fun r hr => Nat.le_sqrt.mpr hr⟩
    cases width with
    | u8 => exact congrArg some (numSqrt_eq 4 four_pos hx)
    | u16 => exact congrArg some (numSqrt_eq 8 (by decide) hx)
    | u32 => exact congrArg some (numSqrt_eq 16 (by decide) hx)
    | u64 => exact congrArg some (numSqrt_eq 32 (by decide) hx)
    | u128 => exact congrArg some (numSqrt_eq 64 (by decide) hx)
    | u256 => exact absurd rfl hwidth

theorem pow_sqrt_exact_u8 : Width.u8.pow 2 8 = .error .arithmeticError ∧
    ∃ root, Width.u8.sqrt 255 = some (.ok root) ∧ IsGreatest {r | r * r ≤ 255} root :=
  have h := pow_sqrt_exact .u8
  ⟨(if_neg (by decide)).mp (h.1 2 8 (by decide) (by decide)), h.2 (by simp) 255 (by decide)⟩

end Sui.MoveStdlib
