import Mathlib

/-! Numbers in bytes.

`beBytes k n` is `n` in `k` bytes, the most significant first; what does not fit is cut off. Numbers
that fit have bytes of their own (`beBytes_inj`). -/
namespace Sui.Lib

/-- The least significant byte first. -/
def leBytes : Nat → Nat → List UInt8
  | 0, _ => []
  | k + 1, n => UInt8.ofNat n :: leBytes k (n / 256)

def beBytes (k n : Nat) : List UInt8 := (leBytes k n).reverse

theorem length_leBytes (k n : Nat) : (leBytes k n).length = k := by
  induction k generalizing n with
  | zero => rfl
  | succ k ih => simp [leBytes, ih]

theorem length_beBytes (k n : Nat) : (beBytes k n).length = k := by
  rw [beBytes, List.length_reverse, length_leBytes]

theorem leBytes_inj (hn : n < 256 ^ k) (hm : m < 256 ^ k) (h : leBytes k n = leBytes k m) : n = m := by
  induction k generalizing n m with
  | zero => omega
  | succ k ih =>
    obtain ⟨hbyte, hrest⟩ := List.cons.inj h
    have hbyte : n % 256 = m % 256 := congrArg UInt8.toNat hbyte
    have hrest := ih (by omega) (by omega) hrest
    omega

theorem beBytes_inj (hn : n < 256 ^ k) (hm : m < 256 ^ k) (h : beBytes k n = beBytes k m) : n = m :=
  leBytes_inj hn hm (List.reverse_injective h)

end Sui.Lib
