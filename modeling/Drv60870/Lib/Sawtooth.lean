/-
  Drv60870.Lib.Sawtooth — a value that climbs by a step and falls back to its least.

  `climb` is one step. From the least value on, the k-th is `rung k`: as many steps up as
  `k` is past a multiple of the period, the number of values that fit the range.
-/

import Mathlib.Algebra.Order.Floor.Semiring
import Mathlib.Algebra.Order.Field.Basic
import Mathlib.Tactic.Linarith
import Drv60870.Lib.Cyclic

namespace Drv60870.Lib.Sawtooth

open Cyclic

section Step

variable {K : Type} [Add K] [LT K] [DecidableLT K]

def climb (step lo hi val : K) : K := if hi < val + step then lo else val + step

end Step

variable {K : Type} [Field K] [LinearOrder K] [IsStrictOrderedRing K] [FloorSemiring K]

def period (step lo hi : K) : Nat := ⌊(hi - lo) / step⌋₊ + 1

def rung (step lo hi : K) (k : Nat) : K := lo + (k % period step lo hi : Nat) * step

variable {step lo hi : K}

/-- The steps that stay in the range are those below the period. -/
theorem lt_period_iff (hs : 0 < step) (h : lo ≤ hi) (j : Nat) : j < period step lo hi ↔ lo + j * step ≤ hi := by
  have h0 : 0 ≤ (hi - lo) / step := div_nonneg (sub_nonneg.mpr h) hs.le
  rw [period, Nat.lt_succ_iff, Nat.le_floor_iff h0, le_div_iff₀ hs]
  constructor <;> intro hj <;> linarith

omit [IsStrictOrderedRing K] in
theorem rung_zero : rung step lo hi 0 = lo := by
  rw [rung, Nat.zero_mod, Nat.cast_zero, zero_mul, add_zero]

theorem rung_mem (hs : 0 < step) (h : lo ≤ hi) (k : Nat) : lo ≤ rung step lo hi k ∧ rung step lo hi k ≤ hi := by
  have hk : k % period step lo hi < period step lo hi := Nat.mod_lt _ (Nat.succ_pos _)
  refine ⟨?_, (lt_period_iff hs h _).mp hk⟩
  have : 0 ≤ ((k % period step lo hi : Nat) : K) * step := mul_nonneg (Nat.cast_nonneg _) hs.le
  rw [rung]
  linarith

theorem climb_rung (hs : 0 < step) (h : lo ≤ hi) (k : Nat) :
    climb step lo hi (rung step lo hi k) = rung step lo hi (k + 1) := by
  have hk : k % period step lo hi < period step lo hi := Nat.mod_lt _ (Nat.succ_pos _)
  have hup : rung step lo hi k + step = lo + (k % period step lo hi + 1 : Nat) * step := by
    rw [rung, Nat.cast_add, Nat.cast_one, add_mul, one_mul, add_assoc]
  unfold climb
  by_cases hj : k % period step lo hi + 1 < period step lo hi
  · have hle := (lt_period_iff hs h _).mp hj
    rw [hup, if_neg (not_lt.mpr hle), rung, ← advance, Nat.mod_eq_of_lt hj]
  · have hend : k % period step lo hi + 1 = period step lo hi := by omega
    have hgt := mt (lt_period_iff hs h _).mpr hj
    rw [hup, if_pos (not_le.mp hgt), rung, ← advance, hend, Nat.mod_self, Nat.cast_zero, zero_mul, add_zero]

end Drv60870.Lib.Sawtooth
