/-
  Drv60870.Lib.Cyclic — counters kept modulo `m`, as sequence numbers are.

  A window protocol keeps the residues of two counters and reads their distance off
  them. `window_eq`: the distance of the residues is the true one while the counters are
  less than `m` apart.
-/

import Mathlib.Data.Nat.ModEq
import Mathlib.Data.Int.ModEq

namespace Drv60870.Lib.Cyclic

theorem advance {m : Nat} (n : Nat) : (n % m + 1) % m = (n + 1) % m := by
  simp [Nat.add_mod]

/-- How far the residue `a` is ahead of the residue `b`. -/
def window (m a b : Nat) : Nat := (((a : Int) - b) % m).toNat

theorem window_eq {m s a : Nat} (h : a ≤ s) (hlt : s - a < m) : window m (s % m) (a % m) = s - a := by
  have hsub : ((s % m : Nat) : Int) - ((a % m : Nat) : Int) ≡ ((s - a : Nat) : Int) [ZMOD m] := by
    rw [Int.natCast_mod, Int.natCast_mod, Int.natCast_sub h]
    exact Int.ModEq.sub (Int.mod_modEq _ _) (Int.mod_modEq _ _)
  have hmod : (((s % m : Nat) : Int) - ((a % m : Nat) : Int)) % m = ((s - a : Nat) : Int) := by
    rw [hsub]
    exact Int.emod_eq_of_lt (Int.natCast_nonneg _) (by exact_mod_cast hlt)
  unfold window
  rw [hmod]
  exact Int.toNat_natCast _

/-- One step ahead is one more, short of a whole turn. -/
theorem window_succ {m a b : Nat} (h : window m a b + 1 < m) : window m ((a + 1) % m) b = window m a b + 1 := by
  have h0 := Int.emod_nonneg ((a : Int) - b) (show (m : Int) ≠ 0 by omega)
  have hsum : (((a + 1) % m : Nat) : Int) - b ≡ ((a : Int) - b) % m + 1 [ZMOD m] := by
    have ha : (((a + 1) % m : Nat) : Int) ≡ (a : Int) + 1 [ZMOD m] := by
      rw [Int.natCast_mod, Int.natCast_add]
      exact Int.mod_modEq _ _
    have hb := (Int.mod_modEq ((a : Int) - b) m).symm.add_right 1
    rw [show (a : Int) - b + 1 = (a : Int) + 1 - b by omega] at hb
    exact (ha.sub_right (b : Int)).trans hb
  unfold window at h ⊢
  rw [hsum, Int.emod_eq_of_lt (by omega) (by omega)]
  omega

/-- A counter moved up to the next number with residue `n`. -/
theorem add_window {m : Nat} (hm : 0 < m) (a n : Nat) : (a + window m n (a % m)) % m = n % m := by
  have h0 := Int.emod_nonneg ((n : Int) - (a % m : Nat)) (show (m : Int) ≠ 0 by omega)
  have hw : ((window m n (a % m) : Nat) : Int) ≡ (n : Int) - (a % m : Nat) [ZMOD m] := by
    unfold window
    rw [Int.toNat_of_nonneg h0]
    exact Int.mod_modEq _ _
  have ha : (a : Int) ≡ ((a % m : Nat) : Int) [ZMOD m] := by
    rw [Int.natCast_mod]
    exact (Int.mod_modEq _ _).symm
  have hsum : ((a + window m n (a % m) : Nat) : Int) ≡ (n : Int) [ZMOD m] := by
    have := ha.add hw
    rw [add_sub_cancel] at this
    rw [Int.natCast_add]
    exact this
  exact (Int.natCast_modEq_iff.mp hsum : _ ≡ _ [MOD m])

end Drv60870.Lib.Cyclic
