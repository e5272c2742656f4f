/-
  Drv60870.Imit — the ladder of simulated values (`imit.py`).

  `imit_ladder` yields, step after step, one tuple for each signal of its list; the value
  is the same within a step, climbs from one step to the next and falls back to the least
  where the next would pass the greatest. Arithmetic is that of the numbers it is given, and
  over the rationals it is exact.

  Proved:
  - Every tuple, for every number of steps, list and range with a positive step
    (`imitLadder_eq`): the k-th value is as many steps up as `k` is past a multiple of the
    ladder's period (`Lib.Sawtooth`).
-/

import Mathlib.Data.Rat.Floor
import Drv60870.Lib.Sawtooth

namespace Drv60870.Imit

open Lib.Sawtooth

-- times and values
variable {T K : Type}

structure Tick (T K : Type) where
  t : T
  sid : Int
  val : K
  q : Nat
  deriving DecidableEq

section Generator

variable [Add K] [LT K] [DecidableLT K]

/-- The loop over steps; `time i` is what `time.time()` gives in step `i`. -/
def ladderFrom (time : Nat → T) (valStep valMin valMax : K) (listId : List Int) : Nat → Nat → K → List (Tick T K)
  | 0, _, _ => []
  | steps + 1, i, val =>
    (listId.map fun sid => ⟨time i, sid, val, 0⟩) ++
      ladderFrom time valStep valMin valMax listId steps (i + 1) (climb valStep valMin valMax val)

def imitLadder (cntStep : Int) (time : Nat → T) (valStep valMin valMax : K) (listId : Option (List Int)) :
    List (Tick T K) :=
  ladderFrom time valStep valMin valMax (listId.getD []) cntStep.toNat 0 valMin

end Generator

/-! ## The closed form -/

def stepTicks (time : Nat → T) (valStep valMin valMax : Rat) (listId : List Int) (k : Nat) : List (Tick T Rat) :=
  listId.map fun sid => ⟨time k, sid, valMin + (k % (⌊(valMax - valMin) / valStep⌋₊ + 1) : Nat) * valStep, 0⟩

variable {valStep valMin valMax : Rat}

theorem ladderFrom_eq (time : Nat → T) (hs : 0 < valStep) (h : valMin ≤ valMax) (listId : List Int) (steps : Nat) :
    ∀ i, ladderFrom time valStep valMin valMax listId steps i (rung valStep valMin valMax i) =
      (List.range' i steps).flatMap (stepTicks time valStep valMin valMax listId) := by
  induction steps with
  | zero => exact fun i => rfl
  | succ steps ih =>
    intro i
    rw [ladderFrom, climb_rung hs h, ih, List.range'_succ, List.flatMap_cons]
    rfl

/-- For every number of steps, list and range. -/
theorem imitLadder_eq (cntStep : Nat) (time : Nat → T) (listId : Option (List Int)) (hs : 0 < valStep)
    (h : valMin ≤ valMax) :
    imitLadder cntStep time valStep valMin valMax listId =
        (List.range cntStep).flatMap (stepTicks time valStep valMin valMax (listId.getD [])) ∧
      (imitLadder cntStep time valStep valMin valMax listId).length = cntStep * (listId.getD []).length ∧
      ∀ tick ∈ imitLadder cntStep time valStep valMin valMax listId, valMin ≤ tick.val ∧ tick.val ≤ valMax := by
  have heq : imitLadder cntStep time valStep valMin valMax listId =
      (List.range cntStep).flatMap (stepTicks time valStep valMin valMax (listId.getD [])) := by
    have hl := ladderFrom_eq time hs h (listId.getD []) cntStep 0
    rw [rung_zero, ← List.range_eq_range'] at hl
    exact hl
  refine ⟨heq, ?_, ?_⟩
  · rw [heq, List.length_flatMap]
    simp [stepTicks]
  · intro tick ht
    rw [heq] at ht
    obtain ⟨k, -, hk⟩ := List.mem_flatMap.mp ht
    obtain ⟨sid, -, rfl⟩ := List.mem_map.mp hk
    exact rung_mem hs h k

/-- A step of two thirds from 0 to 2, for two signals: back to 0 after the fourth value. -/
theorem imitLadder_eq_thirds : (imitLadder (5 : Nat) id (2 / 3 : Rat) 0 2 (some [7, 9])).map (fun t => (t.sid, t.val)) =
    [(7, 0), (9, 0), (7, 2 / 3), (9, 2 / 3), (7, 4 / 3), (9, 4 / 3), (7, 2), (9, 2), (7, 0), (9, 0)] := by
  have heq := (@imitLadder_eq Nat (2 / 3) 0 2 5 id (some [7, 9]) (by norm_num) (by norm_num)).1
  have hfloor : ⌊((2 : Rat) - 0) / (2 / 3)⌋₊ = 3 := by norm_num
  rw [heq]
  norm_num [stepTicks, hfloor, List.range_succ]

end Drv60870.Imit
