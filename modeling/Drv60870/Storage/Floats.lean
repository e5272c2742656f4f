/-
  Drv60870.Storage.Floats — why no call of `update_val` raises an `OverflowError`.

  The deadband subtracts the stored value from the new one. Python raises there only where one of
  the two is a float and the other an integer too large for one; it is not among the exceptions
  that `update_val` catches.

  Proved:
  - Where every stored value can be taken for a float, an update with such a value returns
    (`commit_goes`) and leaves such a storage (`allFloats_commit`).
  - So it is in a storage that was loaded and updated through the console and by commands: none of
    these calls raises (`no_call_raises`), nor does a command whose value was read off a frame
    (`isFloat_readOff`).
-/

import Drv60870.Protocol.Orders
import Drv60870.Storage.Sendable

namespace Drv60870.Storage

open Lib Lib.Octets Lib.Calendar Lib.Python Protocol

variable {C Q : Type}

/-! ## Values -/

/-- The value can be compared with any other. -/
def IsFloat (v : Val) : Prop := ∃ x, v.toFloat = .ok x

theorem isFloat_int {n : Int} (h : (Ieee.ofInt Ieee.binary64 n).isInf = false) : IsFloat (.int n) := by
  refine ⟨Ieee.ofInt Ieee.binary64 n, ?_⟩
  rw [Val.toFloat, h]
  rfl

theorem isFloat_call (call : Call) : IsFloat call.update.val := by
  cases call with
  | set | setioa | setpoint => exact ⟨_, rfl⟩
  | single on ioa =>
    cases on
    · exact isFloat_int (n := 0) (by decide +kernel)
    · exact isFloat_int (n := 1) (by decide +kernel)

theorem isFloat_readOff {v : Val} (h : ReadOff v) : IsFloat v := by
  obtain ⟨data, h | h⟩ := h
  · obtain ⟨on, rfl⟩ := singleVal_call h 0
    exact isFloat_call _
  · obtain ⟨x, rfl⟩ := setpointVal_call h 0
    exact isFloat_call _

theorem dist_ok {v w : Val} (hv : IsFloat v) (hw : IsFloat w) : ∃ d, v.dist w = .ok d := by
  obtain ⟨x, hx⟩ := hv
  obtain ⟨y, hy⟩ := hw
  have hfloat : (do
      let x ← v.toFloat
      let y ← w.toFloat
      return Val.float (Ieee.dist x y)) = .ok (.float (Ieee.dist x y)) := by
    rw [hx, hy]
    rfl
  cases v with
  | int m =>
    cases w with
    | int n => exact ⟨_, rfl⟩
    | float y' => exact ⟨_, hfloat⟩
  | float x' => exact ⟨_, hfloat⟩

/-! ## Storages -/

def AllFloats (s : Signals C Q) : Prop := ∀ id sg, s.signals.get id = some sg → IsFloat sg.val

theorem commit_goes {s : Signals C Q} {u : Update Val} (hs : AllFloats s) (hu : u.id.isSome ≠ u.ioa.isSome)
    (hv : IsFloat u.val) (now : Datetime) : ∃ c, s.commit now u = .ok c := by
  unfold DataStorage.commit
  rw [if_neg hu]
  cases s.resolve u with
  | none => exact ⟨_, rfl⟩
  | some id =>
    dsimp only
    cases hg : s.signals.get id with
    | none => exact ⟨_, rfl⟩
    | some sg =>
      obtain ⟨d, hd⟩ := dist_ok hv (hs id sg hg)
      have hc : ∃ b, sg.valChange u.val = .ok b := by
        unfold SignalConf.valChange
        cases sg.threshold with
        | none => exact ⟨_, rfl⟩
        | some t =>
          refine ⟨d.ge t, ?_⟩
          simp [Deadband.reaches, hd]
      obtain ⟨b, hb⟩ := hc
      dsimp only
      rw [hb]
      dsimp only
      split
      · exact ⟨_, rfl⟩
      · exact ⟨_, rfl⟩

theorem allFloats_commit {s : Signals C Q} {now : Datetime} {u : Update Val} {c : Commit C Q Val F64}
    (hs : AllFloats s) (hv : IsFloat u.val) (hc : s.commit now u = .ok c) : AllFloats c.storage := by
  rcases DataStorage.commit_ok hc with ⟨rfl, -⟩ | ⟨id, sg, hf, -, rfl⟩
  · exact hs
  · intro id' sg' hg
    rw [DataStorage.write, Dict.get_set] at hg
    split at hg
    · cases hg
      exact hv
    · exact hs id' sg' hg

theorem allFloats_load (now : Datetime) (rows : List Row) : AllFloats (load now rows : Signals C Q) := by
  intro id sg hg
  rw [(load_initial now rows sg (Dict.mem_values.mpr ⟨id, hg⟩)).1]
  exact ⟨_, rfl⟩

theorem allFloats_after {s : Signals C Q} (hs : AllFloats s) (calls : List (Datetime × Call)) :
    AllFloats (after s calls) := by
  induction calls generalizing s with
  | nil => exact hs
  | cons x calls ih =>
    refine ih ?_
    unfold apply
    cases hc : s.commit x.1 x.2.update with
    | error e => exact hs
    | ok c => exact allFloats_commit hs (isFloat_call x.2) hc

/-- After any calls on a loaded table, the next one returns. -/
theorem no_call_raises (now : Datetime) (rows : List Row) (calls : List (Datetime × Call)) (x : Datetime × Call) :
    ∃ c, (after (load now rows : Signals C Q) calls).commit x.1 x.2.update = .ok c :=
  commit_goes (allFloats_after (allFloats_load now rows) calls) x.2.one_key (isFloat_call x.2) x.1

end Drv60870.Storage
