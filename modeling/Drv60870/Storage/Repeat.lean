/-
  Drv60870.Storage.Repeat — the same value offered again (`update_val` in `common.py`).

  Values are rational and compared exactly; thresholds are the floats a station's table can
  hold, `nan`, infinities and negative ones among them.

  Proved:
  - A second call with the value, quality and flag of the first returns False and changes nothing
    if and only if the signal has no threshold or one that is not at or below zero
    (`updateVal_again`). A difference of zero reaches such a threshold (`reached_zero`).
  - Under a threshold of zero the repeat is stored with a new timestamp and published, every
    time (`again_published`).
-/

import Mathlib.Algebra.Order.Ring.Cast
import Drv60870.Storage.History

namespace Drv60870.Storage.Repeat

open Lib Lib.Ieee Lib.Calendar Lib.Python

/-! ## Exact values -/

/-- Rational values under thresholds that are floats. -/
structure Exact where
  val : ℚ
  deriving DecidableEq

def reached (d : ℚ) (t : F64) : Bool :=
  !t.isNan && if t.isInf then t.neg else decide ((t.units : ℚ) ≤ d * 2 ^ binary64.scale)

instance : Deadband Exact F64 where
  zero := ⟨0⟩
  ne v w := v ≠ w
  reaches v w t := .ok (reached |v.val - w.val| t)

def nonpos (t : F64) : Bool := !t.isNan && (t.neg || t.code == 0)

theorem units_nonpos (t : F64) : t.units ≤ 0 ↔ t.neg = true ∨ t.code = 0 := by
  unfold Datum.units
  cases ht : t.neg with
  | true => simp
  | false =>
    simp only [Bool.false_eq_true, if_false, false_or]
    constructor
    · intro h
      exact Datum.mag_eq_zero (by omega)
    · intro h
      have hmag : t.mag = 0 := by simp [Datum.mag, h]
      omega

theorem reached_zero (t : F64) : reached 0 t = nonpos t := by
  unfold reached nonpos
  cases t.isNan with
  | true => rfl
  | false =>
    rw [Bool.eq_iff_iff]
    by_cases hinf : t.isInf = true
    · have hcode : t.code ≠ 0 := by
        rw [of_decide_eq_true hinf]
        decide
      simp [hinf, hcode]
    · simp only [hinf, zero_mul, Bool.not_false, Bool.true_and, Bool.or_eq_true, beq_iff_eq, decide_eq_true_eq,
        Bool.false_eq_true, if_false, ← units_nonpos]
      exact Int.cast_nonpos

theorem reached_of_nonpos {t : F64} (h : nonpos t = true) {d : ℚ} (hd : 0 ≤ d) : reached d t = true := by
  rw [← reached_zero] at h
  unfold reached at h ⊢
  rw [Bool.and_eq_true] at h ⊢
  refine ⟨h.1, ?_⟩
  have h2 := h.2
  split at h2
  · rename_i hinf
    rw [if_pos hinf]
    exact h2
  · rename_i hinf
    rw [if_neg hinf]
    rw [zero_mul, decide_eq_true_eq] at h2
    exact decide_eq_true (h2.trans (mul_nonneg hd (pow_nonneg zero_le_two _)))

/-! ## One signal's updates -/

section Updates

variable {C Q V T : Type} [Deadband V T]

structure IsOf (s : DataStorage C Q V T) (u : Update V) (id : Int) (sg : SignalConf V T) : Prop where
  one : u.id.isSome ≠ u.ioa.isSome
  finds : s.find u = some (id, sg)

structure Alike (u u' : Update V) : Prop where
  val : u'.val = u.val
  q : u'.q = u.q
  iv : u'.iv = u.iv

omit [Deadband V T] in
theorem IsOf.write {s : DataStorage C Q V T} {u u' : Update V} {id : Int} {sg : SignalConf V T} (now : Datetime)
    (h : IsOf s u' id sg) : IsOf (s.write now u id sg) u' id (sg.written now u) := by
  refine ⟨h.one, ?_⟩
  obtain ⟨id', hr, hf⟩ := Option.bind_eq_some_iff.mp h.finds
  obtain ⟨sg', -, he⟩ := Option.map_eq_some_iff.mp hf
  cases he
  have hr' : (s.write now u id sg).resolve u' = some id := hr
  rw [DataStorage.find, hr', Option.bind_some]
  show ((s.signals.set id (sg.written now u)).get id).map _ = _
  rw [Dict.get_set_self]
  rfl

variable [DecidableEq Q]

theorem updateVal_takes {w : History.World C Q V T} {u : Update V} {id : Int} {sg : SignalConf V T} (now : Datetime)
    (h : IsOf w.storage u id sg) (ht : sg.takes u = true) :
    (w.updateVal now u).1 = .ok true ∧ (w.updateVal now u).2.storage = w.storage.write now u id sg := by
  rw [History.World.updateVal, DataStorage.commit_takes now h.one h.finds ht]
  exact ⟨rfl, rfl⟩

theorem updateVal_keeps {w : History.World C Q V T} {u : Update V} {id : Int} {sg : SignalConf V T} (now : Datetime)
    (h : IsOf w.storage u id sg) (hv : sg.valChange u.val = .ok false) (hq : sg.qChange u.q u.iv = false) :
    w.updateVal now u = (.ok false, w) := by
  rw [History.World.updateVal, DataStorage.commit_keeps now h.one h.finds hv hq]

end Updates

/-! ## The repeat -/

theorem valChange_exact (sg : SignalConf Exact F64) (v : Exact) :
    sg.valChange v = .ok (match sg.threshold with
      | none => decide (v ≠ sg.val)
      | some t => reached |v.val - sg.val.val| t) := by
  unfold SignalConf.valChange
  cases sg.threshold with
  | none => rfl
  | some t => rfl

theorem valChange_self (sg : SignalConf Exact F64) (now : Datetime) (u : Update Exact) :
    (sg.written now u).valChange u.val = .ok (sg.threshold.any nonpos) := by
  rw [valChange_exact]
  show Except.ok (match sg.threshold with
    | none => decide (u.val ≠ u.val)
    | some t => reached |u.val.val - u.val.val| t) = _
  cases sg.threshold with
  | none => simp
  | some t => simp [reached_zero]

variable {C Q : Type} [DecidableEq Q] {w : History.World C Q Exact F64} {u u' : Update Exact} {id : Int}
  {sg : SignalConf Exact F64}

/-- Where the first call is written, the second finds its own value. -/
theorem again_written (now now' : Datetime) (h : IsOf w.storage u id sg) (h' : IsOf w.storage u' id sg)
    (ha : Alike u u') (ht : sg.takes u = true) :
    (w.updateVal now u).2.updateVal now' u' = (.ok false, (w.updateVal now u).2) ↔
      sg.threshold.any nonpos = false := by
  obtain ⟨-, hs⟩ := updateVal_takes now h ht
  have hof : IsOf (w.updateVal now u).2.storage u' id (sg.written now u) := by
    rw [hs]
    exact h'.write now
  have hself : (sg.written now u).valChange u'.val = .ok (sg.threshold.any nonpos) := by
    rw [ha.val]
    exact valChange_self sg now u
  have hq : (sg.written now u).qChange u'.q u'.iv = false := by
    simp [SignalConf.qChange, SignalConf.written, ha.q, ha.iv]
  constructor
  · intro hr
    by_cases hn : sg.threshold.any nonpos = true
    · have htakes : (sg.written now u).takes u' = true := by simp [SignalConf.takes, hself, hn]
      have hr' := (updateVal_takes now' hof htakes).1
      rw [hr] at hr'
      cases hr'
    · exact Bool.eq_false_iff.mpr hn
  · intro hn
    rw [hn] at hself
    exact updateVal_keeps now' hof hself hq

/-- Where the first call is kept back, so is the second, and the threshold is not at or below zero. -/
theorem again_kept (now now' : Datetime) (h : IsOf w.storage u id sg) (h' : IsOf w.storage u' id sg)
    (ha : Alike u u') (ht : sg.takes u = false) :
    (w.updateVal now u).2.updateVal now' u' = (.ok false, (w.updateVal now u).2) ∧
      sg.threshold.any nonpos = false := by
  have hv := valChange_exact sg u.val
  have hno : sg.valChange u.val = .ok false ∧ sg.qChange u.q u.iv = false := by
    rw [hv]
    simpa [SignalConf.takes, hv] using ht
  rw [updateVal_keeps now h hno.1 hno.2]
  refine ⟨updateVal_keeps now' h' (by rw [ha.val]; exact hno.1) (by rw [ha.q, ha.iv]; exact hno.2), ?_⟩
  rw [hv] at hno
  cases hth : sg.threshold with
  | none => rfl
  | some t =>
    rw [hth] at hno
    rw [Option.any_some, Bool.eq_false_iff]
    intro hn
    have hreach := reached_of_nonpos hn (abs_nonneg (u.val.val - sg.val.val))
    have hoff : reached |u.val.val - sg.val.val| t = false := Except.ok.inj hno.1
    rw [hoff] at hreach
    cases hreach

/-- The repeat of an update changes nothing exactly if the signal's threshold, if any, is not
    at or below zero. -/
theorem updateVal_again (now now' : Datetime) (h : IsOf w.storage u id sg) (h' : IsOf w.storage u' id sg)
    (ha : Alike u u') :
    (w.updateVal now u).2.updateVal now' u' = (.ok false, (w.updateVal now u).2) ↔
      sg.threshold.any nonpos = false := by
  cases ht : sg.takes u with
  | true => exact again_written now now' h h' ha ht
  | false => exact iff_of_true (again_kept now now' h h' ha ht).1 (again_kept now now' h h' ha ht).2

def sampleWorld (threshold : Option F64) : History.World Nat Nat Exact F64 :=
  .run ⟨.empty, fun _ => []⟩ [.addSignal sampleTime 1 100 36 threshold, .subscribe 7 0]

def sampleUpdate : Update Exact := { val := ⟨5 / 2⟩, ioa := some 100 }

def tenth : F64 := ofBits binary64 0x3fb999999999999a

theorem updateVal_again_sample :
    ((sampleWorld (some tenth)).updateVal sampleTime sampleUpdate).2.updateVal sampleTime sampleUpdate =
        (.ok false, ((sampleWorld (some tenth)).updateVal sampleTime sampleUpdate).2) ↔
      (some tenth).any nonpos = false :=
  have h : IsOf (sampleWorld (some tenth)).storage sampleUpdate 1 ⟨1, 100, 36, some tenth, ⟨0⟩, sampleTime, 0, false⟩ :=
    ⟨by decide, rfl⟩
  updateVal_again sampleTime sampleTime h h ⟨rfl, rfl, rfl⟩

/-- Under a threshold of zero the repeat is stored and published. -/
theorem again_published : nonpos (ofBits binary64 0) = true ∧
    (((sampleWorld (some (ofBits binary64 0))).updateVal sampleTime sampleUpdate).2.updateVal sampleTime
      sampleUpdate).1 = .ok true ∧
    ((((sampleWorld (some (ofBits binary64 0))).updateVal sampleTime sampleUpdate).2.updateVal sampleTime
      sampleUpdate).2.queues 0).map Event.val = [⟨5 / 2⟩, ⟨5 / 2⟩] := by
  decide +kernel

end Drv60870.Storage.Repeat
