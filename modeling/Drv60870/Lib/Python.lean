/-
  Drv60870.Lib.Python — the parts of Python's runtime that octet-level code leans on.

  Exceptions are values of `PyErr`. `packU`/`packS` and `unpackU`/`unpackS` are
  `struct.pack` and `struct.unpack` of one unsigned or signed little-endian field,
  `packF`/`unpackF` of a `'<f'` field; `toBytes` is `int.to_bytes`. Slicing never
  raises (`Octets.slice`), indexing does (`index`).

  A number is an `int` or a `float` (binary64); `Val.toInt` and `Val.toFloat` are `int()`
  and `float()`, `Val.dist`, `Val.ge` and `Val.ne` the arithmetic of a deadband.
-/

import Mathlib.Algebra.Group.Int.Defs
import Mathlib.Control.Monad.Basic
import Drv60870.Lib.Octets
import Drv60870.Lib.Ieee

namespace Drv60870.Lib.Python

open Octets Ieee

inductive PyErr where
  | indexError
  | structError
  | valueError
  | overflowError
  deriving DecidableEq, Repr

def index (b : Bytes) (i : Nat) : Except PyErr UInt8 :=
  match b[i]? with
  | some x => .ok x
  | none => .error .indexError

/-- `x & m` for a mask of one octet; negative numbers are in two's complement. -/
def mask (x : Int) (m : Nat) : Nat := (x % 256).toNat &&& m

/-! ## struct -/

def packU (w : Nat) (x : Int) : Except PyErr Bytes :=
  if 0 ≤ x ∧ x.toNat < 256 ^ w then .ok (leBytes w x.toNat) else .error .structError

def packS (w : Nat) (x : Int) : Except PyErr Bytes :=
  if -256 ^ w ≤ 2 * x ∧ 2 * x < 256 ^ w then .ok (leBytes w (x % 256 ^ w).toNat) else .error .structError

def unpackU (w : Nat) (b : Bytes) : Except PyErr Nat :=
  if b.length = w then .ok (leNat b) else .error .structError

def unpackS (w : Nat) (b : Bytes) : Except PyErr Int :=
  if b.length = w then .ok (if 2 * leNat b < 256 ^ w then leNat b else (leNat b : Int) - 256 ^ w)
  else .error .structError

def toBytes (w : Nat) (x : Int) : Except PyErr Bytes :=
  if 0 ≤ x ∧ x.toNat < 256 ^ w then .ok (leBytes w x.toNat) else .error .overflowError

def byte (x : Int) : Except PyErr Bytes :=
  if 0 ≤ x ∧ x < 256 then .ok [UInt8.ofNat x.toNat] else .error .valueError

/-! ## Numbers -/

abbrev F64 := Datum binary64

inductive Val where
  | int (n : Int)
  | float (x : F64)
  deriving DecidableEq

def Val.toInt : Val → Except PyErr Int
  | .int n => .ok n
  | .float x =>
    if x.isNan then .error .valueError
    else if x.isInf then .error .overflowError
    else .ok (trunc x)

def Val.toFloat : Val → Except PyErr F64
  | .int n => if (ofInt binary64 n).isInf then .error .overflowError else .ok (ofInt binary64 n)
  | .float x => .ok x

/-- A finite number too large for binary32 raises, infinities and NaNs do not. -/
def packF (x : F64) : Except PyErr Bytes :=
  if (convert binary32 x).isInf && !x.isInf then .error .overflowError
  else .ok (leBytes 4 (toBits (convert binary32 x)))

def unpackF (b : Bytes) : Except PyErr F64 :=
  if b.length = 4 then .ok (convert binary64 (ofBits binary32 (leNat b))) else .error .structError

/-- `abs(v - w)`: integers are subtracted exactly, otherwise both become floats. -/
def Val.dist : Val → Val → Except PyErr Val
  | .int m, .int n => .ok (.int (m - n).natAbs)
  | v, w => do
    let x ← v.toFloat
    let y ← w.toFloat
    return .float (Ieee.dist x y)

def intUnits (n : Int) : Int := n * 2 ^ binary64.scale

def Val.ge : Val → F64 → Bool
  | .int n, t => !t.isNan && if t.isInf then t.neg else decide (t.units ≤ intUnits n)
  | .float x, t => t.le x

def Val.ne : Val → Val → Bool
  | .int m, .int n => m != n
  | .float x, .float y => !x.eq y
  | .int n, .float y | .float y, .int n => y.isNan || y.isInf || y.units != intUnits n

/-! ## When they succeed -/

theorem bind_eq_ok {α β : Type} {x : Except PyErr α} {f : α → Except PyErr β} {b : β} :
    (x >>= f) = .ok b ↔ ∃ a, x = .ok a ∧ f a = .ok b := by
  cases x with
  | error e =>
    constructor
    · intro h; cases h
    · intro h
      obtain ⟨a, h, -⟩ := h
      cases h
  | ok a =>
    constructor
    · intro h; exact ⟨a, rfl, h⟩
    · intro h
      obtain ⟨a', h, hf⟩ := h
      cases h
      exact hf

theorem ok_inj {α : Type} {a b : α} (h : (pure a : Except PyErr α) = .ok b) : a = b := Except.ok.inj h

theorem index_ok {b : Bytes} {i : Nat} (h : i < b.length) : index b i = .ok b[i] := by
  simp [index, h]

theorem index_error {b : Bytes} {i : Nat} (h : b.length ≤ i) : index b i = .error .indexError := by
  simp [index, h]

theorem packU_ok {w n : Nat} (h : n < 256 ^ w) : packU w n = .ok (leBytes w n) := by
  rw [packU, Int.toNat_natCast, if_pos ⟨Int.natCast_nonneg n, h⟩]

theorem toBytes_ok {w n : Nat} (h : n < 256 ^ w) : toBytes w n = .ok (leBytes w n) := by
  rw [toBytes, Int.toNat_natCast, if_pos ⟨Int.natCast_nonneg n, h⟩]

theorem byte_ok {n : Nat} (h : n < 256) : byte n = .ok [UInt8.ofNat n] := by
  rw [byte, if_pos ⟨Int.natCast_nonneg n, by omega⟩, Int.toNat_natCast]

theorem unpackU_ok {w : Nat} {b : Bytes} (h : b.length = w) : unpackU w b = .ok (leNat b) := by
  simp [unpackU, h]

theorem unpackU_error {w : Nat} {b : Bytes} (h : b.length ≠ w) : unpackU w b = .error .structError := by
  simp [unpackU, h]

theorem length_byte {x : Int} {b : Bytes} (h : byte x = .ok b) : b.length = 1 := by
  unfold byte at h
  split at h
  · cases h; rfl
  · cases h

theorem length_packU {w : Nat} {x : Int} {b : Bytes} (h : packU w x = .ok b) : b.length = w := by
  unfold packU at h
  split at h
  · cases h; exact length_leBytes _ _
  · cases h

theorem length_packS {w : Nat} {x : Int} {b : Bytes} (h : packS w x = .ok b) : b.length = w := by
  unfold packS at h
  split at h
  · cases h; exact length_leBytes _ _
  · cases h

theorem length_packF {x : F64} {b : Bytes} (h : packF x = .ok b) : b.length = 4 := by
  unfold packF at h
  split at h
  · cases h
  · cases h; exact length_leBytes _ _

/-! ## What is packed is unpacked -/

theorem unpackU_packU {w : Nat} {x : Int} {b : Bytes} (h : packU w x = .ok b) : unpackU w b = .ok x.toNat := by
  unfold packU at h
  split at h
  · rename_i hx
    cases h
    rw [unpackU_ok (length_leBytes _ _), leNat_leBytes hx.2]
  · cases h

theorem unpackS_packS {w : Nat} {x : Int} {b : Bytes} (h : packS w x = .ok b) : unpackS w b = .ok x := by
  unfold packS at h
  split at h
  · rename_i hx
    cases h
    have hcast : ((256 ^ w : Nat) : Int) = 256 ^ w := Int.natCast_pow 256 w
    rw [unpackS, if_pos (length_leBytes _ _)]
    by_cases hneg : x < 0
    · have hmod : x % 256 ^ w = x + 256 ^ w := by
        rw [← Int.add_emod_right]
        exact Int.emod_eq_of_lt (by omega) (by omega)
      rw [hmod, leNat_leBytes (by omega), if_neg (by omega)]
      congr 1
      omega
    · have hmod : x % 256 ^ w = x := Int.emod_eq_of_lt (by omega) (by omega)
      rw [hmod, leNat_leBytes (by omega), if_pos (by omega)]
      congr 1
      omega
  · cases h

/-- A float comes back rounded to a single. -/
theorem unpackF_packF {x : F64} {b : Bytes} (h : packF x = .ok b) :
    unpackF b = .ok (convert binary64 (convert binary32 x)) := by
  unfold packF at h
  split at h
  · cases h
  · cases h
    rw [unpackF, if_pos (length_leBytes _ _), leNat_leBytes (toBits_lt _), ofBits_toBits]

end Drv60870.Lib.Python
