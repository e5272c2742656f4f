/-
  Drv60870.Lib.Ieee — IEEE 754 binary interchange formats.

  A datum is a sign and a code: the exponent and fraction fields read as one number,
  which orders the magnitudes. A finite datum's magnitude is a natural number in units
  of the format's smallest subnormal, so rounding between formats is integer arithmetic:
  `roundCode` rounds to nearest, ties to even, and overflows to infinity.

  `convert` rounds a datum into another format (a NaN keeps the top of its payload and
  is made quiet), `ofInt` an integer; `trunc` drops a finite datum's fraction. `dist` is
  the rounded `|x - y|`; numbers are compared by their `rank`, in which the two zeros are one.

  `roundCode_of`: a magnitude of the format is rounded to its own code. `convert_convert`: a
  finite datum comes back from a wider format as it was.
-/

import Mathlib.Algebra.Group.Nat.Defs
import Mathlib.Data.Nat.Log

namespace Drv60870.Lib.Ieee

/-- Precision `p` (hidden bit included) and exponent width `ew`. -/
structure Format where
  p : Nat
  ew : Nat
  two_le : 2 ≤ p
  deriving DecidableEq, Repr

def binary32 : Format := ⟨24, 8, by decide⟩
def binary64 : Format := ⟨53, 11, by decide⟩

namespace Format

variable (f : Format)

def width : Nat := f.ew + (f.p - 1)

def infCode : Nat := (2 ^ f.ew - 1) * 2 ^ (f.p - 1)

/-- The smallest subnormal is `2 ^ -scale`. -/
def scale : Nat := 2 ^ (f.ew - 1) + f.p - 3

theorem infCode_lt : f.infCode < 2 ^ f.width := by
  have h : 0 < 2 ^ f.ew := Nat.two_pow_pos _
  rw [infCode, width, Nat.pow_add]
  exact Nat.mul_lt_mul_of_pos_right (by omega) (Nat.two_pow_pos _)

end Format

structure Datum (f : Format) where
  neg : Bool
  code : Nat
  lt : code < 2 ^ f.width
  deriving DecidableEq

namespace Datum

variable {f g : Format}

def isNan (x : Datum f) : Bool := f.infCode < x.code
def isInf (x : Datum f) : Bool := x.code = f.infCode

/-- The magnitude of a finite datum, in units of `2 ^ -scale`. -/
def mag (x : Datum f) : Nat :=
  let e := x.code / 2 ^ (f.p - 1)
  let m := x.code % 2 ^ (f.p - 1)
  if e = 0 then m else (2 ^ (f.p - 1) + m) * 2 ^ (e - 1)

end Datum

/-- `n / d` to the nearest integer, ties to even. -/
def roundDiv (n d : Nat) : Nat :=
  if 2 * (n % d) < d ∨ (2 * (n % d) = d ∧ n / d % 2 = 0) then n / d else n / d + 1

/-- The code of `n / 2 ^ s` units: drop `s` bits, or all but the top `p` if that is more. -/
def roundCode (f : Format) (n s : Nat) : Nat :=
  let q := max s (n.log2 + 1 - f.p)
  min f.infCode ((q - s) * 2 ^ (f.p - 1) + roundDiv n (2 ^ q))

theorem roundCode_lt (f : Format) (n s : Nat) : roundCode f n s < 2 ^ f.width :=
  Nat.lt_of_le_of_lt (Nat.min_le_left _ _) f.infCode_lt

/-- The quiet NaN of `g` with the top payload bits of `x`. -/
def nanCode (f g : Format) (code : Nat) : Nat :=
  let payload := code % 2 ^ (f.p - 1) * 2 ^ (g.p - 1) / 2 ^ (f.p - 1)
  g.infCode + 2 ^ (g.p - 2) + payload % 2 ^ (g.p - 2)

theorem nanCode_lt (f g : Format) (code : Nat) : nanCode f g code < 2 ^ g.width := by
  have hp := g.two_le
  have hsplit : 2 ^ (g.p - 1) = 2 ^ (g.p - 2) + 2 ^ (g.p - 2) := by
    rw [← Nat.two_mul, ← Nat.pow_succ']; congr 1; omega
  have hcode : g.infCode + 2 ^ (g.p - 1) = 2 ^ g.width := by
    have h : 0 < 2 ^ g.ew := Nat.two_pow_pos _
    rw [Format.infCode, Format.width, Nat.pow_add, Nat.sub_mul, Nat.one_mul]
    exact Nat.sub_add_cancel (Nat.le_mul_of_pos_left _ h)
  have hlow := Nat.mod_lt (code % 2 ^ (f.p - 1) * 2 ^ (g.p - 1) / 2 ^ (f.p - 1)) (Nat.two_pow_pos (g.p - 2))
  simp only [nanCode]
  omega

def convertCode {f : Format} (g : Format) (x : Datum f) : Nat :=
  if x.isNan then nanCode f g x.code
  else if x.isInf then g.infCode
  else roundCode g (x.mag * 2 ^ (g.scale - f.scale)) (f.scale - g.scale)

theorem convertCode_lt {f : Format} (g : Format) (x : Datum f) : convertCode g x < 2 ^ g.width := by
  unfold convertCode
  split
  · exact nanCode_lt f g x.code
  · split
    · exact g.infCode_lt
    · exact roundCode_lt g _ _

def convert {f : Format} (g : Format) (x : Datum f) : Datum g := ⟨x.neg, convertCode g x, convertCode_lt g x⟩

def ofInt (f : Format) (n : Int) : Datum f :=
  ⟨n < 0, roundCode f (n.natAbs * 2 ^ f.scale) 0, roundCode_lt f _ _⟩

def trunc {f : Format} (x : Datum f) : Int :=
  let m : Int := (x.mag / 2 ^ f.scale : Nat)
  if x.neg then -m else m

/-! ## Distance and order -/

namespace Datum

variable {f : Format}

def units (x : Datum f) : Int := if x.neg then -(x.mag : Int) else x.mag

def rank (x : Datum f) : Int := if x.neg then -(x.code : Int) else x.code

def le (x y : Datum f) : Bool := !x.isNan && !y.isNan && decide (x.rank ≤ y.rank)

def eq (x y : Datum f) : Bool := !x.isNan && !y.isNan && decide (x.rank = y.rank)

end Datum

/-- `|x - y|`; the difference of equal infinities is a NaN. -/
def dist {f : Format} (x y : Datum f) : Datum f :=
  if x.isNan || y.isNan || (x.isInf && y.isInf && x.neg == y.neg) then
    ⟨false, nanCode f f 0, nanCode_lt f f 0⟩
  else if x.isInf || y.isInf then ⟨false, f.infCode, f.infCode_lt⟩
  else ⟨false, roundCode f (x.units - y.units).natAbs 0, roundCode_lt f _ _⟩

/-! ## Encoding -/

def toBits {f : Format} (x : Datum f) : Nat := x.code + (if x.neg then 2 ^ f.width else 0)

def ofBits (f : Format) (n : Nat) : Datum f :=
  ⟨n / 2 ^ f.width % 2 = 1, n % 2 ^ f.width, Nat.mod_lt _ (Nat.two_pow_pos _)⟩

theorem toBits_lt {f : Format} (x : Datum f) : toBits x < 2 ^ (f.width + 1) := by
  have h := x.lt
  rw [toBits, Nat.pow_succ]
  split <;> omega

@[simp] theorem ofBits_toBits {f : Format} (x : Datum f) : ofBits f (toBits x) = x := by
  have h := x.lt
  have hm : toBits x % 2 ^ f.width = x.code := by
    rw [toBits]; split
    · rw [Nat.add_mod_right, Nat.mod_eq_of_lt h]
    · exact Nat.mod_eq_of_lt h
  have hd : toBits x / 2 ^ f.width = if x.neg then 1 else 0 := by
    rw [toBits]; split
    · rw [Nat.add_div_right _ (Nat.two_pow_pos _), Nat.div_eq_of_lt h]
    · exact Nat.div_eq_of_lt h
  simp only [ofBits, hm, hd]
  cases x with
  | mk neg code lt => cases neg <;> simp

/-! ## Exact conversions -/

theorem roundDiv_mul (n : Nat) {d : Nat} (h : 0 < d) : roundDiv (n * d) d = n := by
  rw [roundDiv, Nat.mul_mod_left, Nat.mul_div_cancel n h, if_pos (.inl (by omega))]

/-- The exponent and the significand of a finite magnitude `m * 2 ^ k`. -/
structure Format.Normal (f : Format) (k m : Nat) : Prop where
  lt : m < 2 ^ f.p
  low : k = 0 ∨ 2 ^ (f.p - 1) ≤ m

variable {f g : Format} {k m : Nat}

theorem Format.two_pow (f : Format) : 2 ^ f.p = 2 * 2 ^ (f.p - 1) := by
  have h := f.two_le
  rw [← Nat.pow_succ']
  congr 1
  omega

theorem Datum.mag_of {x : Datum f} (h : f.Normal k m) (hc : x.code = k * 2 ^ (f.p - 1) + m) : x.mag = m * 2 ^ k := by
  have hpos : 0 < 2 ^ (f.p - 1) := Nat.two_pow_pos _
  have hp := f.two_pow
  have hlt := h.lt
  unfold Datum.mag
  by_cases hm : m < 2 ^ (f.p - 1)
  · have hk : k = 0 := h.low.resolve_right (by omega)
    rw [hk, Nat.zero_mul, Nat.zero_add] at hc
    rw [hc, Nat.div_eq_of_lt hm, Nat.mod_eq_of_lt hm, if_pos rfl, hk, Nat.pow_zero, Nat.mul_one]
  · have hsplit : x.code = (k + 1) * 2 ^ (f.p - 1) + (m - 2 ^ (f.p - 1)) := by
      rw [hc, Nat.succ_mul]
      omega
    have hrest : m - 2 ^ (f.p - 1) < 2 ^ (f.p - 1) := by omega
    have hdiv : x.code / 2 ^ (f.p - 1) = k + 1 := by
      rw [hsplit, Nat.mul_comm, Nat.mul_add_div hpos, Nat.div_eq_of_lt hrest, Nat.add_zero]
    have hmod : x.code % 2 ^ (f.p - 1) = m - 2 ^ (f.p - 1) := by
      rw [hsplit, Nat.mul_comm, Nat.mul_add_mod, Nat.mod_eq_of_lt hrest]
    rw [hdiv, hmod, if_neg (Nat.succ_ne_zero k), Nat.add_sub_cancel, Nat.add_sub_cancel' (by omega)]

/-- Every code is of one exponent and significand. -/
theorem Datum.normal (x : Datum f) : ∃ k m, f.Normal k m ∧ x.code = k * 2 ^ (f.p - 1) + m := by
  have hpos : 0 < 2 ^ (f.p - 1) := Nat.two_pow_pos _
  have hp := f.two_pow
  have hcode := Nat.div_add_mod x.code (2 ^ (f.p - 1))
  have hmod := Nat.mod_lt x.code hpos
  cases he : x.code / 2 ^ (f.p - 1) with
  | zero =>
    rw [he, Nat.mul_zero, Nat.zero_add] at hcode
    exact ⟨0, x.code, ⟨by omega, .inl rfl⟩, by omega⟩
  | succ k =>
    rw [he, Nat.mul_succ, Nat.mul_comm] at hcode
    exact ⟨k, 2 ^ (f.p - 1) + x.code % 2 ^ (f.p - 1), ⟨by omega, .inr (by omega)⟩, by omega⟩

theorem Datum.mag_eq_zero {x : Datum f} (h : x.mag = 0) : x.code = 0 := by
  obtain ⟨k, m, hn, hc⟩ := x.normal
  rw [Datum.mag_of hn hc] at h
  have hpos := Nat.two_pow_pos (f.p - 1)
  have hm : m = 0 := (Nat.mul_eq_zero.mp h).resolve_right (Nat.two_pow_pos k).ne'
  rcases hn.low with hk | hlow
  · rw [hc, hm, hk, Nat.zero_mul]
  · omega

theorem log2_mul_two_pow {n : Nat} (h : n ≠ 0) (s : Nat) : (n * 2 ^ s).log2 = n.log2 + s := by
  have hpos := Nat.two_pow_pos s
  rw [Nat.log2_eq_iff (Nat.mul_ne_zero h (by omega)), Nat.pow_add, Nat.add_right_comm, Nat.pow_add]
  exact ⟨Nat.mul_le_mul_right _ (Nat.log2_self_le h), Nat.mul_lt_mul_of_pos_right Nat.lt_log2_self hpos⟩

/-- A magnitude of the format is rounded to its own code. -/
theorem roundCode_of (h : f.Normal k m) (s : Nat) (hinf : k * 2 ^ (f.p - 1) + m ≤ f.infCode) :
    roundCode f (m * 2 ^ k * 2 ^ s) s = k * 2 ^ (f.p - 1) + m := by
  have hq : max s ((m * 2 ^ k * 2 ^ s).log2 + 1 - f.p) = k + s := by
    have hp := f.two_le
    by_cases hm : m = 0
    · have hk : k = 0 := h.low.resolve_right (by have := Nat.two_pow_pos (f.p - 1); omega)
      rw [hm, hk, Nat.zero_mul, Nat.zero_mul, Nat.log2_zero]
      omega
    · rw [Nat.mul_assoc, ← Nat.pow_add, log2_mul_two_pow hm]
      have hlt : m.log2 < f.p := (Nat.log2_lt hm).mpr h.lt
      rcases h.low with hk | hlow
      · omega
      · have hge : f.p - 1 ≤ m.log2 := (Nat.le_log2 hm).mpr hlow
        omega
  rw [roundCode, hq, Nat.mul_assoc, ← Nat.pow_add]
  rw [roundDiv_mul m (Nat.two_pow_pos _), Nat.add_sub_cancel]
  exact Nat.min_eq_right hinf

/-- Every finite datum of `f` is a normal one of `g`. -/
structure Format.Wider (f g : Format) : Prop where
  p : f.p ≤ g.p
  room : f.scale + g.p ≤ g.scale
  ew : 2 ^ f.ew + (g.scale - f.scale) < 2 ^ g.ew

/-- A magnitude with room below its significand has a full one. -/
theorem Format.Normal.shift (hm : m < 2 ^ g.p) (hk : g.p ≤ k) :
    ∃ k' m', g.Normal k' m' ∧ m' * 2 ^ k' = m * 2 ^ k ∧ k' ≤ k := by
  by_cases h0 : m = 0
  · exact ⟨0, 0, ⟨Nat.two_pow_pos _, .inl rfl⟩, by rw [h0, Nat.zero_mul, Nat.zero_mul], Nat.zero_le _⟩
  · have hlt : m.log2 < g.p := (Nat.log2_lt h0).mpr hm
    have hlog : (m * 2 ^ (g.p - 1 - m.log2)).log2 = g.p - 1 := by
      rw [log2_mul_two_pow h0]
      omega
    have hne : m * 2 ^ (g.p - 1 - m.log2) ≠ 0 := Nat.mul_ne_zero h0 (Nat.two_pow_pos _).ne'
    refine ⟨k - (g.p - 1 - m.log2), m * 2 ^ (g.p - 1 - m.log2), ⟨?_, .inr ?_⟩, ?_, Nat.sub_le _ _⟩
    · exact (Nat.log2_lt hne).mp (by omega)
    · exact (Nat.le_log2 hne).mp (by omega)
    · rw [Nat.mul_assoc, ← Nat.pow_add]
      congr 2
      omega

theorem Datum.finite_iff {x : Datum f} : x.code < f.infCode ↔ x.isNan = false ∧ x.isInf = false := by
  simp only [Datum.isNan, Datum.isInf, decide_eq_false_iff_not]
  omega

/-- A finite datum is in a wider format what it was, and comes back. -/
theorem convert_convert (hw : f.Wider g) {x : Datum f} (hx : x.code < f.infCode) : convert f (convert g x) = x := by
  obtain ⟨k, m, hn, hc⟩ := x.normal
  have hmag := Datum.mag_of hn hc
  have hf := Datum.finite_iff.mp hx
  have hsub : f.scale - g.scale = 0 := by have := hw.room; omega
  obtain ⟨k', m', hn', heq, hle⟩ := Format.Normal.shift (g := g) (m := m) (k := k + (g.scale - f.scale))
    (hn.lt.trans_le (Nat.pow_le_pow_right (by decide) hw.p)) (by have := hw.room; omega)
  -- the code in the wider format
  have hk : k < 2 ^ f.ew - 1 := by
    rw [hc, Format.infCode] at hx
    exact Nat.lt_of_mul_lt_mul_right (a := 2 ^ (f.p - 1)) (by omega)
  have hfin : k' * 2 ^ (g.p - 1) + m' < g.infCode := by
    have hlt := hn'.lt
    have hew := hw.ew
    rw [g.two_pow] at hlt
    have hmul : (k' + 2) * 2 ^ (g.p - 1) ≤ (2 ^ g.ew - 1) * 2 ^ (g.p - 1) := Nat.mul_le_mul_right _ (by omega)
    rw [Nat.add_mul] at hmul
    rw [Format.infCode]
    omega
  have hcode : (convert g x).code = k' * 2 ^ (g.p - 1) + m' := by
    show convertCode g x = _
    rw [convertCode, hf.1, hf.2]
    simp only [Bool.false_eq_true, if_false]
    rw [hmag, hsub, Nat.mul_assoc, ← Nat.pow_add, ← heq]
    have hround := roundCode_of hn' 0 hfin.le
    rwa [Nat.pow_zero, Nat.mul_one] at hround
  have hmag' : (convert g x).mag = m * 2 ^ k * 2 ^ (g.scale - f.scale) := by
    rw [Datum.mag_of hn' hcode, heq, Nat.pow_add, Nat.mul_assoc]
  have hf' := Datum.finite_iff.mp (hcode ▸ hfin : (convert g x).code < g.infCode)
  have hback : convertCode f (convert g x) = x.code := by
    rw [convertCode, hf'.1, hf'.2]
    simp only [Bool.false_eq_true, if_false]
    rw [hmag', hsub, Nat.pow_zero, Nat.mul_one, roundCode_of hn _ (hc ▸ hx.le), hc]
  cases x with
  | mk neg code lt =>
    rw [convert, Datum.mk.injEq]
    exact ⟨rfl, hback⟩

theorem binary32_wider : binary32.Wider binary64 := ⟨by decide, by decide, by decide⟩

theorem convertCode_nan {x : Datum f} (h : f.infCode < x.code) : convertCode g x = nanCode f g x.code :=
  if_pos (decide_eq_true h)

theorem convertCode_inf {x : Datum f} (h : x.code = f.infCode) : convertCode g x = g.infCode := by
  have hnan : x.isNan = false := decide_eq_false (by omega)
  have hinf : x.isInf = true := decide_eq_true h
  rw [convertCode, hnan, if_neg Bool.false_ne_true, if_pos hinf]

/-- A single keeps the payload of a NaN that came from a single. -/
theorem nanCode_nanCode {c : Nat} :
    nanCode binary32 binary64 (nanCode binary64 binary32 (nanCode binary32 binary64 c)) =
      nanCode binary32 binary64 c := by
  simp only [nanCode, Format.infCode, binary32, binary64]
  omega

/-- What came from a single is the same after another way there and back. -/
theorem convert_single (y : Datum binary32) :
    convert binary64 (convert binary32 (convert binary64 y)) = convert binary64 y := by
  rcases Nat.lt_trichotomy y.code binary32.infCode with h | h | h
  · rw [convert_convert binary32_wider h]
  · have h1 : (convert binary64 y).code = binary64.infCode := convertCode_inf h
    have h2 : (convert binary32 (convert binary64 y)).code = binary32.infCode := convertCode_inf h1
    rw [convert, Datum.mk.injEq]
    exact ⟨rfl, (convertCode_inf h2).trans h1.symm⟩
  · have hnan : ∀ (f g : Format) (c : Nat), g.infCode < nanCode f g c := by
      intro f g c
      have := Nat.two_pow_pos (g.p - 2)
      simp only [nanCode]
      omega
    have h1 : (convert binary64 y).code = nanCode binary32 binary64 y.code := convertCode_nan h
    have h2 : (convert binary32 (convert binary64 y)).code =
        nanCode binary64 binary32 (nanCode binary32 binary64 y.code) := by
      rw [← h1]
      exact convertCode_nan (h1 ▸ hnan _ _ _)
    have h3 : convertCode binary64 (convert binary32 (convert binary64 y)) =
        nanCode binary32 binary64 (nanCode binary64 binary32 (nanCode binary32 binary64 y.code)) := by
      rw [← h2]
      exact convertCode_nan (h2 ▸ hnan _ _ _)
    rw [convert, Datum.mk.injEq]
    exact ⟨rfl, h3.trans (nanCode_nanCode.trans h1.symm)⟩

end Drv60870.Lib.Ieee
