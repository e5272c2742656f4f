/-
  Drv60870.Protocol.Time — CP56Time2a time tags in both directions (`protocol.py`).

  `ValidTag` says when the masked fields of seven octets are a date and a time of day.
  `cleared` are the octets without the bits that the decoder does not read, the reserved ones
  and SU, and with the day of the week the date has.

  Proved:
  - The decoder yields a time for these octets and for no others (`datetimeFromCp56_eq`,
    `fromCp56_ok`).
  - The codec is exact in both directions (`cp56_exact`): a time of the years 2000 to 2127
    comes back to the millisecond with its flag, and the time of valid octets is encoded to
    the same octets, cleared.
-/

import Mathlib.Data.Nat.Bitwise
import Drv60870.Protocol.CodecProofs

namespace Drv60870.Protocol

open Lib.Octets Lib.Calendar Lib.Python

/-! ## The fields of a tag -/

section Fields

variable (b : Bytes)

def tagMs : Nat := (b.getD 0 0).toNat + 256 * (b.getD 1 0).toNat

def tagMinute : Nat := (b.getD 2 0).toNat &&& 0x3F
def tagIv : Bool := (b.getD 2 0).toNat &&& 0x80 != 0
def tagHour : Nat := (b.getD 3 0).toNat &&& 0x1F
def tagDay : Nat := (b.getD 4 0).toNat &&& 0x1F
def tagMonth : Nat := (b.getD 5 0).toNat &&& 0x0F
def tagYear : Nat := 2000 + ((b.getD 6 0).toNat &&& 0x7F)

structure ValidTag : Prop where
  ms_lt : tagMs b < 60000
  minute_lt : tagMinute b < 60
  hour_lt : tagHour b < 24
  month_pos : 1 ≤ tagMonth b
  month_le : tagMonth b ≤ 12
  day_pos : 1 ≤ tagDay b
  day_le : tagDay b ≤ daysInMonth (tagYear b) (tagMonth b)

/-- The octets without the reserved bits and SU, with this day of the week. -/
def cleared (weekday : Nat) : Bytes :=
  [b.getD 0 0,
   b.getD 1 0,
   b.getD 2 0 &&& 0xBF,
   b.getD 3 0 &&& 0x1F,
   (b.getD 4 0 &&& (0x1F : UInt8)) ||| UInt8.ofNat (weekday <<< 5),
   b.getD 5 0 &&& 0x0F,
   b.getD 6 0 &&& 0x7F]

end Fields

variable {b : Bytes}

theorem tagYear_le (b : Bytes) : tagYear b ≤ 2127 := by
  have : (b.getD 6 0).toNat &&& 0x7F ≤ 0x7F := Nat.and_le_right
  unfold tagYear
  omega

theorem validTag_iff : ValidTag b ↔ Valid (tagYear b) (tagMonth b) (tagDay b) (tagHour b) (tagMinute b)
    (tagMs b / 1000) (tagMs b % 1000 * 1000) := by
  have hy := tagYear_le b
  have hy0 : 2000 ≤ tagYear b := Nat.le_add_right _ _
  constructor
  · intro h
    have := h.ms_lt
    exact ⟨by omega, by omega, h.month_pos, h.month_le, h.day_pos, h.day_le, h.hour_lt, h.minute_lt, by omega,
      by omega⟩
  · intro h
    have := h.second_lt
    exact ⟨by omega, h.minute_lt, h.hour_lt, h.month_pos, h.month_le, h.day_pos, h.day_le⟩

instance (b : Bytes) : Decidable (ValidTag b) := decidable_of_iff _ validTag_iff.symm

def tagTime (h : ValidTag b) : Datetime := ⟨_, _, _, _, _, _, _, validTag_iff.mp h⟩

/-! ## Decoding -/

theorem datetimeFromCp56_eq (h : 7 ≤ b.length) : datetimeFromCp56 b =
    match Datetime.ofFields (tagYear b) (tagMonth b) (tagDay b) (tagHour b) (tagMinute b) (tagMs b / 1000)
      (tagMs b % 1000 * 1000) with
    | some dt => .ok (some dt, some (tagIv b))
    | none => .ok (none, none) := by
  match b, h with
  | b0 :: b1 :: b2 :: b3 :: b4 :: b5 :: b6 :: rest, _ =>
    rw [datetimeFromCp56, joined_octets b0.toNat_lt]
    rfl

theorem fromCp56_valid (h : 7 ≤ b.length) (hv : ValidTag b) :
    datetimeFromCp56 b = .ok (some (tagTime hv), some (tagIv b)) := by
  rw [datetimeFromCp56_eq h, Datetime.ofFields, dif_pos (validTag_iff.mp hv)]
  rfl

theorem fromCp56_invalid (h : 7 ≤ b.length) (hv : ¬ ValidTag b) : datetimeFromCp56 b = .ok (none, none) := by
  rw [datetimeFromCp56_eq h, Datetime.ofFields, dif_neg fun hn => hv (validTag_iff.mpr hn)]

/-- Seven octets are decoded, to a time or to none. -/
theorem fromCp56_ok (h : 7 ≤ b.length) : ∃ r, datetimeFromCp56 b = .ok r := by
  by_cases hv : ValidTag b
  · exact ⟨_, fromCp56_valid h hv⟩
  · exact ⟨_, fromCp56_invalid h hv⟩

theorem fromCp56_short (h : b.length < 7) : datetimeFromCp56 b = .error .valueError := by
  match b, h with
  | [], _ => rfl
  | [_], _ => rfl
  | [_, _], _ => rfl
  | [_, _, _], _ => rfl
  | [_, _, _, _], _ => rfl
  | [_, _, _, _, _], _ => rfl
  | [_, _, _, _, _, _], _ => rfl

/-! ## Encoding again -/

theorem minute_octet (x : UInt8) :
    UInt8.ofNat (if (x.toNat &&& 0x80 != 0) = true then (x.toNat &&& 0x3F) &&& 0x3F ||| 0x80
      else (x.toNat &&& 0x3F) &&& 0x3F) = x &&& 0xBF := by
  have hsplit : x.toNat &&& 0xBF = x.toNat &&& 0x3F ||| x.toNat &&& 0x80 := Nat.and_or_distrib_left x.toNat 0x3F 0x80
  have hbit : x.toNat &&& 0x80 = (x.toNat.testBit 7).toNat * 2 ^ 7 := Nat.and_two_pow x.toNat 7
  have hlt : x.toNat &&& 0xBF < 256 := Nat.lt_of_le_of_lt Nat.and_le_right (by decide)
  apply UInt8.toNat_inj.mp
  rw [Nat.and_assoc, Nat.and_self, UInt8.toNat_and]
  cases ht : x.toNat.testBit 7 with
  | true =>
    have h80 : x.toNat &&& 0x80 = 0x80 := by rw [hbit, ht]; rfl
    rw [h80] at hsplit
    rw [if_pos (by rw [h80]; rfl), ← hsplit, octet_toNat hlt]
    rfl
  | false =>
    have h80 : x.toNat &&& 0x80 = 0 := by rw [hbit, ht]; rfl
    rw [h80, Nat.or_zero] at hsplit
    rw [if_neg (by rw [h80]; decide), ← hsplit, octet_toNat hlt]
    rfl

/-- A field whose mask is applied twice. -/
theorem masked_octet (x m : UInt8) : UInt8.ofNat ((x.toNat &&& m.toNat) &&& m.toNat) = x &&& m := by
  apply UInt8.toNat_inj.mp
  rw [Nat.and_assoc, Nat.and_self, ← UInt8.toNat_and, UInt8.ofNat_toNat]

theorem day_octet (x : UInt8) {w : Nat} (h : w ≤ 7) :
    UInt8.ofNat (((x.toNat &&& 0x1F) &&& 0x1F) ||| ((w &&& 0x07) <<< 5)) =
      (x &&& (0x1F : UInt8)) ||| UInt8.ofNat (w <<< 5) := by
  have hw : w &&& 0x07 = w := low_bits (k := 3) (by omega)
  have hlt : w <<< 5 < 256 := by
    rw [Nat.shiftLeft_eq]
    omega
  rw [hw, UInt8.ofNat_or]
  rw [show UInt8.ofNat ((x.toNat &&& 0x1F) &&& 0x1F) = x &&& 0x1F from masked_octet x 0x1F]

theorem toCp56_tagTime (hv : ValidTag b) :
    datetimeToCp56 (tagTime hv) (tagIv b) = cleared b (tagTime hv).isoWeekday := by
  have hms : (tagMs b / 1000 * 1000 + tagMs b % 1000 * 1000 / 1000) % 60000 = tagMs b := by
    have := hv.ms_lt
    omega
  have h0 := (b.getD 0 0).toNat_lt
  have h1 := (b.getD 1 0).toNat_lt
  have hlow : tagMs b &&& 0xFF = (b.getD 0 0).toNat := by
    rw [low_octet, tagMs]
    omega
  have hhigh : (tagMs b >>> 8) &&& 0xFF = (b.getD 1 0).toNat := by
    rw [high_octet, tagMs]
    omega
  have hyear : mask ((tagYear b : Int) - 2000) 0x7F = ((b.getD 6 0).toNat &&& 0x7F) &&& 0x7F := by
    have hle : (b.getD 6 0).toNat &&& 0x7F ≤ 0x7F := Nat.and_le_right
    have he : (((tagYear b : Int) - 2000) % 256).toNat = (b.getD 6 0).toNat &&& 0x7F := by
      rw [tagYear]
      omega
    rw [mask, he]
  have hday := (tagTime hv).isoWeekday_le
  unfold datetimeToCp56 cleared
  generalize (tagTime hv).isoWeekday = w at hday ⊢
  dsimp only [tagTime]
  rw [hms, hlow, hhigh, hyear, UInt8.ofNat_toNat, UInt8.ofNat_toNat]
  unfold tagMinute tagIv tagHour tagDay tagMonth
  rw [minute_octet, day_octet _ hday]
  rw [show UInt8.ofNat (((b.getD 3 0).toNat &&& 0x1F) &&& 0x1F) = b.getD 3 0 &&& 0x1F from masked_octet _ 0x1F,
    show UInt8.ofNat (((b.getD 5 0).toNat &&& 0x0F) &&& 0x0F) = b.getD 5 0 &&& 0x0F from masked_octet _ 0x0F,
    show UInt8.ofNat (((b.getD 6 0).toNat &&& 0x7F) &&& 0x7F) = b.getD 6 0 &&& 0x7F from masked_octet _ 0x7F]

/-- The codec is exact in both directions. -/
theorem cp56_exact :
    (∀ (t : Datetime) (iv : Bool), 2000 ≤ t.year → t.year ≤ 2127 →
      datetimeFromCp56 (datetimeToCp56 t iv) = .ok (some t.truncMs, some iv)) ∧
    ∀ b : Bytes, b.length = 7 →
      ((∃ t iv, datetimeFromCp56 b = .ok (some t, iv)) ↔ ValidTag b) ∧
      ∀ t iv, datetimeFromCp56 b = .ok (some t, iv) →
        ∃ flag, iv = some flag ∧ datetimeToCp56 t flag = cleared b t.isoWeekday := by
  refine ⟨cp56_roundtrip, fun b hb => ?_⟩
  have h7 : 7 ≤ b.length := Nat.le_of_eq hb.symm
  by_cases hv : ValidTag b
  · have hd := fromCp56_valid h7 hv
    refine ⟨iff_of_true ⟨_, _, hd⟩ hv, fun t iv h => ?_⟩
    rw [hd] at h
    cases h
    exact ⟨tagIv b, rfl, toCp56_tagTime hv⟩
  · have hd := fromCp56_invalid h7 hv
    constructor
    · refine iff_of_false (fun h => ?_) hv
      obtain ⟨t, iv, h⟩ := h
      rw [hd] at h
      cases h
    · intro t iv h
      rw [hd] at h
      cases h

/-- 29 February 2024, 23:59:59.999, with SU, reserved bits and a wrong day of the week. -/
theorem cp56_exact_leapDay :
    datetimeFromCp56 (datetimeToCp56 sampleTime true) = .ok (some sampleTime.truncMs, some true) ∧
    ∃ t, datetimeFromCp56 [0x5F, 0xEA, 0xFB, 0xF7, 0x3D, 0xF2, 0x98] = .ok (some t, some true) ∧ t.isoWeekday = 4 ∧
      datetimeToCp56 t true = [0x5F, 0xEA, 0xBB, 0x17, 0x9D, 0x02, 0x18] := by
  refine ⟨cp56_exact.1 sampleTime true (by decide) (by decide), ?_⟩
  obtain ⟨-, hre⟩ := cp56_exact.2 [0x5F, 0xEA, 0xFB, 0xF7, 0x3D, 0xF2, 0x98] rfl
  have hd : datetimeFromCp56 [0x5F, 0xEA, 0xFB, 0xF7, 0x3D, 0xF2, 0x98] =
      .ok (some ⟨2024, 2, 29, 23, 59, 59, 999000, by decide⟩, some true) := by decide
  obtain ⟨flag, hflag, hb⟩ := hre _ _ hd
  cases hflag
  exact ⟨_, hd, by decide, hb⟩

end Drv60870.Protocol
