/-
  Drv60870.Lib.Calendar — calendar times of the proleptic Gregorian calendar.

  A `Datetime` carries the validity of its fields, so no month 13 or 30 February can
  be built; `Datetime.ofFields` is the checked constructor.
-/

import Mathlib.Data.List.Basic
import Drv60870.Lib.Str

namespace Drv60870.Lib.Calendar

open Str

def isLeap (y : Nat) : Bool := y % 4 = 0 && (y % 100 != 0 || y % 400 = 0)

def daysInMonth (y m : Nat) : Nat :=
  if m = 2 then (if isLeap y then 29 else 28)
  else if m = 4 ∨ m = 6 ∨ m = 9 ∨ m = 11 then 30 else 31

theorem daysInMonth_le (y m : Nat) : daysInMonth y m ≤ 31 := by
  unfold daysInMonth
  split
  · split <;> omega
  · split <;> omega

structure Valid (year month day hour minute second microsecond : Nat) : Prop where
  year_pos : 1 ≤ year
  year_le : year ≤ 9999
  month_pos : 1 ≤ month
  month_le : month ≤ 12
  day_pos : 1 ≤ day
  day_le : day ≤ daysInMonth year month
  hour_lt : hour < 24
  minute_lt : minute < 60
  second_lt : second < 60
  microsecond_lt : microsecond < 1000000

theorem valid_iff (y mo d h mi s us : Nat) : Valid y mo d h mi s us ↔
    (1 ≤ y ∧ y ≤ 9999) ∧ (1 ≤ mo ∧ mo ≤ 12) ∧ (1 ≤ d ∧ d ≤ daysInMonth y mo) ∧ h < 24 ∧ mi < 60 ∧ s < 60 ∧
      us < 1000000 :=
  ⟨fun v => ⟨⟨v.1, v.2⟩, ⟨v.3, v.4⟩, ⟨v.5, v.6⟩, v.7, v.8, v.9, v.10⟩,
    fun ⟨⟨a, b⟩, ⟨c, d⟩, ⟨e, f⟩, g, h, i, j⟩ => ⟨a, b, c, d, e, f, g, h, i, j⟩⟩

instance (y mo d h mi s us : Nat) : Decidable (Valid y mo d h mi s us) :=
  decidable_of_iff _ (valid_iff y mo d h mi s us).symm

structure Datetime where
  year : Nat
  month : Nat
  day : Nat
  hour : Nat
  minute : Nat
  second : Nat
  microsecond : Nat
  valid : Valid year month day hour minute second microsecond
  deriving DecidableEq

namespace Datetime

/-- The checked constructor: `none` for fields that are no calendar time. -/
def ofFields (year month day hour minute second microsecond : Nat) : Option Datetime :=
  if h : Valid year month day hour minute second microsecond then
    some ⟨year, month, day, hour, minute, second, microsecond, h⟩
  else none

def daysBeforeYear (y : Nat) : Nat := (y - 1) * 365 + (y - 1) / 4 - (y - 1) / 100 + (y - 1) / 400

def daysBeforeMonth (y m : Nat) : Nat := (List.range (m - 1)).foldl (fun days k => days + daysInMonth y (k + 1)) 0

def toOrdinal (t : Datetime) : Nat := daysBeforeYear t.year + daysBeforeMonth t.year t.month + t.day

def isoWeekday (t : Datetime) : Nat := if t.toOrdinal % 7 = 0 then 7 else t.toOrdinal % 7

theorem isoWeekday_le (t : Datetime) : t.isoWeekday ≤ 7 := by
  unfold isoWeekday
  split <;> omega

def truncMs (t : Datetime) : Datetime :=
  { t with
    microsecond := t.microsecond / 1000 * 1000
    valid := { t.valid with microsecond_lt := by have := t.valid.microsecond_lt; omega } }

@[simp] theorem ofFields_self (t : Datetime) :
    ofFields t.year t.month t.day t.hour t.minute t.second t.microsecond = some t := by
  simp [ofFields, t.valid]

/-! ## As text -/

def dateText (t : Datetime) : Text := pad 4 t.year ++ '-' :: pad 2 t.month ++ '-' :: pad 2 t.day
def clockText (t : Datetime) : Text := pad 2 t.hour ++ ':' :: pad 2 t.minute ++ ':' :: pad 2 t.second

def isoformatMs (t : Datetime) : Text :=
  t.dateText ++ 'T' :: t.clockText ++ '.' :: pad 3 (t.microsecond / 1000)

def strftime (t : Datetime) : Text := t.dateText ++ ' ' :: t.clockText ++ '.' :: pad 6 t.microsecond

example : (ofFields 2025 3 21 14 30 25 123000).map isoWeekday = some 5 := by decide

end Datetime

end Drv60870.Lib.Calendar
