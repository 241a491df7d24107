import Mathlib.Data.Nat.Notation
import Mathlib.Tactic.IntervalCases

set_option autoImplicit false

/-!
# Wall-clock time from `EFI_TIME`

`efi_gettime_wall` with the widths of the C types, and the calendar it is meant to compute: the
Gregorian one, as lengths of years and months. The field `Month` is an unsigned byte, so that
January less 2 is 255 and the code does not see that it has to go back a year.
-/
namespace Nanolibc.EfiTimeModel

structure EfiTime where
  year : UInt16
  month : UInt8
  day : UInt8
  hour : UInt8
  minute : UInt8
  second : UInt8
  nanosecond : UInt32
  timeZone : Int16
  deriving DecidableEq, Repr

def unspecifiedTimezone : Int16 := 0x07FF

def shiftMonth (t : EfiTime) : EfiTime :=
  let t := { t with month := t.month - 2 }
  if 0 ≥ (t.month.toNat : ℤ) then { t with month := t.month + 12, year := t.year - 1 } else t

/-- The number in front of `*24`: the first sum is an `int`, the others are unsigned. -/
def days (t : EfiTime) : UInt64 :=
  let year := t.year.toNat
  UInt64.ofNat (year / 4 - year / 100 + year / 400 + 367 * t.month.toNat / 12 + t.day.toNat) +
    UInt64.ofNat (year * 365) - 719499

def secs (t : EfiTime) : UInt64 :=
  let secs := ((days t * 24 + t.hour.toUInt64) * 60 + t.minute.toUInt64) * 60 + t.second.toUInt64
  if t.timeZone ≠ unspecifiedTimezone then secs + UInt64.ofInt (t.timeZone.toInt * 60) else secs

/-- `efi_gettime_wall` on the answer of `RT->GetTime`, `none` for an error: `*secs` and
`*nanosecs`, or `none` for -1. -/
def gettimeWall (answer : Option EfiTime) : Option (UInt64 × UInt64) :=
  match answer with
  | none => none
  | some t => some (secs (shiftMonth t), t.nanosecond.toUInt64)

section Calendar

def leap (y : ℕ) : Bool := decide (y % 4 = 0 ∧ (y % 100 ≠ 0 ∨ y % 400 = 0))

def yearLength (y : ℕ) : ℕ := if leap y then 366 else 365

def monthLength (y m : ℕ) : ℕ :=
  if m = 2 then (if leap y then 29 else 28)
  else if m = 4 ∨ m = 6 ∨ m = 9 ∨ m = 11 then 30
  else 31

def daysBeforeYear : ℕ → ℕ
  | 0 => 0
  | y + 1 => daysBeforeYear y + yearLength y

def daysOfMonths (y : ℕ) : ℕ → ℕ
  | 0 => 0
  | m + 1 => daysOfMonths y m + monthLength y (m + 1)

def dayNumber (y m d : ℕ) : ℤ :=
  (daysBeforeYear y + daysOfMonths y (m - 1) + (d - 1) : ℤ) - daysBeforeYear 1970

/-- A date and time of the Gregorian calendar with a time zone of UEFI. -/
structure Valid (t : EfiTime) : Prop where
  month : 1 ≤ t.month.toNat ∧ t.month.toNat ≤ 12
  day : 1 ≤ t.day.toNat ∧ t.day.toNat ≤ monthLength t.year.toNat t.month.toNat
  hour : t.hour.toNat < 24
  minute : t.minute.toNat < 60
  second : t.second.toNat < 60
  timeZone : t.timeZone = unspecifiedTimezone ∨ -1440 ≤ t.timeZone.toInt ∧ t.timeZone.toInt ≤ 1440

def zone (t : EfiTime) : ℤ := if t.timeZone = unspecifiedTimezone then 0 else t.timeZone.toInt

/-- Seconds from 1970-01-01 00:00:00 UTC. -/
def instant (t : EfiTime) : ℤ :=
  dayNumber t.year.toNat t.month.toNat t.day.toNat * 86400 + t.hour.toNat * 3600 +
    t.minute.toNat * 60 + t.second.toNat + zone t * 60

theorem daysBeforeYear_eq (y : ℕ) :
    daysBeforeYear y + (y + 99) / 100 = 365 * y + (y + 3) / 4 + (y + 399) / 400 := by
  induction y with
  | zero => rfl
  | succ y ih =>
    have fours : (y + 1 + 3) / 4 = (y + 3) / 4 + if y % 4 = 0 then 1 else 0 := by
      split_ifs <;> omega
    have hundreds : (y + 1 + 99) / 100 = (y + 99) / 100 + if y % 100 = 0 then 1 else 0 := by
      split_ifs <;> omega
    have fourHundreds : (y + 1 + 399) / 400 = (y + 399) / 400 + if y % 400 = 0 then 1 else 0 := by
      split_ifs <;> omega
    rw [daysBeforeYear, yearLength, fours, hundreds, fourHundreds]
    unfold leap
    by_cases long : y % 4 = 0 ∧ (y % 100 ≠ 0 ∨ y % 400 = 0)
    · rw [if_pos (by simpa using long), if_pos long.1]
      split_ifs <;> omega
    · rw [if_neg (by simpa using long)]
      split_ifs <;> omega

end Calendar

end Nanolibc.EfiTimeModel
