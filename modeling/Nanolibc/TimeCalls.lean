import Nanolibc.EfiTimeCorrect
import Mathlib.Tactic.Linarith

set_option autoImplicit false

/-!
# `time`, `clock_gettime`, `gettimeofday` and the arithmetic of `struct timeval`

The runtime's two clocks are parameters, each a return value with the seconds and nanoseconds that
it leaves. What is put through a pointer is returned, where NULL is `none`. The warning for a
time zone or for another clock is left out.
-/
namespace Nanolibc.TimeModel
open EfiTimeModel

structure Timeval where
  sec : Int64
  usec : Int64
  deriving DecidableEq

structure Timespec where
  sec : Int64
  nsec : Int64
  deriving DecidableEq

section Arithmetic

def usecsPerSec : Int64 := 1000000

def timeradd (a b : Timeval) : Timeval :=
  let res : Timeval := ⟨a.sec + b.sec, a.usec + b.usec⟩
  if res.usec ≥ usecsPerSec then ⟨res.sec + 1, res.usec - usecsPerSec⟩ else res

def timersub (a b : Timeval) : Timeval :=
  let res : Timeval := ⟨a.sec - b.sec, a.usec - b.usec⟩
  if res.usec < 0 then ⟨res.sec - 1, res.usec + usecsPerSec⟩ else res

def timercmp (cmp : Int64 → Int64 → Bool) (a b : Timeval) : Bool :=
  if a.sec = b.sec then cmp a.usec b.usec else cmp a.sec b.sec

end Arithmetic

section Calls

/-- What a call of the runtime's clock returns and leaves in `s` and `ns`. -/
structure Reading where
  rv : Int32
  s : UInt64
  ns : UInt64

variable (wall monotonic : Reading)

def time (t : Option Int64) : Int64 × Option Int64 :=
  if wall.rv ≠ 0 then (-1, t) else (wall.s.toInt64, t.map fun _ => wall.s.toInt64)

def clockRealtime : UInt32 := 0

def clockMonotonic : UInt32 := 1

def clockGettime (clkId : UInt32) (tp : Option Timespec) : Int32 × Option Timespec :=
  let finish (reading : Reading) : Int32 × Option Timespec :=
    if reading.rv ≠ 0 then (reading.rv, tp) else (0, some ⟨reading.s.toInt64, reading.ns.toInt64⟩)
  if tp = none then (-1, tp)
  else if clkId = clockMonotonic then finish monotonic
  else if clkId = clockRealtime then finish wall
  else (-1, tp)

def gettimeofday (tv : Option Timeval) (unsupportedTz : Bool) : Int32 × Option Timeval :=
  if wall.rv ≠ 0 then (wall.rv, tv)
  else
    let tv := tv.map fun _ => ⟨wall.s.toInt64, (wall.ns / 1000).toInt64⟩
    (if unsupportedTz then -1 else 0, tv)

/-- `efi_gettime_wall`, which is both clocks of the EFI runtime. -/
def efiReading (answer : Option EfiTime) : Reading :=
  match gettimeWall answer with
  | none => ⟨-1, 0, 0⟩
  | some (s, ns) => ⟨0, s, ns⟩

variable {wall monotonic}

theorem time_success (success : wall.rv = 0) (t : Option Int64) :
    (time wall t).1 = wall.s.toInt64 := by
  rw [time, if_neg (not_not_intro success)]

theorem gettimeofday_success (success : wall.rv = 0) (old : Timeval) :
    gettimeofday wall (some old) false =
      (0, some ⟨wall.s.toInt64, (wall.ns / 1000).toInt64⟩) := by
  rw [gettimeofday, if_neg (not_not_intro success), Option.map_some, if_neg Bool.false_ne_true]

theorem clockGettime_monotonic (success : monotonic.rv = 0) (old : Timespec) :
    clockGettime wall monotonic clockMonotonic (some old) =
      (0, some ⟨monotonic.s.toInt64, monotonic.ns.toInt64⟩) := by
  unfold clockGettime
  dsimp only
  rw [if_neg (Option.some_ne_none old), if_pos rfl, if_neg (not_not_intro success)]

end Calls

section Exact

variable {a b : Timeval}

structure Timeval.Normalized (a : Timeval) : Prop where
  low : 0 ≤ a.usec.toInt
  high : a.usec.toInt < 1000000

def Timeval.micros (a : Timeval) : ℤ := a.sec.toInt * 1000000 + a.usec.toInt

def Timespec.nanos (a : Timespec) : ℤ := a.sec.toInt * 1000000000 + a.nsec.toInt

def Fits (n : ℤ) : Prop := -2 ^ 63 ≤ n ∧ n < 2 ^ 63

theorem toInt_add_fits {x y : Int64} (fits : Fits (x.toInt + y.toInt)) :
    (x + y).toInt = x.toInt + y.toInt := by
  rw [Int64.toInt_add]
  exact Int.bmod_eq_of_le fits.1 fits.2

theorem toInt_sub_fits {x y : Int64} (fits : Fits (x.toInt - y.toInt)) :
    (x - y).toInt = x.toInt - y.toInt := by
  rw [Int64.toInt_sub]
  exact Int.bmod_eq_of_le fits.1 fits.2

theorem micros_injective (ha : a.Normalized) (hb : b.Normalized) (same : a.micros = b.micros) :
    a = b := by
  have := ha.low
  have := ha.high
  have := hb.low
  have := hb.high
  unfold Timeval.micros at same
  have sec : a.sec = b.sec := Int64.toInt_inj.mp (by omega)
  have usec : a.usec = b.usec := Int64.toInt_inj.mp (by omega)
  cases a
  cases b
  rw [Timeval.mk.injEq]
  exact ⟨sec, usec⟩

def AddFits (a b : Timeval) : Prop :=
  Fits (a.sec.toInt + b.sec.toInt) ∧ Fits ((a.micros + b.micros) / 1000000)

def SubFits (a b : Timeval) : Prop :=
  Fits (a.sec.toInt - b.sec.toInt) ∧ Fits ((a.micros - b.micros) / 1000000)

theorem micros_of_fields {sec usec : Int64} {s u : ℤ} (hs : sec.toInt = s) (hu : usec.toInt = u)
    (low : 0 ≤ u) (high : u < 1000000) :
    Timeval.Normalized ⟨sec, usec⟩ ∧ Timeval.micros ⟨sec, usec⟩ = s * 1000000 + u := by
  subst hs hu
  exact ⟨⟨low, high⟩, rfl⟩

theorem usecsPerSec_toInt : usecsPerSec.toInt = 1000000 := by decide

theorem one_toInt : (1 : Int64).toInt = 1 := by decide

theorem zero_toInt : (0 : Int64).toInt = 0 := by decide

theorem timeradd_exact (ha : a.Normalized) (hb : b.Normalized) (fits : AddFits a b) :
    (timeradd a b).Normalized ∧ (timeradd a b).micros = a.micros + b.micros := by
  obtain ⟨low_a, high_a⟩ := ha
  obtain ⟨low_b, high_b⟩ := hb
  obtain ⟨sum, carried⟩ := fits
  have sec := toInt_add_fits sum
  have usec : (a.usec + b.usec).toInt = a.usec.toInt + b.usec.toInt :=
    toInt_add_fits ⟨by omega, by omega⟩
  unfold Timeval.micros at carried
  by_cases carry : a.usec + b.usec ≥ usecsPerSec
  · have value : timeradd a b = ⟨a.sec + b.sec + 1, a.usec + b.usec - usecsPerSec⟩ := if_pos carry
    rw [ge_iff_le, Int64.le_iff_toInt_le, usecsPerSec_toInt, usec] at carry
    have sec' : (a.sec + b.sec + 1).toInt = a.sec.toInt + b.sec.toInt + 1 := by
      rw [toInt_add_fits (x := a.sec + b.sec), sec, one_toInt]
      rw [sec, one_toInt]
      unfold Fits at carried ⊢
      omega
    have usec' : (a.usec + b.usec - usecsPerSec).toInt = a.usec.toInt + b.usec.toInt - 1000000 := by
      rw [toInt_sub_fits (x := a.usec + b.usec), usec, usecsPerSec_toInt]
      rw [usec, usecsPerSec_toInt]
      unfold Fits
      omega
    obtain ⟨normalized, micros⟩ := micros_of_fields sec' usec' (by omega) (by omega)
    rw [value]
    refine ⟨normalized, micros.trans ?_⟩
    unfold Timeval.micros
    omega
  · have value : timeradd a b = ⟨a.sec + b.sec, a.usec + b.usec⟩ := if_neg carry
    rw [ge_iff_le, Int64.le_iff_toInt_le, usecsPerSec_toInt, usec] at carry
    obtain ⟨normalized, micros⟩ := micros_of_fields sec usec (by omega) (by omega)
    rw [value]
    refine ⟨normalized, micros.trans ?_⟩
    unfold Timeval.micros
    omega

theorem timersub_exact (ha : a.Normalized) (hb : b.Normalized) (fits : SubFits a b) :
    (timersub a b).Normalized ∧ (timersub a b).micros = a.micros - b.micros := by
  obtain ⟨low_a, high_a⟩ := ha
  obtain ⟨low_b, high_b⟩ := hb
  obtain ⟨difference, borrowed⟩ := fits
  have sec := toInt_sub_fits difference
  have usec : (a.usec - b.usec).toInt = a.usec.toInt - b.usec.toInt :=
    toInt_sub_fits ⟨by omega, by omega⟩
  unfold Timeval.micros at borrowed
  by_cases borrow : a.usec - b.usec < 0
  · have value : timersub a b = ⟨a.sec - b.sec - 1, a.usec - b.usec + usecsPerSec⟩ := if_pos borrow
    rw [Int64.lt_iff_toInt_lt, zero_toInt, usec] at borrow
    have sec' : (a.sec - b.sec - 1).toInt = a.sec.toInt - b.sec.toInt - 1 := by
      rw [toInt_sub_fits (x := a.sec - b.sec), sec, one_toInt]
      rw [sec, one_toInt]
      unfold Fits at borrowed ⊢
      omega
    have usec' : (a.usec - b.usec + usecsPerSec).toInt = a.usec.toInt - b.usec.toInt + 1000000 := by
      rw [toInt_add_fits (x := a.usec - b.usec), usec, usecsPerSec_toInt]
      rw [usec, usecsPerSec_toInt]
      unfold Fits
      omega
    obtain ⟨normalized, micros⟩ := micros_of_fields sec' usec' (by omega) (by omega)
    rw [value]
    refine ⟨normalized, micros.trans ?_⟩
    unfold Timeval.micros
    omega
  · have value : timersub a b = ⟨a.sec - b.sec, a.usec - b.usec⟩ := if_neg borrow
    rw [Int64.lt_iff_toInt_lt, zero_toInt, usec] at borrow
    obtain ⟨normalized, micros⟩ := micros_of_fields sec usec (by omega) (by omega)
    rw [value]
    refine ⟨normalized, micros.trans ?_⟩
    unfold Timeval.micros
    omega

/-- The comparison of the seconds decides where they differ. -/
theorem compare_micros (ha : a.Normalized) (hb : b.Normalized) :
    compare a.micros b.micros = if a.sec = b.sec then compare a.usec.toInt b.usec.toInt
      else compare a.sec.toInt b.sec.toInt := by
  obtain ⟨low_a, high_a⟩ := ha
  obtain ⟨low_b, high_b⟩ := hb
  unfold Timeval.micros
  by_cases same : a.sec = b.sec
  · rw [if_pos same, same]
    rcases lt_trichotomy a.usec.toInt b.usec.toInt with less | equal | more
    · rw [compare_lt_iff_lt.mpr less, compare_lt_iff_lt.mpr (by omega)]
    · rw [equal, compare_eq_iff_eq.mpr rfl, compare_eq_iff_eq.mpr rfl]
    · rw [compare_gt_iff_gt.mpr more, compare_gt_iff_gt.mpr (by omega)]
  · have differ : a.sec.toInt ≠ b.sec.toInt := fun equal => same (Int64.toInt_inj.mp equal)
    rw [if_neg same]
    rcases lt_or_gt_of_ne differ with less | more
    · rw [compare_lt_iff_lt.mpr less, compare_lt_iff_lt.mpr (by omega)]
    · rw [compare_gt_iff_gt.mpr more, compare_gt_iff_gt.mpr (by omega)]

theorem timercmp_eq (ha : a.Normalized) (hb : b.Normalized) (cmp : Int64 → Int64 → Bool)
    (operator : Ordering → Bool) (goes : ∀ x y, cmp x y = operator (compare x.toInt y.toInt)) :
    timercmp cmp a b = operator (compare a.micros b.micros) := by
  rw [compare_micros ha hb, timercmp]
  split_ifs
  · exact goes _ _
  · exact goes _ _

end Exact

/-- On normalised values that do not overflow, `timeradd` and `timersub` are addition and
subtraction of microseconds, each undoing the other, and `timercmp` compares the microseconds
with any operator that goes by the order. -/
theorem timeval_arithmetic (a b : Timeval) (ha : a.Normalized) (hb : b.Normalized) :
    (AddFits a b → (timeradd a b).Normalized ∧ (timeradd a b).micros = a.micros + b.micros ∧
      (SubFits (timeradd a b) b → timersub (timeradd a b) b = a)) ∧
    (SubFits a b → (timersub a b).Normalized ∧ (timersub a b).micros = a.micros - b.micros ∧
      (AddFits (timersub a b) b → timeradd (timersub a b) b = a)) ∧
    ∀ (cmp : Int64 → Int64 → Bool) (operator : Ordering → Bool),
      (∀ x y, cmp x y = operator (compare x.toInt y.toInt)) →
        timercmp cmp a b = operator (compare a.micros b.micros) := by
  refine ⟨?_, ?_, ?_⟩
  · intro fits
    obtain ⟨normalized, exact⟩ := timeradd_exact ha hb fits
    refine ⟨normalized, exact, ?_⟩
    intro fits_back
    obtain ⟨normalized_back, back⟩ := timersub_exact normalized hb fits_back
    apply micros_injective normalized_back ha
    omega
  · intro fits
    obtain ⟨normalized, exact⟩ := timersub_exact ha hb fits
    refine ⟨normalized, exact, ?_⟩
    intro fits_back
    obtain ⟨normalized_back, back⟩ := timeradd_exact normalized hb fits_back
    apply micros_injective normalized_back ha
    omega
  · exact timercmp_eq ha hb

theorem timeval_arithmetic_carry :
    let a : Timeval := ⟨2, 600000⟩
    let b : Timeval := ⟨3, 500000⟩
    (AddFits a b → (timeradd a b).Normalized ∧ (timeradd a b).micros = a.micros + b.micros ∧
      (SubFits (timeradd a b) b → timersub (timeradd a b) b = a)) ∧
    (SubFits a b → (timersub a b).Normalized ∧ (timersub a b).micros = a.micros - b.micros ∧
      (AddFits (timersub a b) b → timeradd (timersub a b) b = a)) ∧
    ∀ (cmp : Int64 → Int64 → Bool) (operator : Ordering → Bool),
      (∀ x y, cmp x y = operator (compare x.toInt y.toInt)) →
        timercmp cmp a b = operator (compare a.micros b.micros) :=
  timeval_arithmetic ⟨2, 600000⟩ ⟨3, 500000⟩ ⟨by decide, by decide⟩ ⟨by decide, by decide⟩

section Efi

variable {t : EfiTime}

/-- By how many seconds the clock of the EFI runtime is ahead. -/
def skew (t : EfiTime) : ℤ :=
  if t.month = 1 then (7827 + if leap t.year.toNat then 1 else 0) * 86400 else 0

def instantMicros (t : EfiTime) : ℤ := instant t * 1000000 + t.nanosecond.toNat / 1000

def instantNanos (t : EfiTime) : ℤ := instant t * 1000000000 + t.nanosecond.toNat

structure Sane (t : EfiTime) : Prop where
  valid : Valid t
  after : 0 ≤ instant t
  nanosecond : t.nanosecond.toNat < 1000000000

theorem leaps_next (y : ℕ) : (y + 1) / 4 - (y + 1) / 100 + (y + 1) / 400 =
    y / 4 - y / 100 + y / 400 + if leap (y + 1) then 1 else 0 := by
  have fours : (y + 1) / 4 = y / 4 + if (y + 1) % 4 = 0 then 1 else 0 := by
    split_ifs <;> omega
  have hundreds : (y + 1) / 100 = y / 100 + if (y + 1) % 100 = 0 then 1 else 0 := by
    split_ifs <;> omega
  have fourHundreds : (y + 1) / 400 = y / 400 + if (y + 1) % 400 = 0 then 1 else 0 := by
    split_ifs <;> omega
  by_cases long : (y + 1) % 4 = 0 ∧ ((y + 1) % 100 ≠ 0 ∨ (y + 1) % 400 = 0)
  · have yes : leap (y + 1) = true := decide_eq_true long
    rw [if_pos yes, fours, hundreds, fourHundreds, if_pos long.1]
    split_ifs <;> omega
  · have no : ¬leap (y + 1) = true := fun yes => long (of_decide_eq_true yes)
    rw [if_neg no, fours, hundreds, fourHundreds]
    split_ifs <;> omega

theorem total_skew (valid : Valid t) (after : 0 ≤ instant t) :
    total (shiftMonth t) = instant t + skew t := by
  unfold skew
  by_cases one : t.month = 1
  · have some := year_some valid after
    have number : dayNumber (t.year.toNat - 1 + 1) t.month.toNat t.day.toNat = _ :=
      dayNumber_winter (.inl (by rw [one]; rfl))
    have month : t.month.toNat = 1 := by rw [one]; rfl
    have wrapped : (255 : UInt8).toNat = 255 := rfl
    have leaps := leaps_next (t.year.toNat - 1)
    rw [Nat.sub_add_cancel some] at number leaps
    rw [if_pos one]
    unfold instant total
    rw [number, shift_january one]
    simp only [month, wrapped, zone]
    by_cases long : leap t.year.toNat = true
    · rw [if_pos long] at leaps ⊢
      omega
    · rw [if_neg long] at leaps ⊢
      omega
  · rw [if_neg one, total_other valid after one, add_zero]

theorem toInt64_toInt {x : UInt64} (small : x.toNat < 2 ^ 63) : x.toInt64.toInt = x.toNat := by
  have cast : x.toInt64 = Int64.ofNat x.toNat := by
    rw [← UInt64.toInt64_ofNat', UInt64.ofNat_toNat]
  rw [cast, Int64.toInt_ofNat_of_lt small]

theorem skew_small (t : EfiTime) : 0 ≤ skew t ∧ skew t ≤ 7828 * 86400 := by
  unfold skew
  split_ifs <;> omega

theorem total_small (sane : Sane t) : 0 ≤ instant t + skew t ∧ instant t + skew t < 2 ^ 62 := by
  have bound := (zone_bound sane.valid).2
  have same : zone (shiftMonth t) = zone t := by
    unfold shiftMonth
    dsimp only
    split <;> rfl
  have after := sane.after
  have ahead := (skew_small t).1
  refine ⟨by omega, ?_⟩
  rw [← total_skew sane.valid sane.after]
  generalize shiftMonth t = u at same
  have year := u.year.toNat_lt
  have month := u.month.toNat_lt
  have day := u.day.toNat_lt
  have hour := u.hour.toNat_lt
  have minute := u.minute.toNat_lt
  have second := u.second.toNat_lt
  unfold total
  omega

theorem secs_toNat (sane : Sane t) :
    ((secs (shiftMonth t)).toNat : ℤ) = instant t + skew t := by
  obtain ⟨low, high⟩ := total_small sane
  rw [← total_skew sane.valid sane.after] at low high ⊢
  exact (secs_represents (shiftMonth t)).unique low (by omega)

theorem gettimeofday_reads (sane : Sane t) (old : Timeval) : ∃ tv,
    gettimeofday (efiReading (some t)) (some old) false = (0, some tv) ∧ tv.Normalized ∧
      tv.sec.toInt = instant t + skew t ∧ tv.usec.toInt = t.nanosecond.toNat / 1000 ∧
      (time (efiReading (some t)) none).1 = tv.sec := by
  obtain ⟨low, high⟩ := total_small sane
  have value := secs_toNat sane
  have nanosecond := sane.nanosecond
  have thousand : (1000 : UInt64).toNat = 1000 := rfl
  have micros : (t.nanosecond.toUInt64 / 1000).toNat = t.nanosecond.toNat / 1000 := by
    rw [UInt64.toNat_div, UInt32.toNat_toUInt64, thousand]
  have sec : (secs (shiftMonth t)).toInt64.toInt = instant t + skew t := by
    rw [toInt64_toInt (by omega), value]
  have usec : (t.nanosecond.toUInt64 / 1000).toInt64.toInt = (t.nanosecond.toNat / 1000 : ℕ) := by
    rw [toInt64_toInt (by omega), micros]
  have normalized : Timeval.Normalized
      ⟨(secs (shiftMonth t)).toInt64, (t.nanosecond.toUInt64 / 1000).toInt64⟩ := by
    constructor
    · rw [usec]
      omega
    · rw [usec]
      omega
  have success : (efiReading (some t)).rv = 0 := rfl
  exact ⟨_, gettimeofday_success success old, normalized, sec, usec, time_success success none⟩

theorem clockGettime_reads (sane : Sane t) (old : Timespec) : ∃ ts,
    clockGettime (efiReading (some t)) (efiReading (some t)) clockMonotonic (some old) =
      (0, some ts) ∧ ts.sec.toInt = instant t + skew t ∧
      ts.nsec.toInt = t.nanosecond.toNat := by
  obtain ⟨low, high⟩ := total_small sane
  have value := secs_toNat sane
  have nanosecond := sane.nanosecond
  have sec : (secs (shiftMonth t)).toInt64.toInt = instant t + skew t := by
    rw [toInt64_toInt (by omega), value]
  have wide : t.nanosecond.toUInt64.toNat = t.nanosecond.toNat := UInt32.toNat_toUInt64 _
  have nsec : t.nanosecond.toUInt64.toInt64.toInt = t.nanosecond.toNat := by
    rw [toInt64_toInt (by omega), wide]
  have success : (efiReading (some t)).rv = 0 := rfl
  exact ⟨_, clockGettime_monotonic success old, sec, nsec⟩

end Efi

def SameSkew (a b : EfiTime) : Prop :=
  (a.month = 1 ↔ b.month = 1) ∧ (a.month = 1 → leap a.year.toNat = leap b.year.toNat)

theorem skew_eq_iff {a b : EfiTime} : skew a = skew b ↔ SameSkew a b := by
  unfold skew SameSkew
  by_cases one : a.month = 1
  · by_cases one' : b.month = 1
    · rw [if_pos one, if_pos one']
      cases leap a.year.toNat <;> cases leap b.year.toNat <;> simp [one, one']
    · rw [if_pos one, if_neg one']
      refine iff_of_false ?_ fun same => one' (same.1.mp one)
      split_ifs <;> omega
  · by_cases one' : b.month = 1
    · rw [if_neg one, if_pos one']
      refine iff_of_false ?_ fun same => one (same.1.mpr one')
      split_ifs <;> omega
    · rw [if_neg one, if_neg one']
      exact iff_of_true rfl ⟨iff_of_false one one', fun january => absurd january one⟩

/-- An interval measured with `gettimeofday` and `timersub` under the EFI runtime is exact when
both ends are in a January, of years of one kind, or neither is, and wrong otherwise. At its end
the clocks, the monotonic one too, read earlier exactly when less time has passed than they have
lost. -/
theorem intervals_exact_iff (a b : EfiTime) (sane_a : Sane a) (sane_b : Sane b)
    (old_a old_b : Timeval) (old_ta old_tb : Timespec) : ∃ ta tb sa sb,
      gettimeofday (efiReading (some a)) (some old_a) false = (0, some ta) ∧
      gettimeofday (efiReading (some b)) (some old_b) false = (0, some tb) ∧
      clockGettime (efiReading (some a)) (efiReading (some a)) clockMonotonic (some old_ta) =
        (0, some sa) ∧
      clockGettime (efiReading (some b)) (efiReading (some b)) clockMonotonic (some old_tb) =
        (0, some sb) ∧
      (time (efiReading (some a)) none).1 = ta.sec ∧ (timersub tb ta).Normalized ∧
      ((timersub tb ta).micros = instantMicros b - instantMicros a ↔ SameSkew a b) ∧
      (timercmp (· < ·) tb ta = true ↔
        instantMicros b - instantMicros a < (skew a - skew b) * 1000000) ∧
      (sb.nanos < sa.nanos ↔
        instantNanos b - instantNanos a < (skew a - skew b) * 1000000000) := by
  obtain ⟨ta, read_a, norm_a, sec_a, usec_a, time_a⟩ := gettimeofday_reads sane_a old_a
  obtain ⟨tb, read_b, norm_b, sec_b, usec_b, _⟩ := gettimeofday_reads sane_b old_b
  obtain ⟨sa, spec_a, sec_sa, nsec_a⟩ := clockGettime_reads sane_a old_ta
  obtain ⟨sb, spec_b, sec_sb, nsec_b⟩ := clockGettime_reads sane_b old_tb
  obtain ⟨low_a, high_a⟩ := total_small sane_a
  obtain ⟨low_b, high_b⟩ := total_small sane_b
  have micros_a : ta.micros = instantMicros a + skew a * 1000000 := by
    rw [Timeval.micros, instantMicros, sec_a, usec_a]
    omega
  have micros_b : tb.micros = instantMicros b + skew b * 1000000 := by
    rw [Timeval.micros, instantMicros, sec_b, usec_b]
    omega
  have fits : SubFits tb ta := by
    have := norm_a.low
    have := norm_a.high
    have := norm_b.low
    have := norm_b.high
    unfold SubFits Fits Timeval.micros
    omega
  obtain ⟨normalized, exact⟩ := timersub_exact norm_b norm_a fits
  refine ⟨ta, tb, sa, sb, read_a, read_b, spec_a, spec_b, time_a, normalized, ?_, ?_, ?_⟩
  · rw [exact, ← skew_eq_iff]
    omega
  · have less : ∀ x y : Int64, decide (x < y) = decide (compare x.toInt y.toInt = .lt) := by
      intro x y
      rw [decide_eq_decide, compare_lt_iff_lt, Int64.lt_iff_toInt_lt]
    rw [timercmp_eq norm_b norm_a (· < ·) (· = .lt) less, decide_eq_true_iff, compare_lt_iff_lt]
    omega
  · rw [Timespec.nanos, Timespec.nanos, instantNanos, instantNanos, sec_sa, sec_sb, nsec_a, nsec_b]
    omega

theorem leapDay_sane : Sane leapDay := by
  have number : dayNumber (2019 + 1) 2 29 = _ := dayNumber_winter (.inr rfl)
  refine ⟨⟨by decide, by decide, by decide, by decide, by decide, .inr (by decide)⟩, ?_, by decide⟩
  change 0 ≤ dayNumber (2019 + 1) 2 29 * 86400 + 12 * 3600 + 0 * 60 + 0 + zone leapDay * 60
  rw [number]
  decide

theorem intervals_exact_iff_leapDay : ∃ ta tb sa sb,
    gettimeofday (efiReading (some leapDay)) (some ⟨0, 0⟩) false = (0, some ta) ∧
    gettimeofday (efiReading (some leapDay)) (some ⟨0, 0⟩) false = (0, some tb) ∧
    clockGettime (efiReading (some leapDay)) (efiReading (some leapDay)) clockMonotonic
      (some ⟨0, 0⟩) = (0, some sa) ∧
    clockGettime (efiReading (some leapDay)) (efiReading (some leapDay)) clockMonotonic
      (some ⟨0, 0⟩) = (0, some sb) ∧
    (time (efiReading (some leapDay)) none).1 = ta.sec ∧ (timersub tb ta).Normalized ∧
    ((timersub tb ta).micros = instantMicros leapDay - instantMicros leapDay ↔
      SameSkew leapDay leapDay) ∧
    (timercmp (· < ·) tb ta = true ↔ instantMicros leapDay - instantMicros leapDay <
      (skew leapDay - skew leapDay) * 1000000) ∧
    (sb.nanos < sa.nanos ↔ instantNanos leapDay - instantNanos leapDay <
      (skew leapDay - skew leapDay) * 1000000000) :=
  intervals_exact_iff leapDay leapDay leapDay_sane leapDay_sane ⟨0, 0⟩ ⟨0, 0⟩ ⟨0, 0⟩ ⟨0, 0⟩

end Nanolibc.TimeModel
