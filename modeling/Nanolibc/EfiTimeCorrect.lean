import Nanolibc.EfiTimeModel
import Mathlib.Data.Int.ModEq

set_option autoImplicit false

namespace Nanolibc.EfiTimeModel

section Unsigned

variable {x y : UInt64} {a b : ℤ}

def Represents (x : UInt64) (a : ℤ) : Prop := (x.toNat : ℤ) ≡ a [ZMOD 2 ^ 64]

theorem represents_ofNat (n : ℕ) : Represents (UInt64.ofNat n) n := by
  unfold Represents
  rw [UInt64.toNat_ofNat', Int.natCast_mod]
  exact Int.mod_modEq _ _

theorem represents_ofInt (k : ℤ) : Represents (UInt64.ofInt k) k := by
  have small : 0 ≤ k % 2 ^ 64 := Int.emod_nonneg _ (by decide)
  have cast := represents_ofNat (k % 2 ^ 64).toNat
  unfold Represents at cast ⊢
  rw [Int.toNat_of_nonneg small] at cast
  exact cast.trans (Int.mod_modEq _ _)

theorem represents_byte (b : UInt8) : Represents b.toUInt64 b.toNat := by
  unfold Represents
  rw [UInt8.toNat_toUInt64]

theorem Represents.add (hx : Represents x a) (hy : Represents y b) :
    Represents (x + y) (a + b) := by
  unfold Represents at *
  rw [UInt64.toNat_add, Int.natCast_mod, Nat.cast_add]
  exact (Int.mod_modEq _ _).trans (Int.ModEq.add hx hy)

theorem Represents.mul (hx : Represents x a) (hy : Represents y b) :
    Represents (x * y) (a * b) := by
  unfold Represents at *
  rw [UInt64.toNat_mul, Int.natCast_mod, Nat.cast_mul]
  exact (Int.mod_modEq _ _).trans (Int.ModEq.mul hx hy)

theorem Represents.sub (hx : Represents x a) (hy : Represents y b) :
    Represents (x - y) (a - b) := by
  have below : y.toNat ≤ 2 ^ 64 := Nat.le_of_lt y.toNat_lt
  unfold Represents at *
  rw [UInt64.toNat_sub, Int.natCast_mod, Nat.cast_add, Nat.cast_sub below]
  refine (Int.mod_modEq _ _).trans ?_
  have wrapped : (2 ^ 64 : ℤ) - y.toNat + x.toNat ≡ 0 - b + a [ZMOD 2 ^ 64] :=
    (Int.ModEq.sub (by decide) hy).add hx
  have same : 0 - b + a = a - b := by omega
  rw [same] at wrapped
  exact_mod_cast wrapped

theorem Represents.unique (hx : Represents x a) (low : 0 ≤ a) (high : a < 2 ^ 64) :
    (x.toNat : ℤ) = a := by
  have := x.toNat_lt
  unfold Represents Int.ModEq at hx
  omega

end Unsigned

/-- The sum that the code computes, without the wrap-arounds. -/
def total (t : EfiTime) : ℤ :=
  (((t.year.toNat / 4 - t.year.toNat / 100 + t.year.toNat / 400 + 367 * t.month.toNat / 12 +
    t.day.toNat : ℕ) + (t.year.toNat * 365 : ℕ) - 719499) * 24 + t.hour.toNat) * 60 * 60 +
    t.minute.toNat * 60 + t.second.toNat + zone t * 60

theorem secs_represents (t : EfiTime) : Represents (secs t) (total t) := by
  have days_represents : Represents (days t) _ :=
    ((represents_ofNat _).add (represents_ofNat _)).sub (represents_ofNat 719499)
  have local_represents := ((((days_represents.mul (represents_ofNat 24)).add
    (represents_byte t.hour)).mul (represents_ofNat 60)).add
    (represents_byte t.minute)).mul (represents_ofNat 60) |>.add (represents_byte t.second)
  unfold secs total zone
  by_cases given : t.timeZone = unspecifiedTimezone
  · rw [if_pos given]
    simp only [given, ne_eq, not_true_eq_false, if_false]
    refine cast (congrArg (Represents _) ?_) local_represents
    omega
  · rw [if_neg given]
    simp only [given, ne_eq, not_false_eq_true, if_true]
    refine cast (congrArg (Represents _) ?_) (local_represents.add (represents_ofInt _))
    omega

section Days

variable {y m d : ℕ}

theorem daysThroughYear_eq (y : ℕ) :
    daysBeforeYear (y + 1) + y / 100 = 365 * y + y / 4 + y / 400 + 366 := by
  have closed := daysBeforeYear_eq (y + 1)
  omega

theorem yearLength_eq (y : ℕ) : yearLength y = 337 + monthLength y 2 := by
  unfold yearLength monthLength
  cases leap y <;> rfl

theorem epoch_eq : daysBeforeYear 1970 = 719528 := by
  have closed : daysBeforeYear 1970 + 1969 / 100 = _ := daysThroughYear_eq 1969
  omega

/-- From March on, February's length has been counted with the whole year. -/
theorem daysOfMonths_eq (low : 3 ≤ m) (high : m ≤ 12) :
    daysOfMonths y (m - 1) + 306 = 31 + monthLength y 2 + 367 * (m - 2) / 12 + 276 := by
  interval_cases m <;> simp [daysOfMonths, monthLength]

theorem dayNumber_march (low : 3 ≤ m) (high : m ≤ 12) :
    dayNumber y m d = (y / 4 - y / 100 + y / 400 + 367 * (m - 2) / 12 + d : ℕ) +
      (y * 365 : ℕ) - 719499 := by
  have months : daysOfMonths y (m - 1) + 306 = _ := daysOfMonths_eq low high
  have years := daysThroughYear_eq y
  have length := yearLength_eq y
  rw [daysBeforeYear] at years
  unfold dayNumber
  rw [epoch_eq]
  omega

theorem dayNumber_winter (month : m = 1 ∨ m = 2) :
    dayNumber (y + 1) m d = (y / 4 - y / 100 + y / 400 + 367 * (m + 10) / 12 + d : ℕ) +
      (y * 365 : ℕ) - 719499 := by
  have years := daysThroughYear_eq y
  unfold dayNumber
  rw [epoch_eq]
  rcases month with rfl | rfl
  · have none : daysOfMonths (y + 1) (1 - 1) = 0 := rfl
    omega
  · have january : daysOfMonths (y + 1) (2 - 1) = 31 := by simp [daysOfMonths, monthLength]
    omega

end Days

def Exact (t : EfiTime) : Prop :=
  ∃ s n, gettimeWall (some t) = some (s, n) ∧ (s.toNat : ℤ) = instant t ∧
    n.toNat = t.nanosecond.toNat

section Shift

variable {t : EfiTime}

theorem exact_iff (low : 0 ≤ total (shiftMonth t)) (high : total (shiftMonth t) < 2 ^ 64) :
    Exact t ↔ total (shiftMonth t) = instant t := by
  have value := (secs_represents (shiftMonth t)).unique low high
  constructor
  · rintro ⟨s, n, run, exact, _⟩
    cases run
    rw [← exact, value]
  · intro same
    exact ⟨_, _, rfl, by rw [value, same], by rw [UInt32.toNat_toUInt64]⟩

theorem zone_bound (valid : Valid t) : -1440 ≤ zone t ∧ zone t ≤ 1440 := by
  unfold zone
  rcases valid.timeZone with unspecified | bounds
  · rw [if_pos unspecified]
    decide
  · split
    · decide
    · exact bounds

theorem shift_spring (low : 3 ≤ t.month.toNat) :
    shiftMonth t = { t with month := t.month - 2 } ∧
      (t.month - 2).toNat = t.month.toNat - 2 := by
  have := t.month.toNat_lt
  have month : (t.month - 2).toNat = t.month.toNat - 2 := by
    have two : (2 : UInt8).toNat = 2 := rfl
    rw [UInt8.toNat_sub, two]
    omega
  refine ⟨?_, month⟩
  unfold shiftMonth
  simp only [month]
  rw [if_neg (by omega)]

theorem shift_february (two : t.month = 2) (some : 1 ≤ t.year.toNat) :
    shiftMonth t = { t with month := 12, year := t.year - 1 } ∧
      (t.year - 1).toNat = t.year.toNat - 1 := by
  have := t.year.toNat_lt
  refine ⟨?_, ?_⟩
  · unfold shiftMonth
    simp [two]
  · have one : (1 : UInt16).toNat = 1 := rfl
    rw [UInt16.toNat_sub, one]
    omega

/-- In January the month becomes 255 and the year stays. -/
theorem shift_january (one : t.month = 1) : shiftMonth t = { t with month := 255 } := by
  unfold shiftMonth
  simp [one]

theorem year_some (valid : Valid t) (after : 0 ≤ instant t) : 1 ≤ t.year.toNat := by
  by_contra none
  have zero : t.year.toNat = 0 := by omega
  have bound := zone_bound valid
  have hour := valid.hour
  have minute := valid.minute
  have second := valid.second
  have day := t.day.toNat_lt
  have months : daysOfMonths 0 (t.month.toNat - 1) ≤ 366 := by
    obtain ⟨low, high⟩ := valid.month
    generalize t.month.toNat = m at low high
    interval_cases m <;> decide
  unfold instant dayNumber at after
  rw [zero, epoch_eq] at after
  have years : daysBeforeYear 0 = 0 := rfl
  omega

theorem total_other (valid : Valid t) (after : 0 ≤ instant t) (other : t.month ≠ 1) :
    total (shiftMonth t) = instant t := by
  obtain ⟨low, high⟩ := valid.month
  have some := year_some valid after
  by_cases two : t.month = 2
  · obtain ⟨shifted, year⟩ := shift_february two some
    have number : dayNumber (t.year.toNat - 1 + 1) t.month.toNat t.day.toNat = _ :=
      dayNumber_winter (.inr (by rw [two]; rfl))
    have month : t.month.toNat = 2 := by rw [two]; rfl
    rw [Nat.sub_add_cancel some] at number
    unfold instant total
    rw [number, shifted]
    simp only [year, month, zone, UInt8.toNat_ofNat]
    omega
  · have three : 3 ≤ t.month.toNat := by
      have not_one : t.month.toNat ≠ 1 := fun h => other (UInt8.toNat_inj.mp h)
      have not_two : t.month.toNat ≠ 2 := fun h => two (UInt8.toNat_inj.mp h)
      omega
    obtain ⟨shifted, month⟩ := shift_spring three
    unfold instant total
    rw [dayNumber_march three high, shifted]
    simp only [month, zone]
    omega

theorem total_january (valid : Valid t) (after : 0 ≤ instant t) (one : t.month = 1) :
    instant t + 7827 * 86400 ≤ total (shiftMonth t) := by
  have some := year_some valid after
  have number : dayNumber (t.year.toNat - 1 + 1) t.month.toNat t.day.toNat = _ :=
    dayNumber_winter (.inl (by rw [one]; rfl))
  have month : t.month.toNat = 1 := by rw [one]; rfl
  have wrapped : (255 : UInt8).toNat = 255 := rfl
  rw [Nat.sub_add_cancel some] at number
  unfold instant total
  rw [number, shift_january one]
  simp only [month, wrapped, zone]
  omega

theorem total_lt (bound : zone t ≤ 1440) : total t < 2 ^ 64 := by
  have year := t.year.toNat_lt
  have month := t.month.toNat_lt
  have day := t.day.toNat_lt
  have hour := t.hour.toNat_lt
  have minute := t.minute.toNat_lt
  have second := t.second.toNat_lt
  unfold total
  omega

theorem shift_lt (valid : Valid t) : total (shiftMonth t) < 2 ^ 64 := by
  have same : zone (shiftMonth t) = zone t := by
    unfold shiftMonth
    dsimp only
    split <;> rfl
  exact total_lt (by rw [same]; exact (zone_bound valid).2)

end Shift

/-- The time is exact in every month but January, and never in January. -/
theorem gettimeWall_exact_iff (t : EfiTime) (valid : Valid t) (after : 0 ≤ instant t) :
    Exact t ↔ t.month ≠ 1 := by
  have high := shift_lt valid
  by_cases one : t.month = 1
  · have later := total_january valid after one
    rw [exact_iff (by omega) high]
    constructor
    · intro same
      omega
    · intro other
      exact (other one).elim
  · have same := total_other valid after one
    rw [exact_iff (by omega) high]
    exact ⟨fun _ => one, fun _ => same⟩

def leapDay : EfiTime := ⟨2020, 2, 29, 12, 0, 0, 5, -60⟩

theorem gettimeWall_exact_iff_leapDay : Exact leapDay ↔ leapDay.month ≠ 1 := by
  have number : dayNumber (2019 + 1) 2 29 = _ := dayNumber_winter (.inr rfl)
  have after : 0 ≤ instant leapDay := by
    change 0 ≤ dayNumber (2019 + 1) 2 29 * 86400 + 12 * 3600 + 0 * 60 + 0 + zone leapDay * 60
    rw [number]
    decide
  exact gettimeWall_exact_iff leapDay
    ⟨by decide, by decide, by decide, by decide, by decide, .inr (by decide)⟩ after

/-- 1970-01-01 00:00:00 UTC, the epoch itself. -/
theorem january_wrong : ¬Exact ⟨1970, 1, 1, 0, 0, 0, 0, 0⟩ := by
  rintro ⟨s, n, run, exact, _⟩
  cases run
  have epoch : instant ⟨1970, 1, 1, 0, 0, 0, 0, 0⟩ = 0 := by
    have first : dayNumber 1970 1 1 = 0 := by
      have none : daysOfMonths 1970 (1 - 1) = 0 := rfl
      rw [dayNumber, none]
      omega
    change dayNumber 1970 1 1 * 86400 + 0 * 3600 + 0 * 60 + 0 + 0 * 60 = 0
    rw [first]
    rfl
  rw [epoch] at exact
  exact absurd exact (by decide)

end Nanolibc.EfiTimeModel
