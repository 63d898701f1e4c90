import PriceArchive.Calendar.Instant
import PriceArchive.Calendar.Text
import PriceArchive.Proofs.Calendar.Dates

namespace PriceArchive

namespace Date

/-- The month in which a day of a year lies; years begin in March. -/
def monthOfDay (day : Nat) : Nat :=
  if (5 * day + 2) / 153 < 10 then (5 * day + 2) / 153 + 3 else (5 * day + 2) / 153 - 9

/-- The day of the month that a day of a year is; years begin in March. -/
def dayOfMonth (day : Nat) : Nat := day - (153 * ((5 * day + 2) / 153) + 2) / 5 + 1

theorem ofDayOfYear_eq (year : Int) (day : Nat) :
    ofDayOfYear year day =
      ⟨if monthOfDay day ≤ 2 then year + 1 else year, monthOfDay day, dayOfMonth day⟩ := rfl

/-- The days of a year that every year has. -/
theorem valid_common : ∀ day < 365, 1 ≤ monthOfDay day ∧ monthOfDay day ≤ 12 ∧ 1 ≤ dayOfMonth day ∧
    dayOfMonth day ≤ daysInMonth 1 (monthOfDay day) := by decide +kernel

theorem daysInMonth_one_le (year : Int) (month : Nat) : daysInMonth 1 month ≤ daysInMonth year month := by
  unfold daysInMonth
  split
  · rw [if_neg (by decide)]
    split
    · decide
    · exact Nat.le_refl _
  · exact Nat.le_refl _

theorem valid_ofDayOfYear {year : Int} {day : Nat} (hday : day ≤ 365)
    (hleap : day = 365 → isLeapYear (year + 1) = true) : (ofDayOfYear year day).Valid := by
  rcases Nat.lt_or_eq_of_le hday with hlt | rfl
  · obtain ⟨hone, htwelve, hfirst, hlast⟩ := valid_common day hlt
    exact ⟨hone, htwelve, hfirst, Nat.le_trans hlast (daysInMonth_one_le _ _)⟩
  · have hmonth : monthOfDay 365 = 2 := by decide
    have hday : dayOfMonth 365 = 29 := by decide
    rw [ofDayOfYear_eq, hmonth, hday, if_pos (Nat.le_refl 2)]
    have hlength : daysInMonth (year + 1) 2 = 29 := by
      rw [daysInMonth, if_pos rfl, if_pos (hleap rfl)]
    exact ⟨Nat.le_succ 1, Nat.le_add_left 2 10, Nat.le_add_left 1 28, Nat.le_of_eq hlength.symm⟩

/-- A year has 365 days if no leap day is in it, which would be in the next calendar year. -/
theorem daysBeforeYear_succ {year : Nat} (h : (year + 1) % 4 ≠ 0 ∨ (year + 1) % 100 = 0) :
    daysBeforeYear (year + 1) = daysBeforeYear year + 365 := by
  unfold daysBeforeYear
  rcases h with h | h
  · have hfour : (year + 1) / 4 = year / 4 := by omega
    have hhundred : (year + 1) / 100 = year / 100 := by omega
    omega
  · have hfour : (year + 1) / 4 = year / 4 + 1 := by omega
    have hhundred : (year + 1) / 100 = year / 100 + 1 := by omega
    omega

/-- An era has its 366th days just in the years after which a leap year comes. -/
theorem isLeapYear_of_last_day {era : Int} {day : Nat} (h : day < daysPerEra)
    (hlast : day - daysBeforeYear (yearOfEra day) = 365) :
    isLeapYear (era * 400 + yearOfEra day + 1) = true := by
  have hyear := yearOfEra_lt h
  have hleap : (yearOfEra day + 1) % 4 = 0 ∧
      ((yearOfEra day + 1) % 100 ≠ 0 ∨ (yearOfEra day + 1) % 400 = 0) := by
    by_cases hend : yearOfEra day = 399
    · omega
    · refine Decidable.byContradiction fun hnot => ?_
      have hnext := @daysBeforeYear_succ (yearOfEra day) (by omega)
      have hstart := (dayOfYear_bounds h).1
      -- The day would be the first of the next year.
      have hday : day = daysBeforeYear (yearOfEra day + 1) := by omega
      have hsame := (yearOfEra_daysBeforeYear (yearOfEra day + 1) (by omega)).1
      rw [← hday] at hsame
      omega
  unfold isLeapYear
  simp only [Bool.and_eq_true, Bool.or_eq_true, decide_eq_true_eq]
  omega

/-- Every day has a date that exists. -/
theorem valid_ofDays (days : Int) : (ofDays days).Valid := by
  have hday : ((days + epochOffset) % daysPerEra).toNat < daysPerEra := by
    have hlt := Int.emod_lt_of_pos (days + epochOffset) (b := daysPerEra) (by decide)
    have hnonneg := Int.emod_nonneg (days + epochOffset) (b := daysPerEra) (by decide)
    omega
  rw [ofDays_eq]
  refine valid_ofDayOfYear ?_ (isLeapYear_of_last_day hday)
  have hend := (dayOfYear_bounds hday).2
  omega

/-- The number of a day from the year in which it lies, beginning in March, and its day of that year. -/
theorem toDays_ofDayOfYear {year : Int} {day : Nat} (hday : day ≤ 365) :
    (ofDayOfYear year day).toDays =
      year / 400 * daysPerEra + (daysBeforeYear (year % 400).toNat + day : Nat) - epochOffset := by
  have hmonth : (5 * day + 2) / 153 ≤ 11 := by omega
  have hstart : (153 * ((5 * day + 2) / 153) + 2) / 5 ≤ day := by omega
  have hlater : (if 2 < monthOfDay day then monthOfDay day - 3 else monthOfDay day + 9) =
      (5 * day + 2) / 153 := by
    unfold monthOfDay
    split <;> split <;> omega
  have hyear : (if monthOfDay day ≤ 2 then (if monthOfDay day ≤ 2 then year + 1 else year) - 1
      else if monthOfDay day ≤ 2 then year + 1 else year) = year := by
    split <;> omega
  have hback : (153 * ((5 * day + 2) / 153) + 2) / 5 + dayOfMonth day - 1 = day := by
    unfold dayOfMonth
    omega
  rw [ofDayOfYear_eq, toDays]
  dsimp only
  rw [hlater, hyear, hback, daysBeforeYear, Nat.mul_comm 365]

/-- The date of a day has the number of the day. -/
theorem toDays_ofDays (days : Int) : (ofDays days).toDays = days := by
  have hlt := Int.emod_lt_of_pos (days + epochOffset) (b := daysPerEra) (by decide)
  have hnonneg := Int.emod_nonneg (days + epochOffset) (b := daysPerEra) (by decide)
  have hday : ((days + epochOffset) % daysPerEra).toNat < daysPerEra := by omega
  have hsplit := Int.mul_ediv_add_emod (days + epochOffset) daysPerEra
  obtain ⟨hstart, hend⟩ := dayOfYear_bounds hday
  have hyear := yearOfEra_lt hday
  rw [ofDays_eq]
  dsimp only
  rw [toDays_ofDayOfYear (by omega)]
  have hera : ((days + epochOffset) / daysPerEra * 400 +
      yearOfEra ((days + epochOffset) % daysPerEra).toNat) / 400 = (days + epochOffset) / daysPerEra := by
    omega
  have hyears : (((days + epochOffset) / daysPerEra * 400 +
      yearOfEra ((days + epochOffset) % daysPerEra).toNat) % 400).toNat =
        yearOfEra ((days + epochOffset) % daysPerEra).toNat := by
    omega
  rw [hera, hyears, Nat.add_sub_cancel' hstart, Int.mul_comm]
  omega

theorem year_le_of_le {a b : Date} (h : a ≤ b) : a.year ≤ b.year := by
  change Le a b at h
  unfold Le at h
  omega

end Date

namespace Instant

/-- Instants are in years that have instants. -/
theorem isYear_date (t : Instant) : isYear t.date.year = true := by
  have hmin := t.min_le
  have hmax := t.le_max
  unfold minSeconds at hmin
  unfold maxSeconds at hmax
  have hfirst : Date.ofDays (-96465292) ≤ t.date :=
    Date.ofDays_le_iff.mpr (by unfold dayNumber secondsPerDay; omega)
  have hlast : t.date ≤ Date.ofDays 95026236 :=
    Date.ofDays_le_iff.mpr (by unfold dayNumber secondsPerDay; omega)
  have hfirstYear : (Date.ofDays (-96465292)).year = -262143 := by decide +kernel
  have hlastYear : (Date.ofDays 95026236).year = 262142 := by decide +kernel
  have hge := Date.year_le_of_le hfirst
  have hle := Date.year_le_of_le hlast
  unfold isYear
  simp only [Bool.and_eq_true, decide_eq_true_eq]
  omega

end Instant

end PriceArchive
