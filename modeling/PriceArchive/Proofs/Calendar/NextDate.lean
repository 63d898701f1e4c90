import PriceArchive.Proofs.Calendar.DayCount

namespace PriceArchive

namespace Date

/-- The next date of the calendar. -/
def next (d : Date) : Date :=
  if d.day < daysInMonth d.year d.month then ⟨d.year, d.month, d.day + 1⟩
  else if d.month < 12 then ⟨d.year, d.month + 1, 1⟩
  else ⟨d.year + 1, 1, 1⟩

theorem daysInMonth_of_ne_february {month : Nat} (h : month ≠ 2) (year : Int) :
    daysInMonth year month = daysInMonth 1 month := by
  rw [daysInMonth, daysInMonth, if_neg h, if_neg h]

/-- What follows a day before the end of February: the next day of its month, or the first day of the
next one. -/
theorem following_common : ∀ day < 364,
    (dayOfMonth day < daysInMonth 1 (monthOfDay day) ∧ monthOfDay (day + 1) = monthOfDay day ∧
        dayOfMonth (day + 1) = dayOfMonth day + 1) ∨
      (dayOfMonth day = daysInMonth 1 (monthOfDay day) ∧ monthOfDay day ≠ 2 ∧
        monthOfDay (day + 1) = (if monthOfDay day < 12 then monthOfDay day + 1 else 1) ∧
        dayOfMonth (day + 1) = 1) := by decide +kernel

/-- Within a year that begins in March the next day has the next date. -/
theorem next_ofDayOfYear {year : Int} {day : Nat} (hday : day < 365)
    (hleap : day = 364 → isLeapYear (year + 1) = true) :
    (ofDayOfYear year day).next = ofDayOfYear year (day + 1) := by
  rcases Nat.lt_or_eq_of_le (Nat.le_of_lt_succ hday) with hbefore | rfl
  · rw [ofDayOfYear_eq, ofDayOfYear_eq, next]
    dsimp only
    obtain ⟨hlt, hmonth, hnext⟩ | ⟨hlast, hfebruary, hmonth, hnext⟩ := following_common day hbefore
    · rw [if_pos (Nat.lt_of_lt_of_le hlt (daysInMonth_one_le _ _)), hmonth, hnext]
    · rw [if_neg (by rw [daysInMonth_of_ne_february hfebruary, hlast]; exact Nat.lt_irrefl _), hmonth,
        hnext]
      by_cases hdecember : monthOfDay day < 12
      · rw [if_pos hdecember, if_pos hdecember]
        simp only [Date.mk.injEq, and_true]
        split <;> split <;> omega
      · rw [if_neg hdecember, if_neg hdecember, if_neg (by omega), if_pos (Nat.le_succ 1)]
  · -- The 28th of February of a leap year.
    have hmonth : monthOfDay 364 = 2 ∧ dayOfMonth 364 = 28 := by decide
    have hnext : monthOfDay 365 = 2 ∧ dayOfMonth 365 = 29 := by decide
    have hlength : daysInMonth (year + 1) 2 = 29 := by
      rw [daysInMonth, if_pos rfl, if_pos (hleap rfl)]
    rw [ofDayOfYear_eq, ofDayOfYear_eq, hmonth.1, hmonth.2, hnext.1, hnext.2, if_pos (Nat.le_refl 2), next]
    dsimp only
    rw [if_pos (by rw [hlength]; decide)]

/-- After the last day of a year that begins in March comes the first day of the next one. -/
theorem next_last_ofDayOfYear (year : Int) :
    (ofDayOfYear year (if isLeapYear (year + 1) then 365 else 364)).next = ofDayOfYear (year + 1) 0 := by
  have hfirst : monthOfDay 0 = 3 ∧ dayOfMonth 0 = 1 := by decide
  have hmonth : monthOfDay 365 = 2 ∧ monthOfDay 364 = 2 := by decide
  have hday : dayOfMonth 365 = 29 ∧ dayOfMonth 364 = 28 := by decide
  have hlength : daysInMonth (year + 1) 2 = if isLeapYear (year + 1) then 29 else 28 := if_pos rfl
  have hmarch : ofDayOfYear (year + 1) 0 = ⟨year + 1, 3, 1⟩ := by
    rw [ofDayOfYear_eq, hfirst.1, hfirst.2]
    rfl
  have hlast : ofDayOfYear year (if isLeapYear (year + 1) then 365 else 364) =
      ⟨year + 1, 2, daysInMonth (year + 1) 2⟩ := by
    rw [ofDayOfYear_eq, hlength]
    split
    · rw [hmonth.1, hday.1, if_pos (Nat.le_refl 2)]
    · rw [hmonth.2, hday.2, if_pos (Nat.le_refl 2)]
  rw [hlast, hmarch, next]
  dsimp only
  rw [if_neg (Nat.lt_irrefl _), if_pos (by decide)]

theorem daysBeforeYear_mono {a b : Nat} (h : a ≤ b) : daysBeforeYear a ≤ daysBeforeYear b := by
  induction h with
  | refl => exact Nat.le_refl _
  | step _ ih =>
    refine Nat.le_trans ih ?_
    unfold daysBeforeYear
    omega

/-- How long a year is that begins in March, the last one of its era apart. -/
theorem daysBeforeYear_succ_eq (era : Int) {year : Nat} (h : year < 399) :
    daysBeforeYear (year + 1) =
      daysBeforeYear year + (if isLeapYear (era * 400 + year + 1) then 365 else 364) + 1 := by
  have hleap : isLeapYear (era * 400 + year + 1) = true ↔
      (year + 1) % 4 = 0 ∧ (year + 1) % 100 ≠ 0 := by
    unfold isLeapYear
    simp only [Bool.and_eq_true, Bool.or_eq_true, decide_eq_true_eq]
    omega
  unfold daysBeforeYear
  split
  · rename_i hyear
    have := hleap.mp hyear
    omega
  · rename_i hyear
    have := mt hleap.mpr hyear
    omega

/-- The next day of an era lies in the same year, or is the first day of the next one. -/
theorem yearOfEra_succ (era : Int) {day : Nat} (h : day + 1 < daysPerEra) :
    yearOfEra (day + 1) = yearOfEra day ∨
      (yearOfEra (day + 1) = yearOfEra day + 1 ∧ day + 1 = daysBeforeYear (yearOfEra day + 1) ∧
        day - daysBeforeYear (yearOfEra day) =
          if isLeapYear (era * 400 + yearOfEra day + 1) then 365 else 364) := by
  have hmono : yearOfEra day ≤ yearOfEra (day + 1) := yearOfEra_mono (Nat.le_succ day) h
  have hyear : yearOfEra (day + 1) < 400 := yearOfEra_lt h
  rcases Nat.lt_or_eq_of_le hmono with hless | hsame
  · right
    obtain ⟨hstart, -⟩ := dayOfYear_bounds h
    have hbefore : daysBeforeYear (yearOfEra day + 1) ≤ day + 1 :=
      Nat.le_trans (daysBeforeYear_mono hless) hstart
    obtain ⟨hfirst, -⟩ := yearOfEra_daysBeforeYear (yearOfEra day + 1) (by omega)
    have hnot : ¬ daysBeforeYear (yearOfEra day + 1) ≤ day := by
      intro hle
      have hlate := yearOfEra_mono hle (by omega)
      omega
    have heq : day + 1 = daysBeforeYear (yearOfEra day + 1) := by omega
    have hlength := daysBeforeYear_succ_eq era (by omega : yearOfEra day < 399)
    exact ⟨by rw [heq, hfirst], heq, by omega⟩
  · exact .inl hsame.symm

/-- The date of a day from the era in which it lies and its number there. -/
theorem ofDays_of_era {days era : Int} {day : Nat} (h : day < daysPerEra)
    (hdays : days + epochOffset = era * daysPerEra + day) :
    ofDays days =
      ofDayOfYear (era * 400 + yearOfEra day) (day - daysBeforeYear (yearOfEra day)) := by
  have hera : (days + epochOffset) / daysPerEra = era ∧
      ((days + epochOffset) % daysPerEra).toNat = day := by
    unfold daysPerEra at *
    omega
  rw [ofDays_eq, hera.1, hera.2]

/-- The next day has the next date. -/
theorem ofDays_succ (days : Int) : ofDays (days + 1) = (ofDays days).next := by
  obtain ⟨era, day, hday, hdays⟩ : ∃ (era : Int) (day : Nat), day < daysPerEra ∧
      days + epochOffset = era * daysPerEra + day :=
    ⟨(days + epochOffset) / daysPerEra, ((days + epochOffset) % daysPerEra).toNat,
      by unfold daysPerEra; omega, by unfold daysPerEra; omega⟩
  rw [ofDays_of_era hday hdays]
  rcases Nat.lt_or_eq_of_le (Nat.succ_le_of_lt hday) with hwithin | hend
  · have hnextDays : days + 1 + epochOffset = era * daysPerEra + (day + 1 : Nat) := by omega
    rw [ofDays_of_era hwithin hnextDays]
    obtain ⟨hstart, -⟩ := dayOfYear_bounds hday
    obtain hsame | ⟨hnext, hfirst, hlast⟩ := yearOfEra_succ era hwithin
    · obtain ⟨-, hend⟩ := dayOfYear_bounds hwithin
      rw [hsame] at hend ⊢
      have hdayOfYear : day + 1 - daysBeforeYear (yearOfEra day) =
          day - daysBeforeYear (yearOfEra day) + 1 := by omega
      rw [hdayOfYear, next_ofDayOfYear (by omega)]
      intro hfebruary
      rw [← hsame]
      exact isLeapYear_of_last_day hwithin (by rw [hsame]; omega)
    · rw [hnext, ← hfirst, Nat.sub_self, hlast, next_last_ofDayOfYear]
      congr 1
      omega
  · -- The era ends with the leap day of its last year.
    have hnextDays : days + 1 + epochOffset = (era + 1) * daysPerEra + (0 : Nat) := by
      unfold daysPerEra at *
      omega
    have hday : day = 146096 := by
      unfold daysPerEra at hend
      omega
    have hyear : yearOfEra 146096 = 399 ∧ 146096 - daysBeforeYear 399 = 365 ∧ yearOfEra 0 = 0 := by
      decide
    have hleap : isLeapYear (era * 400 + (399 : Nat) + 1) = true := by
      unfold isLeapYear
      simp only [Bool.and_eq_true, Bool.or_eq_true, decide_eq_true_eq]
      omega
    have hlast := next_last_ofDayOfYear (era * 400 + (399 : Nat))
    rw [if_pos hleap] at hlast
    rw [ofDays_of_era (by decide) hnextDays, hday, hyear.1, hyear.2.1, hyear.2.2, hlast]
    congr 1
    omega

end Date

end PriceArchive
