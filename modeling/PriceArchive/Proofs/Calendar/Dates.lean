import PriceArchive.Calendar.Date

namespace PriceArchive

namespace Date

/-- The year of an era in which a day of it lies; years begin in March. -/
def yearOfEra (day : Nat) : Nat := (day - day / 1460 + day / 36524 - day / 146096) / 365

/-- The days of an era before a year of it. -/
def daysBeforeYear (year : Nat) : Nat := 365 * year + year / 4 - year / 100

/-- The date of a day of a year; years begin in March. -/
def ofDayOfYear (year : Int) (day : Nat) : Date :=
  let monthFromMarch := (5 * day + 2) / 153
  let month := if monthFromMarch < 10 then monthFromMarch + 3 else monthFromMarch - 9
  ⟨if month ≤ 2 then year + 1 else year, month, day - (153 * monthFromMarch + 2) / 5 + 1⟩

theorem ofDays_eq (days : Int) :
    ofDays days =
      let day := ((days + epochOffset) % daysPerEra).toNat
      ofDayOfYear ((days + epochOffset) / daysPerEra * 400 + yearOfEra day)
        (day - daysBeforeYear (yearOfEra day)) := rfl

/-- The first day of a year and the last one of the year before lie in these years. -/
theorem yearOfEra_daysBeforeYear :
    ∀ year < 400, yearOfEra (daysBeforeYear year) = year ∧
      yearOfEra (daysBeforeYear year - 1) = year - 1 := by decide +kernel

theorem yearOfEra_mono {a b : Nat} (h : a ≤ b) (hb : b < daysPerEra) :
    yearOfEra a ≤ yearOfEra b := by
  unfold yearOfEra daysPerEra at *
  apply Nat.div_le_div_right
  omega

theorem yearOfEra_lt {day : Nat} (h : day < daysPerEra) : yearOfEra day < 400 := by
  unfold yearOfEra daysPerEra at *
  omega

/-- A day lies in its year, which has at most 366 days. -/
theorem dayOfYear_bounds {day : Nat} (h : day < daysPerEra) :
    daysBeforeYear (yearOfEra day) ≤ day ∧ day ≤ daysBeforeYear (yearOfEra day) + 365 := by
  have hyear := yearOfEra_lt h
  have hstep : ∀ year, daysBeforeYear (year + 1) ≤ daysBeforeYear year + 366 := by
    intro year
    unfold daysBeforeYear
    omega
  refine ⟨Nat.le_of_not_lt fun hlt => ?_, Nat.le_of_not_lt fun hgt => ?_⟩
  · have hmono := yearOfEra_mono (a := day) (b := daysBeforeYear (yearOfEra day) - 1) (by omega)
      (by unfold daysBeforeYear daysPerEra; omega)
    rw [(yearOfEra_daysBeforeYear _ hyear).2] at hmono
    have hzero : yearOfEra day = 0 := by omega
    rw [hzero] at hlt
    exact Nat.not_lt_zero day hlt
  · by_cases hlast : yearOfEra day = 399
    · rw [hlast] at hgt
      unfold daysBeforeYear at hgt
      unfold daysPerEra at h
      omega
    · have hnext := hstep (yearOfEra day)
      have hmono := yearOfEra_mono (a := daysBeforeYear (yearOfEra day + 1)) (b := day) (by omega) h
      rw [(yearOfEra_daysBeforeYear _ (by omega)).1] at hmono
      omega

/-- One date is before another. -/
def Before (a b : Date) : Prop :=
  a.year < b.year ∨ (a.year = b.year ∧
    (a.month < b.month ∨ (a.month = b.month ∧ a.day < b.day)))

theorem le_of_before {a b : Date} (h : Before a b) : a ≤ b := by
  change Le a b
  unfold Before at h
  unfold Le
  omega

theorem not_le_of_before {a b : Date} (h : Before a b) : ¬ b ≤ a := by
  intro hle
  change Le b a at hle
  unfold Before at h
  unfold Le at hle
  omega

/-- Of two days the one in the later year, or later in the same year, has the later date. -/
theorem ofDayOfYear_before {y z : Int} {j k : Nat} (hj : j ≤ 365) (hk : k ≤ 365)
    (h : y < z ∨ (y = z ∧ j < k)) : Before (ofDayOfYear y j) (ofDayOfYear z k) := by
  have hmonths : ∀ i, i ≤ 365 → (5 * i + 2) / 153 ≤ 11 := by omega
  have hmj := hmonths j hj
  have hmk := hmonths k hk
  unfold Before ofDayOfYear
  dsimp only
  rcases h with h | ⟨rfl, h⟩
  · split <;> split <;> split <;> split <;> omega
  · split <;> split <;> split <;> split <;> omega

/-- Later days have later dates. -/
theorem ofDays_before {a b : Int} (h : a < b) : Before (ofDays a) (ofDays b) := by
  have hera : (0 : Int) < daysPerEra := by decide
  have hnonneg := fun c : Int => Int.emod_nonneg (c + epochOffset) (Int.ne_of_gt hera)
  have hlt := fun c : Int => Int.emod_lt_of_pos (c + epochOffset) hera
  have hday : ∀ c : Int, ((c + epochOffset) % daysPerEra).toNat < daysPerEra := by
    intro c
    have := hnonneg c
    have := hlt c
    omega
  obtain ⟨hastart, haend⟩ := dayOfYear_bounds (hday a)
  obtain ⟨hbstart, hbend⟩ := dayOfYear_bounds (hday b)
  rw [ofDays_eq, ofDays_eq]
  dsimp only
  apply ofDayOfYear_before (by omega) (by omega)
  have heras : (a + epochOffset) / daysPerEra ≤ (b + epochOffset) / daysPerEra :=
    Int.ediv_le_ediv hera (by omega)
  rcases Int.lt_or_eq_of_le heras with hearlier | hsame
  · have hyear := yearOfEra_lt (hday a)
    exact .inl (by omega)
  · have hdays : ((a + epochOffset) % daysPerEra).toNat < ((b + epochOffset) % daysPerEra).toNat := by
      have ha := Int.mul_ediv_add_emod (a + epochOffset) daysPerEra
      have hb := Int.mul_ediv_add_emod (b + epochOffset) daysPerEra
      rw [hsame] at ha
      have := hnonneg a
      omega
    have hyears := yearOfEra_mono (Nat.le_of_lt hdays) (hday b)
    rcases Nat.lt_or_eq_of_le hyears with hlt | heq
    · exact .inl (by omega)
    · refine .inr ⟨by omega, ?_⟩
      rw [heq] at hastart ⊢
      omega

/-- The dates of days are in the order of the days. -/
theorem ofDays_le_iff {a b : Int} : ofDays a ≤ ofDays b ↔ a ≤ b := by
  constructor
  · intro h
    exact Int.not_lt.mp fun hlt => not_le_of_before (ofDays_before hlt) h
  · intro h
    rcases Int.lt_or_eq_of_le h with hlt | rfl
    · exact le_of_before (ofDays_before hlt)
    · exact .inr ⟨rfl, .inr ⟨rfl, Nat.le_refl _⟩⟩

end Date

end PriceArchive
