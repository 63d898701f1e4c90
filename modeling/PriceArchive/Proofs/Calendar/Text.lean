import PriceArchive.Calendar.Text
import PriceArchive.Proofs.Calendar.DayCount
import PriceArchive.Proofs.Calendar.StoredTime
import PriceArchive.Proofs.Text.Digits

namespace PriceArchive

theorem dropBlanks_cons {c : Char} (h : isBlank c = false) (cs : List Char) :
    dropBlanks (c :: cs) = c :: cs :=
  List.dropWhile_cons_of_neg (by rw [h]; exact Bool.false_ne_true)

theorem dropBlanks_digits {run : List Char} (hrun : ∀ c ∈ run, c.isDigit = true) (hne : run ≠ [])
    (rest : List Char) : dropBlanks (run ++ rest) = run ++ rest := by
  obtain ⟨c, cs, rfl⟩ := List.exists_cons_of_ne_nil hne
  exact dropBlanks_cons (isBlank_of_isDigit (hrun c List.mem_cons_self)) _

namespace Instant

variable {rest : List Char}

theorem readNumber_paddedDigits {n : Nat} (hn : n < 100) (rest : List Char) :
    readNumber 2 (paddedDigits 2 n ++ rest) = some (n, rest) := by
  rw [readNumber, dropBlanks_digits (fun _ => isDigit_of_mem_paddedDigits)
    (paddedDigits_ne_nil (by decide)), takeDigits_paddedDigits (by decide) hn]
  change some (foldDigits 0 (paddedDigits 2 n), rest) = some (n, rest)
  rw [foldDigits_paddedDigits]

theorem readMark_cons {mark : Char} (h : isBlank mark = false) (rest : List Char) :
    readMark mark (mark :: rest) = some rest := by
  rw [readMark, dropBlanks_cons h]
  exact if_pos rfl

/-- A year in four digits is read without a sign. -/
theorem readYear_digits {n : Nat} (hn : n < tenPow 4) (rest : List Char) :
    readYear (paddedDigits 4 n ++ rest) = some ((n : Int), rest) := by
  have hdigits : ∀ c ∈ paddedDigits 4 n, c.isDigit = true := fun _ => isDigit_of_mem_paddedDigits
  have hne : paddedDigits 4 n ≠ [] := paddedDigits_ne_nil (by decide)
  have hread : takeDigits 4 (paddedDigits 4 n ++ rest) = some (paddedDigits 4 n, rest) :=
    takeDigits_paddedDigits (by decide) hn rest
  have hfold := foldDigits_paddedDigits 4 n
  rw [readYear, dropBlanks_digits hdigits hne]
  generalize paddedDigits 4 n = run at hdigits hne hread hfold
  obtain ⟨c, cs, rfl⟩ := List.exists_cons_of_ne_nil hne
  have hc := hdigits c List.mem_cons_self
  rw [List.cons_append] at hread ⊢
  split
  · rename_i heq
    cases heq
    exact absurd hc (by decide)
  · rename_i heq
    cases heq
    exact absurd hc (by decide)
  · rw [hread]
    exact congrArg (fun n : Nat => some ((n : Int), rest)) hfold

/-- A year is read back if no digit follows it. -/
theorem readYear_yearChars (year : Int) (hstop : NoDigit rest) :
    readYear (yearChars year ++ rest) = some (year, rest) := by
  have hdigits : ∀ c ∈ paddedDigits 4 year.natAbs, c.isDigit = true :=
    fun _ => isDigit_of_mem_paddedDigits
  have hread := takeAllDigits_append hdigits (paddedDigits_ne_nil (by decide)) hstop
  unfold yearChars
  split
  · rename_i hrange
    rw [readYear_digits (show year.toNat < 10000 by omega)]
    congr 2
    omega
  · rw [List.cons_append]
    split
    · simp only [readYear, dropBlanks_cons (show isBlank '-' = false by decide), hread,
        Option.bind_eq_bind, Option.bind_some, foldDigits_paddedDigits]
      change some (-(year.natAbs : Int), rest) = _
      congr 2
      omega
    · simp only [readYear, dropBlanks_cons (show isBlank '+' = false by decide), hread,
        Option.bind_eq_bind, Option.bind_some, foldDigits_paddedDigits]
      change some ((year.natAbs : Int), rest) = _
      congr 2
      omega

theorem daysInMonth_le (year : Int) (month : Nat) : Date.daysInMonth year month ≤ 31 := by
  unfold Date.daysInMonth
  split
  · split <;> decide
  · split <;> decide

/-- The characters of a date that exists are read as it. -/
theorem readDate_dateChars {d : Date} (hvalid : d.Valid) (hyear : isYear d.year = true)
    (rest : List Char) : readDate (dateChars d ++ rest) = some (d, rest) := by
  have hmonth : d.month < 100 := by
    have := hvalid.2.1
    omega
  have hday : d.day < 100 := by
    have := hvalid.2.2.2
    have := daysInMonth_le d.year d.month
    omega
  simp only [readDate, dateChars, List.append_assoc, List.cons_append,
    readYear_yearChars d.year (noDigit_cons (show '-'.isDigit = false by decide) _),
    readMark_cons (show isBlank '-' = false by decide), readNumber_paddedDigits hmonth,
    readNumber_paddedDigits hday, Option.bind_eq_bind, Option.bind_some]
  exact if_pos ⟨hvalid, hyear⟩

/-- A fraction written in some digits is read as its nanoseconds. -/
theorem readFraction_digits {width n : Nat} (hwidth : 0 < width) (hnine : width ≤ 9) (hn : n < tenPow width)
    (hstop : NoDigit rest) :
    readFraction ('.' :: paddedDigits width n ++ rest) = some (n * tenPow (9 - width), rest) := by
  have hlength := length_paddedDigits hwidth hn
  have hread : takeDigits 9 (paddedDigits width n ++ rest) = some (paddedDigits width n, rest) :=
    takeDigits_append (fun _ => isDigit_of_mem_paddedDigits) (paddedDigits_ne_nil hwidth)
      (Nat.le_trans (Nat.le_of_eq hlength) hnine) (.inr hstop)
  have hrest : rest.dropWhile Char.isDigit = rest := dropWhile_isDigit_of_noDigit hstop
  simp only [readFraction, List.cons_append, hread, Option.bind_eq_bind, Option.bind_some, hlength,
    foldDigits_append_zeros, foldDigits_paddedDigits, hrest]
  rfl

/-- The fraction of a second is read back, in whichever digits it is written. -/
theorem readFraction_fractionChars {nanos : Nat} (hnanos : nanos < nanosPerSecond) (rest : List Char) :
    readFraction (fractionChars nanos ++ 'Z' :: rest) = some (nanos, 'Z' :: rest) := by
  unfold nanosPerSecond at hnanos
  have hstop : NoDigit ('Z' :: rest) := noDigit_cons (by decide) rest
  unfold fractionChars
  split
  · rename_i hzero
    rw [hzero]
    rfl
  split
  · rw [readFraction_digits (by decide) (by decide) (show nanos / 1000000 < 1000 by omega) hstop]
    congr 2
    change nanos / 1000000 * 1000000 = nanos
    omega
  split
  · rw [readFraction_digits (by decide) (by decide) (show nanos / 1000 < 1000000 by omega) hstop]
    congr 2
    change nanos / 1000 * 1000 = nanos
    omega
  · rw [readFraction_digits (by decide) (by decide) (show nanos < 1000000000 from hnanos) hstop]
    congr 2
    exact Nat.mul_one nanos

/-- The parts of a time of day are read one after the other. -/
theorem readTime_parts {hour minute second nanos : Nat} (hhour : hour < 24) (hminute : minute < 60)
    (hsecond : second ≤ 60) (hnanos : nanos < nanosPerSecond) (rest : List Char) :
    readTime (paddedDigits 2 hour ++ ':' :: (paddedDigits 2 minute ++
        ':' :: (paddedDigits 2 second ++ (fractionChars nanos ++ 'Z' :: rest)))) =
      if second = 60 then some ((hour * 3600 + minute * 60 + 59, nanos + nanosPerSecond), 'Z' :: rest)
      else some ((hour * 3600 + minute * 60 + second, nanos), 'Z' :: rest) := by
  simp only [readTime, readNumber_paddedDigits (show hour < 100 by omega),
    readNumber_paddedDigits (show minute < 100 by omega),
    readNumber_paddedDigits (show second < 100 by omega),
    readMark_cons (show isBlank ':' = false by decide), readFraction_fractionChars hnanos,
    Option.bind_eq_bind, Option.bind_some]
  exact if_pos ⟨hhour, hminute, hsecond⟩

/-- A time of day is read back, save that the leap second of a second which does not end its minute is
read as the second that follows. -/
theorem readTime_timeChars {second nanos : Nat} (hsecond : second < 86400)
    (hnanos : nanos < 2 * nanosPerSecond) (rest : List Char) :
    readTime (timeChars second nanos ++ 'Z' :: rest) =
      some (if nanosPerSecond ≤ nanos ∧ second % 60 ≠ 59 then (second + 1, nanos - nanosPerSecond)
        else (second, nanos), 'Z' :: rest) := by
  have hhour : second / 3600 < 24 := by omega
  have hminute : second / 60 % 60 < 60 := by omega
  rw [timeChars]
  by_cases h : nanosPerSecond ≤ nanos
  · obtain ⟨fraction, hfraction⟩ : ∃ fraction, fraction = nanos - nanosPerSecond := ⟨_, rfl⟩
    rw [decide_eq_true h, if_pos rfl, if_pos rfl, ← hfraction]
    simp only [List.append_assoc, List.cons_append]
    rw [readTime_parts hhour hminute (show second % 60 + 1 ≤ 60 by omega) (by omega)]
    by_cases hlast : second % 60 = 59
    · have hstart : second / 3600 * 3600 + second / 60 % 60 * 60 + 59 = second := by omega
      rw [if_pos (show second % 60 + 1 = 60 by omega), hstart, if_neg fun hstray => hstray.2 hlast,
        show fraction + nanosPerSecond = nanos by omega]
    · have hstart : second / 3600 * 3600 + second / 60 % 60 * 60 + (second % 60 + 1) = second + 1 := by
        omega
      rw [if_neg (show ¬ second % 60 + 1 = 60 by omega), hstart, if_pos ⟨h, hlast⟩]
  · have hstart : second / 3600 * 3600 + second / 60 % 60 * 60 + second % 60 = second := by omega
    have hlt : second % 60 < 60 := by omega
    rw [decide_eq_false h, if_neg Bool.false_ne_true, if_neg Bool.false_ne_true, Nat.add_zero]
    simp only [List.append_assoc, List.cons_append]
    rw [readTime_parts hhour hminute (Nat.le_of_lt hlt) (Nat.lt_of_not_le h), if_neg (Nat.ne_of_lt hlt),
      hstart, if_neg fun hstray => h hstray.1]

theorem readOffset_utc : readOffset (dropBlanks ['Z']) = some (0, []) := rfl

/-- The nanoseconds run on into a leap second although the second does not end its minute. -/
def InStrayLeapSecond (t : Instant) : Prop := nanosPerSecond ≤ t.nanos ∧ t.seconds % 60 ≠ 59

instance (t : Instant) : Decidable t.InStrayLeapSecond := inferInstanceAs (Decidable (_ ∧ _))

/-- What is read from the text of an instant: a stray leap second is read as the second that follows. -/
def asRead (t : Instant) : Instant :=
  if h : t.InStrayLeapSecond then
    { seconds := t.seconds + 1
      nanos := t.nanos - nanosPerSecond
      min_le := by
        have := t.min_le
        omega
      le_max := by
        -- The last instant ends its minute.
        have := t.le_max
        have := h.2
        unfold maxSeconds at *
        omega
      nanos_lt := Nat.lt_of_le_of_lt (Nat.sub_le _ _) t.nanos_lt }
  else t

theorem asRead_eq_self_iff {t : Instant} : t.asRead = t ↔ ¬ t.InStrayLeapSecond := by
  constructor
  · intro heq h
    have hseconds := congrArg Instant.seconds heq
    rw [asRead, dif_pos h] at hseconds
    dsimp only at hseconds
    omega
  · exact fun h => dif_neg h

theorem ofParts?_parts (t : Instant) : ofParts? t.seconds t.nanos = some t :=
  dif_pos ⟨⟨t.min_le, t.le_max⟩, t.nanos_lt⟩

theorem readChars_toChars (t : Instant) : readChars t.toChars = some t.asRead := by
  have hdate : readDate (dateChars t.date ++ _) = _ := readDate_dateChars (Date.valid_ofDays t.dayNumber) t.isYear_date
    ('T' :: (timeChars t.secondOfDay t.nanos ++ ['Z']))
  have hsecond : t.secondOfDay < 86400 := by
    unfold secondOfDay secondsPerDay
    omega
  have hstray : nanosPerSecond ≤ t.nanos ∧ t.secondOfDay % 60 ≠ 59 ↔ t.InStrayLeapSecond := by
    unfold InStrayLeapSecond secondOfDay secondsPerDay
    omega
  have htime := readTime_timeChars hsecond t.nanos_lt []
  have hseconds : t.date.toDays * secondsPerDay + t.secondOfDay = t.seconds := by
    rw [date, Date.toDays_ofDays]
    unfold dayNumber secondOfDay secondsPerDay
    omega
  simp only [toChars, readChars, List.append_assoc, List.cons_append, hdate, readSeparator, decide_true,
    Bool.true_or, if_true, htime, readOffset_utc, Option.bind_eq_bind, Option.bind_some]
  change ofParts? (t.date.toDays * secondsPerDay + _ - 0 * 60) _ = _
  have hparts := ofParts?_parts t.asRead
  by_cases h : t.InStrayLeapSecond
  · rw [asRead, dif_pos h] at hparts ⊢
    rw [if_pos (hstray.mpr h), Int.zero_mul, Int.sub_zero]
    dsimp only at hparts ⊢
    rw [Int.natCast_add, ← Int.add_assoc, hseconds]
    exact hparts
  · rw [asRead, dif_neg h] at hparts ⊢
    rw [if_neg (mt hstray.mp h), Int.zero_mul, Int.sub_zero, hseconds]
    exact hparts

/-- The text of an instant is read back. -/
theorem read?_toText (t : Instant) : read? t.toText = some t.asRead := by
  rw [read?, toText, String.toList_ofList, readChars_toChars]

end Instant

end PriceArchive
