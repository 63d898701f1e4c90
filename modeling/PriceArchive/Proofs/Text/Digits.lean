import PriceArchive.Proofs.Decimal.Reading
import PriceArchive.Text.Blank

namespace PriceArchive

/-- The text does not go on with a digit. -/
def NoDigit (cs : List Char) : Prop := ∀ c ∈ cs.head?, c.isDigit = false

theorem noDigit_cons {c : Char} (h : c.isDigit = false) (cs : List Char) : NoDigit (c :: cs) := by
  intro d hd
  cases hd
  exact h

theorem takeWhile_isDigit_of_noDigit {cs : List Char} (h : NoDigit cs) :
    cs.takeWhile Char.isDigit = [] := by
  cases cs with
  | nil => rfl
  | cons c cs => exact List.takeWhile_cons_of_neg (by rw [h c rfl]; exact Bool.false_ne_true)

theorem dropWhile_isDigit_of_noDigit {cs : List Char} (h : NoDigit cs) :
    cs.dropWhile Char.isDigit = cs := by
  cases cs with
  | nil => rfl
  | cons c cs => exact List.dropWhile_cons_of_neg (by rw [h c rfl]; exact Bool.false_ne_true)

theorem NoDigit.take {cs : List Char} (h : NoDigit cs) (n : Nat) : NoDigit (cs.take n) := by
  cases n with
  | zero => exact nofun
  | succ n =>
    cases cs with
    | nil => exact nofun
    | cons c cs => exact noDigit_cons (h c rfl) _

theorem isBlank_of_isDigit {c : Char} (h : c.isDigit = true) : isBlank c = false := by
  have hrange := isDigit_range h
  unfold isBlank
  simp
  omega

variable {limit width n : Nat} {run rest : List Char}

/-- A run of digits is taken off whole if the limit or the text ends it. -/
theorem takeDigits_append (hrun : ∀ c ∈ run, c.isDigit = true) (hne : run ≠ [])
    (hle : run.length ≤ limit) (hstop : run.length = limit ∨ NoDigit rest) :
    takeDigits limit (run ++ rest) = some (run, rest) := by
  have hend : (rest.take (limit - run.length)).takeWhile Char.isDigit = [] := by
    rcases hstop with rfl | hstop
    · rw [Nat.sub_self, List.take_zero]
      rfl
    · exact takeWhile_isDigit_of_noDigit (hstop.take _)
  have htake : ((run ++ rest).take limit).takeWhile Char.isDigit = run := by
    rw [List.take_append, List.take_of_length_le hle, List.takeWhile_append_of_pos hrun, hend,
      List.append_nil]
  rw [takeDigits, htake, List.drop_left]
  exact if_neg (by simpa using hne)

theorem takeAllDigits_append (hrun : ∀ c ∈ run, c.isDigit = true) (hne : run ≠ [])
    (hstop : NoDigit rest) : takeAllDigits (run ++ rest) = some (run, rest) :=
  takeDigits_append hrun hne (by rw [List.length_append]; omega) (.inr hstop)

theorem paddedDigits_ne_nil (hwidth : 0 < width) : paddedDigits width n ≠ [] := by
  have hlength := le_length_paddedDigits width n
  intro hnil
  rw [hnil] at hlength
  exact absurd hlength (Nat.not_le.mpr hwidth)

theorem length_paddedDigits (hwidth : 0 < width) (hn : n < tenPow width) :
    (paddedDigits width n).length = width := by
  have hdigits : (Nat.toDigits 10 n).length ≤ width :=
    (Nat.length_toDigits_le_iff (by decide) hwidth).mpr hn
  rw [paddedDigits, List.length_append, List.length_replicate]
  omega

/-- The digits of a number that fits a width are taken off a text that goes on anyhow. -/
theorem takeDigits_paddedDigits (hwidth : 0 < width) (hn : n < tenPow width) (rest : List Char) :
    takeDigits width (paddedDigits width n ++ rest) = some (paddedDigits width n, rest) := by
  have hlength := length_paddedDigits hwidth hn
  exact takeDigits_append (fun _ => isDigit_of_mem_paddedDigits) (paddedDigits_ne_nil hwidth)
    (Nat.le_of_eq hlength) (.inl hlength)

/-- Zeros that follow multiply a number by powers of ten. -/
theorem foldDigits_append_zeros (cs : List Char) (k : Nat) :
    foldDigits n (cs ++ List.replicate k '0') = foldDigits n cs * tenPow k := by
  induction k with
  | zero =>
    rw [List.replicate_zero, List.append_nil]
    exact (Nat.mul_one _).symm
  | succ k ih =>
    rw [List.replicate_succ', ← List.append_assoc, foldDigits_append, ih, tenPow_succ, ← Nat.mul_assoc]
    rfl

end PriceArchive
