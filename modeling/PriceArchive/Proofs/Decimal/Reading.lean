import PriceArchive.Decimal.Text

namespace PriceArchive

theorem digit?_of_isDigit {c : Char} (h : c.isDigit = true) :
    digit? c = some (c.toNat - '0'.toNat) := if_pos h

theorem isDigit_range {c : Char} (h : c.isDigit = true) : 48 ≤ c.toNat ∧ c.toNat ≤ 57 := by
  simpa [Char.isDigit, UInt32.le_iff_toNat_le] using h

theorem foldDigits_cons (n : Nat) (c : Char) (cs : List Char) :
    foldDigits n (c :: cs) = foldDigits (n * 10 + (digit? c).getD 0) cs := rfl

theorem foldDigits_append (n : Nat) (cs ds : List Char) :
    foldDigits n (cs ++ ds) = foldDigits (foldDigits n cs) ds := List.foldl_append

/-- Digits that follow do not make a number smaller. -/
theorem le_foldDigits (n : Nat) (cs : List Char) : n ≤ foldDigits n cs := by
  induction cs generalizing n with
  | nil => exact Nat.le_refl n
  | cons c cs ih =>
    have hrest := ih (n * 10 + (digit? c).getD 0)
    rw [foldDigits_cons]
    omega

theorem foldDigits_zeros (k : Nat) : foldDigits 0 (List.replicate k '0') = 0 := by
  induction k with
  | zero => rfl
  | succ k ih => exact ih

theorem foldDigits_eq_ofDigitChars (n : Nat) {cs : List Char} (h : ∀ c ∈ cs, c.isDigit = true) :
    foldDigits n cs = Nat.ofDigitChars 10 cs n := by
  induction cs generalizing n with
  | nil => rfl
  | cons c cs ih =>
    rw [foldDigits_cons, ih _ fun d hd => h d (List.mem_cons_of_mem c hd),
      digit?_of_isDigit (h c (by simp)), Option.getD_some, Nat.mul_comm]
    rfl

theorem isDigit_of_mem_paddedDigits {width n : Nat} {c : Char} (hc : c ∈ paddedDigits width n) :
    c.isDigit = true := by
  rcases List.mem_append.mp hc with hc | hc
  · rw [List.eq_of_mem_replicate hc]
    rfl
  · exact Nat.isDigit_of_mem_toDigits (by decide) (by decide) hc

theorem foldDigits_toDigits (n : Nat) : foldDigits 0 (Nat.toDigits 10 n) = n := by
  rw [foldDigits_eq_ofDigitChars 0 fun c => Nat.isDigit_of_mem_toDigits (by decide) (by decide),
    Nat.ofDigitChars_ten_toDigits]

/-- The digits of a number denote it. -/
theorem foldDigits_paddedDigits (width n : Nat) : foldDigits 0 (paddedDigits width n) = n := by
  rw [paddedDigits, foldDigits_append, foldDigits_zeros, foldDigits_toDigits]

theorem le_length_paddedDigits (width n : Nat) : width ≤ (paddedDigits width n).length := by
  rw [paddedDigits, List.length_append, List.length_replicate]
  omega

namespace Decimal

theorem Progress.eq_of_parts {p q : Progress} (hmantissa : p.mantissa = q.mantissa)
    (hscale : p.scale = q.scale) : p = q := by
  cases p
  cases q
  simp_all

/-- Fraction digits are read if the number and its scale do not grow too large. What follows them is
read on, or ends the number if its scale is the largest one. -/
theorem readFraction_append (p : Progress) (seen : Bool) {cs : List Char} (rest : List Char)
    (h : ∀ c ∈ cs, c.isDigit = true) (hlimit : foldDigits p.mantissa cs < mantissaLimit)
    (hscale : p.scale + cs.length ≤ maxScale) (hne : cs ≠ []) :
    ∃ q : Progress, q.mantissa = foldDigits p.mantissa cs ∧ q.scale = p.scale + cs.length ∧
      readFraction p seen (cs ++ rest) =
        if q.scale < maxScale then readFraction q true rest else finish q rest := by
  induction cs generalizing p seen with
  | nil => exact absurd rfl hne
  | cons c cs ih =>
    have hc := digit?_of_isDigit (h c (by simp))
    rw [foldDigits_cons, hc, Option.getD_some] at hlimit
    rw [List.length_cons] at hscale
    have hfits := Nat.lt_of_le_of_lt (le_foldDigits _ cs) hlimit
    have hmax : p.scale + 1 ≤ maxScale := by omega
    rw [foldDigits_cons, hc, Option.getD_some, List.length_cons, List.cons_append, readFraction, hc]
    dsimp only
    rw [dif_pos hfits]
    by_cases hcs : cs = []
    · subst hcs
      refine ⟨⟨_, p.scale + 1, hfits, hmax⟩, rfl, rfl, ?_⟩
      rw [List.nil_append]
      dsimp only
      split <;> rfl
    · have hlength := List.length_pos_iff.mpr hcs
      obtain ⟨q, hmantissa, hq, hread⟩ := ih ⟨_, p.scale + 1, hfits, hmax⟩ true
        (fun d hd => h d (List.mem_cons_of_mem c hd)) hlimit (by dsimp only; omega) hcs
      rw [dif_pos (by omega), hread]
      exact ⟨q, hmantissa, by rw [hq]; dsimp only; omega, rfl⟩

theorem readFraction_digits (p : Progress) (seen : Bool) {cs : List Char}
    (h : ∀ c ∈ cs, c.isDigit = true) (hlimit : foldDigits p.mantissa cs < mantissaLimit)
    (hscale : p.scale + cs.length ≤ maxScale) (hseen : seen = true ∨ cs ≠ []) :
    ∃ q : Progress, q.mantissa = foldDigits p.mantissa cs ∧ q.scale = p.scale + cs.length ∧
      readFraction p seen cs = .ok q := by
  by_cases hne : cs = []
  · subst hne
    exact ⟨p, rfl, rfl, by rw [readFraction, if_pos (hseen.resolve_right (by simp))]⟩
  · obtain ⟨q, hmantissa, hq, hread⟩ := readFraction_append p seen [] h hlimit hscale hne
    refine ⟨q, hmantissa, hq, ?_⟩
    rw [← List.append_nil cs, hread]
    split <;> rfl

/-- Digits before the point are read if the number does not grow too large. -/
theorem readWhole_digits (p : Progress) (seen : Bool) {cs : List Char} (rest : List Char)
    (h : ∀ c ∈ cs, c.isDigit = true) (hlimit : foldDigits p.mantissa cs < mantissaLimit) :
    ∃ q : Progress, q.mantissa = foldDigits p.mantissa cs ∧ q.scale = p.scale ∧
      readWhole p seen (cs ++ rest) = readWhole q (seen || !cs.isEmpty) rest := by
  induction cs generalizing p seen with
  | nil => exact ⟨p, rfl, rfl, by simp⟩
  | cons c cs ih =>
    have hc := digit?_of_isDigit (h c (by simp))
    rw [foldDigits_cons, hc, Option.getD_some] at hlimit
    have hfits := Nat.lt_of_le_of_lt (le_foldDigits _ cs) hlimit
    obtain ⟨q, hmantissa, hscale, hq⟩ :=
      ih ⟨_, p.scale, hfits, p.scale_le⟩ true (fun d hd => h d (List.mem_cons_of_mem c hd)) hlimit
    refine ⟨q, ?_, hscale, ?_⟩
    · rw [foldDigits_cons, hc, Option.getD_some]
      exact hmantissa
    · rw [List.cons_append, readWhole, hc]
      dsimp only
      rw [dif_pos hfits, hq]
      simp

/-- The digits of a number: some before the point, and the fraction digits after it. -/
theorem positional_eq (mantissa scale : Nat) :
    ∃ whole fraction : List Char, whole ≠ [] ∧ (∀ c ∈ whole, c.isDigit = true) ∧
      (∀ c ∈ fraction, c.isDigit = true) ∧ foldDigits 0 (whole ++ fraction) = mantissa ∧
      fraction.length = scale ∧
      positional mantissa scale = whole ++ if scale = 0 then [] else '.' :: fraction := by
  let digits := paddedDigits (scale + 1) mantissa
  have hlength : scale + 1 ≤ digits.length := le_length_paddedDigits _ _
  have hdigits : ∀ c ∈ digits, c.isDigit = true := fun c => isDigit_of_mem_paddedDigits
  refine ⟨digits.take (digits.length - scale), digits.drop (digits.length - scale), ?_,
    fun c hc => hdigits c (List.mem_of_mem_take hc), fun c hc => hdigits c (List.mem_of_mem_drop hc),
    ?_, ?_, ?_⟩
  · rw [← List.length_pos_iff, List.length_take]
    omega
  · rw [List.take_append_drop, foldDigits_paddedDigits]
  · rw [List.length_drop]
    omega
  · rw [positional]
    split
    · exact (List.append_nil _).symm
    · rfl

/-- The digits of a number that fits are read as that number. -/
theorem readWhole_positional {mantissa scale : Nat} (hmantissa : mantissa < mantissaLimit)
    (hscale : scale ≤ maxScale) :
    readWhole .start false (positional mantissa scale) =
      .ok ⟨mantissa, scale, hmantissa, hscale⟩ := by
  obtain ⟨whole, fraction, hne, hwhole, hfraction, hfold, hlength, hpositional⟩ :=
    positional_eq mantissa scale
  rw [foldDigits_append] at hfold
  have hlimit : foldDigits 0 whole < mantissaLimit := by
    have := le_foldDigits (foldDigits 0 whole) fraction
    omega
  obtain ⟨p, hp, hpscale, hread⟩ := readWhole_digits .start false
    (if scale = 0 then [] else '.' :: fraction) hwhole hlimit
  change p.mantissa = foldDigits 0 whole at hp
  change p.scale = 0 at hpscale
  rw [hpositional, hread, List.isEmpty_eq_false_iff.mpr hne]
  split
  · obtain rfl : fraction = [] := List.eq_nil_of_length_eq_zero (by omega)
    have hp' : p = ⟨mantissa, scale, hmantissa, hscale⟩ :=
      Progress.eq_of_parts (hp.trans hfold) (by dsimp only; omega)
    rw [hp']
    rfl
  · rw [← hp] at hfold
    obtain ⟨q, hq, hqscale, hread⟩ := readFraction_digits p true hfraction
      (hfold ▸ hmantissa) (by omega) (.inl rfl)
    have hq' : q = ⟨mantissa, scale, hmantissa, hscale⟩ :=
      Progress.eq_of_parts (hq.trans hfold) (by dsimp only; omega)
    exact hq' ▸ hread

/-- The digits of a number are read with a minus sign or without. -/
theorem readChars_signed (negative : Bool) (mantissa scale : Nat) :
    readChars (if negative then '-' :: positional mantissa scale else positional mantissa scale) =
      (readWhole .start false (positional mantissa scale)).map (·.toDecimal negative) := by
  cases negative with
  | true => rfl
  | false =>
    -- Without a sign the number begins with a digit.
    obtain ⟨whole, fraction, hne, hwhole, -, -, -, hpositional⟩ := positional_eq mantissa scale
    obtain ⟨c, rest, rfl⟩ := List.exists_cons_of_ne_nil hne
    have hc := hwhole c (by simp)
    rw [if_neg Bool.false_ne_true, hpositional, List.cons_append]
    unfold readChars
    split
    · rename_i hnil
      cases hnil
    · rename_i hcons
      cases hcons
      exact absurd hc (by decide)
    · rename_i hcons
      cases hcons
      exact absurd hc (by decide)
    · rfl

/-- A number that fits is read from its digits, with a minus sign or without. -/
theorem readChars_positional (negative : Bool) {mantissa scale : Nat}
    (hmantissa : mantissa < mantissaLimit) (hscale : scale ≤ maxScale) :
    readChars (if negative then '-' :: positional mantissa scale else positional mantissa scale) =
      .ok (ofParts negative mantissa scale hmantissa hscale) := by
  rw [readChars_signed, readWhole_positional hmantissa hscale]
  rfl

/-- A zero with a minus sign. -/
def IsNegativeZero (d : Decimal) : Prop := d.negative = true ∧ d.mantissa = 0

instance (d : Decimal) : Decidable d.IsNegativeZero := inferInstanceAs (Decidable (_ ∧ _))

/-- What is read from the text of a decimal: a zero loses its sign. -/
def asRead (d : Decimal) : Decimal :=
  ofParts d.negative d.mantissa d.scale d.mantissa_lt d.scale_le

/-- The sign of a zero is all that is lost. -/
theorem asRead_eq_self_iff {d : Decimal} : d.asRead = d ↔ ¬ d.IsNegativeZero := by
  obtain ⟨negative, mantissa, scale, _, _⟩ := d
  cases negative <;> simp [asRead, ofParts, IsNegativeZero]

/-- A decimal is read from its text, with its scale. -/
theorem read_toText (d : Decimal) : read d.toText = .ok d.asRead := by
  rw [read, toText, String.toList_ofList, toChars,
    readChars_positional d.negative d.mantissa_lt d.scale_le]
  rfl

end Decimal

end PriceArchive
