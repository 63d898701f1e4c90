import PriceArchive.Proofs.Decimal.Reading
import PriceArchive.Proofs.Number.Whole

namespace PriceArchive

theorem digit?_getD_lt (c : Char) : (digit? c).getD 0 < 10 := by
  unfold digit?
  split
  · rename_i hdigit
    have hrange := isDigit_range hdigit
    change c.toNat - 48 < 10
    omega
  · decide

/-- Digits that follow a number denote a number of their own behind it. -/
theorem foldDigits_eq_add (n : Nat) (cs : List Char) :
    foldDigits n cs = n * tenPow cs.length + foldDigits 0 cs := by
  induction cs generalizing n with
  | nil => exact (Nat.mul_one n).symm
  | cons c cs ih =>
    rw [foldDigits_cons, foldDigits_cons, ih, ih (0 * 10 + _), List.length_cons, tenPow_succ]
    ring

theorem foldDigits_lt (cs : List Char) : foldDigits 0 cs < tenPow cs.length := by
  induction cs with
  | nil => decide
  | cons c cs ih =>
    have hc := digit?_getD_lt c
    rw [foldDigits_cons, foldDigits_eq_add, List.length_cons, tenPow_succ, Nat.zero_mul, Nat.zero_add]
    have hle : (digit? c).getD 0 * tenPow cs.length ≤ 9 * tenPow cs.length :=
      Nat.mul_le_mul_right _ (by omega)
    omega

/-- The first of some digits says whether they reach a half. -/
theorem five_le_digit_iff {c : Char} {d : Nat} (hc : digit? c = some d) (cs : List Char) :
    5 ≤ d ↔ tenPow (c :: cs).length ≤ 2 * foldDigits 0 (c :: cs) := by
  have hrest := foldDigits_lt cs
  rw [foldDigits_cons, foldDigits_eq_add, hc, Option.getD_some, List.length_cons, tenPow_succ,
    Nat.zero_mul, Nat.zero_add]
  constructor
  · intro hlarge
    have := Nat.mul_le_mul_right (tenPow cs.length) hlarge
    omega
  · intro hhalf
    by_contra hsmall
    have : d * tenPow cs.length ≤ 4 * tenPow cs.length := Nat.mul_le_mul_right _ (by omega)
    omega

namespace Decimal

/-- A whole number that passes 96 bits is refused. -/
theorem readWhole_too_many (p : Progress) (seen : Bool) {cs : List Char} (rest : List Char)
    (h : ∀ c ∈ cs, c.isDigit = true) (hlimit : mantissaLimit ≤ foldDigits p.mantissa cs) :
    readWhole p seen (cs ++ rest) = .error .tooManyDigits := by
  induction cs generalizing p seen with
  | nil => exact absurd p.mantissa_lt (Nat.not_lt.mpr hlimit)
  | cons c cs ih =>
    have hc := digit?_of_isDigit (h c (by simp))
    rw [foldDigits_cons, hc, Option.getD_some] at hlimit
    rw [List.cons_append, readWhole, hc]
    dsimp only
    split
    · exact ih _ true (fun d hd => h d (List.mem_cons_of_mem c hd)) hlimit
    · rfl

theorem readWhole_of_limit_le {mantissa : Nat} (h : mantissaLimit ≤ mantissa) :
    readWhole .start false (positional mantissa 0) = .error .tooManyDigits := by
  obtain ⟨whole, fraction, -, hwhole, -, hfold, hlength, hpositional⟩ := positional_eq mantissa 0
  obtain rfl : fraction = [] := List.eq_nil_of_length_eq_zero hlength
  rw [List.append_nil] at hfold
  rw [hpositional, if_pos rfl]
  exact readWhole_too_many .start false [] hwhole (hfold ▸ h)

theorem checkRest_digits {cs : List Char} (h : ∀ c ∈ cs, c.isDigit = true) :
    checkRest cs = .ok () := by
  induction cs with
  | nil => rfl
  | cons c cs ih =>
    rw [checkRest, h c (by simp), Bool.true_or, if_pos rfl]
    exact ih fun d hd => h d (List.mem_cons_of_mem c hd)

/-- The first digit after the last place rounds the number, and those behind it make no difference. -/
theorem finish_digits (p : Progress) {c : Char} {cs : List Char}
    (h : ∀ b ∈ c :: cs, b.isDigit = true) (hfits : p.mantissa + 1 < mantissaLimit) :
    ∃ q : Progress, q.mantissa = p.mantissa +
        (if tenPow (c :: cs).length ≤ 2 * foldDigits 0 (c :: cs) then 1 else 0) ∧
      q.scale = p.scale ∧ finish p (c :: cs) = .ok q := by
  have hc := digit?_of_isDigit (h c (by simp))
  have hmark : (c = '_' && decide (Nat.pow 2 64 ≤ p.mantissa)) = false := by
    have hne : c ≠ '_' := by
      rintro rfl
      cases hc
    simp [hne]
  have hfinish : finish p (c :: cs) = p.round (c.toNat - '0'.toNat) := by
    rw [finish, hmark, if_neg Bool.false_ne_true, finishAt, hc]
    dsimp only
    rw [checkRest_digits fun b hb => h b (List.mem_cons_of_mem c hb)]
    cases p.round (c.toNat - '0'.toNat) <;> rfl
  rw [hfinish, Progress.round]
  simp only [← five_le_digit_iff hc]
  split
  · exact ⟨⟨p.mantissa + 1, p.scale, hfits, p.scale_le⟩, rfl, rfl, dif_pos hfits⟩
  · exact ⟨p, rfl, rfl, rfl⟩

/-- The fraction digits that are kept make up a quotient, and those that are cut off its remainder. -/
theorem positional_cut (mantissa : Nat) {scale : Nat} (h : maxScale < scale) :
    ∃ (whole kept : List Char) (c : Char) (cut : List Char),
      positional mantissa scale = whole ++ '.' :: (kept ++ c :: cut) ∧ whole ≠ [] ∧
      kept.length = maxScale ∧ (c :: cut).length = scale - maxScale ∧
      (∀ b ∈ whole, b.isDigit = true) ∧ (∀ b ∈ kept, b.isDigit = true) ∧
      (∀ b ∈ c :: cut, b.isDigit = true) ∧
      foldDigits (foldDigits 0 whole) kept = mantissa / tenPow (scale - maxScale) ∧
      foldDigits 0 (c :: cut) = mantissa % tenPow (scale - maxScale) := by
  obtain ⟨whole, fraction, hne, hwhole, hfraction, hfold, hlength, hpositional⟩ :=
    positional_eq mantissa scale
  rw [if_neg (by omega)] at hpositional
  obtain ⟨c, cut, hdrop⟩ := List.exists_cons_of_length_pos (l := fraction.drop maxScale) (by
    rw [List.length_drop]
    omega)
  have hsplit : fraction = fraction.take maxScale ++ c :: cut := by
    rw [← hdrop, List.take_append_drop]
  have hcut : (c :: cut).length = scale - maxScale := by rw [← hdrop, List.length_drop, hlength]
  have hrest := foldDigits_lt (c :: cut)
  rw [hsplit, foldDigits_append, foldDigits_append, foldDigits_eq_add, hcut] at hfold
  rw [hcut] at hrest
  refine ⟨whole, fraction.take maxScale, c, cut, hsplit ▸ hpositional, hne, ?_, hcut, hwhole,
    fun b hb => hfraction b (List.mem_of_mem_take hb),
    fun b hb => hfraction b (List.mem_of_mem_drop (hdrop ▸ hb)), ?_, ?_⟩
  · rw [List.length_take]
    omega
  · rw [← hfold, Nat.mul_comm, Nat.mul_add_div (tenPow_pos _), Nat.div_eq_of_lt hrest, Nat.add_zero]
  · rw [← hfold, Nat.mul_comm, Nat.mul_add_mod, Nat.mod_eq_of_lt hrest]

/-- A number with more fraction digits than a decimal can hold is rounded to as many as it can. -/
theorem readWhole_overlong {mantissa scale : Nat} (hscale : maxScale < scale)
    (hfits : mantissa / tenPow (scale - maxScale) + 1 < mantissaLimit) :
    ∃ p : Progress, p.mantissa = roundHalfUp mantissa (tenPow (scale - maxScale)) ∧
      p.scale = maxScale ∧ readWhole .start false (positional mantissa scale) = .ok p := by
  obtain ⟨whole, kept, c, cut, hpositional, hne, hkept, hcut, hwhole, hkeptDigits, hcutDigits, hquotient,
    hremainder⟩ := positional_cut mantissa hscale
  have hle := le_foldDigits (foldDigits 0 whole) kept
  obtain ⟨p, hp, hpscale, hread⟩ := readWhole_digits .start false ('.' :: (kept ++ c :: cut)) hwhole
    (show foldDigits 0 whole < mantissaLimit by omega)
  change p.mantissa = foldDigits 0 whole at hp
  change p.scale = 0 at hpscale
  rw [← hp] at hquotient
  obtain ⟨q, hq, hqscale, hfull⟩ := readFraction_append p true (c :: cut) hkeptDigits (by omega)
    (by omega) (List.length_pos_iff.mp (hkept ▸ by decide))
  obtain ⟨r, hr, hrscale, hfinish⟩ := finish_digits q hcutDigits (by omega)
  refine ⟨r, ?_, by omega, ?_⟩
  · rw [hr, hq, hquotient, hcut, hremainder, roundHalfUp_eq_div_add _ (tenPow_pos _)]
  · rw [hpositional, hread, List.isEmpty_eq_false_iff.mpr hne]
    change readFraction p true (kept ++ c :: cut) = .ok r
    rw [hfull, if_neg (by omega), hfinish]

end Decimal

end PriceArchive
