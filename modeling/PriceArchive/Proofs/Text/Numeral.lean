import PriceArchive.Proofs.Decimal.Reading
import PriceArchive.Text.Numeral

namespace PriceArchive

namespace Numeral

variable {cs : List Char} {text : String} {n : Nat}

/-- The characters are digits, at least one, and they denote the number. -/
structure IsRun (cs : List Char) (n : Nat) : Prop where
  ne_nil : cs ≠ []
  isDigit : ∀ c ∈ cs, c.isDigit = true
  value : Nat.ofDigitChars 10 cs 0 = n

/-- The text is the digits of a natural number, alone or behind a plus sign. -/
def WritesNatural (text : String) (n : Nat) : Prop :=
  ∃ digits, IsRun digits n ∧ (text.toList = digits ∨ text.toList = '+' :: digits)

/-- The text writes a natural number, or it is the digits of one behind a minus sign. -/
def WritesInteger (text : String) (z : Int) : Prop :=
  ∃ n : Nat, WritesNatural text n ∧ z = n ∨
    ∃ digits, IsRun digits n ∧ text.toList = '-' :: digits ∧ z = -(n : Int)

theorem digits?_eq_some_iff : digits? cs = some n ↔ IsRun cs n := by
  unfold digits?
  constructor
  · intro h
    split at h
    · cases h
    · rename_i hrun
      cases h
      simp only [Bool.or_eq_true, Bool.not_eq_true', List.isEmpty_iff, not_or, Bool.not_eq_false,
        List.all_eq_true] at hrun
      exact ⟨hrun.1, hrun.2, (foldDigits_eq_ofDigitChars 0 hrun.2).symm⟩
  · rintro ⟨hne, hdigits, rfl⟩
    have hall : cs.all Char.isDigit = true := List.all_eq_true.mpr hdigits
    rw [if_neg (by simp [hne, hall]), foldDigits_eq_ofDigitChars 0 hdigits]

/-- A sign is no digit. -/
theorem not_isRun_cons {c : Char} (hc : c.isDigit = false) : ¬ IsRun (c :: cs) n := fun h => by
  have hdigit := h.isDigit c (by simp)
  rw [hc] at hdigit
  cases hdigit

theorem naturalOf?_eq_some_iff :
    naturalOf? cs = some n ↔ ∃ digits, IsRun digits n ∧ (cs = digits ∨ cs = '+' :: digits) := by
  unfold naturalOf?
  split
  · rw [digits?_eq_some_iff]
    constructor
    · exact fun h => ⟨_, h, .inr rfl⟩
    · rintro ⟨digits, h, rfl | heq⟩
      · exact absurd h (not_isRun_cons (by decide))
      · cases heq
        exact h
  · rename_i hsign
    rw [digits?_eq_some_iff]
    constructor
    · exact fun h => ⟨_, h, .inl rfl⟩
    · rintro ⟨digits, h, rfl | rfl⟩
      · exact h
      · exact absurd rfl (hsign digits)

theorem natural?_eq_some_iff : natural? text = some n ↔ WritesNatural text n :=
  naturalOf?_eq_some_iff

theorem integerOf?_minus (rest : List Char) :
    integerOf? ('-' :: rest) = Option.map (fun n : Nat => -(n : Int)) (digits? rest) := by
  rw [integerOf?]
  cases digits? rest <;> rfl

theorem integerOf?_of_no_minus (h : ∀ rest, cs ≠ '-' :: rest) :
    integerOf? cs = Option.map (fun n : Nat => (n : Int)) (naturalOf? cs) := by
  unfold integerOf?
  split
  · exact absurd rfl (h _)
  · cases naturalOf? cs <;> rfl

theorem integerOf?_eq_some_iff {z : Int} : integerOf? text.toList = some z ↔ WritesInteger text z := by
  unfold WritesInteger WritesNatural
  by_cases hminus : ∃ rest, text.toList = '-' :: rest
  · obtain ⟨rest, hrest⟩ := hminus
    rw [hrest, integerOf?_minus, Option.map_eq_some_iff]
    constructor
    · rintro ⟨n, hn, rfl⟩
      exact ⟨n, .inr ⟨rest, digits?_eq_some_iff.mp hn, rfl, rfl⟩⟩
    · rintro ⟨n, ⟨⟨digits, h, rfl | heq⟩, -⟩ | ⟨digits, h, heq, rfl⟩⟩
      · exact absurd h (not_isRun_cons (by decide))
      · cases heq
      · cases heq
        exact ⟨n, digits?_eq_some_iff.mpr h, rfl⟩
  · have hminus (rest : List Char) : text.toList ≠ '-' :: rest := fun heq => hminus ⟨rest, heq⟩
    rw [integerOf?_of_no_minus hminus, Option.map_eq_some_iff]
    constructor
    · rintro ⟨n, hn, rfl⟩
      exact ⟨n, .inl ⟨naturalOf?_eq_some_iff.mp hn, rfl⟩⟩
    · rintro ⟨n, ⟨h, rfl⟩ | ⟨digits, -, heq, -⟩⟩
      · exact ⟨n, naturalOf?_eq_some_iff.mpr h, rfl⟩
      · exact absurd heq (hminus digits)

/-- A text is a numeral for a word if it writes the number of the word. -/
theorem word32?_eq_some_iff {w : UInt32} : word32? text = some w ↔ WritesNatural text w.toNat := by
  rw [← natural?_eq_some_iff, word32?, Option.bind_eq_bind, Option.bind_eq_some_iff]
  constructor
  · rintro ⟨n, hn, hw⟩
    split at hw
    · rename_i hlt
      cases hw
      rw [hn, UInt32.toNat_ofNat_of_lt' hlt]
    · cases hw
  · intro h
    exact ⟨w.toNat, h, by rw [if_pos w.toNat_lt_size, UInt32.ofNat_toNat]⟩

theorem word64?_eq_some_iff {w : UInt64} : word64? text = some w ↔ WritesNatural text w.toNat := by
  rw [← natural?_eq_some_iff, word64?, Option.bind_eq_bind, Option.bind_eq_some_iff]
  constructor
  · rintro ⟨n, hn, hw⟩
    split at hw
    · rename_i hlt
      cases hw
      rw [hn, UInt64.toNat_ofNat_of_lt' hlt]
    · cases hw
  · intro h
    exact ⟨w.toNat, h, by rw [if_pos w.toNat_lt_size, UInt64.ofNat_toNat]⟩

theorem signedWord64?_eq_some_iff {w : Int64} :
    signedWord64? text = some w ↔ WritesInteger text w.toInt := by
  rw [← integerOf?_eq_some_iff, signedWord64?, Option.bind_eq_bind, Option.bind_eq_some_iff]
  constructor
  · rintro ⟨z, hz, hw⟩
    split at hw
    · rename_i hrange
      cases hw
      rw [hz, Int64.toInt_ofInt_of_le hrange.1 (Int.lt_of_le_of_lt hrange.2 (by decide))]
    · cases hw
  · intro h
    exact ⟨w.toInt, h, by rw [if_pos ⟨w.le_toInt, Int.le_of_lt_add_one w.toInt_lt⟩, Int64.ofInt_toInt]⟩

end Numeral

end PriceArchive
