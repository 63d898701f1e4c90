import PriceArchive.Proofs.Text.Digits
import PriceArchive.Text.Alphanumeric

namespace PriceArchive

variable {c : Char}

theorem isAlpha_range (h : c.isAlpha = true) :
    (65 ≤ c.toNat ∧ c.toNat ≤ 90) ∨ (97 ≤ c.toNat ∧ c.toNat ≤ 122) := by
  have hcases : (decide (c.val ≥ 'A'.val ∧ c.val ≤ 'Z'.val) ||
      (decide (c.val ≥ 'a'.val) && decide (c.val ≤ 'z'.val))) = true := h
  simpa [UInt32.le_iff_toNat_le, ← Char.toNat_val] using hcases

theorem isAlphanumeric_iff :
    isAlphanumeric c = true ↔
      c.isAlphanum = true ∨ ∃ r ∈ alphanumericRanges, r.1 ≤ c.toNat ∧ c.toNat ≤ r.2 := by
  simp [isAlphanumeric]

/-- The ranges are beyond ASCII. -/
theorem le_of_mem_alphanumericRanges {r : Nat × Nat} (h : r ∈ alphanumericRanges) : 0x80 ≤ r.1 := by
  have hall : (alphanumericRanges.all fun r => decide (0x80 ≤ r.1)) = true := by decide +kernel
  exact of_decide_eq_true (List.all_eq_true.mp hall r h)

/-- In ASCII only letters and digits are alphanumeric. -/
theorem isAlphanumeric_of_lt (h : c.toNat < 0x80) : isAlphanumeric c = c.isAlphanum := by
  rw [Bool.eq_iff_iff, isAlphanumeric_iff]
  refine or_iff_left fun ⟨r, hr, hle, _⟩ => ?_
  have := le_of_mem_alphanumericRanges hr
  omega

/-- The code points of white space. -/
def blankCodes : List Nat :=
  [0x09, 0x0A, 0x0B, 0x0C, 0x0D, 0x20, 0x85, 0xA0, 0x1680, 0x2000, 0x2001, 0x2002, 0x2003, 0x2004, 0x2005,
    0x2006, 0x2007, 0x2008, 0x2009, 0x200A, 0x2028, 0x2029, 0x202F, 0x205F, 0x3000]

theorem toNat_mem_blankCodes (h : isBlank c = true) : c.toNat ∈ blankCodes := by
  simp [isBlank] at h
  simp [blankCodes]
  omega

/-- White space is not alphanumeric. -/
theorem isAlphanumeric_of_isBlank (h : isBlank c = true) : isAlphanumeric c = false := by
  have hranges : (blankCodes.all fun n => alphanumericRanges.all fun r => decide (n < r.1) || decide (r.2 < n)) =
      true := by
    decide +kernel
  have hascii : (blankCodes.all fun n => !(Char.ofNat n).isAlphanum) = true := by decide +kernel
  have hmem := toNat_mem_blankCodes h
  cases halphanumeric : isAlphanumeric c with
  | false => rfl
  | true =>
    rcases isAlphanumeric_iff.mp halphanumeric with halphanum | ⟨r, hr, hle, hge⟩
    · have hnot := List.all_eq_true.mp hascii _ hmem
      rw [Char.ofNat_toNat, halphanum] at hnot
      cases hnot
    · have hoff := List.all_eq_true.mp (List.all_eq_true.mp hranges _ hmem) r hr
      simp at hoff
      omega

end PriceArchive
