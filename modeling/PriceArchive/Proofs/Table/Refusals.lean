import PriceArchive.Store.Basic
import Mathlib.Data.Option.Basic

namespace PriceArchive

theorem taken_eq_none_iff {rows : Bool} {constraint : String} :
    taken rows constraint = none ↔ rows = false := by
  cases rows <;> simp [taken]

theorem any_eq_false_iff_not_mem_map {ρ α : Type} [DecidableEq α] {f : ρ → α} {rows : List ρ} {x : α} :
    (rows.any fun r => decide (f r = x)) = false ↔ x ∉ rows.map f := by
  rw [List.any_eq_false, List.mem_map, not_exists]
  exact forall_congr' fun r => by rw [decide_eq_true_iff, not_and]

/-- A brand needs an id of its own, and a ticker symbol of its own among the active ones. -/
theorem BrandRow.refusal_eq_none_iff {rows : List BrandRow} {row : BrandRow} :
    BrandRow.refusal rows row = none ↔ row.id ∉ rows.map Brand.id ∧
      (row.isActive = true → ∀ b ∈ rows, b.isActive = true → b.symbol ≠ row.symbol) := by
  rw [refusal, Option.orElse_eq_none, taken_eq_none_iff, taken_eq_none_iff, any_eq_false_iff_not_mem_map,
    Bool.and_eq_false_imp]
  simp only [List.any_eq_false, Bool.and_eq_true, decide_eq_true_iff, not_and, ne_eq]

/-- A quote needs a volume that is not negative, an id of its own and a day of its own. -/
theorem QuoteRow.refusal_eq_none_iff {σ : Type} [Subject σ] {names : SeriesNames}
    {rows : List (QuoteRow σ)} {row : QuoteRow σ} :
    QuoteRow.refusal names rows row = none ↔ ¬ row.bar.volume < 0 ∧
      row.id ∉ rows.map QuoteOf.id ∧ QuoteOf.key row ∉ rows.map QuoteOf.key := by
  rw [refusal, Option.orElse_eq_none, Option.orElse_eq_none, taken_eq_none_iff, taken_eq_none_iff,
    any_eq_false_iff_not_mem_map, any_eq_false_iff_not_mem_map]
  simp

/-- A snapshot needs an id of its own and a brand of its own. -/
theorem SnapshotRow.refusal_eq_none_iff {rows : List SnapshotRow} {row : SnapshotRow} :
    SnapshotRow.refusal rows row = none ↔
      row.id ∉ rows.map SnapshotOf.id ∧ row.brandId ∉ rows.map SnapshotOf.brandId := by
  rw [refusal, Option.orElse_eq_none, taken_eq_none_iff, taken_eq_none_iff, any_eq_false_iff_not_mem_map,
    any_eq_false_iff_not_mem_map]

end PriceArchive
