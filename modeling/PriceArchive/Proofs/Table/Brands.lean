import PriceArchive.Proofs.Table.Binding
import PriceArchive.Proofs.Table.Keyed
import PriceArchive.Store.Brands

namespace PriceArchive

/-- The store that has some brands and nothing else. -/
def Store.ofBrands (rows : List BrandRow) : Store := { Store.empty with brands := rows }

theorem Store.brands_ofBrands (rows : List BrandRow) : (Store.ofBrands rows).brands = rows := rfl

namespace Brands

/-- Two stored brands share neither their id nor their ticker symbol. -/
def Apart (a b : BrandRow) : Prop := a.id ≠ b.id ∧ a.symbol ≠ b.symbol

theorem not_taken_of_apart (rows : List BrandRow) (row : BrandRow)
    (h : ∀ r ∈ rows, Apart r row) :
    BrandRow.rule.key row ∉ rows.map BrandRow.rule.key ∧ BrandRow.rule.refusal rows row = none := by
  have hid : (rows.any fun r => decide (r.id = row.id)) = false := by
    apply List.any_eq_false.mpr
    intro r hr
    simpa using (h r hr).1
  have hsymbol : (rows.any fun r => r.isActive && decide (r.symbol = row.symbol)) = false := by
    apply List.any_eq_false.mpr
    intro r hr
    simp [(h r hr).2]
  constructor
  · intro hkey
    obtain ⟨r, hr, heq⟩ := List.mem_map.mp hkey
    exact (h r hr).1 heq
  · change BrandRow.refusal rows row = none
    rw [BrandRow.refusal, hid, hsymbol, Bool.and_false]
    rfl

/-- Brands that stand apart are all added to a store that has none. -/
theorem upsertStatement_of_apart {now : Instant} {createdAt : StoredTime}
    (hnow : Binding.time now = .ok createdAt) {batch : List NewBrand} {rows : List BrandRow}
    (hbound : Binding.all (Binding.newBrand createdAt) batch = .ok rows)
    (happart : rows.Pairwise Apart) {store : Store} (hstore : store.brands = []) :
    upsertStatement now batch store = .ok (rows.length, { store with brands := rows }) := by
  have hupsert : BrandRow.rule.upsertFrom [] [] rows = .ok ([] ++ rows) :=
    TableRule.upsertFrom_of_pairwise not_taken_of_apart happart
  unfold upsertStatement
  rw [hnow]
  change (Binding.all (Binding.newBrand createdAt) batch >>= _) = _
  rw [hbound]
  change (BrandRow.rule.upsertFrom [] store.brands rows >>= _) = _
  rw [hstore, hupsert, List.nil_append]
  rfl

/-- A new brand whose ticker symbol belongs to a stored active one is turned down. -/
theorem upsertStatement_of_taken {now : Instant} {createdAt : StoredTime}
    (hnow : Binding.time now = .ok createdAt) {b : NewBrand} {row : BrandRow}
    (hbound : Binding.newBrand createdAt b = .ok row) (hactive : row.isActive = true)
    {store : Store} (hid : ∀ r ∈ store.brands, r.id ≠ row.id) {r : BrandRow}
    (hr : r ∈ store.brands) (hractive : r.isActive = true) (hsymbol : r.symbol = row.symbol) :
    upsertStatement now [b] store =
      .error (.duplicateKey "idx_stock_brands_active_ticker_symbol") := by
  have hnew : (store.brands.any fun r => decide (r.id = row.id)) = false := by
    apply List.any_eq_false.mpr
    intro r' hr'
    simpa using hid r' hr'
  have htaken : (store.brands.any fun r => r.isActive && decide (r.symbol = row.symbol)) = true :=
    List.any_eq_true.mpr ⟨r, hr, by simp [hractive, hsymbol]⟩
  have hall : Binding.all (Binding.newBrand createdAt) [b] = .ok [row] := by
    rw [Binding.all, hbound]
    rfl
  have hrefusal : BrandRow.rule.refusal store.brands row =
      some (.duplicateKey "idx_stock_brands_active_ticker_symbol") := by
    change BrandRow.refusal store.brands row = _
    rw [BrandRow.refusal, hnew, htaken, hactive]
    rfl
  have hholds : ¬ BrandRow.rule.holds store.brands (BrandRow.rule.key row) = true := by
    rw [TableRule.holds, show (store.brands.any fun r => decide (BrandRow.rule.key r =
      BrandRow.rule.key row)) = false from hnew]
    exact Bool.false_ne_true
  have hupsert : BrandRow.rule.upsert store.brands [row] =
      .error (.duplicateKey "idx_stock_brands_active_ticker_symbol") := by
    rw [TableRule.upsert, TableRule.upsertFrom, TableRule.upsertRow, if_neg hholds,
      TableRule.insert, hrefusal]
  unfold upsertStatement
  rw [hnow]
  change (Binding.all (Binding.newBrand createdAt) [b] >>= _) = _
  rw [hall]
  change (BrandRow.rule.upsert store.brands [row] >>= _) = _
  rw [hupsert]
  rfl

end Brands

end PriceArchive
