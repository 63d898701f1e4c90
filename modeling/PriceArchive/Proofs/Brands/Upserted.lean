import PriceArchive.Proofs.Action.Repeated
import PriceArchive.Proofs.Brands.Hidden
import PriceArchive.Proofs.Table.Outcome

namespace PriceArchive

open PriceArchive.Action Session Statement

namespace NewBrand

/-- The texts of a report, in the order in which they are sent. -/
def texts (b : NewBrand) : List String :=
  [b.id, b.symbol, b.name, b.market.code, b.market.name, b.sector33.code, b.sector33.name,
    b.sector17.code, b.sector17.name]

/-- The row of the brand that a report adds, which is active. -/
def row (createdAt updatedAt : StoredTime) (b : NewBrand) : BrandRow where
  id := b.id
  symbol := b.symbol
  name := b.name
  market := b.market
  sector33 := b.sector33
  sector17 := b.sector17
  createdAt := createdAt
  updatedAt := updatedAt
  deletedAt := none

theorem newBrand_eq_row {b : NewBrand} (htexts : Binding.texts b.texts = .ok ())
    {updatedAt : StoredTime} (htime : Binding.time b.updatedAt = .ok updatedAt)
    (createdAt : StoredTime) : Binding.newBrand createdAt b = .ok (b.row createdAt updatedAt) :=
  Binding.newBrand_eq_ok_iff.mpr ⟨htexts, htime, rfl, rfl, rfl, rfl, rfl, rfl, rfl, rfl⟩

end NewBrand

namespace Brands

/-- The reports of a batch that count: the last one on each brand, unless the brand was soft-deleted. -/
def counting (stored : List BrandRow) (batch : List NewBrand) : List NewBrand :=
  (lastPerKey NewBrand.id batch).filter fun b => !softDeleted stored b.id

/-- The reports on brands that are not stored. -/
def newcomers (stored : List BrandRow) (reports : List NewBrand) : List NewBrand :=
  reports.filter fun b => decide (b.id ∉ stored.map Brand.id)

/-- The brands that are not stored have symbols of their own, which no active brand has. -/
structure SymbolsFree (stored : List BrandRow) (reports : List NewBrand) : Prop where
  apart : ((newcomers stored reports).map NewBrand.symbol).Nodup
  unused : ∀ b ∈ newcomers stored reports, b.symbol ∉ (active stored).map Brand.symbol

theorem symbolsFree_iff {stored : List BrandRow} {reports : List NewBrand} :
    SymbolsFree stored reports ↔ ((newcomers stored reports).map NewBrand.symbol).Nodup ∧
      ∀ b ∈ newcomers stored reports, b.symbol ∉ (active stored).map Brand.symbol :=
  ⟨fun h => ⟨h.apart, h.unused⟩, fun h => ⟨h.1, h.2⟩⟩

instance (stored : List BrandRow) (reports : List NewBrand) : Decidable (SymbolsFree stored reports) :=
  decidable_of_iff' _ symbolsFree_iff

/-- A stored brand after reports, whose times are stored as `stamp` says. It keeps its symbol. -/
def refreshed (stamp : NewBrand → StoredTime) (reports : List NewBrand) (r : BrandRow) : BrandRow :=
  match reports.find? fun b => decide (b.id = r.id) with
  | none => r
  | some b =>
    { r with
      name := b.name
      market := b.market
      sector33 := b.sector33
      sector17 := b.sector17
      updatedAt := stamp b }

/-- The brands after reports that were written at a time. -/
def afterReports (createdAt : StoredTime) (stamp : NewBrand → StoredTime) (reports : List NewBrand)
    (stored : List BrandRow) : List BrandRow :=
  stored.map (refreshed stamp reports) ++
    (newcomers stored reports).map fun b => b.row createdAt (stamp b)

theorem mem_counting_iff {stored : List BrandRow} {batch : List NewBrand} {b : NewBrand} :
    b ∈ counting stored batch ↔
      (∃ before after, batch = before ++ b :: after ∧ ∀ later ∈ after, later.id ≠ b.id) ∧
        ∀ r ∈ stored, r.id = b.id → r.isActive = true := by
  rw [counting, List.mem_filter, mem_lastPerKey_iff_append, Bool.not_eq_true', softDeleted]
  simp

theorem written_eq_counting (stored : List BrandRow) (batch : List NewBrand) :
    written batch stored = counting stored batch := by
  rw [written_eq, counting, filter_lastPerKey_of_key]
  rintro b - b' - hid
  rw [hid]

theorem nodup_ids_counting (stored : List BrandRow) (batch : List NewBrand) :
    ((counting stored batch).map NewBrand.id).Nodup := by
  rw [← written_eq_counting]
  exact nodup_ids_written batch stored

theorem mem_of_mem_counting {stored : List BrandRow} {batch : List NewBrand} {b : NewBrand}
    (hb : b ∈ counting stored batch) : b ∈ batch := by
  obtain ⟨⟨before, after, rfl, -⟩, -⟩ := mem_counting_iff.mp hb
  exact List.mem_append_right before List.mem_cons_self

section Reports

variable {stored : List BrandRow} {reports : List NewBrand}

theorem newcomers_cons_of_mem {b : NewBrand} (hb : b.id ∈ stored.map Brand.id) :
    newcomers stored (b :: reports) = newcomers stored reports :=
  List.filter_cons_of_neg (by simpa using hb)

theorem newcomers_cons_of_not_mem {b : NewBrand} (hb : b.id ∉ stored.map Brand.id) :
    newcomers stored (b :: reports) = b :: newcomers stored reports :=
  List.filter_cons_of_pos (by simpa using hb)

/-- A brand that is added is no newcomer any more. -/
theorem newcomers_concat {row : BrandRow} (hrow : row.id ∉ reports.map NewBrand.id) :
    newcomers (stored ++ [row]) reports = newcomers stored reports := by
  refine List.filter_congr fun b hb => decide_eq_decide.mpr ?_
  have hne : b.id ≠ row.id := fun heq => hrow (heq ▸ List.mem_map_of_mem hb)
  rw [List.map_append, List.map_singleton, List.mem_append, List.mem_singleton, or_iff_left hne]

/-- Only the stored ids and the active symbols decide which symbols are free. -/
theorem symbolsFree_congr {stored' : List BrandRow} (hids : stored'.map Brand.id = stored.map Brand.id)
    (hsymbols : (active stored').map Brand.symbol = (active stored).map Brand.symbol) :
    SymbolsFree stored' reports ↔ SymbolsFree stored reports := by
  rw [symbolsFree_iff, symbolsFree_iff, newcomers, newcomers, hids, hsymbols]

/-- A report on a stored brand leaves the symbols of the active brands alone. -/
theorem symbols_update (stored : List BrandRow) (row : BrandRow) :
    (active (table.rule.update stored row)).map Brand.symbol = (active stored).map Brand.symbol := by
  let f (r : BrandRow) : BrandRow := if table.rule.key r = table.rule.key row then r.refresh row else r
  have hactive : Brand.isActive ∘ f = Brand.isActive := by
    funext r
    simp only [Function.comp_apply, f]
    split <;> rfl
  have hsymbol : Brand.symbol ∘ f = Brand.symbol := by
    funext r
    simp only [Function.comp_apply, f]
    split <;> rfl
  change ((stored.map f).filter Brand.isActive).map Brand.symbol = _
  rw [List.filter_map, hactive, List.map_map, hsymbol]
  rfl

theorem symbolsFree_cons_of_mem {b : NewBrand} (hb : b.id ∈ stored.map Brand.id) :
    SymbolsFree stored (b :: reports) ↔ SymbolsFree stored reports := by
  rw [symbolsFree_iff, symbolsFree_iff, newcomers_cons_of_mem hb]

/-- One more active brand, which is not stored, takes its symbol from those that follow. -/
theorem symbolsFree_cons_of_not_mem {b : NewBrand} {row : BrandRow} (hb : b.id ∉ stored.map Brand.id)
    (hreports : b.id ∉ reports.map NewBrand.id) (hid : row.id = b.id) (hsymbol : row.symbol = b.symbol)
    (hactive : row.isActive = true) :
    SymbolsFree stored (b :: reports) ↔
      b.symbol ∉ (active stored).map Brand.symbol ∧ SymbolsFree (stored ++ [row]) reports := by
  have hnew : newcomers (stored ++ [row]) reports = newcomers stored reports :=
    newcomers_concat (hid ▸ hreports)
  have hsymbols : (active (stored ++ [row])).map Brand.symbol =
      (active stored).map Brand.symbol ++ [b.symbol] := by
    rw [active, List.filter_append, List.filter_cons_of_pos hactive, List.filter_nil, List.map_append,
      List.map_singleton, hsymbol]
    rfl
  rw [symbolsFree_iff, symbolsFree_iff, newcomers_cons_of_not_mem hb, hnew, hsymbols, List.map_cons,
    List.nodup_cons, List.forall_mem_cons]
  simp only [List.mem_append, List.mem_singleton, not_or, forall_and]
  have hother : b.symbol ∉ (newcomers stored reports).map NewBrand.symbol ↔
      ∀ c ∈ newcomers stored reports, ¬ c.symbol = b.symbol := by
    simp only [List.mem_map, not_exists, not_and]
  rw [hother]
  tauto

variable {createdAt : StoredTime} {stamp : NewBrand → StoredTime}

/-- The table has nothing against the rows of some reports exactly if their symbols are free. -/
theorem accepts_iff_symbolsFree (hreports : (reports.map NewBrand.id).Nodup) :
    table.rule.Accepts stored (reports.map fun b => b.row createdAt (stamp b)) ↔
      SymbolsFree stored reports := by
  -- Each report is judged by the brands that the reports before it have left, so the brands vary.
  induction reports generalizing stored with
  | nil => exact iff_of_true trivial ⟨List.nodup_nil, List.forall_mem_nil _⟩
  | cons b reports ih =>
    rw [List.map_cons, List.nodup_cons] at hreports
    let row := b.row createdAt (stamp b)
    rw [List.map_cons, TableRule.Accepts, ih hreports.2]
    change (table.rule.holds stored row.id = false → BrandRow.refusal stored row = none) ∧ _ ↔ _
    by_cases hb : row.id ∈ stored.map Brand.id
    · have hholds : table.rule.holds stored row.id = true := TableRule.holds_iff_mem_keys.mpr hb
      have hput : table.rule.put stored row = table.rule.update stored row := if_pos hholds
      rw [hholds, hput, symbolsFree_cons_of_mem hb,
        symbolsFree_congr (TableRule.keys_update table_keepsKey stored row) (symbols_update stored row)]
      exact and_iff_right fun h => absurd h.symm Bool.false_ne_true
    · have hholds : table.rule.holds stored row.id = false :=
        Bool.eq_false_iff.mpr (mt TableRule.holds_iff_mem_keys.mp hb)
      have hput : table.rule.put stored row = stored ++ [row] :=
        if_neg (Bool.eq_false_iff.mp hholds)
      have hrefusal : BrandRow.refusal stored row = none ↔
          row.symbol ∉ (active stored).map Brand.symbol := by
        rw [BrandRow.refusal_eq_none_iff, and_iff_right hb]
        simp only [active, List.mem_map, List.mem_filter, not_exists, not_and, and_imp]
        exact ⟨fun h r hr hactive => h rfl r hr hactive, fun h _ => h⟩
      have hfree : SymbolsFree stored (b :: reports) ↔
          row.symbol ∉ (active stored).map Brand.symbol ∧ SymbolsFree (stored ++ [row]) reports :=
        symbolsFree_cons_of_not_mem hb hreports.1 rfl rfl rfl
      rw [hholds, hput, hrefusal, hfree]
      exact and_congr_left' ⟨fun h => h rfl, fun h _ => h⟩

/-- Rows of reports are turned down for their symbols alone. -/
theorem refusal_of_objects {rows : List BrandRow} {r : Refusal} (h : table.rule.Objects rows r) :
    r = .duplicateKey "idx_stock_brands_active_ticker_symbol" := by
  obtain ⟨stored, row, -, hholds, hrefusal⟩ := h
  have hid : (stored.any fun r => decide (r.id = row.id)) = false := hholds
  change BrandRow.refusal stored row = some r at hrefusal
  rw [BrandRow.refusal, hid] at hrefusal
  unfold taken at hrefusal
  rw [if_neg Bool.false_ne_true] at hrefusal
  change (if _ then _ else _) = _ at hrefusal
  split at hrefusal
  · exact (Option.some.inj hrefusal).symm
  · cases hrefusal

/-- What the rows of reports on different brands leave. -/
theorem foldl_put_rows (hreports : (reports.map NewBrand.id).Nodup) :
    (reports.map fun b => b.row createdAt (stamp b)).foldl table.rule.put stored =
      afterReports createdAt stamp reports stored := by
  have hids : ((reports.map fun b => b.row createdAt (stamp b)).map table.rule.key).Nodup := by
    rw [List.map_map]
    exact hreports
  rw [columns.foldl_put_of_nodup hids, afterReports, newcomers, List.filter_map]
  congr 1
  refine List.map_congr_left fun r _ => ?_
  have hlookup : table.rule.lookup (reports.map fun b => b.row createdAt (stamp b)) (table.rule.key r) =
      (reports.find? fun b => decide (b.id = r.id)).map fun b => b.row createdAt (stamp b) :=
    List.find?_map ..
  rw [hlookup, refreshed]
  cases reports.find? fun b => decide (b.id = r.id) <;> rfl

theorem afterReports_nil : afterReports createdAt stamp [] stored = stored := by
  rw [afterReports, newcomers, List.filter_nil, List.map_nil, List.append_nil]
  exact List.map_id stored

end Reports

/-- What the store refuses of the statements of a bulk write ends the write. -/
theorem upsert_of_keepEach_error {batch : List NewBrand} (hbatch : batch ≠ []) {s : Session} (hs : s.Open)
    (htexts : Binding.texts (batch.map NewBrand.id) = .ok ()) {createdAt : StoredTime}
    (hnow : Binding.time (s.supply.clock s.supply.ticks) = .ok createdAt) {r : Refusal} {left : Store}
    (hkept : keepEach (writes createdAt (written batch s.store.brands)) s.store = (.error r, left)) :
    (upsert batch s).1 = .error (.error (.query "upsert stock brands" (.refused r))) := by
  have hsolo := congrArg Prod.fst (upsert_alone (s := s.solo) rfl rfl hbatch)
  rw [htexts] at hsolo
  dsimp only at hsolo
  rw [Session.solo_supply, Session.solo_store, statements_eq_writes hnow, hkept] at hsolo
  rw [(upsert_sends_any batch).result_of_open hs, hsolo]
  rfl

/-- How the statements of a bulk write fare. -/
theorem keepEach_writes_cases {s : Store} {reports : List NewBrand}
    (hreports : (reports.map NewBrand.id).Nodup)
    (htexts : ∀ b ∈ reports, Binding.texts b.texts = .ok ()) {stamp : NewBrand → StoredTime}
    (htimes : ∀ b ∈ reports, Binding.time b.updatedAt = .ok (stamp b)) (createdAt : StoredTime) :
    (SymbolsFree s.brands reports ∧ keepEach (writes createdAt reports) s =
        (.ok reports.length, { s with brands := afterReports createdAt stamp reports s.brands })) ∨
      (¬ SymbolsFree s.brands reports ∧ ∃ left, keepEach (writes createdAt reports) s =
        (.error (.duplicateKey "idx_stock_brands_active_ticker_symbol"), left)) := by
  let rows := reports.map fun b => b.row createdAt (stamp b)
  have hrows : (chunks rowsPerStatement reports).flatten.map (Binding.newBrand createdAt) =
      rows.map .ok := by
    rw [flatten_chunks, List.map_map]
    exact List.map_congr_left fun b hb => NewBrand.newBrand_eq_row (htexts b hb) (htimes b hb) createdAt
  have hkeys : (rows.map table.rule.key).Nodup := by
    rw [List.map_map]
    exact hreports
  have hfree : table.rule.Accepts s.brands rows ↔ SymbolsFree s.brands reports :=
    accepts_iff_symbolsFree hreports
  obtain ⟨haccepts, hkept⟩ | ⟨hnot, r, left, hobjects, hkept⟩ := Table.keepEach_write_of_nodup hrows hkeys s
  · refine .inl ⟨hfree.mp haccepts, ?_⟩
    have hlength : rows.length = reports.length := List.length_map _
    rw [← foldl_put_rows hreports, ← hlength]
    exact hkept
  · exact .inr ⟨mt hfree.mpr hnot, left, refusal_of_objects hobjects ▸ hkept⟩

/-- A bulk write of brands in an open session, whose texts and times the store accepts, ends in one of two
ways. When the symbols of the brands to be added are free, it answers the number of the reports that count;
the stored brands among theirs are refreshed, the others are added, and nothing else changes. When they are
not, it ends with the refusal of a symbol that is taken. -/
theorem upsert_outcome {s : Session} (hs : s.Open) {batch : List NewBrand}
    (htexts : ∀ b ∈ batch, Binding.texts b.texts = .ok ()) {stamp : NewBrand → StoredTime}
    (htimes : ∀ b ∈ batch, Binding.time b.updatedAt = .ok (stamp b)) {createdAt : StoredTime}
    (hnow : Binding.time (s.supply.clock s.supply.ticks) = .ok createdAt) :
    let stored := s.store.brands
    let reports := counting stored batch
    (SymbolsFree stored reports ∧
        ∃ t, upsert batch s = (.ok reports.length, t) ∧
          t.store = { s.store with brands := afterReports createdAt stamp reports stored }) ∨
      (¬ SymbolsFree stored reports ∧
        ∃ t, upsert batch s = (.error (.error (.query "upsert stock brands"
          (.refused (.duplicateKey "idx_stock_brands_active_ticker_symbol")))), t)) := by
  intro stored reports
  by_cases hbatch : batch = []
  · subst hbatch
    refine .inl ⟨⟨List.nodup_nil, List.forall_mem_nil _⟩, s, rfl, ?_⟩
    change s.store = { s.store with brands := afterReports createdAt stamp [] stored }
    rw [afterReports_nil]
  have hids : Binding.texts (batch.map NewBrand.id) = .ok () := by
    rw [Binding.texts_eq_ok_iff, List.forall_mem_map]
    exact fun b hb => Binding.texts_eq_ok_iff.mp (htexts b hb) b.id List.mem_cons_self
  obtain ⟨hfree, hkept⟩ | ⟨hnot, left, hkept⟩ :=
    keepEach_writes_cases (nodup_ids_counting stored batch)
      (fun b hb => htexts b (mem_of_mem_counting hb)) (fun b hb => htimes b (mem_of_mem_counting hb))
      createdAt
  · refine .inl ⟨hfree, upsert_of_keepEach hbatch hs hids hnow ?_⟩
    rwa [written_eq_counting]
  · rw [← written_eq_counting] at hkept
    exact .inr ⟨hnot, (upsert batch s).2, Prod.ext (upsert_of_keepEach_error hbatch hs hids hnow hkept) rfl⟩

/-- A report on a brand under a symbol, with a name. -/
def reportAs (id symbol name : String) : NewBrand := ⟨id, symbol, name, .empty, .empty, .empty, .epoch⟩

/-- Brand `a` was soft-deleted; brands `b` and `c` are active, and `b` has the symbol that `a` had. -/
def withTwoActive : Session :=
  (upsert [reportAs "b" "1001" "B", reportAs "c" "1002" "C"] afterSoftDeletion).2

/-- Reports on the soft-deleted brand, on `b` with the symbol of `c`, and twice on one that is not stored. -/
def mixedReports : List NewBrand :=
  [reportAs "d" "1001" "D", reportAs "a" "1003" "A", reportAs "b" "1002" "B2", reportAs "d" "1003" "D2"]

theorem upsert_outcome_withTwoActive :
    withTwoActive.Open ∧
      (∃ t, upsert mixedReports withTwoActive = (.ok 2, t) ∧
        t.store.brands.map (fun r => (r.id, r.symbol, r.name, r.isActive)) =
          [("a", "1001", "N", false), ("b", "1001", "B2", true), ("c", "1002", "C", true),
            ("d", "1003", "D2", true)]) ∧
      ∃ t, upsert [reportAs "d" "1001" "D"] withTwoActive =
        (.error (.error (.query "upsert stock brands"
          (.refused (.duplicateKey "idx_stock_brands_active_ticker_symbol")))), t) := by
  have hopen : withTwoActive.Open := open_of_live (by decide +kernel) (by decide +kernel)
  let written : StoredTime := ⟨-946684800000000, by decide, by decide⟩
  have hnow : Binding.time (withTwoActive.supply.clock withTwoActive.supply.ticks) = .ok written := by
    decide +kernel
  refine ⟨hopen, ?_, ?_⟩
  · have htexts : ∀ b ∈ mixedReports, Binding.texts b.texts = .ok () := by decide +kernel
    have htimes : ∀ b ∈ mixedReports, Binding.time b.updatedAt = .ok written := by decide +kernel
    have hcount : (counting withTwoActive.store.brands mixedReports).length = 2 := by decide +kernel
    obtain ⟨-, t, ht, hstore⟩ | ⟨hnot, -⟩ := upsert_outcome hopen htexts htimes hnow
    · refine ⟨t, hcount ▸ ht, ?_⟩
      rw [hstore]
      decide +kernel
    · exact absurd (by decide +kernel) hnot
  · have htexts : ∀ b ∈ [reportAs "d" "1001" "D"], Binding.texts b.texts = .ok () := by decide +kernel
    have htimes : ∀ b ∈ [reportAs "d" "1001" "D"], Binding.time b.updatedAt = .ok written := by
      decide +kernel
    obtain ⟨hfree, -⟩ | ⟨-, t, ht⟩ := upsert_outcome hopen htexts htimes hnow
    · exact absurd hfree (by decide +kernel)
    · exact ⟨t, ht⟩

end Brands

end PriceArchive
