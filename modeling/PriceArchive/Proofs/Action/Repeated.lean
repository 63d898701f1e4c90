import PriceArchive.Proofs.Action.BatchedWrites
import PriceArchive.Proofs.Action.Kept
import PriceArchive.Proofs.Quotes.Collision
import PriceArchive.Proofs.Session.Supply
import PriceArchive.Proofs.Table.Rewritten

namespace PriceArchive

open Statement

namespace Quotes

variable {σ : Type} [Subject σ]

/-- A row after the quotes of a batch are written once more: those for its key give it a new time of
change. -/
def touched (batch : List (NewQuote σ)) (now : StoredTime) (r : QuoteRow σ) : QuoteRow σ :=
  if some (QuoteOf.key r) ∈ batch.map NewQuote.rowKey? then { r with updatedAt := now } else r

theorem map_touched_nil (now : StoredTime) (rows : List (QuoteRow σ)) :
    rows.map (touched [] now) = rows :=
  List.map_id'' (fun r => if_neg (by simp)) rows

theorem mem_rowKeys_lastPerKey {batch : List (NewQuote σ)} {k : Option (List String × StoredTime)} :
    k ∈ (lastPerKey NewQuote.key batch).map NewQuote.rowKey? ↔ k ∈ batch.map NewQuote.rowKey? := by
  have hkeys : ∀ quotes : List (NewQuote σ), quotes.map NewQuote.rowKey? =
      (quotes.map NewQuote.key).map fun key =>
        (StoredTime.ofInstant? key.2).map fun date => (key.1, date) := by
    intro quotes
    rw [List.map_map]
    rfl
  rw [hkeys, hkeys, List.mem_map, List.mem_map]
  simp only [mem_keys_lastPerKey]

/-- Quotes with the columns of rows that are stored are sent again under other ids, at another time. -/
theorem exists_rows_again {written : List (QuoteRow σ)} {supply : Supply} (hsupply : supply.Storable)
    {bars : List (NewQuote σ × StoredBar)}
    (htexts : ∀ r ∈ written, Binding.texts (Subject.texts r.subject) = .ok ())
    (hsent : (sent supply bars).map
        (fun q => (q.subject, StoredTime.ofInstant? q.date, Except.ok q.bar)) =
      written.map QuoteRow.columns)
    {now : StoredTime} (hnow : Binding.time (supply.clock supply.ticks) = .ok now) :
    ∃ again : List (QuoteRow σ), (sent supply bars).map Binding.quote = again.map .ok ∧
      again.map QuoteRow.columns = written.map QuoteRow.columns ∧
      ∀ row ∈ again, row.updatedAt = now := by
  have hbindable : ∀ q ∈ sent supply bars, ∃ r, Binding.quote q = .ok r := by
    intro q hq
    obtain ⟨r, hr, hcolumns⟩ := exists_mem_of_map_eq hsent hq
    rw [QuoteRow.columns, Prod.mk.injEq, Prod.mk.injEq] at hcolumns
    obtain ⟨b, -, m, hm, rfl⟩ := mem_stamped hq
    have hclock := hsupply.clock supply.ticks (Nat.le_refl _)
    refine exists_quote_eq_ok (hsupply.text m hm) ?_ ?_ hclock hclock
    · exact hcolumns.1 ▸ htexts r hr
    · exact hcolumns.2.1 ▸ Option.some_ne_none r.date
  obtain ⟨again, hbound⟩ := Binding.exists_all_eq_ok hbindable
  rw [Binding.all_eq_ok_iff] at hbound
  have hcolumns := map_eq_map_of_imp (fun q r hr => columns_of_quote_eq_ok hr) hbound
  refine ⟨again, hbound, hcolumns.symm.trans hsent, fun row hrow => ?_⟩
  obtain ⟨q, hq, hqrow⟩ := exists_mem_of_map_eq hbound.symm hrow
  obtain ⟨b, -, m, -, rfl⟩ := mem_stamped hq
  obtain ⟨-, -, -, hupdated, -⟩ := Binding.quote_eq_ok_iff.mp hqrow
  rw [hnow] at hupdated
  exact (Except.ok.inj hupdated).symm

/-- No statement of a batch that was written has two rows with one stored key. -/
theorem nodup_keys_of_upsert {series : Series σ} {batch : List (NewQuote σ)} {s t : Session} {n : Nat}
    (h : upsert series batch s = (.ok n, t)) {bars : List (NewQuote σ × StoredBar)}
    (hbars : storedBars (lastPerKey NewQuote.key batch) = .ok bars) (supply : Supply) :
    ∀ piece ∈ chunks rowsPerStatement (sent supply bars), ∀ rows,
      Binding.all Binding.quote piece = .ok rows → (rows.map series.table.rule.key).Nodup := by
  intro piece hpiece rows hrows
  have hno : ¬ Collides batch := (upsert_collision_iff series batch s).2.1 n (by rw [h])
  obtain ⟨piece', hpiece', heq⟩ := exists_mem_chunks (subjects_stamped hbars _ _ _) hpiece
  rw [nodup_keys_iff heq hrows]
  apply Classical.byContradiction
  intro htwice
  exact hno (collides_iff.mpr ⟨piece', hpiece', htwice⟩)

/-- A row that is overwritten with the bar that it has changes in its time of change alone. -/
theorem after_eq {series : Series σ} {again : List (QuoteRow σ)} {r : QuoteRow σ}
    (hbar : (series.table.rule.after again r).bar = r.bar) :
    series.table.rule.after again r =
      { r with updatedAt := (series.table.rule.after again r).updatedAt } := by
  have hsubject := series.columns.given_after again r
  have hkey := series.columns.key_after again r
  have hdrawn := series.columns.drawn_after again r
  generalize series.table.rule.after again r = r' at hbar hsubject hkey hdrawn
  obtain ⟨id, subject, date, bar, createdAt, updatedAt⟩ := r'
  cases hbar
  cases hsubject
  cases hdrawn
  have hdate : date = r.date := congrArg Prod.snd hkey
  rw [hdate]

/-- Rows with the keys of a batch, written at one time over rows whose bars they have, touch these. -/
theorem after_eq_touched {series : Series σ} {batch : List (NewQuote σ)} {again : List (QuoteRow σ)}
    (hkeys : again.map (fun r => some (QuoteOf.key r)) =
      (lastPerKey NewQuote.key batch).map NewQuote.rowKey?)
    {now : StoredTime} (hupdated : ∀ row ∈ again, row.updatedAt = now) {r : QuoteRow σ}
    (hbar : (series.table.rule.after again r).bar = r.bar) :
    series.table.rule.after again r = touched batch now r := by
  have hmentioned : series.table.rule.key r ∈ again.map series.table.rule.key ↔
      some (QuoteOf.key r) ∈ batch.map NewQuote.rowKey? := by
    rw [← mem_rowKeys_lastPerKey, ← hkeys, List.mem_map, List.mem_map]
    simp only [Option.some.injEq]
    rfl
  rw [after_eq hbar, series.columns.replaced_after (fun _ _ => rfl) hupdated]
  unfold touched
  by_cases hmem : some (QuoteOf.key r) ∈ batch.map NewQuote.rowKey?
  · rw [if_pos hmem, if_pos (hmentioned.mpr hmem)]
  · rw [if_neg hmem, if_neg (mt hmentioned.mp hmem)]

/-- A bulk write of quotes that succeeded succeeds again, in every open session that has the same series
and whose supply lasts, and gives the rows of its batch a new time of change. -/
theorem upsert_again {series : Series σ} {batch : List (NewQuote σ)} {s t v : Session} {n : Nat}
    (h : upsert series batch s = (.ok n, t)) (hrows : series.get v.store = series.get t.store)
    (hopen : batch ≠ [] → v.Open) (hsupply : v.supply.Storable) {now : StoredTime}
    (hnow : Binding.time (v.supply.clock v.supply.ticks) = .ok now) :
    ∃ u, upsert series batch v = (.ok n, u) ∧
      u.store = series.set v.store ((series.get v.store).map (touched batch now)) := by
  by_cases hbatch : batch = []
  · subst hbatch
    cases h
    refine ⟨v, rfl, ?_⟩
    rw [map_touched_nil, series.set_get]
  obtain ⟨bars, hbars, -⟩ := keepEach_of_upsert hbatch h
  obtain ⟨written, hwritten, htexts, ht⟩ := upsert_eq_ok_texts h
  have hstored : series.table.get v.store =
      written.foldl series.table.rule.put (series.table.get s.store) := by
    rw [← series.table.get_putAll, ← ht]
    exact hrows
  have hcolumns := columns_of_stamped hbars (v.supply.clock v.supply.ticks) v.supply.ids
    v.supply.issued
  obtain ⟨again, hbound, hagain, hupdated⟩ :=
    exists_rows_again hsupply htexts (hcolumns.trans hwritten.symm) hnow
  have hvalues : again.map (fun r => (series.table.rule.key r, series.columns.values r)) =
      written.map fun r => (series.table.rule.key r, series.columns.values r) := by
    refine map_eq_map_of_imp (fun r r' heq => ?_) hagain
    rw [QuoteRow.columns, QuoteRow.columns, Prod.mk.injEq, Prod.mk.injEq] at heq
    change ((Subject.key r.subject, r.date), r.bar) = ((Subject.key r'.subject, r'.date), r'.bar)
    rw [heq.1, Option.some.inj heq.2.1, Except.ok.inj heq.2.2]
  have hflat : (chunks rowsPerStatement (sent v.supply bars)).flatten.map Binding.quote =
      again.map .ok := by rwa [flatten_chunks]
  obtain ⟨hkept, hsame⟩ := Table.keepEach_write_again series.columns hstored hflat hvalues
    (nodup_keys_of_upsert h hbars v.supply)
  obtain ⟨u, hu, hstore⟩ := upsert_of_keepEach hbatch (hopen hbatch) hbars hkept
  refine ⟨u, ?_, hstore.trans (congrArg (series.set v.store) (List.map_congr_left fun r hr => ?_))⟩
  · rw [hu, count_of_upsert h, ← count_of_upsert hu]
  · exact after_eq_touched (QuoteRow.keys_of_columns (hagain.trans hwritten)) hupdated (hsame r hr)

end Quotes

namespace Snapshots

/-- A snapshot after those of a batch are written once more: one for its brand gives it a new time of
change. -/
def touched (batch : List NewSnapshot) (now : StoredTime) (r : SnapshotRow) : SnapshotRow :=
  if r.brandId ∈ batch.map NewSnapshot.brandId then { r with updatedAt := now } else r

theorem map_touched_nil (now : StoredTime) (rows : List SnapshotRow) :
    rows.map (touched [] now) = rows :=
  List.map_id'' (fun r => if_neg (by simp)) rows

/-- The texts of a snapshot, its id apart. -/
def texts (h : NewSnapshot) : List String := [h.brandId, h.action, h.method, h.memo]

/-- A bulk write of snapshots that succeeded has sent texts that the store accepts. -/
theorem texts_of_upsert {batch : List NewSnapshot} {s t : Session} {n : Nat}
    (h : upsert batch s = (.ok n, t)) :
    ∀ x ∈ lastPerKey NewSnapshot.brandId batch, Binding.texts (texts x) = .ok () := by
  by_cases hbatch : batch = []
  · subst hbatch
    simp [lastPerKey]
  obtain ⟨rows, hrows, -⟩ := Table.keepEach_write (keepEach_of_upsert hbatch h)
  rw [flatten_chunks] at hrows
  intro x hx
  obtain ⟨y, hy, hcolumns⟩ := exists_mem_of_map_eq (map_stamped (s.supply.clock s.supply.ticks)
    s.supply.ids s.supply.issued (lastPerKey NewSnapshot.brandId batch)).symm hx
  obtain ⟨r, -, hr⟩ := exists_mem_of_map_eq hrows hy
  obtain ⟨htexts, -⟩ := Binding.snapshot_eq_ok_iff.mp hr.symm
  rw [NewSnapshot.storedColumns, Prod.mk.injEq, Prod.mk.injEq, Prod.mk.injEq, Prod.mk.injEq,
    Prod.mk.injEq] at hcolumns
  obtain ⟨hbrand, ⟨-, haction, hmethod, hmemo⟩, -⟩ := hcolumns
  rw [Binding.texts_eq_ok_iff] at htexts ⊢
  rw [texts, ← hbrand, ← haction, ← hmethod, ← hmemo]
  exact fun z hz => htexts z (List.mem_cons_of_mem y.id hz)

/-- A snapshot that is sent comes from one of the batch: it has the snapshot's columns, the clock reading,
and an id that is drawn for it. -/
theorem mem_stamped {now : Instant} {ids : Nat → String} {n : Nat} {batch : List NewSnapshot}
    {q : SnapshotOf Instant Binary64} (hq : q ∈ stamped now ids n batch) :
    ∃ h ∈ batch, ∃ m, n ≤ m ∧ q = ⟨ids m, h.brandId, Price.toStored h.tradePrice,
      Price.toStored h.currentPrice, h.action, h.method, h.memo, now, now⟩ := by
  induction batch generalizing n with
  | nil => cases hq
  | cons h rest ih =>
    rcases List.mem_cons.mp hq with rfl | hq
    · exact ⟨h, by simp, n, Nat.le_refl n, rfl⟩
    · obtain ⟨h', hh', m, hm, rfl⟩ := ih hq
      exact ⟨h', List.mem_cons_of_mem h hh', m, by omega, rfl⟩

/-- Snapshots whose texts the store has accepted are sent again under other ids, at another time. -/
theorem exists_rows_again {batch : List NewSnapshot} {supply : Supply} (hsupply : supply.Storable)
    (htexts : ∀ h ∈ lastPerKey NewSnapshot.brandId batch, Binding.texts (texts h) = .ok ())
    {now : StoredTime} (hnow : Binding.time (supply.clock supply.ticks) = .ok now) :
    ∃ again : List SnapshotRow, (sent supply batch).map Binding.snapshot = again.map .ok ∧
      again.map SnapshotRow.storedColumns =
        (lastPerKey NewSnapshot.brandId batch).map NewSnapshot.storedColumns ∧
      ∀ row ∈ again, row.updatedAt = now := by
  have hbindable : ∀ q ∈ sent supply batch, ∃ r, Binding.snapshot q = .ok r := by
    intro q hq
    obtain ⟨h, hh, m, hm, rfl⟩ := mem_stamped hq
    refine ⟨⟨_, _, _, _, _, _, _, now, now⟩, Binding.snapshot_eq_ok_iff.mpr
      ⟨?_, hnow, hnow, rfl, rfl, rfl, rfl, rfl, rfl, rfl⟩⟩
    rw [Binding.texts, hsupply.text m hm]
    exact htexts h hh
  obtain ⟨again, hbound⟩ := Binding.exists_all_eq_ok hbindable
  rw [Binding.all_eq_ok_iff] at hbound
  have hcolumns := map_eq_map_of_imp (fun q r hr => columns_of_snapshot_eq_ok hr) hbound
  refine ⟨again, hbound, hcolumns.symm.trans (map_stamped _ _ _ _), fun row hrow => ?_⟩
  obtain ⟨q, hq, hqrow⟩ := exists_mem_of_map_eq hbound.symm hrow
  obtain ⟨x, -, m, -, rfl⟩ := mem_stamped hq
  obtain ⟨-, -, hupdated, -⟩ := Binding.snapshot_eq_ok_iff.mp hqrow
  rw [hnow] at hupdated
  exact (Except.ok.inj hupdated).symm

/-- No statement of a batch has two rows for one brand. -/
theorem nodup_brandIds (batch : List NewSnapshot) (supply : Supply) :
    ∀ piece ∈ chunks rowsPerStatement (sent supply batch), ∀ rows,
      Binding.all Binding.snapshot piece = .ok rows → (rows.map table.rule.key).Nodup := by
  intro piece hpiece rows hrows
  have hpieceBrands : piece.map SnapshotOf.brandId = rows.map SnapshotOf.brandId :=
    map_eq_map_of_imp (fun q r hr => congrArg Prod.fst (columns_of_snapshot_eq_ok hr))
      (Binding.all_eq_ok_iff.mp hrows)
  have hsentBrands : (sent supply batch).map SnapshotOf.brandId =
      (lastPerKey NewSnapshot.brandId batch).map NewSnapshot.brandId :=
    map_eq_map_of_imp (fun _ _ heq => congrArg Prod.fst heq) (map_stamped _ _ _ _)
  change (rows.map SnapshotOf.brandId).Nodup
  rw [← hpieceBrands]
  refine List.Nodup.sublist ((sublist_of_mem_chunks hpiece).map _) ?_
  rw [hsentBrands]
  exact nodup_keys_lastPerKey NewSnapshot.brandId batch

/-- A snapshot that is overwritten with the current price that it has changes in its time of change
alone. -/
theorem after_eq {again : List SnapshotRow} {r : SnapshotRow}
    (hprice : (table.rule.after again r).currentPrice = r.currentPrice) :
    table.rule.after again r = { r with updatedAt := (table.rule.after again r).updatedAt } := by
  have hgiven := columns.given_after again r
  have hkey := columns.key_after again r
  have hdrawn := columns.drawn_after again r
  generalize table.rule.after again r = r' at hprice hgiven hkey hdrawn
  obtain ⟨id, brandId, tradePrice, currentPrice, action, method, memo, createdAt, updatedAt⟩ := r'
  cases hprice
  cases hkey
  cases hgiven
  cases hdrawn
  rfl

/-- Rows for the brands of a batch, written at one time over rows whose current prices they have, touch
these. -/
theorem after_eq_touched {batch : List NewSnapshot} {again : List SnapshotRow}
    (hbrands : again.map SnapshotOf.brandId =
      (lastPerKey NewSnapshot.brandId batch).map NewSnapshot.brandId)
    {now : StoredTime} (hupdated : ∀ row ∈ again, row.updatedAt = now) {r : SnapshotRow}
    (hprice : (table.rule.after again r).currentPrice = r.currentPrice) :
    table.rule.after again r = touched batch now r := by
  have hmentioned : table.rule.key r ∈ again.map table.rule.key ↔
      r.brandId ∈ batch.map NewSnapshot.brandId := by
    change r.brandId ∈ again.map SnapshotOf.brandId ↔ _
    rw [hbrands, mem_keys_lastPerKey]
  rw [after_eq hprice, columns.replaced_after (fun _ _ => rfl) hupdated]
  unfold touched
  by_cases hmem : r.brandId ∈ batch.map NewSnapshot.brandId
  · rw [if_pos hmem, if_pos (hmentioned.mpr hmem)]
  · rw [if_neg hmem, if_neg (mt hmentioned.mp hmem)]

/-- A bulk write of snapshots that succeeded succeeds again, in every open session that has the same
snapshots and whose supply lasts, and gives those of its batch a new time of change. -/
theorem upsert_again {batch : List NewSnapshot} {s t v : Session} {n : Nat}
    (h : upsert batch s = (.ok n, t)) (hrows : v.store.snapshots = t.store.snapshots)
    (hopen : batch ≠ [] → v.Open) (hsupply : v.supply.Storable) {now : StoredTime}
    (hnow : Binding.time (v.supply.clock v.supply.ticks) = .ok now) :
    ∃ u, upsert batch v = (.ok n, u) ∧
      u.store = { v.store with snapshots := v.store.snapshots.map (touched batch now) } := by
  by_cases hbatch : batch = []
  · subst hbatch
    cases h
    refine ⟨v, rfl, ?_⟩
    rw [map_touched_nil]
  obtain ⟨written, hwritten, ht⟩ := upsert_eq_ok h
  have hstored : table.get v.store = written.foldl table.rule.put (table.get s.store) := by
    rw [← table.get_putAll, ← ht]
    exact hrows
  obtain ⟨again, hbound, hagain, hupdated⟩ := exists_rows_again hsupply (texts_of_upsert h) hnow
  have hvalues : again.map (fun r => (table.rule.key r, columns.values r)) =
      written.map fun r => (table.rule.key r, columns.values r) :=
    map_eq_map_of_imp (fun _ _ heq => congrArg (fun c => (c.1, c.2.2)) heq)
      (hagain.trans hwritten.symm)
  have hbrands : again.map SnapshotOf.brandId =
      (lastPerKey NewSnapshot.brandId batch).map NewSnapshot.brandId :=
    map_eq_map_of_imp (fun _ _ heq => congrArg Prod.fst heq) hagain
  have hflat : (chunks rowsPerStatement (sent v.supply batch)).flatten.map Binding.snapshot =
      again.map .ok := by rwa [flatten_chunks]
  obtain ⟨hkept, hsame⟩ := Table.keepEach_write_again columns hstored hflat hvalues
    (nodup_brandIds batch v.supply)
  obtain ⟨u, hu, hstore⟩ := upsert_of_keepEach hbatch (hopen hbatch) hkept
  refine ⟨u, ?_, hstore.trans (congrArg (table.set v.store) (List.map_congr_left fun r hr => ?_))⟩
  · rw [hu, count_of_upsert h, ← count_of_upsert hu]
  · exact after_eq_touched hbrands hupdated (hsame r hr)

end Snapshots

namespace Brands

/-- Reports on brands that were soft-deleted are passed over again. -/
theorem written_putAll {batch : List NewBrand} {rows stored : List BrandRow}
    (hactive : ∀ row ∈ rows, row.isActive = true) :
    written batch (rows.foldl BrandRow.rule.put stored) = written batch stored := by
  rw [written_eq, written_eq]
  simp only [softDeleted_foldl_put hactive]

/-- A brand that is overwritten with what it has does not change. -/
theorem after_eq {again : List BrandRow} {r : BrandRow}
    (hvalues : columns.values (table.rule.after again r) = columns.values r) :
    table.rule.after again r = r := by
  have hgiven := columns.given_after again r
  have hkey := columns.key_after again r
  have hdrawn := columns.drawn_after again r
  generalize table.rule.after again r = r' at hvalues hgiven hkey hdrawn
  obtain ⟨id, symbol, name, market, sector33, sector17, createdAt, updatedAt, deletedAt⟩ := r'
  cases hvalues
  cases hkey
  cases hgiven
  cases hdrawn
  rfl

theorem newBrand_at {createdAt : StoredTime} {b : NewBrand} {r : BrandRow}
    (h : Binding.newBrand createdAt b = .ok r) (now : StoredTime) :
    Binding.newBrand now b = .ok { r with createdAt := now } := by
  obtain ⟨htexts, hupdated, hid, hsymbol, hname, hmarket, hsector33, hsector17, -, hdeleted⟩ :=
    Binding.newBrand_eq_ok_iff.mp h
  exact Binding.newBrand_eq_ok_iff.mpr
    ⟨htexts, hupdated, hid, hsymbol, hname, hmarket, hsector33, hsector17, rfl, hdeleted⟩

theorem nodup_ids_written (batch : List NewBrand) (rows : List BrandRow) :
    ((written batch rows).map NewBrand.id).Nodup :=
  (nodup_keys_lastPerKey NewBrand.id batch).sublist (List.filter_sublist.map _)

/-- The statements of a bulk write of brands are all kept again, and leave the brands as they are. -/
theorem keepEach_writes_again {createdAt : StoredTime} {reports : List NewBrand}
    (hreports : (reports.map NewBrand.id).Nodup) {rows stored : List BrandRow}
    (hbound : reports.map (Binding.newBrand createdAt) = rows.map .ok) {s : Store}
    (hs : s.brands = rows.foldl table.rule.put stored) (now : StoredTime) :
    keepEach (writes now reports) s = (.ok reports.length, s) := by
  let again := rows.map fun r => { r with createdAt := now }
  have hagain : (chunks rowsPerStatement reports).flatten.map (Binding.newBrand now) =
      again.map .ok := by
    rw [flatten_chunks, List.map_map]
    exact map_eq_map_of_imp (fun b r hr => newBrand_at hr now) hbound
  have hvalues : again.map (fun r => (table.rule.key r, columns.values r)) =
      rows.map fun r => (table.rule.key r, columns.values r) := by
    rw [List.map_map]
    rfl
  have hapart : ∀ piece ∈ chunks rowsPerStatement reports, ∀ rows,
      Binding.all (Binding.newBrand now) piece = .ok rows → (rows.map table.rule.key).Nodup := by
    intro piece hpiece rows hrows
    have hids : piece.map NewBrand.id = rows.map Brand.id :=
      map_eq_map_of_imp (fun b r hr => congrArg Prod.fst (columns_of_newBrand_eq_ok hr))
        (Binding.all_eq_ok_iff.mp hrows)
    change (rows.map Brand.id).Nodup
    rw [← hids]
    exact hreports.sublist ((sublist_of_mem_chunks hpiece).map _)
  obtain ⟨hkept, hsame⟩ := Table.keepEach_write_again columns hs hagain hvalues hapart
  have hunchanged : s.brands.map (table.rule.after again) = s.brands := by
    conv_rhs => rw [← List.map_id s.brands]
    exact List.map_congr_left fun r hr => after_eq (hsame r hr)
  rw [flatten_chunks] at hkept
  change keepEach (writes now reports) s =
    (.ok reports.length, { s with brands := s.brands.map (table.rule.after again) }) at hkept
  rwa [hunchanged] at hkept

/-- A bulk write of brands that succeeded succeeds again, in every open session that has the same brands
and whose supply lasts, and changes nothing. -/
theorem upsert_again {batch : List NewBrand} {s t v : Session} {n : Nat}
    (h : upsert batch s = (.ok n, t)) (hrows : v.store.brands = t.store.brands) (hopen : batch ≠ [] → v.Open)
    (hsupply : v.supply.Storable) : ∃ u, upsert batch v = (.ok n, u) ∧ u.store = v.store := by
  by_cases hbatch : batch = []
  · subst hbatch
    cases h
    exact ⟨v, rfl, rfl⟩
  obtain ⟨now, hnow⟩ := hsupply.exists_time
  obtain ⟨htexts, ⟨hnone, rfl, ht⟩ | ⟨createdAt, hkept⟩⟩ := keepEach_of_upsert hbatch h
  · refine upsert_of_keepEach hbatch (hopen hbatch) htexts hnow ?_
    rw [hrows, ht, hnone, writes, chunks]
    rfl
  · obtain ⟨rows, hbound, ht⟩ := Table.keepEach_write hkept
    rw [flatten_chunks] at hbound
    have hactive : ∀ row ∈ rows, row.isActive = true := by
      intro row hrow
      obtain ⟨b, -, hb⟩ := exists_mem_of_map_eq hbound.symm hrow
      obtain ⟨-, -, -, -, -, -, -, -, -, hdeleted⟩ := Binding.newBrand_eq_ok_iff.mp hb
      rw [Brand.isActive, hdeleted]
      rfl
    have hstored : v.store.brands = rows.foldl table.rule.put s.store.brands := by
      rw [hrows, ht]
      rfl
    have hwritten : written batch v.store.brands = written batch s.store.brands := by
      rw [hstored]
      exact written_putAll hactive
    refine upsert_of_keepEach hbatch (hopen hbatch) htexts hnow ?_
    rw [hwritten, count_of_upsert h]
    exact keepEach_writes_again (nodup_ids_written batch s.store.brands) hbound hstored now

end Brands

end PriceArchive
