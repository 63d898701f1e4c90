import PriceArchive.Proofs.Action.BatchedWrites
import PriceArchive.Proofs.Action.Kept
import PriceArchive.Proofs.Ingest.LatestClose
import PriceArchive.Proofs.Work.Respects

namespace PriceArchive

/-- The daily series and the series for analysis have the same bars under the same keys. -/
def Store.InStep (s : Store) : Prop :=
  ∀ k bar, Series.daily.table.rule.Shows QuoteOf.bar s.daily k bar ↔
    Series.forAnalysis.table.rule.Shows QuoteOf.bar s.forAnalysis k bar

theorem Store.inStep_empty : Store.empty.InStep := by
  intro k bar
  simp [TableRule.Shows, Store.empty]

namespace Ingest

variable {batch : List (NewQuote Instrument)}

/-- The rows of a series on whose symbol and date a batch says nothing. -/
def unmentioned {σ : Type} [Subject σ] (batch : List (NewQuote Instrument)) (rows : List (QuoteRow σ)) :
    List (QuoteRow σ) :=
  rows.filter fun r => decide (∀ q ∈ batch, q.rowKey? ≠ some (QuoteOf.key r))

/-- Two stores differ in quotes on the symbols and dates of a batch and in snapshots of its brands, and
in nothing else. -/
structure ChangesOnly (batch : List (NewQuote Instrument)) (s t : Store) : Prop where
  daily : unmentioned batch t.daily = unmentioned batch s.daily
  forAnalysis : unmentioned batch t.forAnalysis = unmentioned batch s.forAnalysis
  snapshots :
    (t.snapshots.filter fun h => decide (h.brandId ∉ batch.map fun q => q.subject.brandId)) =
      s.snapshots.filter fun h => decide (h.brandId ∉ batch.map fun q => q.subject.brandId)
  brands : t.brands = s.brands
  nikkei : t.nikkei = s.nikkei
  topix : t.topix = s.topix
  volumeAverages : t.volumeAverages = s.volumeAverages

theorem mem_brandIds_latestCloses {b : String} :
    b ∈ (latestCloses batch).map NewSnapshot.brandId ↔ b ∈ batch.map fun q => q.subject.brandId := by
  have hsnapshots : b ∈ (latestCloses batch).map NewSnapshot.brandId ↔
      ((latestCloses batch).filter fun h => decide (h.brandId = b)) ≠ [] := by
    simp [List.filter_eq_nil_iff]
  have hquotes : b ∈ (batch.map fun q => q.subject.brandId) ↔ quotesOf b batch ≠ [] := by
    simp [quotesOf, List.filter_eq_nil_iff]
  rw [hsnapshots, hquotes, filter_latestCloses]
  constructor
  · intro hsome hnone
    rw [hnone] at hsome
    exact hsome rfl
  · intro hsome
    obtain ⟨q, hq⟩ := exists_newest NewQuote.byDate_trans NewQuote.byDate_total hsome
    simp [hq]

/-- An ingest writes one snapshot for each brand of its batch. -/
theorem length_brandIds_latestCloses (batch : List (NewQuote Instrument)) :
    ((latestCloses batch).map NewSnapshot.brandId).dedup.length =
      (batch.map fun q => q.subject.brandId).dedup.length := by
  refine List.Perm.length_eq ?_
  rw [List.perm_ext_iff_of_nodup (List.nodup_dedup _) (List.nodup_dedup _)]
  intro b
  rw [List.mem_dedup, List.mem_dedup, mem_brandIds_latestCloses]

/-- Rows with the columns of some quotes of a batch leave the other rows of a series alone. -/
theorem unmentioned_foldl_put {σ : Type} [Subject σ] (series : Series σ) {quotes : List (NewQuote σ)}
    (hquotes : ∀ q ∈ quotes, q.rowKey? ∈ batch.map NewQuote.rowKey?) {written : List (QuoteRow σ)}
    (hwritten : written.map QuoteRow.columns = quotes.map NewQuote.columns)
    (rows : List (QuoteRow σ)) :
    unmentioned batch (written.foldl series.table.rule.put rows) = unmentioned batch rows := by
  refine TableRule.filter_foldl_put_of_key series.table_keepsKey
    (p := fun k => decide (∀ q ∈ batch, q.rowKey? ≠ some k)) (fun row hrow => ?_) rows
  obtain ⟨q, hq, hshown⟩ := exists_mem_of_map_eq (QuoteRow.shown_of_columns hwritten) hrow
  rw [Prod.mk.injEq] at hshown
  obtain ⟨mention, hmention, hkey⟩ := List.mem_map.mp (hquotes q hq)
  rw [decide_eq_false_iff_not]
  exact fun hothers => hothers mention hmention (hkey.trans hshown.1)

/-- An ingest of some quotes that ends with its report was not made in a transaction. -/
theorem transaction_of_run_eq_ok (hbatch : batch ≠ []) {s t : Session} {report : IngestReport}
    (h : run batch s = (.ok report, t)) : s.transaction = none := by
  apply Classical.byContradiction
  intro hs
  have hempty : ¬ batch.isEmpty = true := by simpa using hbatch
  rw [run, if_neg hempty,
    Work.runAsUnit_of_inTransaction _ (Option.isSome_iff_ne_none.mpr hs)] at h
  cases h

/-- What an ingest that ends with its report has written: the bars of the batch under its keys in both
series, and the latest closes. -/
theorem exists_written_of_run {s t : Session} {report : IngestReport}
    (h : run batch s = (.ok report, t)) :
    ∃ (daily : List (QuoteRow Instrument)) (forAnalysis : List (QuoteRow Ticker))
      (snapshots : List SnapshotRow),
      daily.map QuoteRow.columns = (lastPerKey NewQuote.key batch).map NewQuote.columns ∧
        forAnalysis.map QuoteRow.columns =
          ((lastPerKey NewQuote.key batch).map NewQuote.forAnalysis).map NewQuote.columns ∧
        snapshots.map SnapshotRow.storedColumns =
          (latestCloses batch).map NewSnapshot.storedColumns ∧
        t.store = { s.store with
          daily := daily.foldl Series.daily.table.rule.put s.store.daily
          forAnalysis := forAnalysis.foldl Series.forAnalysis.table.rule.put s.store.forAnalysis
          snapshots := snapshots.foldl Snapshots.table.rule.put s.store.snapshots } := by
  by_cases hbatch : batch = []
  · subst hbatch
    cases h
    exact ⟨[], [], [], rfl, rfl, rfl, rfl⟩
  obtain ⟨u, v, -, -, -, -, -, hdaily, hanalysis, hsnapshots⟩ :=
    run_eq_ok hbatch (transaction_of_run_eq_ok hbatch h) h
  obtain ⟨daily, hdailyRows, hu⟩ := Quotes.upsert_eq_ok hdaily
  obtain ⟨forAnalysis, hanalysisRows, hv⟩ := Quotes.upsert_eq_ok hanalysis
  obtain ⟨snapshots, hsnapshotRows, ht⟩ := Snapshots.upsert_eq_ok hsnapshots
  refine ⟨daily, forAnalysis, snapshots, hdailyRows, ?_, ?_, ?_⟩
  · rw [hanalysisRows, ← lastPerKey_map NewQuote.key NewQuote.forAnalysis]
    rfl
  · rwa [lastPerKey_of_nodup (nodup_brandIds_latestCloses batch)] at hsnapshotRows
  · rw [← Session.solo_store t, ht, hv, hu]
    rfl

/-- An ingest that ends with its report keeps the two series in step. -/
theorem inStep_of_run {s t : Session} (hstep : s.store.InStep) {report : IngestReport}
    (h : run batch s = (.ok report, t)) : t.store.InStep := by
  obtain ⟨daily, forAnalysis, snapshots, hdaily, hanalysis, -, ht⟩ := exists_written_of_run h
  have hsame : daily.map (fun r => (QuoteOf.key r, r.bar)) =
      forAnalysis.map fun r => (QuoteOf.key r, r.bar) := by
    have hshown := QuoteRow.shown_of_columns hanalysis
    rw [List.map_map] at hshown
    refine map_eq_map_of_imp (fun r r' heq => ?_)
      ((QuoteRow.shown_of_columns hdaily).trans hshown.symm)
    rw [Prod.mk.injEq] at heq
    exact Prod.ext (Option.some.inj heq.1) (Except.ok.inj heq.2)
  rw [ht]
  exact TableRule.shows_foldl_put_iff Series.daily.table_keepsKey Series.forAnalysis.table_keepsKey
    (fun _ _ => rfl) (fun _ _ => rfl) hstep hsame

/-- An ingest that ends with its report has changed nothing else than what its batch is about. -/
theorem changesOnly_of_run {s t : Session} {report : IngestReport}
    (h : run batch s = (.ok report, t)) : ChangesOnly batch s.store t.store := by
  obtain ⟨daily, forAnalysis, snapshots, hdaily, hanalysis, hsnapshots, ht⟩ :=
    exists_written_of_run h
  have hmentioned : ∀ q ∈ lastPerKey NewQuote.key batch,
      q.rowKey? ∈ batch.map NewQuote.rowKey? := by
    intro q hq
    exact List.mem_map_of_mem (mem_of_mem_lastPerKey hq)
  have hbrands : ∀ h ∈ snapshots, h.brandId ∈ batch.map fun q => q.subject.brandId := by
    intro h hh
    obtain ⟨shot, hshot, hcolumns⟩ := exists_mem_of_map_eq hsnapshots hh
    have hbrand : shot.brandId = h.brandId := congrArg Prod.fst hcolumns
    rw [← mem_brandIds_latestCloses, ← hbrand]
    exact List.mem_map_of_mem hshot
  rw [ht]
  constructor
  · exact unmentioned_foldl_put Series.daily hmentioned hdaily s.store.daily
  · refine unmentioned_foldl_put Series.forAnalysis ?_ hanalysis s.store.forAnalysis
    intro q hq
    obtain ⟨q', hq', rfl⟩ := List.mem_map.mp hq
    exact hmentioned q' hq'
  · refine TableRule.filter_foldl_put_of_key Snapshots.table_keepsKey
      (p := fun b => decide (b ∉ batch.map fun q => q.subject.brandId)) ?_ s.store.snapshots
    intro h hh
    rw [decide_eq_false_iff_not, not_not]
    exact hbrands h hh
  all_goals rfl

/-- The report of an ingest gives the numbers of symbols and dates, in either series, and of brands in
its batch. -/
theorem report_of_run {s t : Session} {report : IngestReport} (h : run batch s = (.ok report, t)) :
    report = ⟨(batch.map NewQuote.key).dedup.length, (batch.map NewQuote.key).dedup.length,
      (batch.map fun q => q.subject.brandId).dedup.length⟩ := by
  by_cases hbatch : batch = []
  · subst hbatch
    cases h
    rfl
  obtain ⟨u, v, -, -, -, -, -, hdaily, hanalysis, hsnapshots⟩ :=
    run_eq_ok hbatch (transaction_of_run_eq_ok hbatch h) h
  have hkeys : (batch.map NewQuote.forAnalysis).map NewQuote.key = batch.map NewQuote.key := by
    rw [List.map_map]
    rfl
  obtain ⟨daily, forAnalysis, snapshots⟩ := report
  have hdailyCount : daily = _ := Quotes.count_of_upsert hdaily
  have hanalysisCount : forAnalysis = _ := Quotes.count_of_upsert hanalysis
  have hsnapshotCount : snapshots = _ := Snapshots.count_of_upsert hsnapshots
  rw [hkeys] at hanalysisCount
  rw [length_brandIds_latestCloses] at hsnapshotCount
  rw [hdailyCount, hanalysisCount, hsnapshotCount]

/-- An ingest that fails leaves the store as it was. -/
theorem store_of_run_eq_error {s t : Session} {halt : Halt} (h : run batch s = (.error halt, t)) :
    t.store = s.store := by
  by_cases hbatch : batch.isEmpty = true
  · rw [run, if_pos hbatch] at h
    cases h
  rw [run, if_neg hbatch] at h
  by_cases hs : s.transaction = none
  · rcases Work.runAsUnit_ok_or_restored (work_neverRollsBack batch) hs with
      ⟨report, u, hok⟩ | ⟨hstore, -⟩
    · rw [hok] at h
      cases h
    · rwa [h] at hstore
  · rw [Work.runAsUnit_of_inTransaction _ (Option.isSome_iff_ne_none.mpr hs)] at h
    cases h
    rfl

theorem inStep_run {s : Session} (hstep : s.store.InStep) (batch : List (NewQuote Instrument)) :
    (run batch s).2.store.InStep := by
  rcases hrun : run batch s with ⟨halt | report, t⟩
  · rwa [store_of_run_eq_error hrun]
  · exact inStep_of_run hstep hrun

/-- The session after some ingests, one after the other, however each of them ends. -/
def after (batches : List (List (NewQuote Instrument))) (s : Session) : Session :=
  batches.foldl (fun s batch => (run batch s).2) s

theorem inStep_after {s : Session} (hstep : s.store.InStep)
    (batches : List (List (NewQuote Instrument))) : (after batches s).store.InStep := by
  unfold after
  induction batches generalizing s with
  | nil => exact hstep
  | cons batch batches ih => exact ih (inStep_run hstep batch)

/-- When the two daily series are in step they are in step again after every sequence of ingests. One
more ingest then either fails and leaves every table as it was, or it ends with a report of how many
symbols and dates, and how many brands, its batch has, and it has changed only quotes on these symbols
and dates, in both series, and snapshots of these brands. -/
theorem ingests_keep_series_in_step {s : Session} (hstep : s.store.InStep)
    (batches : List (List (NewQuote Instrument))) (batch : List (NewQuote Instrument)) :
    let t := after batches s
    t.store.InStep ∧
      (∀ halt u, run batch t = (.error halt, u) → u.store = t.store) ∧
      ∀ report u, run batch t = (.ok report, u) →
        u.store.InStep ∧ ChangesOnly batch t.store u.store ∧
          report = ⟨(batch.map NewQuote.key).dedup.length, (batch.map NewQuote.key).dedup.length,
            (batch.map fun q => q.subject.brandId).dedup.length⟩ := by
  intro t
  have ht : t.store.InStep := inStep_after hstep batches
  refine ⟨ht, fun halt u h => store_of_run_eq_error h, fun report u h => ?_⟩
  exact ⟨inStep_of_run ht h, changesOnly_of_run h, report_of_run h⟩

/-- A quote whose volume the store cannot hold. -/
def oversizeQuote : NewQuote Instrument :=
  ⟨⟨"1002", "b2"⟩, .epoch, Bar.make default default default default 9223372036854775808⟩

theorem inStep_afterSixthDay : afterSixthDay.store.InStep :=
  inStep_run (s := Work.quietStart) Store.inStep_empty [sixthDay]

/-- An ingest that fails between two that write, and one more. -/
theorem ingests_keep_series_in_step_backfill :
    let t := after [[fourthDay, oversizeQuote], [fourthDay]] afterSixthDay
    afterSixthDay.store.InStep ∧ t.store.InStep ∧ t.store.daily.length = 2 ∧
      (run [sixthDay, sixthDay] t).2.store.InStep ∧
      ChangesOnly [sixthDay, sixthDay] t.store (run [sixthDay, sixthDay] t).2.store ∧
      (run [oversizeQuote] t).2.store = t.store := by
  intro t
  have hkept := ingests_keep_series_in_step inStep_afterSixthDay
    [[fourthDay, oversizeQuote], [fourthDay]]
  obtain ⟨hstep, -, hends⟩ := hkept [sixthDay, sixthDay]
  have hok : run [sixthDay, sixthDay] t = (.ok ⟨1, 1, 1⟩, (run [sixthDay, sixthDay] t).2) :=
    Prod.ext (by decide +kernel) rfl
  have hfails : run [oversizeQuote] t =
      (.error (.error (.conversion (ConversionError.volumeTooLarge 9223372036854775808).message)),
        (run [oversizeQuote] t).2) :=
    Prod.ext (by decide +kernel) rfl
  obtain ⟨hagain, hchanges, -⟩ := hends _ _ hok
  exact ⟨inStep_afterSixthDay, hstep, by decide +kernel, hagain, hchanges,
    (hkept [oversizeQuote]).2.1 _ _ hfails⟩

end Ingest

end PriceArchive
