import PriceArchive.Proofs.Ingest.InStep

namespace PriceArchive

theorem Instant.not_le {a b : Instant} : ¬ a ≤ b ↔ b < a := by
  change ¬ Instant.Le a b ↔ Instant.Lt b a
  unfold Instant.Le Instant.Lt
  omega

namespace Ingest

variable {batch : List (NewQuote Instrument)} {b : String} {q : NewQuote Instrument}

/-- An entry of a batch is the last of those on a brand that have its greatest date. -/
def IsLatestEntry (b : String) (batch : List (NewQuote Instrument)) (q : NewQuote Instrument) : Prop :=
  q.subject.brandId = b ∧ ∃ before after, batch = before ++ q :: after ∧
    (∀ p ∈ before, p.subject.brandId = b → p.date ≤ q.date) ∧
      ∀ p ∈ after, p.subject.brandId = b → p.date < q.date

/-- The dates of a batch are in whole microseconds and outside of leap seconds, and it uses no symbol with
two brands on one date. -/
structure Unambiguous (batch : List (NewQuote Instrument)) : Prop where
  whole : ∀ q ∈ batch, q.date.nanos % 1000 = 0 ∧ q.date.inLeapSecond = false
  oneBrand : ∀ p ∈ batch, ∀ q ∈ batch, p.subject.symbol = q.subject.symbol → p.date = q.date →
    p.subject.brandId = q.subject.brandId

theorem isLatestEntry_iff_newest :
    IsLatestEntry b batch q ↔ newest NewQuote.byDate (quotesOf b batch) = some q := by
  rw [newest_eq_some_iff NewQuote.byDate_trans NewQuote.byDate_total]
  simp only [NewQuote.byDate, decide_eq_true_eq, Instant.not_le]
  constructor
  · rintro ⟨hb, before, after, rfl, hbefore, hafter⟩
    refine ⟨quotesOf b before, quotesOf b after, ?_, fun p hp => ?_, fun p hp => ?_⟩
    · simp [quotesOf, hb]
    · exact hbefore p (mem_quotesOf.mp hp).1 (mem_quotesOf.mp hp).2
    · exact hafter p (mem_quotesOf.mp hp).1 (mem_quotesOf.mp hp).2
  · rintro ⟨earlier, later, hsplit, hearlier, hlater⟩
    obtain ⟨before, rest, rfl, hbefore, hrest⟩ := List.filter_eq_append_iff.mp hsplit
    obtain ⟨between, after, rfl, hnone, hq, hafter⟩ := List.filter_eq_cons_iff.mp hrest
    refine ⟨of_decide_eq_true hq, before ++ between, after, by simp, fun p hp hb => ?_,
      fun p hp hb => hlater p (hafter ▸ mem_quotesOf.mpr ⟨hp, hb⟩)⟩
    rcases List.mem_append.mp hp with hp | hp
    · exact hearlier p (hbefore ▸ mem_quotesOf.mpr ⟨hp, hb⟩)
    · exact absurd (decide_eq_true hb) (hnone p hp)

theorem exists_isLatestEntry (hb : b ∈ batch.map fun q => q.subject.brandId) :
    ∃ q, IsLatestEntry b batch q := by
  obtain ⟨p, hp, hpb⟩ := List.mem_map.mp hb
  obtain ⟨q, hq⟩ := exists_newest NewQuote.byDate_trans NewQuote.byDate_total
    (List.ne_nil_of_mem (mem_quotesOf.mpr ⟨hp, hpb⟩))
  exact ⟨q, isLatestEntry_iff_newest.mpr hq⟩

/-- The entry that settles the ties of a brand is also the last one with its symbol and date. -/
theorem IsLatestEntry.mem_lastPerKey (hq : IsLatestEntry b batch q) (hbatch : Unambiguous batch) :
    q ∈ lastPerKey NewQuote.key batch := by
  obtain ⟨hb, before, after, rfl, -, hafter⟩ := hq
  refine mem_lastPerKey_iff_append.mpr ⟨before, after, rfl, fun p hp hkey => ?_⟩
  obtain ⟨hsymbol, hdate⟩ := Prod.mk.inj hkey
  have hbrand := hbatch.oneBrand p (by simp [hp]) q (by simp) (key_eq_iff.mp hsymbol) hdate
  have hlt := hafter p hp (hbrand.trans hb)
  rw [hdate, ← Instant.not_le] at hlt
  exact hlt ((Instant.le_total q.date q.date).elim id id)

/-- No two of the quotes that are kept are stored under one key. -/
theorem Unambiguous.eq_of_rowKey? (hbatch : Unambiguous batch) {p : NewQuote Instrument}
    (hp : p ∈ lastPerKey NewQuote.key batch) (hq : q ∈ lastPerKey NewQuote.key batch)
    {k : List String × StoredTime} (hpk : p.rowKey? = some k) (hqk : q.rowKey? = some k) : p = q := by
  obtain ⟨d, hpd, rfl⟩ := Option.map_eq_some_iff.mp hpk
  obtain ⟨d', hqd, hkey⟩ := Option.map_eq_some_iff.mp hqk
  obtain ⟨hsymbol, rfl⟩ := Prod.mk.inj hkey
  have hdate : p.date = q.date := by
    refine Instant.eq_of_truncate_eq (hbatch.whole p (mem_of_mem_lastPerKey hp))
      (hbatch.whole q (mem_of_mem_lastPerKey hq)) ?_
    rw [← StoredTime.micros_of_ofInstant? hpd, ← StoredTime.micros_of_ofInstant? hqd]
  refine List.inj_on_of_nodup_map (nodup_keys_lastPerKey NewQuote.key batch) hp hq ?_
  rw [NewQuote.key, NewQuote.key, hsymbol, hdate]

/-- A series to which quotes are written has, under the key of one that shares it with no other, the close
of that quote alone. -/
theorem shows_close {σ : Type} [Subject σ] (series : Series σ) {quotes : List (NewQuote σ)}
    {written : List (QuoteRow σ)} (hwritten : written.map QuoteRow.columns = quotes.map NewQuote.columns)
    {q : NewQuote σ} (hq : q ∈ quotes)
    (hunique : ∀ p ∈ quotes, ∀ k, p.rowKey? = some k → q.rowKey? = some k → p = q)
    (rows : List (QuoteRow σ)) :
    ∃ k, q.rowKey? = some k ∧ ∀ price,
      series.table.rule.Shows (fun r => r.bar.closing) (written.foldl series.table.rule.put rows) k price ↔
        price = Price.toStored q.bar.closing := by
  have hshown := QuoteRow.shown_of_columns hwritten
  obtain ⟨row, hrow, hcolumns⟩ := exists_mem_of_map_eq hshown.symm hq
  obtain ⟨hkey, hbar⟩ := Prod.mk.inj hcolumns
  refine ⟨QuoteOf.key row, hkey.symm, fun price => ?_⟩
  rw [← Bar.closing_of_toStored hbar.symm]
  refine TableRule.shows_foldl_put_of_mem series.table_keepsKey (fun _ _ => rfl) hrow fun r hr hsame => ?_
  obtain ⟨p, hp, hpcolumns⟩ := exists_mem_of_map_eq hshown hr
  obtain ⟨hpkey, hpbar⟩ := Prod.mk.inj hpcolumns
  have hsame : QuoteOf.key r = QuoteOf.key row := hsame
  have hpq : p = q := hunique p hp _ (hpkey.trans (congrArg some hsame)) hkey.symm
  rw [hpq, ← hbar] at hpbar
  exact congrArg (fun bar : StoredBar => bar.closing) (Except.ok.inj hpbar).symm

/-- The latest closes have one snapshot of a brand, with the close of its latest entry. -/
theorem latestCloses_of_brand (hq : IsLatestEntry b batch q) {h : NewSnapshot} :
    h ∈ latestCloses batch ∧ h.brandId = b ↔ h = .ofPrice b q.bar.closing := by
  have hcloses := filter_latestCloses batch b
  rw [isLatestEntry_iff_newest.mp hq, Option.map_some, hq.1, Option.toList_some] at hcloses
  have hmem : h ∈ ((latestCloses batch).filter fun h => decide (h.brandId = b)) ↔
      h = .ofPrice b q.bar.closing := by
    rw [hcloses, List.mem_singleton]
  rwa [List.mem_filter, decide_eq_true_eq] at hmem

/-- The latest closes put into the snapshots, a brand shows the close of its latest entry alone. -/
theorem shows_currentPrice (hq : IsLatestEntry b batch q) {written : List SnapshotRow}
    (hwritten : written.map SnapshotRow.storedColumns =
      (latestCloses batch).map NewSnapshot.storedColumns) (rows : List SnapshotRow) (price : Binary64) :
    Snapshots.table.rule.Shows SnapshotOf.currentPrice
        (written.foldl Snapshots.table.rule.put rows) b price ↔ price = Price.toStored q.bar.closing := by
  obtain ⟨row, hrow, hcolumns⟩ := exists_mem_of_map_eq hwritten.symm ((latestCloses_of_brand hq).mpr rfl).1
  have hbrand : row.brandId = b := congrArg Prod.fst hcolumns
  have hprice : row.currentPrice = Price.toStored q.bar.closing := congrArg (fun c => c.2.2) hcolumns
  rw [← hprice, ← hbrand]
  refine TableRule.shows_foldl_put_of_mem Snapshots.table_keepsKey (fun _ _ => rfl) hrow
    fun r hr hsame => ?_
  obtain ⟨h, hh, hrcolumns⟩ := exists_mem_of_map_eq hwritten hr
  have hhb : h.brandId = b := (congrArg Prod.fst hrcolumns).trans (hsame.trans hbrand)
  rw [(latestCloses_of_brand hq).mp ⟨hh, hhb⟩] at hrcolumns
  rw [hprice]
  exact (congrArg (fun c => c.2.2) hrcolumns).symm

/-- The latest closes are in the order of brands, each brand of the batch once. -/
theorem brandIds_latestCloses_ascend (batch : List (NewQuote Instrument)) :
    ((latestCloses batch).map NewSnapshot.brandId).Pairwise (· < ·) := by
  rw [latestCloses, List.map_map, List.pairwise_map]
  exact sorted_foldl_note batch List.Pairwise.nil

theorem tradePrice_of_mem_latestCloses {h : NewSnapshot} (hh : h ∈ latestCloses batch) :
    h.tradePrice = h.currentPrice := by
  obtain ⟨c, -, rfl⟩ := List.mem_map.mp hh
  rfl

/-- After an ingest that ends with its report, the snapshot of every brand of the batch has the close of the
brand's latest entry: the last of its entries for its greatest date. If the batch is unambiguous, the two
daily series have that close as well under the symbol and date of the entry. The latest closes give each
brand of the batch once, in ascending order, with one price for the trade and as the current one. -/
theorem ties_settled_alike {s t : Session} {batch : List (NewQuote Instrument)} {report : IngestReport}
    (h : run batch s = (.ok report, t)) :
    (∀ b ∈ batch.map fun q => q.subject.brandId, ∃ q, IsLatestEntry b batch q) ∧
      (∀ b q, IsLatestEntry b batch q →
        (∀ price, Snapshots.table.rule.Shows SnapshotOf.currentPrice t.store.snapshots b price ↔
          price = Price.toStored q.bar.closing) ∧
        (Unambiguous batch → ∃ date, StoredTime.ofInstant? q.date = some date ∧ ∀ price,
          (Series.daily.table.rule.Shows (fun r => r.bar.closing) t.store.daily
              ([q.subject.symbol], date) price ↔ price = Price.toStored q.bar.closing) ∧
            (Series.forAnalysis.table.rule.Shows (fun r => r.bar.closing) t.store.forAnalysis
              ([q.subject.symbol], date) price ↔ price = Price.toStored q.bar.closing))) ∧
      ((latestCloses batch).map NewSnapshot.brandId).Pairwise (· < ·) ∧
      (∀ b, b ∈ (latestCloses batch).map NewSnapshot.brandId ↔
        b ∈ batch.map fun q => q.subject.brandId) ∧
      ∀ snapshot ∈ latestCloses batch, snapshot.tradePrice = snapshot.currentPrice := by
  refine ⟨fun b hb => exists_isLatestEntry hb, fun b q hq => ?_, brandIds_latestCloses_ascend batch,
    fun b => mem_brandIds_latestCloses, fun _ hsnapshot => tradePrice_of_mem_latestCloses hsnapshot⟩
  obtain ⟨daily, forAnalysis, snapshots, hdaily, hanalysis, hsnapshots, ht⟩ := exists_written_of_run h
  rw [ht]
  refine ⟨shows_currentPrice hq hsnapshots s.store.snapshots, fun hbatch => ?_⟩
  have hkept := hq.mem_lastPerKey hbatch
  obtain ⟨k, hk, hdailyCloses⟩ := shows_close Series.daily hdaily hkept
    (fun p hp _ hpk hqk => hbatch.eq_of_rowKey? hp hkept hpk hqk) s.store.daily
  obtain ⟨k', hk', hanalysisCloses⟩ := shows_close Series.forAnalysis hanalysis
    (List.mem_map_of_mem hkept)
    (List.forall_mem_map.mpr fun p hp _ hpk hqk =>
      congrArg NewQuote.forAnalysis (hbatch.eq_of_rowKey? hp hkept hpk hqk))
    s.store.forAnalysis
  -- The two series name a row alike, as the brand is no part of its key.
  obtain rfl : k' = k := Option.some.inj (hk'.symm.trans hk)
  obtain ⟨date, hdate, rfl⟩ := Option.map_eq_some_iff.mp hk
  exact ⟨date, hdate, fun price => ⟨hdailyCloses price, hanalysisCloses price⟩⟩

/-- A quote on another brand than that of the example. -/
def onSecondBrand (q : NewQuote Instrument) : NewQuote Instrument := { q with subject := ⟨"1002", "b2"⟩ }

/-- The sixth day once more, at 110. -/
def sixthDayAgain : NewQuote Instrument :=
  quoteAt sixthDay.date (.ofParts false 110 0 (by decide) (Nat.zero_le _))

/-- Quotes on two brands by turns, with the sixth day of the first brand twice. -/
def tiedBatch : List (NewQuote Instrument) :=
  [sixthDay, onSecondBrand fourthDay, sixthDayAgain, fourthDay, onSecondBrand sixthDay]

theorem ties_settled_alike_tiedBatch :
    ∃ t, run tiedBatch Work.quietStart = (.ok ⟨4, 4, 2⟩, t) ∧
      IsLatestEntry "b1" tiedBatch sixthDayAgain ∧ Unambiguous tiedBatch ∧
      Snapshots.table.rule.Shows SnapshotOf.currentPrice t.store.snapshots "b1"
        (Price.toStored sixthDayAgain.bar.closing) ∧
      ∃ date, StoredTime.ofInstant? sixthDay.date = some date ∧
        ∀ price, Series.daily.table.rule.Shows (fun r => r.bar.closing) t.store.daily (["1001"], date)
          price ↔ price = Price.toStored sixthDayAgain.bar.closing := by
  have hrun : run tiedBatch Work.quietStart =
      (.ok ⟨4, 4, 2⟩, (run tiedBatch Work.quietStart).2) := Prod.ext (by decide +kernel) rfl
  have hlatest : IsLatestEntry "b1" tiedBatch sixthDayAgain :=
    ⟨rfl, [sixthDay, onSecondBrand fourthDay], [fourthDay, onSecondBrand sixthDay], rfl,
      by decide +kernel, by decide +kernel⟩
  have hbatch : Unambiguous tiedBatch := ⟨by decide +kernel, by decide +kernel⟩
  obtain ⟨-, hsettled, -⟩ := ties_settled_alike hrun
  obtain ⟨hsnapshot, hseries⟩ := hsettled "b1" sixthDayAgain hlatest
  obtain ⟨date, hdate, hshown⟩ := hseries hbatch
  exact ⟨_, hrun, hlatest, hbatch, (hsnapshot _).mpr rfl, date, hdate, fun price => (hshown price).1⟩

end Ingest

end PriceArchive
