import PriceArchive.Proofs.Ingest.Closes
import PriceArchive.Proofs.Table.Written
import PriceArchive.Proofs.Work.Atomicity

namespace PriceArchive

namespace Ingest

theorem work_neverRollsBack (batch : List (NewQuote Instrument)) :
    (work batch).NeverRollsBack :=
  .call_bind fun _ => .call_bind fun _ => .call_bind fun _ => trivial

/-- An ingest that ends with its report has made its three bulk writes, one after the other, as they are
made on a server that can be reached. -/
theorem run_eq_ok {batch : List (NewQuote Instrument)} (hbatch : batch ≠ []) {s t : Session}
    (hs : s.transaction = none) {report : IngestReport} (h : run batch s = (.ok report, t)) :
    ∃ u v, u.server = .live ∧ u.transaction = none ∧ v.server = .live ∧ v.transaction = none ∧
      t.transaction = none ∧
      Quotes.upsert Series.daily batch s.solo = (.ok report.daily, u) ∧
      Quotes.upsert Series.forAnalysis (batch.map NewQuote.forAnalysis) u =
        (.ok report.forAnalysis, v) ∧
      Snapshots.upsert (latestCloses batch) v = (.ok report.snapshots, t.solo) := by
  have hempty : ¬ batch.isEmpty = true := by simpa using hbatch
  rw [run, if_neg hempty] at h
  obtain ⟨-, w, hw, rfl⟩ := Work.perform_of_committed (work_neverRollsBack batch) hs
    (Work.performAsUnit_of_runAsUnit h)
  have hw := Work.perform_solo_begun hw
  obtain ⟨daily, u, hdaily, hulive, hunone, hw⟩ := Work.perform_call_bind rfl rfl hw
  obtain ⟨forAnalysis, v, hanalysis, hvlive, hvnone, hw⟩ := Work.perform_call_bind hulive hunone hw
  obtain ⟨snapshots, t, hsnapshots, -, htnone, hw⟩ := Work.perform_call_bind hvlive hvnone hw
  obtain ⟨hreport, hleft⟩ := Prod.mk.inj hw
  cases hreport
  refine ⟨u, v, hulive, hunone, hvlive, hvnone, rfl, hdaily, hanalysis, ?_⟩
  rw [← Session.alone_enter htnone, hleft] at hsnapshots
  exact hsnapshots

/-- The session to which some ingests lead that all end with their report, made one after the other
from a store without rows and outside a transaction. -/
inductive Ran : List (List (NewQuote Instrument)) → Session → Prop where
  | start {s : Session} (hstore : s.store = .empty) (hs : s.transaction = none) : Ran [] s
  | ingest {batches : List (List (NewQuote Instrument))} {s t : Session}
    {batch : List (NewQuote Instrument)} {report : IngestReport} (hran : Ran batches s)
    (hrun : run batch s = (.ok report, t)) : Ran (batches ++ [batch]) t

/-- The quotes that are written, in order: of those in one batch with one symbol and date the last. -/
def written (batches : List (List (NewQuote Instrument))) : List (NewQuote Instrument) :=
  batches.flatMap (lastPerKey NewQuote.key)

/-- The snapshots that are written, in order. -/
def reported (batches : List (List (NewQuote Instrument))) : List NewSnapshot :=
  batches.flatMap latestCloses

/-- What the daily series and the snapshots are after some ingests: the stored rows of what was
written, put in one after the other. -/
structure Filled (batches : List (List (NewQuote Instrument))) (store : Store) : Prop where
  daily : ∃ rows : List (QuoteRow Instrument),
    rows.map QuoteRow.columns = (written batches).map NewQuote.columns ∧
      store.daily = rows.foldl Series.daily.table.rule.put []
  snapshots : ∃ rows : List SnapshotRow,
    rows.map (fun r => (r.brandId, r.currentPrice)) =
      (reported batches).map (fun h => (h.brandId, Price.toStored h.currentPrice)) ∧
      store.snapshots = rows.foldl Snapshots.table.rule.put []

theorem Filled.concat {batches : List (List (NewQuote Instrument))} {s t : Session}
    (hfilled : Filled batches s.store) (hs : s.transaction = none)
    {batch : List (NewQuote Instrument)} {report : IngestReport}
    (hrun : run batch s = (.ok report, t)) :
    Filled (batches ++ [batch]) t.store ∧ t.transaction = none := by
  by_cases hbatch : batch = []
  · subst hbatch
    cases hrun
    refine ⟨?_, hs⟩
    obtain ⟨hdaily, hsnapshots⟩ := hfilled
    constructor
    · simpa [written, lastPerKey] using hdaily
    · simpa [reported, latestCloses] using hsnapshots
  obtain ⟨u, v, -, -, -, -, htnone, hdaily, hanalysis, hsnapshots⟩ := run_eq_ok hbatch hs hrun
  obtain ⟨rows, hrows, hu⟩ := Quotes.upsert_eq_ok hdaily
  obtain ⟨_, -, hv⟩ := Quotes.upsert_eq_ok hanalysis
  obtain ⟨shots, hcolumns, ht⟩ := Snapshots.upsert_eq_ok hsnapshots
  rw [Session.solo_store] at hu ht
  have hshots : shots.map (fun r => (r.brandId, r.currentPrice)) =
      (lastPerKey NewSnapshot.brandId (latestCloses batch)).map
        fun h => (h.brandId, Price.toStored h.currentPrice) :=
    map_eq_map_of_imp (fun _ _ heq => congrArg (fun c => (c.1, c.2.2)) heq) hcolumns
  obtain ⟨⟨rows', hrows', hdaily'⟩, ⟨shots', hshots', hsnapshots'⟩⟩ := hfilled
  refine ⟨⟨⟨rows' ++ rows, ?_, ?_⟩, ⟨shots' ++ shots, ?_, ?_⟩⟩, htnone⟩
  · rw [List.map_append, hrows', hrows, written, written, List.flatMap_append, List.map_append]
    simp
  · rw [ht, hv, hu, List.foldl_append, ← hdaily']
    rfl
  · rw [lastPerKey_of_nodup (nodup_brandIds_latestCloses batch)] at hshots
    rw [List.map_append, hshots', hshots, reported, reported, List.flatMap_append, List.map_append]
    simp
  · rw [ht, hv, hu, List.foldl_append, ← hsnapshots']
    rfl

/-- Ingests that all end with their report have filled the daily series and the snapshots. -/
theorem Ran.filled {batches : List (List (NewQuote Instrument))} {s : Session}
    (hran : Ran batches s) : Filled batches s.store ∧ s.transaction = none := by
  induction hran with
  | start hstore hs =>
    refine ⟨⟨⟨[], rfl, ?_⟩, ⟨[], rfl, ?_⟩⟩, hs⟩
    · rw [hstore]
      rfl
    · rw [hstore]
      rfl
  | ingest _ hrun ih => exact ih.1.concat ih.2 hrun

end Ingest

end PriceArchive
