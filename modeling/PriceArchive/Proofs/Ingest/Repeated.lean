import PriceArchive.Proofs.Action.PartialWrites
import PriceArchive.Proofs.Action.Repeated
import PriceArchive.Proofs.Brands.Hidden
import PriceArchive.Proofs.Ingest.InStep

namespace PriceArchive

open Session

/-- A store after a bulk write that it took is made once more: the rows of the batch have a new time of
change, and brands have not even that. -/
def Call.touched (now : StoredTime) : Call → Store → Store
  | upsertDaily batch, store => { store with daily := store.daily.map (Quotes.touched batch now) }
  | upsertForAnalysis batch, store =>
    { store with forAnalysis := store.forAnalysis.map (Quotes.touched batch now) }
  | upsertSnapshots batch, store =>
    { store with snapshots := store.snapshots.map (Snapshots.touched batch now) }
  | upsertIndex index batch, store =>
    (Series.ofIndex index).set store
      (((Series.ofIndex index).get store).map (Quotes.touched batch now))
  | _, store => store

/-- What a call leaves of the supply can be stored if all of it can. -/
theorem Call.storable_of_perform {c : Call} {s t : Session} {x : c.Reply}
    (hsupply : s.supply.Storable) (h : c.perform s = (.ok x, t)) : t.supply.Storable := by
  have hadvances := c.perform_sends.advances s
  rw [h] at hadvances
  exact hsupply.advances hadvances

theorem Call.live_of_perform {c : Call} {s t : Session} {x : c.Reply} (hlive : s.server = .live)
    (hs : s.transaction = none) (h : c.perform s = (.ok x, t)) :
    t.server = .live ∧ t.transaction = none := by
  have halone := c.perform_sends.stays_live hlive hs
  rwa [h] at halone

/-- A bulk write that succeeded succeeds again with the same count. -/
theorem Call.perform_again {c : Call} (hc : c.isBulk = true) {s t : Session} {x : c.Reply}
    (hsupply : s.supply.Storable) (h : c.perform s = (.ok x, t)) (hserver : s.StaysConnected t) {now : StoredTime}
    (hnow : Binding.time (t.supply.clock t.supply.ticks) = .ok now) :
    ∃ u, c.perform t = (.ok x, u) ∧ u.store = c.touched now t.store := by
  have hstorable := storable_of_perform hsupply h
  cases c with
  | upsertBrands batch =>
    exact Brands.upsert_again h rfl (fun hbatch => Brands.open_of_upsert hbatch h hserver) hstorable
  | upsertDaily batch =>
    exact Quotes.upsert_again h rfl (fun hbatch => Quotes.open_of_upsert hbatch h hserver) hstorable
      hnow
  | upsertForAnalysis batch =>
    exact Quotes.upsert_again h rfl (fun hbatch => Quotes.open_of_upsert hbatch h hserver) hstorable
      hnow
  | upsertSnapshots batch =>
    exact Snapshots.upsert_again h rfl (fun hbatch => Snapshots.open_of_upsert hbatch h hserver)
      hstorable hnow
  | upsertIndex index batch =>
    exact Quotes.upsert_again h rfl (fun hbatch => Quotes.open_of_upsert hbatch h hserver) hstorable
      hnow
  | _ => cases hc

namespace Ingest

variable {batch : List (NewQuote Instrument)}

/-- A store after an ingest that it took is made once more: the quotes and the snapshots of the batch
have a new time of change, in each table that of its own write. -/
def touched (batch : List (NewQuote Instrument)) (daily forAnalysis snapshots : StoredTime)
    (store : Store) : Store :=
  { store with
    daily := store.daily.map (Quotes.touched batch daily)
    forAnalysis :=
      store.forAnalysis.map (Quotes.touched (batch.map NewQuote.forAnalysis) forAnalysis)
    snapshots := store.snapshots.map (Snapshots.touched (latestCloses batch) snapshots) }

/-- Three bulk writes that succeed one after the other make up an ingest. -/
theorem run_of_upserts (hbatch : batch ≠ []) {s u v t : Session} (hlive : s.server = .live)
    (hs : s.transaction = none) {report : IngestReport}
    (hdaily : Quotes.upsert Series.daily batch s = (.ok report.daily, u))
    (hanalysis : Quotes.upsert Series.forAnalysis (batch.map NewQuote.forAnalysis) u =
      (.ok report.forAnalysis, v))
    (hsnapshots : Snapshots.upsert (latestCloses batch) v = (.ok report.snapshots, t)) :
    run batch s = (.ok report, t) := by
  have hempty : ¬ batch.isEmpty = true := by simpa using hbatch
  obtain ⟨hulive, hunone, hfirst⟩ :=
    Work.perform_call_bind_of_ok (c := .upsertDaily batch) hlive hs hdaily s.store none
  obtain ⟨hvlive, hvnone, hsecond⟩ :=
    Work.perform_call_bind_of_ok (c := .upsertForAnalysis _) hulive hunone hanalysis s.store none
  obtain ⟨-, htnone, hthird⟩ :=
    Work.perform_call_bind_of_ok (c := .upsertSnapshots _) hvlive hvnone hsnapshots s.store none
  rw [run, if_neg hempty]
  refine Work.runAsUnit_of_perform (by rw [hlive]; rfl) hs htnone ?_
  rw [begun, asked_of_live hlive]
  exact (hfirst _).trans ((hsecond _).trans (hthird _))

theorem touched_nil (store : Store) (daily forAnalysis snapshots : StoredTime) :
    touched [] daily forAnalysis snapshots store = store := by
  unfold touched
  rw [List.map_nil, Quotes.map_touched_nil, Quotes.map_touched_nil]
  change { store with snapshots := store.snapshots.map (Snapshots.touched [] snapshots) } = store
  rw [Snapshots.map_touched_nil]

/-- On a steady server the connection for an ingest says that there are others. -/
theorem live_of_run_eq_ok (hbatch : batch ≠ []) {s t : Session} (hsteady : s.server.Steady)
    {report : IngestReport} (h : run batch s = (.ok report, t)) : t.server = .live := by
  have hs := transaction_of_run_eq_ok hbatch h
  rw [run, if_neg (by simpa using hbatch)] at h
  obtain ⟨hgiven, w, hw, rfl⟩ := Work.perform_of_committed (work_neverRollsBack batch) hs
    (Work.performAsUnit_of_runAsUnit h)
  have hready : s.Ready := by rwa [Ready, hs]
  have hopen := hready.isOpen hsteady
  rw [Open, hs] at hopen
  have hserver : w.server = s.server.asked := Work.server_of_perform rfl hw
  exact hserver.trans (by rw [hopen]; rfl)

/-- An ingest that succeeded succeeds again with the same report. -/
theorem run_again {s t : Session} {report : IngestReport} (hsupply : s.supply.Storable)
    (h : run batch s = (.ok report, t)) (hserver : s.StaysConnected t) :
    ∃ u a b c, run batch t = (.ok report, u) ∧ u.store = touched batch a b c t.store := by
  by_cases hbatch : batch = []
  · subst hbatch
    cases h
    obtain ⟨now, -⟩ := hsupply.exists_time
    exact ⟨s, now, now, now, rfl, (touched_nil s.store now now now).symm⟩
  have hsnone := transaction_of_run_eq_ok hbatch h
  obtain ⟨s₁, s₂, hlive₁, hs₁, hlive₂, hs₂, htnone, hdaily, hanalysis, hsnapshots⟩ :=
    run_eq_ok hbatch hsnone h
  have htlive : t.server = .live := by
    rcases hserver with hsteady | hopen
    · exact live_of_run_eq_ok hbatch hsteady h
    · rwa [Open, htnone] at hopen
  have htsolo : t.solo = t := by rw [solo, ← htlive, ← htnone]
  rw [htsolo] at hsnapshots
  have hsupply₁ := Call.storable_of_perform (c := .upsertDaily batch) (s := s.solo) hsupply hdaily
  have hsupply₂ := Call.storable_of_perform (c := .upsertForAnalysis _) hsupply₁ hanalysis
  have hsupplyt := Call.storable_of_perform (c := .upsertSnapshots _) hsupply₂ hsnapshots
  obtain ⟨_, -, hstore₂⟩ := Quotes.upsert_eq_ok hanalysis
  obtain ⟨_, -, hstoret⟩ := Snapshots.upsert_eq_ok hsnapshots
  -- The later writes have left the earlier rows alone, so each of the three finds its own again.
  have hdailyRows : t.store.daily = s₁.store.daily := by
    rw [hstoret, hstore₂]
    rfl
  have hanalysisRows : t.store.forAnalysis = s₂.store.forAnalysis := by
    rw [hstoret]
    rfl
  obtain ⟨a, ha⟩ := hsupplyt.exists_time
  obtain ⟨u₁, hdaily', hstore₁'⟩ := Quotes.upsert_again hdaily hdailyRows
    (fun _ => open_of_live htlive htnone) hsupplyt ha
  obtain ⟨hlive₁', hnone₁'⟩ := Call.live_of_perform (c := .upsertDaily batch) htlive htnone hdaily'
  have hsupply₁' := Call.storable_of_perform (c := .upsertDaily batch) hsupplyt hdaily'
  obtain ⟨b, hb⟩ := hsupply₁'.exists_time
  obtain ⟨u₂, hanalysis', hstore₂'⟩ := Quotes.upsert_again (v := u₁) hanalysis
    (by rw [hstore₁']; exact hanalysisRows) (fun _ => open_of_live hlive₁' hnone₁') hsupply₁' hb
  obtain ⟨hlive₂', hnone₂'⟩ :=
    Call.live_of_perform (c := .upsertForAnalysis _) hlive₁' hnone₁' hanalysis'
  have hsupply₂' := Call.storable_of_perform (c := .upsertForAnalysis _) hsupply₁' hanalysis'
  obtain ⟨c, hc⟩ := hsupply₂'.exists_time
  obtain ⟨u, hsnapshots', hstore'⟩ := Snapshots.upsert_again (v := u₂) hsnapshots
    (by rw [hstore₂', hstore₁']; rfl) (fun _ => open_of_live hlive₂' hnone₂') hsupply₂' hc
  refine ⟨u, a, b, c, run_of_upserts hbatch htlive htnone hdaily' hanalysis' hsnapshots', ?_⟩
  rw [hstore', hstore₂', hstore₁']
  rfl

end Ingest

/-- While clock readings and ids can be stored and there are connections as before, a bulk write or an
ingest that succeeded succeeds again with the same count or report when it is made once more at once. Then no table is different but for the
times of change of the quotes and snapshots of its batch; those of brands are their reports' and stay. -/
theorem repeated_writes_change_only_times {s : Session} (hsupply : s.supply.Storable) :
    (∀ (c : Call) (x : c.Reply) (t : Session), c.isBulk = true → c.perform s = (.ok x, t) →
      s.StaysConnected t →
        ∃ now u, c.perform t = (.ok x, u) ∧ u.store = c.touched now t.store) ∧
    ∀ (batch : List (NewQuote Instrument)) (report : IngestReport) (t : Session),
      Ingest.run batch s = (.ok report, t) → s.StaysConnected t →
        ∃ daily forAnalysis snapshots u, Ingest.run batch t = (.ok report, u) ∧
          u.store = Ingest.touched batch daily forAnalysis snapshots t.store := by
  constructor
  · intro c x t hc h hserver
    obtain ⟨now, hnow⟩ := (Call.storable_of_perform hsupply h).exists_time
    exact ⟨now, Call.perform_again hc hsupply h hserver hnow⟩
  · intro batch report t h hserver
    obtain ⟨u, daily, forAnalysis, snapshots, hrun, hstore⟩ := Ingest.run_again hsupply h hserver
    exact ⟨daily, forAnalysis, snapshots, u, hrun, hstore⟩

theorem storable_quietStart : Work.quietStart.supply.Storable where
  clock _ _ := show StoredTime.ofInstant? .epoch ≠ none by decide +kernel
  text n _ := text_repr n

theorem storable_afterSoftDeletion : Brands.afterSoftDeletion.supply.Storable := by
  let reported := ((Call.upsertBrands [Cleanup.report1001 "a"]).perform Work.quietStart).2
  have hreported : Work.quietStart.supply.Advances reported.supply :=
    (Call.upsertBrands [Cleanup.report1001 "a"]).perform_sends.advances Work.quietStart
  have hdeleted : reported.supply.Advances Brands.afterSoftDeletion.supply :=
    (Call.softDeleteBrands (Cleanup.startOfDay 3 (by decide))).perform_sends.advances reported
  exact storable_quietStart.advances (hreported.trans hdeleted)

/-- One brand of a batch was soft-deleted and the other is reported twice; an ingest has one day twice. -/
theorem repeated_writes_afterSoftDeletion :
    let reports :=
      Call.upsertBrands [Cleanup.report1001 "a", Cleanup.report1001 "b", Cleanup.report1001 "b"]
    let t := (reports.perform Brands.afterSoftDeletion).2
    let quotes := [Ingest.fourthDay, Ingest.sixthDay, Ingest.fourthDay]
    let v := (Ingest.run quotes Brands.afterSoftDeletion).2
    Brands.afterSoftDeletion.supply.Storable ∧ Brands.afterSoftDeletion.server.Steady ∧
      (∃ u, reports.perform t = (.ok (1 : Nat), u) ∧ u.store = t.store) ∧
      ∃ daily forAnalysis snapshots u, Ingest.run quotes v = (.ok ⟨2, 2, 1⟩, u) ∧
        u.store = Ingest.touched quotes daily forAnalysis snapshots v.store := by
  intro reports t quotes v
  have hcount : (Brands.upsert
      [Cleanup.report1001 "a", Cleanup.report1001 "b", Cleanup.report1001 "b"]
      Brands.afterSoftDeletion).1 = .ok 1 := by decide +kernel
  have hreports : reports.perform Brands.afterSoftDeletion = (.ok (1 : Nat), t) :=
    Prod.ext hcount rfl
  have hquotes : Ingest.run quotes Brands.afterSoftDeletion = (.ok ⟨2, 2, 1⟩, v) :=
    Prod.ext (by decide +kernel) rfl
  obtain ⟨hcalls, hingests⟩ := repeated_writes_change_only_times storable_afterSoftDeletion
  have hlive : Brands.afterSoftDeletion.server = .live := by decide +kernel
  have hsteady : Brands.afterSoftDeletion.server.Steady := by
    rw [hlive]
    trivial
  obtain ⟨now, u, hagain, hstore⟩ := hcalls reports _ t rfl hreports (.inl hsteady)
  exact ⟨storable_afterSoftDeletion, hsteady, ⟨u, hagain, hstore⟩,
    hingests quotes _ v hquotes (.inl hsteady)⟩

end PriceArchive
