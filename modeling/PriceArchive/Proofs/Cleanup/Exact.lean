import PriceArchive.Proofs.Brands.Listing
import PriceArchive.Proofs.Brands.Reached
import PriceArchive.Proofs.Cleanup.Leftover

namespace PriceArchive

open Session

section Deletions

variable {s : Session}

/-- A deletion whose ids can be sent is answered. -/
theorem Session.run_unless_empty_answers {ids : List String} {operation : String} {count : Store → Nat}
    {rest : Store → Store} (hlive : s.server = .live) (hs : s.transaction = none)
    (hids : Binding.texts ids = .ok ()) :
    ∃ n t, (if ids.isEmpty then return 0
      else run operation fun store => do
        Binding.texts ids
        return (count store, rest store) : Action Nat) s = (.ok n, t) := by
  split
  · exact ⟨0, s, rfl⟩
  · rw [run_alone hlive hs, hids]
    exact ⟨_, _, rfl⟩

theorem Quotes.deleteByBrands_of_texts {ids : List String} (hlive : s.server = .live)
    (hs : s.transaction = none) (hids : Binding.texts ids = .ok ()) :
    deleteByBrands ids s =
      (.ok (s.store.daily.filter fun r => ids.contains r.subject.brandId).length,
        { s with store := { s.store with
          daily := s.store.daily.filter fun r => !ids.contains r.subject.brandId } }) := by
  obtain ⟨n, t, h⟩ : ∃ n t, deleteByBrands ids s = (.ok n, t) :=
    Session.run_unless_empty_answers hlive hs hids
  obtain ⟨rfl, rfl⟩ := deleteByBrands_eq_ok hlive hs h
  exact h

theorem Quotes.deleteForAnalysis_of_texts {operation : String} {symbols : List String}
    (hlive : s.server = .live) (hs : s.transaction = none) (hsymbols : Binding.texts symbols = .ok ()) :
    deleteBySymbols Series.forAnalysis operation symbols s =
      (.ok (s.store.forAnalysis.filter fun r => symbols.contains r.subject.symbol).length,
        { s with store := { s.store with
          forAnalysis := s.store.forAnalysis.filter fun r => !symbols.contains r.subject.symbol } }) := by
  obtain ⟨n, t, h⟩ : ∃ n t, deleteBySymbols Series.forAnalysis operation symbols s = (.ok n, t) :=
    Session.run_unless_empty_answers hlive hs hsymbols
  obtain ⟨rfl, rfl⟩ := deleteForAnalysis_eq_ok hlive hs h
  exact h

theorem Snapshots.delete_of_texts {ids : List String} (hlive : s.server = .live)
    (hs : s.transaction = none) (hids : Binding.texts ids = .ok ()) :
    delete ids s =
      (.ok (s.store.snapshots.filter fun r => ids.contains r.brandId).length,
        { s with store := { s.store with
          snapshots := s.store.snapshots.filter fun r => !ids.contains r.brandId } }) := by
  obtain ⟨n, t, h⟩ : ∃ n t, delete ids s = (.ok n, t) :=
    Session.run_unless_empty_answers hlive hs hids
  obtain ⟨rfl, rfl⟩ := delete_eq_ok hlive hs h
  exact h

namespace Brands

theorem findStale_of_time {threshold : Instant} {bound : StoredTime} (hs : s.Open)
    (hbound : Binding.time threshold = .ok bound) :
    findStale threshold s = (.ok ((sortBy (byId s.order) (stale bound s.store.brands)).map Brand.id), s) := by
  refine run_read_of_open hs _ ?_
  rw [hbound]
  rfl

/-- A deletion of brands whose ids can be sent is answered, as those of the stored ones can. -/
theorem delete_of_texts {ids : List String} (hlive : s.server = .live) (hs : s.transaction = none)
    (hids : Binding.texts ids = .ok ()) (hbrands : Sendable s.store.brands) :
    delete ids s =
      (.ok ((activeAmong s.order ids s.store.brands).map ofRow),
        { s with store := { s.store with
          brands := s.store.brands.filter fun b =>
            !((activeAmong s.order ids s.store.brands).map Brand.id).contains b.id } }) := by
  have hload : Session.withOrder (fun order => run "load delisting stock brands" (.read fun store => do
      Binding.texts ids
      return (activeAmong order ids store.brands).map ofRow)) s =
        (.ok ((activeAmong s.order ids s.store.brands).map ofRow), s) := by
    rw [Session.withOrder, run_alone hlive hs, Statement.read, hids]
    rfl
  have hanswer : ∃ brands t, delete ids s = (.ok brands, t) := by
    unfold delete
    split
    · exact ⟨[], s, rfl⟩
    rw [Action.bind_of_ok hload]
    split
    · exact ⟨[], s, rfl⟩
    -- The ids that are deleted are not those that were given but those that were read.
    have hstored : activeAmong s.order ids s.store.brands ⊆ s.store.brands := fun _ hb =>
      List.mem_of_mem_filter (mem_active_of_mem_activeAmong hb)
    have hdoomed := (hbrands.texts hstored).1
    rw [← ids_ofRow] at hdoomed
    rw [Action.bind_apply, run_alone hlive hs, deleteStatement, hdoomed]
    exact ⟨_, _, rfl⟩
  obtain ⟨brands, t, h⟩ := hanswer
  obtain ⟨rfl, rfl⟩ := delete_eq_ok hlive hs h
  exact h

end Brands

end Deletions

namespace Cleanup

variable {s : Session} {limit : Instant} {bound : StoredTime}

/-- The work of a cleanup in a transaction that runs. -/
theorem perform_work (hlive : s.server = .live) (hs : s.transaction = none)
    (hbrands : Brands.Sendable s.store.brands) (hbound : Binding.time limit = .ok bound) (start : Store)
    (d : Option String) :
    (work limit).perform (s.enter start d) =
      (.ok (.ok (reportOn limit s.store (doomed s.order bound s.store.brands))),
        { s with store := s.store.without (doomed s.order bound s.store.brands) }.enter start d) := by
  have hids : Binding.texts ((sortBy (Brands.byId s.order) (Brands.stale bound s.store.brands)).map Brand.id) =
      .ok () := by
    refine (hbrands.texts fun _ hb => ?_).1
    rw [mem_sortBy] at hb
    exact List.mem_of_mem_filter (List.mem_of_mem_filter hb)
  obtain ⟨-, -, hstep⟩ := Work.perform_call_bind_of_ok (c := .findStaleBrands limit) hlive hs
    (Brands.findStale_of_time (open_of_live hlive hs) hbound) start d
  refine (hstep _).trans ?_
  split
  · rename_i hempty
    rw [doomed_eq_nil hempty, Store.without_nil, reportOn_nil]
    rfl
  · have hstored : doomed s.order bound s.store.brands ⊆ s.store.brands := fun _ hb =>
      (isActive_of_mem_doomed hb).1
    obtain ⟨hbrandIds, hsymbols⟩ := hbrands.texts hstored
    rw [← Brands.ids_ofRow] at hbrandIds
    rw [← Brands.symbols_ofRow] at hsymbols
    -- After each deletion the session is on its own again, and the texts for the next can be sent.
    obtain ⟨htlive, htnone, hstep⟩ := Work.perform_call_bind_of_ok (c := .deleteBrands _) hlive hs
      (Brands.delete_of_texts hlive hs hids hbrands) start d
    refine (hstep _).trans ?_
    obtain ⟨hulive, hunone, hstep⟩ := Work.perform_call_bind_of_ok (c := .deleteDailyOfBrands _) htlive
      htnone (Quotes.deleteByBrands_of_texts htlive htnone hbrandIds) start d
    refine (hstep _).trans ?_
    obtain ⟨hvlive, hvnone, hstep⟩ := Work.perform_call_bind_of_ok (c := .deleteForAnalysisOfSymbols _)
      hulive hunone (Quotes.deleteForAnalysis_of_texts hulive hunone hsymbols) start d
    refine (hstep _).trans ?_
    obtain ⟨-, -, hstep⟩ := Work.perform_call_bind_of_ok (c := .deleteSnapshots _) hvlive hvnone
      (Snapshots.delete_of_texts hvlive hvnone hbrandIds) start d
    refine (hstep _).trans ?_
    simp only [Brands.ids_ofRow, Brands.symbols_ofRow]
    rfl

theorem run_of_time {days : Int64} {now : Instant} (hlive : s.server = .live) (hs : s.transaction = none)
    (hbrands : Brands.Sendable s.store.brands) (hlimit : threshold days now = .ok limit)
    (hbound : Binding.time limit = .ok bound) :
    run days now s =
      (.ok (reportOn limit s.store (doomed s.order bound s.store.brands)),
        { s with store := s.store.without (doomed s.order bound s.store.brands) }) := by
  rw [run, hlimit]
  refine Work.runAsUnit_of_perform (by rw [hlive]; rfl) hs (by exact hs) ?_
  rw [begun, asked_of_live hlive]
  exact perform_work hlive hs hbrands hbound s.store none

section Doomed

variable {order : TextOrder} {rows : List BrandRow}

theorem mem_stale {b : BrandRow} :
    b ∈ Brands.stale bound rows ↔ b ∈ rows ∧ b.isActive = true ∧ b.updatedAt < bound := by
  rw [Brands.stale, List.mem_filter, Brands.active, List.mem_filter, decide_eq_true_iff, and_assoc]

/-- The active brands with the ids of the stale ones are these. -/
theorem doomed_eq (h : Brands.WellFormed rows) :
    doomed order bound rows = sortBy (Brands.bySymbol order) (Brands.stale bound rows) := by
  have hsub : sortBy (Brands.byId order) (Brands.stale bound rows) ⊆ rows := fun _ hb =>
    (mem_stale.mp (mem_sortBy.mp hb)).1
  rw [doomed, Brands.activeAmong]
  refine congrArg _ (List.filter_congr fun b hb => ?_)
  rw [Bool.eq_iff_iff, List.contains_iff_mem, h.mem_ids_iff hsub (List.mem_of_mem_filter hb), mem_sortBy,
    Brands.stale, List.mem_filter, and_iff_right hb]

theorem mem_doomed (h : Brands.WellFormed rows) {b : BrandRow} :
    b ∈ doomed order bound rows ↔ b ∈ rows ∧ b.isActive = true ∧ b.updatedAt < bound := by
  rw [doomed_eq h, mem_sortBy, mem_stale]

/-- What is left of the brands. -/
theorem filter_doomed (h : Brands.WellFormed rows) :
    (rows.filter fun b => !((doomed order bound rows).map Brand.id).contains b.id) =
      rows.filter fun b => !(b.isActive && decide (b.updatedAt < bound)) := by
  have hsub : doomed order bound rows ⊆ rows := fun _ hb => ((mem_doomed h).mp hb).1
  refine List.filter_congr fun b hb => congrArg _ ?_
  rw [Bool.eq_iff_iff, List.contains_iff_mem, h.mem_ids_iff hsub hb, mem_doomed h, and_iff_right hb,
    Bool.and_eq_true, decide_eq_true_iff]

/-- Of the brands that are left none is stale. -/
theorem doomed_left (h : Brands.WellFormed rows) :
    doomed order bound (rows.filter fun b =>
      !((doomed order bound rows).map Brand.id).contains b.id) = [] := by
  rw [filter_doomed h]
  refine List.eq_nil_iff_forall_not_mem.mpr fun b hb => ?_
  obtain ⟨hkept, hactive, hlt⟩ := (mem_doomed (h.filter _)).mp hb
  have hkept := (List.mem_filter.mp hkept).2
  rw [hactive, decide_eq_true hlt] at hkept
  cases hkept

end Doomed

/-- On a server that can be reached, and outside a transaction, a cleanup whose threshold is an instant
that the store can be asked about ends with its report, for all brands that a store can have: no id twice,
no ticker symbol with two active ones, and their texts such as can be sent, as in every session of a run.
The brands that are gone are the active ones that were not reported since the threshold, and of the rows of
the other tables those under their ids or, in the series for analysis, their symbols; nothing else is
different. The report lists them in the order of their symbols and counts these rows. A second cleanup
reports nothing and changes nothing. -/
theorem run_removes_exactly_stale {days : Int64} {now : Instant} (hlive : s.server = .live)
    (hs : s.transaction = none) (hbrands : Brands.WellFormed s.store.brands)
    (htexts : Brands.Sendable s.store.brands) (hlimit : threshold days now = .ok limit)
    (hbound : Binding.time limit = .ok bound) :
    ∃ gone : List BrandRow, Brands.Ascending s.order gone ∧
      (∀ b, b ∈ gone ↔ b ∈ s.store.brands ∧ b.isActive = true ∧ b.updatedAt < bound) ∧
      (s.store.without gone).brands =
        (s.store.brands.filter fun b => !(b.isActive && decide (b.updatedAt < bound))) ∧
      run days now s = (.ok (reportOn limit s.store gone), { s with store := s.store.without gone }) ∧
      run days now { s with store := s.store.without gone } =
        (.ok (.nothing limit), { s with store := s.store.without gone }) := by
  refine ⟨doomed s.order bound s.store.brands, ?_, fun b => mem_doomed hbrands, filter_doomed hbrands,
    run_of_time hlive hs htexts hlimit hbound, ?_⟩
  · rw [doomed_eq hbrands]
    exact Brands.ascending_sortBy (hbrands.nodup_symbols.sublist (List.filter_sublist.map _))
  · rw [run_of_time (by exact hlive) (by exact hs) (htexts.filter _) hlimit hbound]
    have hnone : doomed s.order bound (s.store.without (doomed s.order bound s.store.brands)).brands = [] :=
      doomed_left hbrands
    simp only [hnone, reportOn_nil, Store.without_nil]

theorem run_removes_exactly_stale_secondBrand :
    afterSecondBrand.server = .live ∧ afterSecondBrand.transaction = none ∧
      Brands.WellFormed afterSecondBrand.store.brands ∧ Brands.Sendable afterSecondBrand.store.brands ∧
      threshold 1 (startOfDay 2 (by decide)) = .ok (startOfDay 1 (by decide)) ∧
      ∃ bound, Binding.time (startOfDay 1 (by decide)) = .ok bound ∧
        ∃ gone : List BrandRow, gone.map Brand.id = ["b"] ∧
          (∀ b, b ∈ gone ↔ b ∈ afterSecondBrand.store.brands ∧ b.isActive = true ∧ b.updatedAt < bound) ∧
          run 1 (startOfDay 2 (by decide)) cleanupOfSecondBrand.2 =
            (.ok (.nothing (startOfDay 1 (by decide))), cleanupOfSecondBrand.2) := by
  have hlive : afterSecondBrand.server = .live := by decide +kernel
  obtain ⟨hs, howned⟩ := ran_afterSecondBrand.owned
  have htexts : Brands.Sendable afterSecondBrand.store.brands := by
    unfold Brands.Sendable
    decide +kernel
  have hlimit : threshold 1 (startOfDay 2 (by decide)) = .ok (startOfDay 1 (by decide)) := by
    decide +kernel
  have hbound : ∃ bound, Binding.time (startOfDay 1 (by decide)) = .ok bound := ⟨_, rfl⟩
  obtain ⟨bound, hbound⟩ := hbound
  obtain ⟨gone, -, hgone, -, hrun, hagain⟩ :=
    run_removes_exactly_stale hlive hs howned.brands htexts hlimit hbound
  have hsession : cleanupOfSecondBrand.2 = { afterSecondBrand with
      store := afterSecondBrand.store.without gone } := by
    rw [cleanupOfSecondBrand, hrun]
  have hreport := cleanupOfSecondBrand_report
  rw [cleanupOfSecondBrand, hrun] at hreport
  refine ⟨hlive, hs, howned.brands, htexts, hlimit, bound, hbound, gone, ?_, hgone, ?_⟩
  · exact congrArg CleanupReport.brandIds (Except.ok.inj hreport)
  · rw [hsession]
    exact hagain

end Cleanup

end PriceArchive
