import PriceArchive.Job.Cleanup
import PriceArchive.Proofs.Table.Binding
import PriceArchive.Proofs.Table.Sort
import PriceArchive.Proofs.Work.Atomicity

namespace PriceArchive

open Session

namespace Store

/-- The store without some brands and without the rows that are kept under their ids or symbols. -/
def without (s : Store) (doomed : List BrandRow) : Store :=
  { s with
    brands := s.brands.filter fun b => !(doomed.map Brand.id).contains b.id
    daily := s.daily.filter fun r => !(doomed.map Brand.id).contains r.subject.brandId
    forAnalysis := s.forAnalysis.filter fun r => !(doomed.map Brand.symbol).contains r.subject.symbol
    snapshots := s.snapshots.filter fun h => !(doomed.map Brand.id).contains h.brandId }

end Store

theorem filter_not_contains_nil {α β : Type} [BEq β] (f : α → β) (xs : List α) :
    (xs.filter fun x => !([] : List β).contains (f x)) = xs :=
  List.filter_eq_self.mpr fun _ _ => rfl

theorem filter_contains_nil {α β : Type} [BEq β] (f : α → β) (xs : List α) :
    (xs.filter fun x => ([] : List β).contains (f x)) = [] :=
  List.filter_eq_nil_iff.mpr fun _ _ => Bool.false_ne_true

theorem Store.without_nil (s : Store) : s.without [] = s := by
  simp only [without, List.map_nil, filter_not_contains_nil]

section Deletions

variable {s t : Session}

/-- A statement that is run alone and answered has been accepted. -/
theorem Session.run_eq_ok {α : Type} {operation : String} {st : Statement α} {x : α}
    (hlive : s.server = .live) (hs : s.transaction = none) (h : run operation st s = (.ok x, t)) :
    ∃ store, st s.store = .ok (x, store) ∧ t = { s with store := store } := by
  rw [run_alone hlive hs] at h
  cases hst : st s.store with
  | error r =>
    rw [hst] at h
    cases h
  | ok answer =>
    rw [hst] at h
    cases h
    exact ⟨answer.2, rfl, rfl⟩

namespace Brands

/-- The active brands that were not reported since a time. -/
def stale (bound : StoredTime) (rows : List BrandRow) : List BrandRow :=
  (active rows).filter fun b => decide (b.updatedAt < bound)

theorem findStale_eq_ok {threshold : Instant} {ids : List String} (hlive : s.server = .live)
    (hs : s.transaction = none) (h : findStale threshold s = (.ok ids, t)) :
    ∃ bound, Binding.time threshold = .ok bound ∧
      ids = (sortBy (byId s.order) (stale bound s.store.brands)).map Brand.id ∧ t = s := by
  obtain ⟨store, hst, rfl⟩ := Session.run_eq_ok hlive hs h
  unfold Statement.read at hst
  cases hbound : Binding.time threshold with
  | error r =>
    rw [hbound] at hst
    cases hst
  | ok bound =>
    rw [hbound] at hst
    cases hst
    exact ⟨bound, rfl, rfl, rfl⟩

theorem mem_active_of_mem_activeAmong {order : TextOrder} {ids : List String} {rows : List BrandRow}
    {b : BrandRow} (hb : b ∈ activeAmong order ids rows) : b ∈ active rows := by
  rw [activeAmong, mem_sortBy] at hb
  exact (List.mem_filter.mp hb).1

theorem ids_ofRow (rows : List BrandRow) : (rows.map ofRow).map Brand.id = rows.map Brand.id := by
  rw [List.map_map]
  rfl

theorem symbols_ofRow (rows : List BrandRow) :
    (rows.map ofRow).map Brand.symbol = rows.map Brand.symbol := by
  rw [List.map_map]
  rfl

theorem delete_eq_ok {ids : List String} {brands : List (Brand Instant)} (hlive : s.server = .live)
    (hs : s.transaction = none) (h : delete ids s = (.ok brands, t)) :
    brands = (activeAmong s.order ids s.store.brands).map ofRow ∧
      t = { s with store := { s.store with
        brands := s.store.brands.filter fun b =>
          !((activeAmong s.order ids s.store.brands).map Brand.id).contains b.id } } := by
  unfold delete at h
  split at h
  · rename_i hempty
    rw [List.isEmpty_iff] at hempty
    subst hempty
    cases h
    have hnone : activeAmong s.order [] s.store.brands = [] := by
      rw [activeAmong, filter_contains_nil]
      rfl
    simp only [hnone, List.map_nil, filter_not_contains_nil, and_self]
  · obtain ⟨doomed, u, hread, h⟩ := Action.bind_eq_ok_iff.mp h
    obtain ⟨store, hst, rfl⟩ := Session.run_eq_ok hlive hs hread
    unfold Statement.read at hst
    cases htexts : Binding.texts ids with
    | error r =>
      rw [htexts] at hst
      cases hst
    | ok _ =>
      rw [htexts] at hst
      cases hst
      split at h
      · rename_i hempty
        rw [List.isEmpty_iff, List.map_eq_nil_iff] at hempty
        cases h
        simp only [hempty, List.map_nil, filter_not_contains_nil, and_self]
      · obtain ⟨_, v, hdelete, h⟩ := Action.bind_eq_ok_iff.mp h
        cases h
        obtain ⟨store, hst, rfl⟩ := Session.run_eq_ok (by exact hlive) (by exact hs) hdelete
        obtain ⟨_, -, hst⟩ := bind_eq_ok_iff.mp hst
        cases hst
        rw [ids_ofRow]
        exact ⟨rfl, rfl⟩

end Brands

/-- A deletion that is not sent when it has no ids, and would then delete nothing. -/
theorem Session.run_unless_empty_eq_ok {ids : List String} {operation : String} {n : Nat}
    {count : Store → Nat} {rest : Store → Store} (hlive : s.server = .live)
    (hs : s.transaction = none) (hnone : ids = [] → count s.store = 0 ∧ rest s.store = s.store)
    (h : (if ids.isEmpty then return 0
      else run operation fun store => do
        Binding.texts ids
        return (count store, rest store) : Action Nat) s = (.ok n, t)) :
    n = count s.store ∧ t = { s with store := rest s.store } := by
  split at h
  · rename_i hempty
    rw [List.isEmpty_iff] at hempty
    cases h
    rw [(hnone hempty).1, (hnone hempty).2]
    exact ⟨rfl, rfl⟩
  · obtain ⟨store, hst, rfl⟩ := Session.run_eq_ok hlive hs h
    obtain ⟨_, -, hst⟩ := bind_eq_ok_iff.mp hst
    cases hst
    exact ⟨rfl, rfl⟩

theorem Quotes.deleteByBrands_eq_ok {ids : List String} {n : Nat} (hlive : s.server = .live)
    (hs : s.transaction = none) (h : deleteByBrands ids s = (.ok n, t)) :
    n = (s.store.daily.filter fun r => ids.contains r.subject.brandId).length ∧
      t = { s with store := { s.store with
        daily := s.store.daily.filter fun r => !ids.contains r.subject.brandId } } := by
  refine Session.run_unless_empty_eq_ok hlive hs ?_ h
  rintro rfl
  simp only [Series.daily, filter_contains_nil, filter_not_contains_nil, List.length_nil, and_self]

theorem Quotes.deleteForAnalysis_eq_ok {operation : String} {symbols : List String} {n : Nat}
    (hlive : s.server = .live) (hs : s.transaction = none)
    (h : deleteBySymbols Series.forAnalysis operation symbols s = (.ok n, t)) :
    n = (s.store.forAnalysis.filter fun r => symbols.contains r.subject.symbol).length ∧
      t = { s with store := { s.store with
        forAnalysis := s.store.forAnalysis.filter fun r => !symbols.contains r.subject.symbol } } := by
  have hpicked : (fun r : QuoteRow Ticker =>
      symbols.any fun x => decide (Subject.key r.subject = [x])) =
        fun r => symbols.contains r.subject.symbol := by
    funext r
    rw [Bool.eq_iff_iff, List.any_eq_true, List.contains_iff_mem]
    change (∃ x ∈ symbols, decide ([r.subject.symbol] = [x]) = true) ↔ _
    simp
  unfold deleteBySymbols at h
  rw [hpicked] at h
  refine Session.run_unless_empty_eq_ok hlive hs ?_ h
  rintro rfl
  simp only [Series.forAnalysis, filter_contains_nil, filter_not_contains_nil, List.length_nil,
    and_self]

theorem Snapshots.delete_eq_ok {ids : List String} {n : Nat} (hlive : s.server = .live)
    (hs : s.transaction = none) (h : delete ids s = (.ok n, t)) :
    n = (s.store.snapshots.filter fun r => ids.contains r.brandId).length ∧
      t = { s with store := { s.store with
        snapshots := s.store.snapshots.filter fun r => !ids.contains r.brandId } } := by
  refine Session.run_unless_empty_eq_ok hlive hs ?_ h
  rintro rfl
  simp only [filter_contains_nil, filter_not_contains_nil, List.length_nil, and_self]

end Deletions

namespace Cleanup

/-- The brands that a cleanup removes: the active ones with the id of one that was not reported since
the bound. -/
def doomed (order : TextOrder) (bound : StoredTime) (rows : List BrandRow) : List BrandRow :=
  Brands.activeAmong order ((sortBy (Brands.byId order) (Brands.stale bound rows)).map Brand.id) rows

theorem doomed_eq_nil {order : TextOrder} {bound : StoredTime} {rows : List BrandRow}
    (h : ((sortBy (Brands.byId order) (Brands.stale bound rows)).map Brand.id).isEmpty = true) :
    doomed order bound rows = [] := by
  rw [List.isEmpty_iff] at h
  rw [doomed, h, Brands.activeAmong, filter_contains_nil]
  rfl

/-- The report on the removal of some brands from a store. -/
def reportOn (threshold : Instant) (s : Store) (doomed : List BrandRow) : CleanupReport where
  threshold := threshold
  brandIds := doomed.map Brand.id
  symbols := doomed.map Brand.symbol
  dailyDeleted :=
    (s.daily.filter fun r => (doomed.map Brand.id).contains r.subject.brandId).length
  forAnalysisDeleted :=
    (s.forAnalysis.filter fun r => (doomed.map Brand.symbol).contains r.subject.symbol).length
  snapshotsDeleted :=
    (s.snapshots.filter fun h => (doomed.map Brand.id).contains h.brandId).length

theorem reportOn_nil (threshold : Instant) (s : Store) :
    reportOn threshold s [] = .nothing threshold := by
  simp only [reportOn, List.map_nil, filter_contains_nil]
  rfl

theorem work_neverRollsBack (threshold : Instant) : (work threshold).NeverRollsBack := by
  refine .call_bind fun ids => ?_
  split
  · trivial
  · exact .call_bind fun _ => .call_bind fun _ => .call_bind fun _ => .call_bind fun _ => trivial

/-- A cleanup that ends with its report has removed the doomed brands and what was kept about them. -/
theorem run_eq_ok {days : Int64} {now : Instant} {s t : Session} (hs : s.transaction = none)
    {report : CleanupReport} (h : run days now s = (.ok report, t)) :
    ∃ limit bound, threshold days now = .ok limit ∧ Binding.time limit = .ok bound ∧
      t.transaction = none ∧
      t.store = s.store.without (doomed s.order bound s.store.brands) ∧
      report = reportOn limit s.store (doomed s.order bound s.store.brands) := by
  obtain ⟨limit, u, hlimit, h⟩ := Action.bind_eq_ok_iff.mp h
  cases hthreshold : threshold days now with
  | error o =>
    rw [hthreshold] at hlimit
    cases hlimit
  | ok limit' =>
    rw [hthreshold] at hlimit
    cases hlimit
    obtain ⟨-, v, hv, rfl⟩ := Work.perform_of_committed (work_neverRollsBack limit) hs
      (Work.performAsUnit_of_runAsUnit h)
    have hv := Work.perform_solo_begun hv
    obtain ⟨ids, u, hstale, -, -, hv⟩ := Work.perform_call_bind rfl rfl hv
    obtain ⟨bound, hbound, rfl, rfl⟩ := Brands.findStale_eq_ok rfl rfl hstale
    refine ⟨limit, bound, rfl, hbound, rfl, ?_⟩
    change (v.served .live).store = _ ∧ _
    split at hv
    · rename_i hempty
      obtain ⟨hreport, hleft⟩ := Prod.mk.inj hv
      cases hreport
      have hnone : doomed s.order bound s.store.brands = [] := doomed_eq_nil hempty
      rw [← hleft, hnone, Store.without_nil, reportOn_nil]
      exact ⟨rfl, rfl⟩
    · obtain ⟨brands, u, hbrands, hulive, hunone, hv⟩ := Work.perform_call_bind rfl rfl hv
      obtain ⟨rfl, rfl⟩ := Brands.delete_eq_ok rfl rfl hbrands
      obtain ⟨daily, u, hdaily, hvlive, hvnone, hv⟩ := Work.perform_call_bind hulive hunone hv
      obtain ⟨rfl, rfl⟩ := Quotes.deleteByBrands_eq_ok hulive hunone hdaily
      obtain ⟨forAnalysis, u, hanalysis, hwlive, hwnone, hv⟩ :=
        Work.perform_call_bind hvlive hvnone hv
      obtain ⟨rfl, rfl⟩ := Quotes.deleteForAnalysis_eq_ok hvlive hvnone hanalysis
      obtain ⟨snapshots, u, hsnapshots, -, -, hv⟩ := Work.perform_call_bind hwlive hwnone hv
      obtain ⟨rfl, rfl⟩ := Snapshots.delete_eq_ok hwlive hwnone hsnapshots
      obtain ⟨hreport, hleft⟩ := Prod.mk.inj hv
      cases hreport
      rw [← hleft]
      simp only [Brands.ids_ofRow, Brands.symbols_ofRow]
      exact ⟨rfl, rfl⟩

end Cleanup

end PriceArchive
