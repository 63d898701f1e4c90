import PriceArchive.Proofs.Cleanup.Owners
import PriceArchive.Proofs.Work.Commit

namespace PriceArchive

namespace Cleanup

theorem isActive_of_mem_doomed {order : TextOrder} {bound : StoredTime} {rows : List BrandRow}
    {b : BrandRow} (hb : b ∈ doomed order bound rows) : b ∈ rows ∧ b.isActive = true :=
  List.mem_filter.mp (Brands.mem_active_of_mem_activeAmong hb)

/-- A row under a symbol of a removed brand belongs to a soft-deleted brand or goes. -/
theorem kept_iff_soft_deleted {store : Store} (howned : store.Owned) (order : TextOrder)
    (bound : StoredTime) {r : QuoteRow Instrument} (hr : r ∈ store.daily)
    (hsymbol : r.subject.symbol ∈ (doomed order bound store.brands).map Brand.symbol) :
    r.subject.brandId ∉ (doomed order bound store.brands).map Brand.id ↔
      ∃ b ∈ store.brands, b.id = r.subject.brandId ∧ b.symbol = r.subject.symbol ∧
        b.isActive = false := by
  constructor
  · intro hkept
    obtain ⟨b, hb, hid, hbsymbol⟩ := howned.daily r hr
    refine ⟨b, hb, hid, hbsymbol, ?_⟩
    rw [← Bool.not_eq_true]
    intro hactive
    obtain ⟨d, hd, hdsymbol⟩ := List.mem_map.mp hsymbol
    obtain ⟨hdstored, hdactive⟩ := isActive_of_mem_doomed hd
    have hsame := howned.brands.symbols b hb d hdstored hactive hdactive
      (hbsymbol.trans hdsymbol.symm)
    exact hkept (hid ▸ hsame ▸ List.mem_map_of_mem hd)
  · rintro ⟨b, hb, hid, -, hinactive⟩ hgone
    obtain ⟨d, hd, hdid⟩ := List.mem_map.mp hgone
    obtain ⟨hdstored, hdactive⟩ := isActive_of_mem_doomed hd
    rw [← howned.brands.eq_of_id hb hdstored (hid.trans hdid.symm), hinactive] at hdactive
    cases hdactive

/-- After a cleanup that ends with its report, in a session to which reports on brands, soft deletions,
ingests for active brands and cleanups led from an empty store, nothing is left in the series for
analysis under the reported symbols, and no snapshot and no row of the daily series under the reported
ids. Of the daily series just those rows under the reported symbols are left that belong to a brand
that is stored with the symbol and was soft-deleted before. -/
theorem left_behind_iff_soft_deleted {s t : Session} (hran : Ran s) {days : Int64} {now : Instant}
    {report : CleanupReport} (h : run days now s = (.ok report, t)) :
    (∀ r ∈ t.store.forAnalysis, r.subject.symbol ∉ report.symbols) ∧
      (∀ x ∈ t.store.snapshots, x.brandId ∉ report.brandIds) ∧
      (∀ r ∈ t.store.daily, r.subject.brandId ∉ report.brandIds) ∧
      ∀ r, r.subject.symbol ∈ report.symbols →
        (r ∈ t.store.daily ↔ r ∈ s.store.daily ∧ ∃ b ∈ s.store.brands,
          b.id = r.subject.brandId ∧ b.symbol = r.subject.symbol ∧ b.isActive = false) := by
  obtain ⟨hs, howned⟩ := hran.owned
  obtain ⟨limit, bound, -, -, -, hstore, rfl⟩ := run_eq_ok hs h
  rw [hstore]
  have hkept {α : Type} {f : α → String} {xs : List α} {gone : List String} {x : α} :
      (x ∈ xs.filter fun x => !gone.contains (f x)) ↔ x ∈ xs ∧ f x ∉ gone := by
    rw [List.mem_filter, Bool.not_eq_true', ← Bool.not_eq_true, List.contains_iff_mem]
  refine ⟨fun r hr => (hkept.mp hr).2, fun x hx => (hkept.mp hx).2, fun r hr => (hkept.mp hr).2, ?_⟩
  intro r hsymbol
  refine hkept.trans (and_congr_right fun hr => ?_)
  exact kept_iff_soft_deleted howned s.order bound hr hsymbol

/-- A report on a brand with the ticker symbol of the example, made at the start of 1970. -/
def report1001 (id : String) : NewBrand := ⟨id, "1001", "N", .empty, .empty, .empty, .epoch⟩

/-- The start of a day, counted from 1970. -/
def startOfDay (day : Nat) (h : day < 10000) : Instant where
  seconds := day * 86400
  nanos := 0
  min_le := by rw [Instant.minSeconds]; omega
  le_max := by rw [Instant.maxSeconds]; omega
  nanos_lt := Instant.epoch.nanos_lt

/-- A quote under that symbol, for a day in 1970. -/
def quote1001 (brandId : String) (price : Nat) (h : price < 1000) : NewQuote Instrument :=
  let price : Decimal := .ofParts false price 0 (by
    have hlimit : (1000 : Nat) ≤ Decimal.mantissaLimit := by decide
    omega) (Nat.zero_le _)
  ⟨⟨"1001", brandId⟩, startOfDay 5 (by decide), Bar.make price price price price 1⟩

/-- The symbol is used with brand `a`, which is soft-deleted. -/
def afterFirstBrand : Session :=
  (Brands.softDeleteStale (startOfDay 1 (by decide))
    (Ingest.run [quote1001 "a" 100 (by decide)]
      (Brands.upsert [report1001 "a"] Work.quietStart).2).2).2

/-- Then it is used with brand `b`, for the same day. -/
def afterSecondBrand : Session :=
  (Ingest.run [quote1001 "b" 200 (by decide)] (Brands.upsert [report1001 "b"] afterFirstBrand).2).2

theorem ran_afterSecondBrand : Ran afterSecondBrand := by
  have hfirst : Ran (Brands.upsert [report1001 "a"] Work.quietStart).2 :=
    .upsertBrands (.start rfl rfl) _
  have hsecond : Ran (Brands.upsert [report1001 "b"] afterFirstBrand).2 :=
    .upsertBrands (.softDelete (.ingest hfirst _ (by decide +kernel)) _) _
  exact .ingest hsecond _ (by decide +kernel)

/-- A cleanup that removes brand `b`. -/
def cleanupOfSecondBrand : Except Halt CleanupReport × Session :=
  run 1 (startOfDay 2 (by decide)) afterSecondBrand

theorem cleanupOfSecondBrand_report :
    cleanupOfSecondBrand.1 = .ok ⟨startOfDay 1 (by decide), ["b"], ["1001"], 0, 1, 1⟩ := by
  decide +kernel

/-- The row that was first written for brand `a` is still there, with the close that was written for
brand `b`. -/
theorem cleanupOfSecondBrand_leaves_row :
    ∃ r ∈ cleanupOfSecondBrand.2.store.daily, r.subject = ⟨"1001", "a"⟩ := by
  decide +kernel

/-- A cleanup can leave rows of the daily series under a symbol that it reports. -/
theorem cleanup_can_leave_daily_rows :
    ¬ ∀ (s t : Session) (days : Int64) (now : Instant) (report : CleanupReport), Ran s →
      run days now s = (.ok report, t) →
        (∀ r ∈ t.store.daily, r.subject.symbol ∉ report.symbols) ∧
          (∀ r ∈ t.store.forAnalysis, r.subject.symbol ∉ report.symbols) ∧
          ∀ x ∈ t.store.snapshots, x.brandId ∉ report.brandIds := by
  intro hclean
  obtain ⟨r, hr, hsubject⟩ := cleanupOfSecondBrand_leaves_row
  obtain ⟨hdaily, -, -⟩ := hclean _ _ 1 (startOfDay 2 (by decide)) _ ran_afterSecondBrand
    (Prod.ext cleanupOfSecondBrand_report rfl)
  exact hdaily r hr (by rw [hsubject]; simp)

theorem left_behind_cleanupOfSecondBrand :
    Ran afterSecondBrand ∧
      run 1 (startOfDay 2 (by decide)) afterSecondBrand =
        (.ok ⟨startOfDay 1 (by decide), ["b"], ["1001"], 0, 1, 1⟩, cleanupOfSecondBrand.2) ∧
      ∃ r ∈ cleanupOfSecondBrand.2.store.daily, r.subject.symbol ∈ ["1001"] ∧
        ∃ b ∈ afterSecondBrand.store.brands,
          b.id = r.subject.brandId ∧ b.symbol = r.subject.symbol ∧ b.isActive = false := by
  have hrun : run 1 (startOfDay 2 (by decide)) afterSecondBrand =
      (.ok ⟨startOfDay 1 (by decide), ["b"], ["1001"], 0, 1, 1⟩, cleanupOfSecondBrand.2) :=
    Prod.ext cleanupOfSecondBrand_report rfl
  obtain ⟨-, -, -, hleft⟩ := left_behind_iff_soft_deleted ran_afterSecondBrand hrun
  obtain ⟨r, hr, hsubject⟩ := cleanupOfSecondBrand_leaves_row
  have hsymbol : r.subject.symbol ∈ ["1001"] := by rw [hsubject]; simp
  exact ⟨ran_afterSecondBrand, hrun, r, hr, hsymbol, ((hleft r hsymbol).mp hr).2⟩

end Cleanup

end PriceArchive
