import PriceArchive.Proofs.Cleanup.Effect
import PriceArchive.Proofs.Ingest.Run
import PriceArchive.Proofs.Table.Actives

namespace PriceArchive

/-- The brands are well-formed, and every row of the daily series is about one of them. -/
structure Store.Owned (s : Store) : Prop where
  brands : Brands.WellFormed s.brands
  daily : ∀ r ∈ s.daily, ∃ b ∈ s.brands,
    b.id = r.subject.brandId ∧ b.symbol = r.subject.symbol

namespace Store.Owned

variable {s : Store}

theorem empty : Store.empty.Owned := ⟨.nil, by simp [Store.empty]⟩

/-- What becomes of the brands alone, with none of them lost. -/
theorem setBrands (h : s.Owned) {brands : List BrandRow} (hbrands : Brands.WellFormed brands)
    (hdescends : Brands.Descends s.brands brands) : ({ s with brands := brands } : Store).Owned where
  brands := hbrands
  daily r hr := by
    obtain ⟨b, hb, hid, hsymbol⟩ := h.daily r hr
    obtain ⟨b', hb', hid', hsymbol'⟩ := hdescends b hb
    exact ⟨b', hb', hid'.trans hid, hsymbol'.trans hsymbol⟩

theorem upsertBrands (h : s.Owned) {now : Instant} {batch : List NewBrand} {n : Nat} {t : Store}
    (hstep : Brands.upsertStatement now batch s = .ok (n, t)) : t.Owned := by
  obtain ⟨createdAt, -, hstep⟩ := bind_eq_ok_iff.mp hstep
  obtain ⟨rows, -, hstep⟩ := bind_eq_ok_iff.mp hstep
  obtain ⟨brands, hupsert, hstep⟩ := bind_eq_ok_iff.mp hstep
  cases hstep
  refine h.setBrands (h.brands.upsert hupsert) ?_
  rw [TableRule.upsert_eq_foldl_put hupsert]
  exact Brands.descends_foldl_put s.brands rows

theorem softDeleteBrands (h : s.Owned) {now refreshedAt : Instant} {n : Nat} {t : Store}
    (hstep : Brands.softDeleteStatement now refreshedAt s = .ok (n, t)) : t.Owned := by
  obtain ⟨deletedAt, -, hstep⟩ := bind_eq_ok_iff.mp hstep
  obtain ⟨bound, -, hstep⟩ := bind_eq_ok_iff.mp hstep
  cases hstep
  exact h.setBrands
    (h.brands.map Brands.id_softDeleteIfStale Brands.symbol_softDeleteIfStale
      Brands.isActive_of_softDeleteIfStale)
    (Brands.descends_map Brands.id_softDeleteIfStale Brands.symbol_softDeleteIfStale)

/-- Rows of the daily series that are written for brands of the store. -/
theorem putDaily (h : s.Owned) {rows : List (QuoteRow Instrument)}
    (hrows : ∀ r ∈ rows, ∃ b ∈ s.brands, b.id = r.subject.brandId ∧ b.symbol = r.subject.symbol) :
    (Series.daily.table.putAll s rows).Owned where
  brands := h.brands
  daily := by
    apply TableRule.forall_mem_foldl_put
    · intro stored row hstored _ _
      exact hstored
    · exact h.daily
    · exact hrows

theorem without (h : s.Owned) (doomed : List BrandRow) : (s.without doomed).Owned where
  brands := h.brands.filter _
  daily r hr := by
    obtain ⟨hr, hkept⟩ := List.mem_filter.mp hr
    obtain ⟨b, hb, hid, hsymbol⟩ := h.daily r hr
    exact ⟨b, List.mem_filter.mpr ⟨hb, by rwa [hid]⟩, hid, hsymbol⟩

end Store.Owned

namespace Cleanup

open PriceArchive.Action

/-- The sessions to which reports on brands, soft deletions, ingests for active brands and cleanups
lead, made in any order from a store without rows and outside a transaction. Each may succeed or
fail. -/
inductive Ran : Session → Prop where
  | start {s : Session} (hstore : s.store = .empty) (hs : s.transaction = none) : Ran s
  | upsertBrands {s : Session} (hran : Ran s) (batch : List NewBrand) :
    Ran (Brands.upsert batch s).2
  | softDelete {s : Session} (hran : Ran s) (refreshedAt : Instant) :
    Ran (Brands.softDeleteStale refreshedAt s).2
  | ingest {s : Session} (hran : Ran s) (batch : List (NewQuote Instrument))
    (hactive : ∀ q ∈ batch, ∃ b ∈ s.store.brands, b.isActive = true ∧
      b.id = q.subject.brandId ∧ b.symbol = q.subject.symbol) : Ran (Ingest.run batch s).2
  | cleanup {s : Session} (hran : Ran s) (days : Int64) (now : Instant) : Ran (run days now s).2

theorem upsert_owned {s : Session} (hs : s.transaction = none) (h : s.store.Owned)
    (batch : List NewBrand) : (Brands.upsert batch s).2.store.Owned := by
  have hsends : (Brands.upsert batch).Sends fun β st =>
      ∀ store x next, st store = .ok (x, next) → store.Owned → next.Owned := by
    apply Brands.upsert_sends
    · intro β st hread store x next hst howned
      cases hread with
      | read f => exact (Statement.read_eq_ok hst).2 ▸ howned
    · intro now rows store x next hst howned
      exact howned.upsertBrands hst
  exact hsends.keeps (fun β st store x next hst howned hstep => hst store x next hstep howned) hs h

theorem softDelete_owned {s : Session} (hs : s.transaction = none) (h : s.store.Owned)
    (refreshedAt : Instant) : (Brands.softDeleteStale refreshedAt s).2.store.Owned := by
  have hsends : (Brands.softDeleteStale refreshedAt).Sends fun β st =>
      ∀ store x next, st store = .ok (x, next) → store.Owned → next.Owned :=
    Brands.softDeleteStale_sends refreshedAt fun _ _ _ _ _ hst howned => howned.softDeleteBrands hst
  exact hsends.keeps (fun β st store x next hst howned hstep => hst store x next hstep howned) hs h

theorem ingest_owned {s : Session} (hs : s.transaction = none) (h : s.store.Owned)
    {batch : List (NewQuote Instrument)}
    (hactive : ∀ q ∈ batch, ∃ b ∈ s.store.brands, b.isActive = true ∧
      b.id = q.subject.brandId ∧ b.symbol = q.subject.symbol) :
    (Ingest.run batch s).2.transaction = none ∧ (Ingest.run batch s).2.store.Owned := by
  by_cases hbatch : batch = []
  · subst hbatch
    exact ⟨hs, h⟩
  have hrun : Ingest.run batch = (Ingest.work batch).runAsUnit := by
    rw [Ingest.run, if_neg (by simpa using hbatch)]
  rcases Work.runAsUnit_ok_or_restored (Ingest.work_neverRollsBack batch) hs with
    ⟨report, t, hok⟩ | ⟨hstore, hnone⟩
  · rw [← hrun] at hok
    obtain ⟨u, v, -, -, -, -, htnone, hdaily, hanalysis, hsnapshots⟩ :=
      Ingest.run_eq_ok hbatch hs hok
    obtain ⟨rows, hrows, hu⟩ := Quotes.upsert_eq_ok hdaily
    obtain ⟨rows', -, hv⟩ := Quotes.upsert_eq_ok hanalysis
    obtain ⟨shots, -, ht⟩ := Snapshots.upsert_eq_ok hsnapshots
    have howned : u.store.Owned := by
      rw [hu]
      refine h.putDaily fun r hr => ?_
      obtain ⟨q, hq, heq⟩ := exists_mem_of_map_eq hrows hr
      simp only [NewQuote.columns, QuoteRow.columns, Prod.mk.injEq] at heq
      obtain ⟨b, hb, -, hid, hsymbol⟩ := hactive q (mem_of_mem_lastPerKey hq)
      exact ⟨b, hb, by rw [hid, heq.1], by rw [hsymbol, heq.1]⟩
    rw [hok]
    refine ⟨htnone, ?_⟩
    rw [← Session.solo_store t, ht, hv]
    exact ⟨howned.brands, howned.daily⟩
  · rw [hrun]
    exact ⟨hnone, hstore ▸ h⟩

theorem cleanup_owned {s : Session} (hs : s.transaction = none) (h : s.store.Owned) (days : Int64)
    (now : Instant) : (run days now s).2.transaction = none ∧ (run days now s).2.store.Owned := by
  cases hlimit : threshold days now with
  | error o =>
    rw [run, hlimit]
    exact ⟨hs, h⟩
  | ok limit =>
    have hrun : run days now = (work limit).runAsUnit := by
      rw [run, hlimit]
      rfl
    rcases Work.runAsUnit_ok_or_restored (work_neverRollsBack limit) hs with
      ⟨report, t, hok⟩ | ⟨hstore, hnone⟩
    · rw [← hrun] at hok
      obtain ⟨-, bound, -, -, htnone, hstore, -⟩ := run_eq_ok hs hok
      rw [hok]
      exact ⟨htnone, hstore ▸ h.without _⟩
    · rw [hrun]
      exact ⟨hnone, hstore ▸ h⟩

/-- In every such session all rows of the daily series are about stored brands. -/
theorem Ran.owned {s : Session} (hran : Ran s) : s.transaction = none ∧ s.store.Owned := by
  induction hran with
  | start hstore hs => exact ⟨hs, hstore ▸ .empty⟩
  | @upsertBrands s _ batch ih =>
    exact ⟨(Brands.upsert_sends_any batch).stays_alone ih.1, upsert_owned ih.1 ih.2 batch⟩
  | @softDelete s _ refreshedAt ih =>
    have hsends := Brands.softDeleteStale_sends (P := fun _ _ => True) refreshedAt fun _ _ => trivial
    exact ⟨hsends.stays_alone ih.1, softDelete_owned ih.1 ih.2 refreshedAt⟩
  | ingest _ batch hactive ih => exact ingest_owned ih.1 ih.2 hactive
  | cleanup _ days now ih => exact cleanup_owned ih.1 ih.2 days now

end Cleanup

end PriceArchive
