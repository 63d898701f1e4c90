import PriceArchive.Proofs.Action.Related
import PriceArchive.Proofs.Table.Actives
import PriceArchive.Proofs.Work.Runs

namespace PriceArchive

open PriceArchive.Action Session Statement

namespace Store

/-- An upsert into any table, and a soft deletion, relate the stores before and after. -/
structure RespectsWrites (R : Store → Store → Prop) : Prop where
  refl : ∀ s, R s s
  brands : ∀ s rows stored, BrandRow.rule.upsert s.brands rows = .ok stored →
    R s { s with brands := stored }
  softDeletion : ∀ s bound now,
    R s { s with brands := s.brands.map (Brands.softDeleteIfStale bound now) }
  daily : ∀ s rows stored, (QuoteRow.rule Series.daily.names).upsert s.daily rows = .ok stored →
    R s { s with daily := stored }
  forAnalysis : ∀ s rows stored,
    (QuoteRow.rule Series.forAnalysis.names).upsert s.forAnalysis rows = .ok stored →
      R s { s with forAnalysis := stored }
  snapshots : ∀ s rows stored, SnapshotRow.rule.upsert s.snapshots rows = .ok stored →
    R s { s with snapshots := stored }
  index : ∀ index s rows stored,
    (QuoteRow.rule (Series.ofIndex index).names).upsert ((Series.ofIndex index).get s) rows = .ok stored →
      R s ((Series.ofIndex index).set s stored)

/-- Taking rows out of any table relates the stores before and after. -/
structure RespectsDeletions (R : Store → Store → Prop) : Prop where
  refl : ∀ s, R s s
  brands : ∀ s kept, R s { s with brands := s.brands.filter kept }
  daily : ∀ s kept, R s { s with daily := s.daily.filter kept }
  forAnalysis : ∀ s kept, R s { s with forAnalysis := s.forAnalysis.filter kept }
  snapshots : ∀ s kept, R s { s with snapshots := s.snapshots.filter kept }

section Both

variable {J K : Store → Prop}

theorem RespectsWrites.and (hJ : RespectsWrites fun s t => J s → J t)
    (hK : RespectsWrites fun s t => K s → K t) :
    RespectsWrites fun s t => J s ∧ K s → J t ∧ K t where
  refl _ h := h
  brands s rows stored hupsert := .imp (hJ.brands s rows stored hupsert) (hK.brands s rows stored hupsert)
  softDeletion s bound now := .imp (hJ.softDeletion s bound now) (hK.softDeletion s bound now)
  daily s rows stored hupsert := .imp (hJ.daily s rows stored hupsert) (hK.daily s rows stored hupsert)
  forAnalysis s rows stored hupsert :=
    .imp (hJ.forAnalysis s rows stored hupsert) (hK.forAnalysis s rows stored hupsert)
  snapshots s rows stored hupsert :=
    .imp (hJ.snapshots s rows stored hupsert) (hK.snapshots s rows stored hupsert)
  index index s rows stored hupsert :=
    .imp (hJ.index index s rows stored hupsert) (hK.index index s rows stored hupsert)

theorem RespectsDeletions.and (hJ : RespectsDeletions fun s t => J s → J t)
    (hK : RespectsDeletions fun s t => K s → K t) :
    RespectsDeletions fun s t => J s ∧ K s → J t ∧ K t where
  refl _ h := h
  brands s kept := .imp (hJ.brands s kept) (hK.brands s kept)
  daily s kept := .imp (hJ.daily s kept) (hK.daily s kept)
  forAnalysis s kept := .imp (hJ.forAnalysis s kept) (hK.forAnalysis s kept)
  snapshots s kept := .imp (hJ.snapshots s kept) (hK.snapshots s kept)

end Both

end Store

namespace Call

variable {R : Store → Store → Prop}

/-- Whether an operation deletes rows. -/
def deletes : Call → Bool
  | deleteBrands _ | deleteDailyOfBrands _ | deleteDailyOfSymbols _ | deleteForAnalysisOfSymbols _
  | deleteSnapshots _ => true
  | _ => false

theorem perform_sends_relates_of_writes (hR : Store.RespectsWrites R) {c : Call}
    (hc : c.deletes = false) : c.perform.Sends (Relates R) := by
  by_cases hreads : c.readsOnly = true
  · exact (perform_sends_reads hreads).mono fun _ _ hread => hread.relates hR.refl
  cases c with
  | upsertBrands batch =>
    exact Brands.upsert_sends batch (fun _ _ hread => hread.relates hR.refl)
      (Brands.upsertStatement_relates hR.brands)
  | softDeleteBrands refreshedAt =>
    exact Brands.softDeleteStale_sends refreshedAt (Brands.softDeleteStatement_relates hR.softDeletion)
  | upsertDaily batch => exact Quotes.upsert_sends _ batch (Quotes.upsertStatement_relates hR.daily)
  | upsertForAnalysis batch =>
    exact Quotes.upsert_sends _ batch (Quotes.upsertStatement_relates hR.forAnalysis)
  | upsertSnapshots batch =>
    exact Snapshots.upsert_sends batch (Snapshots.upsertStatement_relates hR.snapshots)
  | upsertIndex index batch =>
    exact Quotes.upsert_sends _ batch (Quotes.upsertStatement_relates (hR.index index))
  | deleteBrands _ | deleteDailyOfBrands _ | deleteDailyOfSymbols _ | deleteForAnalysisOfSymbols _
  | deleteSnapshots _ => cases hc
  | _ => exact absurd rfl hreads

theorem perform_sends_relates_of_deletions (hR : Store.RespectsDeletions R) {c : Call}
    (hc : c.deletes = true) : c.perform.Sends (Relates R) := by
  cases c with
  | deleteBrands ids =>
    exact Brands.delete_sends ids (fun _ _ hread => hread.relates hR.refl)
      (Brands.deleteStatement_relates hR.brands)
  | deleteDailyOfBrands ids =>
    exact Quotes.deleteByBrands_sends ids (Quotes.deleteStatement_relates hR.daily)
  | deleteDailyOfSymbols symbols =>
    exact Quotes.deleteBySymbols_sends _ _ symbols (Quotes.deleteStatement_relates hR.daily)
  | deleteForAnalysisOfSymbols symbols =>
    exact Quotes.deleteBySymbols_sends _ _ symbols (Quotes.deleteStatement_relates hR.forAnalysis)
  | deleteSnapshots brandIds =>
    exact Snapshots.delete_sends brandIds (Snapshots.deleteStatement_relates hR.snapshots)
  | _ => cases hc

theorem perform_sends_relates (hwrites : Store.RespectsWrites R) (hdeletions : Store.RespectsDeletions R)
    (c : Call) : c.perform.Sends (Relates R) := by
  cases hc : c.deletes with
  | false => exact perform_sends_relates_of_writes hwrites hc
  | true => exact perform_sends_relates_of_deletions hdeletions hc

end Call

section Seeds

/-- A row that is added where nothing stands against it is upserted, if a taken key stands against it. -/
theorem TableRule.upsert_of_insert {ρ κ : Type} [DecidableEq κ] {rule : TableRule ρ κ} {rows rows' : List ρ}
    {row : ρ} (hkey : rule.refusal rows row = none → rule.key row ∉ rows.map rule.key)
    (h : rule.insert rows row = .ok rows') : rule.upsert rows [row] = .ok rows' := by
  have hnew := hkey (insert_eq_ok h).1
  rw [← holds_iff_mem_keys] at hnew
  rw [upsert, upsertFrom, upsertRow, if_neg hnew, h]
  rfl

variable {R : Store → Store → Prop}

theorem Maintenance.seedQuote_sends_relates {σ : Type} [Subject σ] {series : Series σ}
    (hR : ∀ s rows stored, (QuoteRow.rule series.names).upsert (series.get s) rows = .ok stored →
      R s (series.set s stored)) (q : QuoteOf σ Instant StoredBar) :
    (seedQuote series q).Sends (Relates R) := by
  refine .run _ _ fun s n t hstep => ?_
  obtain ⟨row, -, hstep⟩ := bind_eq_ok_iff.mp hstep
  obtain ⟨rows, hrows, hstep⟩ := bind_eq_ok_iff.mp hstep
  cases hstep
  exact hR s [row] rows (TableRule.upsert_of_insert (fun h => (QuoteRow.refusal_eq_none_iff.mp h).2.2) hrows)

/-- A row that is written as it is is one that an upsert adds, or a volume average. -/
theorem Maintenance.seed_sends_relates (hR : Store.RespectsWrites R)
    (haverages : ∀ s rows, R s { s with volumeAverages := rows }) (row : SeedRow) :
    (seed row).Sends (Relates R) := by
  cases row with
  | brand b =>
    refine .run _ _ fun s n t hstep => ?_
    obtain ⟨row, -, hstep⟩ := bind_eq_ok_iff.mp hstep
    obtain ⟨rows, hrows, hstep⟩ := bind_eq_ok_iff.mp hstep
    cases hstep
    exact hR.brands s [row] rows
      (TableRule.upsert_of_insert (fun h => (BrandRow.refusal_eq_none_iff.mp h).1) hrows)
  | volumeAverage symbol average createdAt updatedAt =>
    refine .run _ _ fun s n t hstep => ?_
    obtain ⟨_, -, hstep⟩ := bind_eq_ok_iff.mp hstep
    obtain ⟨_, -, hstep⟩ := bind_eq_ok_iff.mp hstep
    obtain ⟨_, -, hstep⟩ := bind_eq_ok_iff.mp hstep
    obtain ⟨rows, -, hstep⟩ := bind_eq_ok_iff.mp hstep
    cases hstep
    exact haverages s rows
  | snapshot x =>
    refine .run _ _ fun s n t hstep => ?_
    obtain ⟨row, -, hstep⟩ := bind_eq_ok_iff.mp hstep
    obtain ⟨rows, hrows, hstep⟩ := bind_eq_ok_iff.mp hstep
    cases hstep
    exact hR.snapshots s [row] rows
      (TableRule.upsert_of_insert (fun h => (SnapshotRow.refusal_eq_none_iff.mp h).2) hrows)
  | daily q => exact seedQuote_sends_relates hR.daily q
  | forAnalysis q => exact seedQuote_sends_relates hR.forAnalysis q
  | index index q => exact seedQuote_sends_relates (hR.index index) q

end Seeds

/-- A condition that writes, deletions, further volume averages and overlays keep, every run keeps. -/
theorem Session.LeadsTo.keeps_of_respects {J : Store → Prop}
    (hwrites : Store.RespectsWrites fun s t => J s → J t)
    (hdeletions : Store.RespectsDeletions fun s t => J s → J t)
    (haverages : ∀ s rows, J s → J { s with volumeAverages := rows }) (hoverlay : KeptByOverlays J)
    {s t : Session} (h : s.LeadsTo t) (hs : s.Keeps J) : t.Keeps J :=
  h.keeps (fun c _ ht => (c.perform_sends_relates hwrites hdeletions).keepsBoth ht)
    (fun row _ ht => (Maintenance.seed_sends_relates hwrites haverages row).keepsBoth ht) hoverlay hs

section Brands

/-- Whether an operation writes or deletes brands. -/
def Call.writesBrands : Call → Bool
  | upsertBrands _ | deleteBrands _ | softDeleteBrands _ => true
  | _ => false

theorem Call.perform_sends_leaving_brands {c : Call} (hc : c.writesBrands = false) :
    c.perform.Sends (Relates fun s t => t.brands = s.brands) := by
  by_cases hreads : c.readsOnly = true
  · exact (perform_sends_reads hreads).mono fun _ _ hread =>
      hread.relates (R := fun s t => t.brands = s.brands) fun _ => rfl
  cases c with
  | upsertDaily batch =>
    exact Quotes.upsert_sends _ batch (Quotes.upsertStatement_relates fun _ _ _ _ => rfl)
  | deleteDailyOfBrands ids =>
    exact Quotes.deleteByBrands_sends ids (Quotes.deleteStatement_relates fun _ _ => rfl)
  | deleteDailyOfSymbols symbols =>
    exact Quotes.deleteBySymbols_sends _ _ symbols (Quotes.deleteStatement_relates fun _ _ => rfl)
  | upsertForAnalysis batch =>
    exact Quotes.upsert_sends _ batch (Quotes.upsertStatement_relates fun _ _ _ _ => rfl)
  | deleteForAnalysisOfSymbols symbols =>
    exact Quotes.deleteBySymbols_sends _ _ symbols (Quotes.deleteStatement_relates fun _ _ => rfl)
  | upsertSnapshots batch =>
    exact Snapshots.upsert_sends batch (Snapshots.upsertStatement_relates fun _ _ _ _ => rfl)
  | deleteSnapshots brandIds =>
    exact Snapshots.delete_sends brandIds (Snapshots.deleteStatement_relates fun _ _ => rfl)
  | upsertIndex index batch =>
    refine Quotes.upsert_sends _ batch (Quotes.upsertStatement_relates fun _ _ _ _ => ?_)
    cases index <;> rfl
  | upsertBrands _ | deleteBrands _ | softDeleteBrands _ => cases hc
  | _ => exact absurd rfl hreads

theorem Maintenance.seedQuote_sends_leaving_brands {σ : Type} [Subject σ] {series : Series σ}
    (hset : ∀ s rows, (series.set s rows).brands = s.brands) (q : QuoteOf σ Instant StoredBar) :
    (seedQuote series q).Sends (Relates fun s t => t.brands = s.brands) := by
  refine .run _ _ fun s n t hstep => ?_
  obtain ⟨_, -, hstep⟩ := bind_eq_ok_iff.mp hstep
  obtain ⟨rows, -, hstep⟩ := bind_eq_ok_iff.mp hstep
  cases hstep
  exact hset s rows

/-- A row that is written as it is concerns the brands only if it is one, with texts that can be sent. -/
theorem Maintenance.seed_sends_inserting_brand {J : List BrandRow → Prop}
    (hinsert : ∀ rows row rows', Binding.texts [row.id, row.symbol] = .ok () →
      BrandRow.rule.insert rows row = .ok rows' → J rows → J rows') (row : SeedRow) :
    (seed row).Sends (Relates fun s t => J s.brands → J t.brands) := by
  have hleave {a : Action Nat} (ha : a.Sends (Relates fun s t => t.brands = s.brands)) :
      a.Sends (Relates fun s t => J s.brands → J t.brands) :=
    ha.mono fun _ _ hst s x t hstep hs => (hst s x t hstep).symm ▸ hs
  cases row with
  | brand b =>
    refine .run _ _ fun s n t hstep hs => ?_
    obtain ⟨row, hrow, hstep⟩ := bind_eq_ok_iff.mp hstep
    obtain ⟨rows, hrows, hstep⟩ := bind_eq_ok_iff.mp hstep
    cases hstep
    exact hinsert _ row rows (Binding.texts_of_brand_eq_ok hrow) hrows hs
  | volumeAverage symbol average createdAt updatedAt =>
    refine hleave (.run _ _ fun s n t hstep => ?_)
    obtain ⟨_, -, hstep⟩ := bind_eq_ok_iff.mp hstep
    obtain ⟨_, -, hstep⟩ := bind_eq_ok_iff.mp hstep
    obtain ⟨_, -, hstep⟩ := bind_eq_ok_iff.mp hstep
    obtain ⟨_, -, hstep⟩ := bind_eq_ok_iff.mp hstep
    cases hstep
    rfl
  | snapshot x =>
    refine hleave (.run _ _ fun s n t hstep => ?_)
    obtain ⟨_, -, hstep⟩ := bind_eq_ok_iff.mp hstep
    obtain ⟨_, -, hstep⟩ := bind_eq_ok_iff.mp hstep
    cases hstep
    rfl
  | daily q => exact hleave (seedQuote_sends_leaving_brands (fun _ _ => rfl) q)
  | forAnalysis q => exact hleave (seedQuote_sends_leaving_brands (fun _ _ => rfl) q)
  | index index q =>
    exact hleave (seedQuote_sends_leaving_brands (fun _ _ => by cases index <;> rfl) q)

/-- A condition on the brands that the three operations that write or delete brands keep, brands that are
written as they are, and overlays, every run keeps. -/
theorem Session.LeadsTo.keeps_brands {J : List BrandRow → Prop}
    (hupsert : ∀ batch (s : Session), (s.Keeps fun store => J store.brands) →
      (Brands.upsert batch s).2.Keeps fun store => J store.brands)
    (hdelete : ∀ ids (s : Session), (s.Keeps fun store => J store.brands) →
      (Brands.delete ids s).2.Keeps fun store => J store.brands)
    (hsoftDelete : ∀ refreshedAt (s : Session), (s.Keeps fun store => J store.brands) →
      (Brands.softDeleteStale refreshedAt s).2.Keeps fun store => J store.brands)
    (hinsert : ∀ rows row rows', Binding.texts [row.id, row.symbol] = .ok () →
      BrandRow.rule.insert rows row = .ok rows' → J rows → J rows')
    (hoverlay : KeptByOverlays fun store => J store.brands)
    {s t : Session} (h : s.LeadsTo t) (hs : s.Keeps fun store => J store.brands) :
    t.Keeps fun store => J store.brands := by
  refine h.keeps (fun c t ht => ?_)
    (fun row _ ht => (Maintenance.seed_sends_inserting_brand hinsert row).keepsBoth ht) hoverlay hs
  by_cases hwrites : c.writesBrands = true
  · cases c with
    | upsertBrands batch => exact hupsert batch t ht
    | deleteBrands ids => exact hdelete ids t ht
    | softDeleteBrands refreshedAt => exact hsoftDelete refreshedAt t ht
    | _ => cases hwrites
  · rw [Bool.not_eq_true] at hwrites
    refine ((Call.perform_sends_leaving_brands hwrites).mono fun β st hst before x after hstep hbefore =>
      ?_).keepsBoth ht
    rwa [hst before x after hstep]

end Brands

section Jobs

variable {R : Store → Store → Prop} {s : Session}

/-- Inside a transaction no unit of work begins. -/
theorem Work.runAsUnit_of_inTransaction {α : Type} (w : Work Error α) (hs : s.inTransaction = true) :
    w.runAsUnit s = (.error (.error .nestedUnit), s) := by
  have hunit : w.performAsUnit s = (.ok (.notBegun .nestedUnit), s) := asUnit_of_inTransaction _ hs
  rw [runAsUnit, bind_of_ok hunit]
  rfl

theorem Session.Keeps.of_related (htrans : ∀ s t u, R s t → R t u → R s u) {start : Store} {α : Type}
    {a : Action α} (ha : a.Sends (Relates R)) (hs : s.Keeps (R start)) : (a s).2.Keeps (R start) :=
  Sends.keepsBoth (ha.mono fun _ _ hst _ _ _ hstep hbefore => htrans _ _ _ hbefore (hst _ _ _ hstep)) hs

/-- What the calls of a job respect relates the stores before and after the job. -/
theorem Job.perform_related (hrefl : ∀ s, R s s) (htrans : ∀ s t u, R s t → R t u → R s u) {j : Job}
    (hj : j.Asks fun r => r.perform.Sends (Relates R)) (hs : s.transaction = none) :
    R s.store (j.perform s).2.store := by
  have hkeeps : s.Keeps (R s.store) := ⟨hrefl s.store, by simp [hs]⟩
  exact ((keptByUnits_keeps (R s.store)).job (fun _ _ ht => ⟨ht.store, ht.start⟩)
    (fun _ _ hr ht => ht.of_related htrans hr) hj hkeeps).store

/-- Whether a job deletes rows. -/
def Job.deletes : Job → Bool
  | ingest _ => false
  | cleanup .. | cleanupNow _ => true

/-- An ingest only writes. -/
theorem Job.asks_of_writes (hR : Store.RespectsWrites R) {j : Job} (hj : j.deletes = false) :
    j.Asks fun r => r.perform.Sends (Relates R) := by
  cases j with
  | ingest batch =>
    exact ⟨Call.perform_sends_relates_of_writes (c := .upsertDaily _) hR rfl,
      Call.perform_sends_relates_of_writes (c := .upsertForAnalysis _) hR rfl,
      Call.perform_sends_relates_of_writes (c := .upsertSnapshots _) hR rfl⟩
  | cleanup | cleanupNow => cases hj

/-- A cleanup only deletes. -/
theorem Job.asks_of_deletions (hR : Store.RespectsDeletions R) {j : Job} (hj : j.deletes = true) :
    j.Asks fun r => r.perform.Sends (Relates R) := by
  have hstale : ∀ threshold, (Call.findStaleBrands threshold).perform.Sends (Relates R) :=
    fun threshold => (Call.perform_sends_reads (c := .findStaleBrands threshold) rfl).mono
      fun _ _ hread => hread.relates hR.refl
  cases j with
  | ingest => cases hj
  | cleanup | cleanupNow =>
    exact ⟨hstale, fun _ => Call.perform_sends_relates_of_deletions (c := .deleteBrands _) hR rfl,
      fun _ => Call.perform_sends_relates_of_deletions (c := .deleteDailyOfBrands _) hR rfl,
      fun _ => Call.perform_sends_relates_of_deletions (c := .deleteForAnalysisOfSymbols _) hR rfl,
      fun _ => Call.perform_sends_relates_of_deletions (c := .deleteSnapshots _) hR rfl⟩

end Jobs

end PriceArchive
