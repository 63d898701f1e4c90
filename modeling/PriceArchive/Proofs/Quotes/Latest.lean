import PriceArchive.Proofs.Action.Conversion
import PriceArchive.Proofs.Store.Identity

namespace PriceArchive

open PriceArchive.Action Session

/-- A series has one row per subject and stored date. -/
def Series.Unique {σ : Type} [Subject σ] (series : Series σ) (s : Store) : Prop :=
  ((series.get s).map QuoteOf.key).Nodup

/-- Every series has one row per subject and stored date. -/
structure Store.UniqueDays (s : Store) : Prop where
  daily : Series.daily.Unique s
  forAnalysis : Series.forAnalysis.Unique s
  nikkei : (Series.ofIndex .nikkei).Unique s
  topix : (Series.ofIndex .topix).Unique s

section Unique

variable {σ : Type} [Subject σ] {series : Series σ} {s : Store}

theorem Series.Unique.upsert (h : series.Unique s) {rows stored : List (QuoteRow σ)}
    (hupsert : (QuoteRow.rule series.names).upsert (series.get s) rows = .ok stored) :
    (stored.map QuoteOf.key).Nodup := by
  rw [TableRule.upsert_eq_foldl_put hupsert]
  exact TableRule.nodup_keys_foldl_put series.table_keepsKey h rows

theorem Series.Unique.filter (h : series.Unique s) (kept : QuoteRow σ → Bool) :
    (((series.get s).filter kept).map QuoteOf.key).Nodup :=
  h.sublist (List.filter_sublist.map QuoteOf.key)

end Unique

namespace Store

theorem UniqueDays.index {s : Store} (h : s.UniqueDays) (index : MarketIndex) :
    (Series.ofIndex index).Unique s := by
  cases index with
  | nikkei => exact h.nikkei
  | topix => exact h.topix

theorem respectsWrites_uniqueDays : RespectsWrites fun s t => UniqueDays s → UniqueDays t where
  refl _ h := h
  brands _ _ _ _ h := ⟨h.daily, h.forAnalysis, h.nikkei, h.topix⟩
  softDeletion _ _ _ h := ⟨h.daily, h.forAnalysis, h.nikkei, h.topix⟩
  daily _ _ _ hupsert h := ⟨h.daily.upsert hupsert, h.forAnalysis, h.nikkei, h.topix⟩
  forAnalysis _ _ _ hupsert h := ⟨h.daily, h.forAnalysis.upsert hupsert, h.nikkei, h.topix⟩
  snapshots _ _ _ _ h := ⟨h.daily, h.forAnalysis, h.nikkei, h.topix⟩
  index index _ _ _ hupsert h := by
    cases index with
    | nikkei => exact ⟨h.daily, h.forAnalysis, h.nikkei.upsert hupsert, h.topix⟩
    | topix => exact ⟨h.daily, h.forAnalysis, h.nikkei, h.topix.upsert hupsert⟩

theorem respectsDeletions_uniqueDays : RespectsDeletions fun s t => UniqueDays s → UniqueDays t where
  refl _ h := h
  brands _ _ h := ⟨h.daily, h.forAnalysis, h.nikkei, h.topix⟩
  daily _ kept h := ⟨h.daily.filter kept, h.forAnalysis, h.nikkei, h.topix⟩
  forAnalysis _ kept h := ⟨h.daily, h.forAnalysis.filter kept, h.nikkei, h.topix⟩
  snapshots _ _ h := ⟨h.daily, h.forAnalysis, h.nikkei, h.topix⟩

theorem uniqueDays_empty : empty.UniqueDays :=
  ⟨List.nodup_nil, List.nodup_nil, List.nodup_nil, List.nodup_nil⟩

end Store

/-- Days are told apart by subject and date, and the rows that a transaction wrote by their ids; so both
have to be there once. -/
theorem Store.keptByOverlays_uniqueDays : KeptByOverlays fun s => s.IdsOnce ∧ s.UniqueDays := by
  intro old mine kept hcollide hold hmine hkept
  have hapart := apart_of_collide hcollide
  exact ⟨hmine.1.overlaid hkept.1,
    nodup_map_overlaidRows hold.1.daily hmine.1.daily hkept.1.daily hmine.2.daily hkept.2.daily
      hapart.daily,
    nodup_map_overlaidRows hold.1.forAnalysis hmine.1.forAnalysis hkept.1.forAnalysis
      hmine.2.forAnalysis hkept.2.forAnalysis hapart.forAnalysis,
    nodup_map_overlaidRows hold.1.nikkei hmine.1.nikkei hkept.1.nikkei hmine.2.nikkei hkept.2.nikkei
      hapart.nikkei,
    nodup_map_overlaidRows hold.1.topix hmine.1.topix hkept.1.topix hmine.2.topix hkept.2.topix
      hapart.topix⟩

theorem Session.InRun.uniqueDays {s : Session} (h : s.InRun) : s.store.UniqueDays := by
  obtain ⟨server, clock, ids, order, hrun⟩ := h
  exact (hrun.keeps_of_respects (Store.respectsWrites_idsOnce.and Store.respectsWrites_uniqueDays)
    (Store.respectsDeletions_idsOnce.and Store.respectsDeletions_uniqueDays)
    (fun _ _ ⟨hids, hdays⟩ => ⟨{ hids with }, hdays.daily, hdays.forAnalysis, hdays.nikkei, hdays.topix⟩)
    Store.keptByOverlays_uniqueDays
    (keeps_start ⟨.empty, Store.uniqueDays_empty⟩ server clock ids order)).store.2

theorem StoredTime.toInstant_lt {c d : StoredTime} (h : c < d) : c.toInstant < d.toInstant := by
  change c.micros < d.micros at h
  change Instant.Lt _ _
  simp only [Instant.Lt, toInstant, microsPerSecond]
  omega

namespace Quotes

variable {σ : Type} {rows : List (QuoteRow σ)}

/-- Quotes are read one by one, in order. -/
theorem ofRows_eq_ok_iff {xs : List (Quote σ)} :
    ofRows rows = .ok xs ↔ rows.map ofRow = xs.map .ok := by
  induction rows generalizing xs with
  | nil =>
    cases xs with
    | nil => exact iff_of_true rfl rfl
    | cons x xs => exact iff_of_false nofun nofun
  | cons row rest ih =>
    cases xs with
    | nil =>
      refine iff_of_false (fun h => ?_) nofun
      obtain ⟨_, -, h⟩ := bind_eq_ok_iff.mp h
      obtain ⟨_, -, h⟩ := bind_eq_ok_iff.mp h
      cases h
    | cons x xs =>
      rw [List.map_cons, List.map_cons, List.cons.injEq, ← ih]
      constructor
      · intro h
        obtain ⟨y, hy, h⟩ := bind_eq_ok_iff.mp h
        obtain ⟨ys, hys, h⟩ := bind_eq_ok_iff.mp h
        cases h
        exact ⟨hy, hys⟩
      · rintro ⟨hx, hxs⟩
        rw [ofRows, hx, hxs]
        rfl

/-- Rows in strictly ascending order of their dates are read as quotes in such an order. -/
theorem ascending_of_ofRows {xs : List (Quote σ)}
    (hrows : rows.Pairwise fun a b => a.date < b.date) (h : ofRows rows = .ok xs) :
    xs.Pairwise fun p q => p.date < q.date := by
  rw [ofRows_eq_ok_iff] at h
  have hread : (rows.map ofRow).Pairwise fun x y =>
      ∀ p q, x = .ok p → y = .ok q → p.date < q.date := by
    refine List.pairwise_map.mpr (hrows.imp fun {a b} hab p q hp hq => ?_)
    rw [date_of_ofRow hp, date_of_ofRow hq]
    exact StoredTime.toInstant_lt hab
  rw [h, List.pairwise_map] at hread
  exact hread.imp fun {p q} hpq => hpq p q rfl rfl

section Latest

theorem latestOf_eq_none_iff : latestOf rows = none ↔ rows = [] := by
  cases rows with
  | nil => exact iff_of_true rfl rfl
  | cons row rest =>
    refine iff_of_false (fun h => ?_) nofun
    unfold latestOf at h
    split at h
    · cases h
    · split at h
      · cases h
      · cases h

theorem le_of_latestOf {r : QuoteRow σ} (h : latestOf rows = some r) : ∀ x ∈ rows, x.date ≤ r.date := by
  induction rows generalizing r with
  | nil => cases h
  | cons row rest ih =>
    unfold latestOf at h
    split at h
    · rename_i hnone
      cases h
      rw [latestOf_eq_none_iff.mp hnone]
      exact List.forall_mem_singleton.mpr (Int.le_refl _)
    · rename_i other hother
      have hrest := ih hother
      split at h
      · rename_i hle
        cases h
        exact List.forall_mem_cons.mpr
          ⟨Int.le_refl _, fun x hx => Int.le_trans (hrest x hx) hle⟩
      · rename_i hle
        cases h
        exact List.forall_mem_cons.mpr ⟨(Int.lt_of_not_ge hle).le, hrest⟩

/-- Rows of different dates are listed in strictly ascending order. -/
theorem ascending_sortBy (h : (rows.map QuoteOf.date).Nodup) :
    (sortBy byDate rows).Pairwise fun a b => a.date < b.date := by
  have hsorted : (sortBy byDate rows).Pairwise fun a b => byDate a b = true ∧ a.date ≠ b.date := by
    refine pairwise_sortBy_of_nodup (fun a b hab => ?_) (fun a b c hab hbc => ?_) h
    · rw [byDate, decide_eq_false_iff_not] at hab
      exact decide_eq_true (Int.lt_of_not_ge hab).le
    · exact decide_eq_true (Int.le_trans (of_decide_eq_true hab) (of_decide_eq_true hbc))
  refine hsorted.imp fun {a b} ⟨hle, hne⟩ => Int.lt_iff_le_and_ne.mpr ⟨of_decide_eq_true hle, ?_⟩
  exact fun heq => hne (StoredTime.eq_of_micros_eq heq)

/-- Of rows of different dates the latest is the one with which their listing ends. -/
theorem latestOf_eq_getLast? (h : (rows.map QuoteOf.date).Nodup) :
    latestOf rows = (sortBy byDate rows).getLast? := by
  rcases List.eq_nil_or_concat (sortBy byDate rows) with hsort | ⟨init, last, hsort⟩
  · rw [hsort, List.getLast?_nil, latestOf_eq_none_iff]
    exact List.perm_nil.mp (hsort ▸ (sortBy_perm rows).symm)
  · rw [List.concat_eq_append] at hsort
    have hascending := ascending_sortBy h
    have hmem : ∀ x, x ∈ rows ↔ x ∈ init ∨ x = last := by
      intro x
      have hsorted : x ∈ sortBy byDate rows ↔ x ∈ rows := mem_sortBy
      rw [← hsorted, hsort, List.mem_append, List.mem_singleton]
    have hlast : last ∈ rows := (hmem last).mpr (.inr rfl)
    rw [hsort, List.getLast?_concat]
    rw [hsort, List.pairwise_append] at hascending
    cases hlatest : latestOf rows with
    | none =>
      rw [latestOf_eq_none_iff.mp hlatest] at hlast
      cases hlast
    | some r =>
      rcases (hmem r).mp (mem_of_latestOf hlatest) with hr | rfl
      · have hlt : r.date < last.date := hascending.2.2 r hr last (List.mem_singleton_self _)
        exact absurd (le_of_latestOf hlatest last hlast) (Int.not_le.mpr hlt)
      · rfl

end Latest

variable [Subject σ] {series : Series σ} {s : Session} {subject : List String}

/-- The rows of one subject in a table with one row per subject and date are of different dates. -/
theorem nodup_dates_ofSubject (h : (rows.map QuoteOf.key).Nodup) (subject : List String) :
    ((ofSubject subject rows).map QuoteOf.date).Nodup := by
  have hkeys : (ofSubject subject rows).Pairwise fun a b => a.key ≠ b.key :=
    List.pairwise_map.mp (h.sublist (List.filter_sublist.map QuoteOf.key))
  refine List.pairwise_map.mpr (hkeys.imp_of_mem fun {a b} ha hb hne hdate => hne ?_)
  have hsubject : ∀ r ∈ ofSubject subject rows, Subject.key r.subject = subject := fun r hr =>
    of_decide_eq_true (List.mem_filter.mp hr).2
  rw [QuoteOf.key, QuoteOf.key, hsubject a ha, hsubject b hb, hdate]

theorem listed_all (subject : List String) (rows : List (QuoteRow σ)) :
    listed subject none none rows = sortBy byDate (ofSubject subject rows) := by
  exact congrArg (sortBy byDate) (List.filter_eq_self.mpr fun _ _ => rfl)

/-- A read of the latest quote reads the row of the latest date, if the session is ready for it. -/
theorem latest_of_ready (series : Series σ) (htexts : Binding.texts subject = .ok ()) (what : String)
    (hs : s.Ready) {row : Option (QuoteRow σ)}
    (hrow : latestOf (ofSubject subject (series.get s.store)) = row) :
    latest series subject what s =
      row.elim (Action.fail (.notFound what)) (fun row => Action.ofConversion (ofRow row))
        s.checkedOut := by
  subst hrow
  have hread : (do Binding.texts subject; pure (latestOf (ofSubject subject (series.get s.store)))) =
      .ok (latestOf (ofSubject subject (series.get s.store))) := by
    rw [htexts]
    rfl
  refine (bind_of_ok (run_read_of_ready hs _ hread)).trans ?_
  cases latestOf (ofSubject subject (series.get s.store)) with
  | none => rfl
  | some row => rfl

/-- Some quotes are in strictly ascending order of their dates, the latest quote is read as the last of
them, and it is not found exactly when there are none. -/
structure EndWithLatest (quotes : List (Quote σ)) (latest : Action (Quote σ)) (s : Session) :
    Prop where
  ascending : quotes.Pairwise fun p q => p.date < q.date
  latest_eq : ∀ q, quotes.getLast? = some q → latest s = (.ok q, s.checkedOut)
  notFound_iff : (∃ what, (latest s).1 = .error (.error (.notFound what))) ↔ quotes = []

/-- A listing without bounds that has an answer ends with the latest quote of the subject. -/
theorem endWithLatest_of_list (hunique : series.Unique s.store) (what : String)
    {quotes : List (Quote σ)} {t : Session} (h : list series subject .all s = (.ok quotes, t)) :
    t = s.checkedOut ∧ EndWithLatest quotes (latest series subject what) s := by
  obtain ⟨htexts, hs⟩ : Binding.texts subject = .ok () ∧ s.Ready := by
    rw [list] at h
    obtain ⟨upper, u, hupper, hlist⟩ := Action.bind_eq_ok_iff.mp h
    obtain ⟨-, rfl⟩ := Prod.mk.inj hupper
    obtain ⟨_, _, hread, -⟩ := Action.bind_eq_ok_iff.mp hlist
    obtain ⟨_, htexts, -⟩ := PriceArchive.bind_eq_ok_iff.mp (run_read_eq_ok hread).1
    exact ⟨htexts, ready_of_run_eq_ok hread⟩
  rw [list_of_ready series htexts ⟨rfl, none, rfl, rfl⟩ hs, listed_all] at h
  have hdates := nodup_dates_ofSubject hunique subject
  have hlatest := latest_of_ready series htexts what hs (latestOf_eq_getLast? hdates)
  have hascending := ascending_sortBy hdates
  generalize sortBy byDate (ofSubject subject (series.get s.store)) = rows at h hlatest hascending
  cases hread : ofRows rows with
  | error e =>
    rw [hread] at h
    cases h
  | ok xs =>
    rw [hread] at h
    cases h
    have hlast : rows.getLast?.map ofRow = quotes.getLast?.map .ok := by
      rw [← List.getLast?_map, ofRows_eq_ok_iff.mp hread, List.getLast?_map]
    refine ⟨rfl, ascending_of_ofRows hascending hread, fun q hq => ?_, ?_⟩
    · rw [hq, Option.map_some, Option.map_eq_some_iff] at hlast
      obtain ⟨r, hr, hrow⟩ := hlast
      rw [hr, Option.elim_some] at hlatest
      rw [hlatest, hrow]
      rfl
    · rw [hlatest]
      cases hr : rows.getLast? with
      | none =>
        rw [hr, Option.map_none, eq_comm, Option.map_eq_none_iff, List.getLast?_eq_none_iff] at hlast
        exact iff_of_true ⟨what, rfl⟩ hlast
      | some r =>
        rw [hr, Option.map_some, eq_comm, Option.map_eq_some_iff] at hlast
        obtain ⟨q, hq, hrow⟩ := hlast
        refine iff_of_false ?_ (List.ne_nil_of_mem (List.mem_of_getLast? hq))
        rintro ⟨what', hnot⟩
        rw [Option.elim_some, ← hrow] at hnot
        cases hnot

/-- In every session of a run: a listing of a symbol without bounds, or of an index, that has an answer
leaves the session as it is, but that it may have taken a connection, and has strictly ascending dates; the read of the latest quote returns the last
of the listed quotes, and it finds none exactly when the listing is empty. -/
theorem listings_end_with_latest {s : Session} (hs : s.InRun) :
    (∀ symbol, symbol ≠ "" → ∀ quotes t,
      listBySymbol Series.daily ⟨symbol, .all⟩ s = (.ok quotes, t) →
        t = s.checkedOut ∧ EndWithLatest quotes (latestDaily symbol) s) ∧
    (∀ symbol, symbol ≠ "" → ∀ quotes t,
      listBySymbol Series.forAnalysis ⟨symbol, .all⟩ s = (.ok quotes, t) →
        t = s.checkedOut ∧ EndWithLatest quotes (latestForAnalysis symbol) s) ∧
    ∀ index quotes t, list (Series.ofIndex index) [] .all s = (.ok quotes, t) →
      t = s.checkedOut ∧ EndWithLatest quotes (latestOfIndex index) s := by
  have hunique := hs.uniqueDays
  refine ⟨fun symbol hsymbol quotes t h => ?_, fun symbol hsymbol quotes t h => ?_,
    fun index quotes t h => endWithLatest_of_list (hunique.index index) _ h⟩
  · rw [listBySymbol_eq _ hsymbol] at h
    exact endWithLatest_of_list hunique.daily _ h
  · rw [listBySymbol_eq _ hsymbol] at h
    exact endWithLatest_of_list hunique.forAnalysis _ h

/-- A quote for the first day of 1970 and, before it in the batch, one for the second. -/
def twoDays {σ : Type} (subject : σ) : List (NewQuote σ) :=
  [⟨subject, ⟨86400, 0, by decide, by decide, Instant.epoch.nanos_lt⟩,
      .make default default default default 2⟩,
    ⟨subject, .epoch, .make default default default default 1⟩]

/-- The session after two days were written to the daily series and the one for analysis. -/
def afterTwoDays : Session :=
  ((Call.upsertForAnalysis (twoDays ⟨"1001"⟩)).perform
    ((Call.upsertDaily (twoDays ⟨"1001", "b1"⟩)).perform
      (.start .live (fun _ => .epoch) toString)).2).2

/-- The volumes on the dates that a listing answers. -/
def volumesByDate {σ : Type} (listing : Action (List (Quote σ))) (s : Session) :
    Option (List (Int × UInt64)) :=
  (listing s).1.toOption.map fun quotes => quotes.map fun q => (q.date.seconds, q.bar.volume)

theorem exists_of_volumesByDate {σ : Type} {listing : Action (List (Quote σ))} {s : Session}
    {volumes : List (Int × UInt64)} (h : volumesByDate listing s = some volumes) :
    ∃ quotes t, listing s = (.ok quotes, t) ∧
      quotes.map (fun q => (q.date.seconds, q.bar.volume)) = volumes := by
  unfold volumesByDate at h
  rcases hlisting : listing s with ⟨halt | quotes, t⟩
  · rw [hlisting] at h
    cases h
  · rw [hlisting] at h
    exact ⟨quotes, t, rfl, Option.some.inj h⟩

theorem listings_end_with_latest_afterTwoDays :
    afterTwoDays.InRun ∧
      (∃ quotes, listBySymbol Series.daily ⟨"1001", .all⟩ afterTwoDays =
          (.ok quotes, afterTwoDays.checkedOut) ∧
        quotes.map (fun q => (q.date.seconds, q.bar.volume)) = [(0, 1), (86400, 2)] ∧
        EndWithLatest quotes (latestDaily "1001") afterTwoDays) ∧
      (∃ quotes, listBySymbol Series.forAnalysis ⟨"1001", .all⟩ afterTwoDays =
          (.ok quotes, afterTwoDays.checkedOut) ∧
        quotes.map (fun q => (q.date.seconds, q.bar.volume)) = [(0, 1), (86400, 2)] ∧
        EndWithLatest quotes (latestForAnalysis "1001") afterTwoDays) ∧
      ∃ quotes, list (Series.ofIndex .nikkei) [] .all afterTwoDays =
          (.ok quotes, afterTwoDays.checkedOut) ∧
        quotes.map (fun q => (q.date.seconds, q.bar.volume)) = [] ∧
        EndWithLatest quotes (latestOfIndex .nikkei) afterTwoDays := by
  have hrun : afterTwoDays.InRun :=
    ⟨_, _, _, _, (LeadsTo.refl.request (.call _)).request (.call _)⟩
  obtain ⟨hdaily, hanalysis, hindex⟩ := listings_end_with_latest hrun
  refine ⟨hrun, ?_, ?_, ?_⟩
  · have hread : volumesByDate (listBySymbol Series.daily ⟨"1001", .all⟩) afterTwoDays =
        some [(0, 1), (86400, 2)] := by decide +kernel
    obtain ⟨quotes, t, hlist, hvolumes⟩ := exists_of_volumesByDate hread
    obtain ⟨rfl, hends⟩ := hdaily "1001" (by decide) quotes t hlist
    exact ⟨quotes, hlist, hvolumes, hends⟩
  · have hread : volumesByDate (listBySymbol Series.forAnalysis ⟨"1001", .all⟩) afterTwoDays =
        some [(0, 1), (86400, 2)] := by decide +kernel
    obtain ⟨quotes, t, hlist, hvolumes⟩ := exists_of_volumesByDate hread
    obtain ⟨rfl, hends⟩ := hanalysis "1001" (by decide) quotes t hlist
    exact ⟨quotes, hlist, hvolumes, hends⟩
  · have hread : volumesByDate (list (Series.ofIndex .nikkei) [] .all) afterTwoDays = some [] := by
      decide +kernel
    obtain ⟨quotes, t, hlist, hvolumes⟩ := exists_of_volumesByDate hread
    obtain ⟨rfl, hends⟩ := hindex .nikkei quotes t hlist
    exact ⟨quotes, hlist, hvolumes, hends⟩

end Quotes

end PriceArchive
