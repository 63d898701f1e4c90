import PriceArchive.Proofs.Ingest.LatestRow
import PriceArchive.Proofs.Work.Commit

namespace PriceArchive

namespace Store

/-- The snapshot of a brand has the close of the brand's latest row as its current price. -/
def FollowsLatestClose (s : Store) (b : String) : Prop :=
  ∃ h ∈ s.snapshots, ∃ r ∈ s.daily,
    h.brandId = b ∧ s.IsLatestRow b r ∧ h.currentPrice = r.bar.closing

instance (s : Store) (b : String) : Decidable (s.FollowsLatestClose b) :=
  inferInstanceAs (Decidable (∃ h ∈ s.snapshots, _))

end Store

theorem Instant.le_antisymm {a b : Instant} (hab : a ≤ b) (hba : b ≤ a) : a = b := by
  change Instant.Le a b at hab
  change Instant.Le b a at hba
  unfold Instant.Le at hab hba
  obtain ⟨s, n, _, _, _⟩ := a
  obtain ⟨s', n', _, _, _⟩ := b
  dsimp only at hab hba
  have hseconds : s = s' := by omega
  have hnanos : n = n' := by omega
  subst hseconds hnanos
  rfl

namespace Ingest

variable {batches : List (List (NewQuote Instrument))} {b : String}

/-- The newest quote on a brand in the last batch that has one. -/
def lastReport (b : String) (batches : List (List (NewQuote Instrument))) :
    Option (NewQuote Instrument) :=
  batches.reverse.findSome? fun batch => newest NewQuote.byDate (quotesOf b batch)

theorem lastReport_concat (b : String) (batches : List (List (NewQuote Instrument)))
    (batch : List (NewQuote Instrument)) :
    lastReport b (batches ++ [batch]) =
      (newest NewQuote.byDate (quotesOf b batch)).or (lastReport b batches) := by
  simp only [lastReport, List.reverse_append, List.reverse_singleton, List.singleton_append,
    List.findSome?_cons]
  cases newest NewQuote.byDate (quotesOf b batch) with
  | none => rfl
  | some q => rfl

theorem getLast?_filter_reported (b : String) (batches : List (List (NewQuote Instrument))) :
    ((reported batches).filter fun h => decide (h.brandId = b)).getLast? =
      (lastReport b batches).map fun q => .ofPrice q.subject.brandId q.bar.closing := by
  induction batches using List.reverseRecOn with
  | nil => rfl
  | append_singleton batches batch ih =>
    have hsplit : reported (batches ++ [batch]) = reported batches ++ latestCloses batch := by
      simp [reported]
    rw [hsplit, List.filter_append, List.getLast?_append, ih, filter_latestCloses,
      lastReport_concat]
    cases newest NewQuote.byDate (quotesOf b batch) with
    | none => rfl
    | some q => rfl

/-- The snapshot of a brand has the close of the newest quote in the last batch on it. -/
theorem Filled.currentPrice {store : Store} (hfilled : Filled batches store)
    {q : NewQuote Instrument} (hq : lastReport b batches = some q) :
    (∃ h ∈ store.snapshots, h.brandId = b) ∧
      ∀ h ∈ store.snapshots, h.brandId = b → h.currentPrice = Price.toStored q.bar.closing := by
  obtain ⟨rows, hrows, hstore⟩ := hfilled.snapshots
  have hlast := getLast?_filter_of_map_eq hrows fun c => decide (c.1 = b)
  rw [getLast?_filter_reported, hq, Option.map_some, Option.map_some, Option.map_eq_some_iff]
    at hlast
  obtain ⟨w, hw, hcolumns⟩ := hlast
  change (rows.filter fun r => decide (Snapshots.table.rule.key r = b)).getLast? = some w at hw
  rw [Prod.mk.injEq] at hcolumns
  have hlookup := TableRule.lookup_foldl_put Snapshots.table_keepsKey
    (f := SnapshotOf.currentPrice) (fun _ _ => rfl) [] rows b
  rw [← hstore] at hlookup
  have hprice : (Snapshots.table.rule.lookup store.snapshots b).map SnapshotOf.currentPrice =
      some (Price.toStored q.bar.closing) := by
    rw [hlookup, hw, Option.map_some, hcolumns.2]
    rfl
  have hnodup : (store.snapshots.map Snapshots.table.rule.key).Nodup := by
    rw [hstore]
    exact TableRule.nodup_keys_foldl_put Snapshots.table_keepsKey (by simp) rows
  constructor
  · obtain ⟨h, hh, -⟩ := Option.map_eq_some_iff.mp hprice
    exact ⟨h, TableRule.mem_of_lookup hh, TableRule.key_of_lookup hh⟩
  · intro h hh hb
    have hfound := TableRule.lookup_of_mem hnodup hh
    rw [show Snapshots.table.rule.key h = b from hb] at hfound
    rw [hfound, Option.map_some, Option.some.injEq] at hprice
    exact hprice

theorem exists_lastReport {x : NewQuote Instrument} (hx : x ∈ batches.flatten)
    (hb : x.subject.brandId = b) : ∃ q, lastReport b batches = some q := by
  obtain ⟨batch, hbatch, hx⟩ := List.mem_flatten.mp hx
  have hquotes : quotesOf b batch ≠ [] := List.ne_nil_of_mem (mem_quotesOf.mpr ⟨hx, hb⟩)
  obtain ⟨q, hq⟩ := exists_newest NewQuote.byDate_trans NewQuote.byDate_total hquotes
  apply Option.isSome_iff_exists.mp
  rw [lastReport, List.findSome?_isSome_iff]
  exact ⟨batch, List.mem_reverse.mpr hbatch, by rw [hq]; rfl⟩

theorem getLast?_filter_batch {batch : List (NewQuote Instrument)} (hone : OneToOne batch)
    {q : NewQuote Instrument} (hq : newest NewQuote.byDate (quotesOf b batch) = some q) :
    (batch.filter fun x => decide (NewQuote.key x = NewQuote.key q)).getLast? = some q := by
  apply getLast?_filter_newest NewQuote.byDate_trans hone hq
  intro x
  rw [NewQuote.key, NewQuote.key, Prod.mk.injEq, key_eq_iff, NewQuote.byDate, NewQuote.byDate,
    decide_eq_true_eq, decide_eq_true_eq]
  apply and_congr_right
  intro _
  constructor
  · intro hdate
    rw [hdate, and_self]
    exact (Instant.le_total q.date q.date).elim id id
  · exact fun hle => Instant.le_antisymm hle.2 hle.1

/-- Of a brand's newest date, a batch leads to one written quote: the newest one. -/
theorem filter_lastPerKey_newest {batch : List (NewQuote Instrument)} (hone : OneToOne batch)
    {q : NewQuote Instrument} (hq : newest NewQuote.byDate (quotesOf b batch) = some q) :
    ((quotesOf b (lastPerKey NewQuote.key batch)).filter fun x => decide (x.date = q.date)) = [q] := by
  have hmem := mem_quotesOf.mp (mem_of_newest hq)
  have hkeys : ((quotesOf b (lastPerKey NewQuote.key batch)).filter
      fun x => decide (x.date = q.date)) =
      (lastPerKey NewQuote.key batch).filter fun x => decide (NewQuote.key x = NewQuote.key q) := by
    rw [quotesOf, List.filter_filter]
    apply List.filter_congr
    intro x hx
    unfold NewQuote.key
    rw [Bool.eq_iff_iff, Bool.and_eq_true, decide_eq_true_eq, decide_eq_true_eq,
      decide_eq_true_eq, Prod.mk.injEq, key_eq_iff,
      hone x (mem_of_mem_lastPerKey hx) q hmem.1, hmem.2, and_comm]
  rw [hkeys, filter_lastPerKey, getLast?_filter_batch hone hq]
  rfl

/-- Of the quotes on a brand that are written with the date of the newest one of its last batch, that
one is written last. -/
theorem getLast?_filter_written (hone : OneToOne batches.flatten) {q : NewQuote Instrument}
    (hq : lastReport b batches = some q) :
    ((quotesOf b (written batches)).filter fun x => decide (x.date = q.date)).getLast? = some q := by
  induction batches using List.reverseRecOn with
  | nil => cases hq
  | append_singleton batches batch ih =>
    have hsplit : quotesOf b (written (batches ++ [batch])) =
        quotesOf b (written batches) ++ quotesOf b (lastPerKey NewQuote.key batch) := by
      simp [written, quotesOf]
    rw [lastReport_concat] at hq
    rw [hsplit, List.filter_append]
    cases hnewest : newest NewQuote.byDate (quotesOf b batch) with
    | some p =>
      rw [hnewest, Option.some_or, Option.some.injEq] at hq
      subst hq
      have hbatch : OneToOne batch := hone.mono fun x hx => by simp [hx]
      rw [filter_lastPerKey_newest hbatch hnewest, List.getLast?_concat]
    | none =>
      rw [hnewest, Option.none_or] at hq
      have hnone : quotesOf b (lastPerKey NewQuote.key batch) = [] := by
        apply Classical.byContradiction
        intro hne
        obtain ⟨x, hx⟩ := List.exists_mem_of_ne_nil _ hne
        obtain ⟨hxbatch, hxb⟩ := mem_quotesOf.mp hx
        have hquotes : quotesOf b batch ≠ [] :=
          List.ne_nil_of_mem (mem_quotesOf.mpr ⟨mem_of_mem_lastPerKey hxbatch, hxb⟩)
        obtain ⟨p, hp⟩ := exists_newest NewQuote.byDate_trans NewQuote.byDate_total hquotes
        rw [hnewest] at hp
        cases hp
      rw [hnone, List.filter_nil, List.append_nil]
      exact ih (hone.mono fun x hx => by simp [List.mem_flatten.mp hx]) hq

/-- When every other date of a brand is stored before that of the newest quote of its last batch, no
written quote is newer. -/
theorem latestWritten_eq_lastReport (hone : OneToOne batches.flatten) {q : NewQuote Instrument}
    (hq : lastReport b batches = some q)
    (hnewest : ∀ x ∈ batches.flatten, x.subject.brandId = b →
      x.date = q.date ∨ StoredTime.truncate x.date < StoredTime.truncate q.date) :
    latestWritten b batches = some q := by
  have hlast := getLast?_filter_written hone hq
  have hqmem := (List.mem_filter.mp (List.mem_of_getLast? hlast)).1
  have hdate : ∀ x ∈ quotesOf b (written batches),
      x.date = q.date ∨ StoredTime.truncate x.date < StoredTime.truncate q.date := by
    intro x hx
    obtain ⟨hxmem, hxb⟩ := mem_quotesOf.mp hx
    exact hnewest x (mem_flatten_of_mem_written hxmem) hxb
  rw [latestWritten, newest, ← hlast]
  congr 1
  apply List.filter_congr
  intro x hx
  rw [Bool.eq_iff_iff, List.all_eq_true, decide_eq_true_eq]
  constructor
  · intro hall
    have hle := hall q hqmem
    rw [NewQuote.byStoredDate, decide_eq_true_eq] at hle
    rcases hdate x hx with heq | hlt
    · exact heq
    · omega
  · intro heq y hy
    rw [NewQuote.byStoredDate, decide_eq_true_eq, heq]
    rcases hdate y hy with heq' | hlt
    · exact Int.le_of_eq (congrArg StoredTime.truncate heq')
    · omega

/-- After a run of ingests from a store without rows, with every symbol used with one brand and every
brand with one symbol, the snapshot of an ingested brand follows the brand's latest row exactly when
the newest quote of its last batch and the newest one that was written have one stored close. So it
does when no batch has another date of the brand that is stored at or after that of the newest quote
of the last one. -/
theorem followsLatestClose_iff {s : Session} (hran : Ran batches s)
    (hone : OneToOne batches.flatten) (b : String)
    (hb : ∃ x ∈ batches.flatten, x.subject.brandId = b) :
    ∃ q p, lastReport b batches = some q ∧ latestWritten b batches = some p ∧
      (s.store.FollowsLatestClose b ↔
        Price.toStored q.bar.closing = Price.toStored p.bar.closing) ∧
      ((∀ x ∈ batches.flatten, x.subject.brandId = b →
          x.date = q.date ∨ StoredTime.truncate x.date < StoredTime.truncate q.date) →
        s.store.FollowsLatestClose b) := by
  obtain ⟨x, hx, hxb⟩ := hb
  obtain ⟨q, hq⟩ := exists_lastReport hx hxb
  obtain ⟨p, hp⟩ := exists_latestWritten hone hx hxb
  have hfilled := hran.filled.1
  obtain ⟨⟨h, hh, hhb⟩, hcurrent⟩ := hfilled.currentPrice hq
  obtain ⟨r, hr, hlatest, hunique, hclosing⟩ := hfilled.latestRow hone hp
  have hiff : s.store.FollowsLatestClose b ↔
      Price.toStored q.bar.closing = Price.toStored p.bar.closing := by
    constructor
    · rintro ⟨h', hh', r', hr', hhb', hlatest', hprice⟩
      rw [← hcurrent h' hh' hhb', ← hclosing, hprice, hunique r' hr' hlatest']
    · intro hprice
      exact ⟨h, hh, r, hr, hhb, hlatest, by rw [hcurrent h hh hhb, hclosing, hprice]⟩
  refine ⟨q, p, hq, hp, hiff, fun hnewest => hiff.mpr ?_⟩
  rw [latestWritten_eq_lastReport hone hq hnewest, Option.some.injEq] at hp
  rw [hp]

/-- A quote on the one brand of the example, with one price. -/
def quoteAt (date : Instant) (price : Decimal) : NewQuote Instrument :=
  ⟨⟨"1001", "b1"⟩, date, Bar.make price price price price 1⟩

/-- A quote for the sixth day, at 100. -/
def sixthDay : NewQuote Instrument :=
  quoteAt ⟨432000, 0, by decide, by decide, Instant.epoch.nanos_lt⟩
    (.ofParts false 100 0 (by decide) (Nat.zero_le _))

/-- A quote for the fourth day, at 90. -/
def fourthDay : NewQuote Instrument :=
  quoteAt ⟨259200, 0, by decide, by decide, Instant.epoch.nanos_lt⟩
    (.ofParts false 90 0 (by decide) (Nat.zero_le _))

/-- The session after the sixth day is ingested. -/
def afterSixthDay : Session := (run [sixthDay] Work.quietStart).2

/-- The session after the fourth day is added to it. -/
def afterBackfill : Session := (run [fourthDay] afterSixthDay).2

theorem ran_backfill : Ran [[sixthDay], [fourthDay]] afterBackfill := by
  have hsixth : run [sixthDay] Work.quietStart = (.ok ⟨1, 1, 1⟩, afterSixthDay) :=
    Prod.ext (by decide +kernel) rfl
  have hfourth : run [fourthDay] afterSixthDay = (.ok ⟨1, 1, 1⟩, afterBackfill) :=
    Prod.ext (by decide +kernel) rfl
  have hran : Ran ([] ++ [[sixthDay]] ++ [[fourthDay]]) afterBackfill :=
    .ingest (.ingest (.start rfl rfl) hsixth) hfourth
  exact hran

theorem oneToOne_backfill : OneToOne [[sixthDay], [fourthDay]].flatten := by
  unfold OneToOne
  decide +kernel

theorem not_follows_backfill : ¬ afterBackfill.store.FollowsLatestClose "b1" := by
  decide +kernel

/-- A day that is added later than a newer one takes the snapshot back to its own close. -/
theorem backfill_leaves_latest_close :
    ¬ ∀ (batches : List (List (NewQuote Instrument))) (s : Session), Ran batches s →
      OneToOne batches.flatten → ∀ b, (∃ x ∈ batches.flatten, x.subject.brandId = b) →
        s.store.FollowsLatestClose b := by
  intro hfollows
  exact not_follows_backfill (hfollows _ _ ran_backfill oneToOne_backfill "b1"
    ⟨sixthDay, by simp, rfl⟩)

theorem followsLatestClose_backfill :
    Ran [[sixthDay], [fourthDay]] afterBackfill ∧ OneToOne [[sixthDay], [fourthDay]].flatten ∧
      (∃ x ∈ [[sixthDay], [fourthDay]].flatten, x.subject.brandId = "b1") ∧
      ∃ q p, lastReport "b1" [[sixthDay], [fourthDay]] = some q ∧
        latestWritten "b1" [[sixthDay], [fourthDay]] = some p ∧
        Price.toStored q.bar.closing ≠ Price.toStored p.bar.closing := by
  have hb : ∃ x ∈ [[sixthDay], [fourthDay]].flatten, x.subject.brandId = "b1" :=
    ⟨sixthDay, by simp, rfl⟩
  obtain ⟨q, p, hq, hp, hiff, -⟩ :=
    followsLatestClose_iff ran_backfill oneToOne_backfill "b1" hb
  refine ⟨ran_backfill, oneToOne_backfill, hb, q, p, hq, hp, fun hprice => ?_⟩
  exact not_follows_backfill (hiff.mpr hprice)

end Ingest

end PriceArchive
