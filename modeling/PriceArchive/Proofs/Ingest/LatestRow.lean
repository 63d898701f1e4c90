import PriceArchive.Proofs.Calendar.StoredTime
import PriceArchive.Proofs.Ingest.Run

namespace PriceArchive

namespace Store

/-- A row is about a brand, and no row of the daily series about the brand is later. -/
def IsLatestRow (s : Store) (b : String) (r : QuoteRow Instrument) : Prop :=
  r.subject.brandId = b ∧ ∀ r' ∈ s.daily, r'.subject.brandId = b → r'.date ≤ r.date

instance (s : Store) (b : String) (r : QuoteRow Instrument) : Decidable (s.IsLatestRow b r) :=
  inferInstanceAs (Decidable (_ ∧ _))

end Store

namespace NewQuote

/-- The order of the dates under which quotes are stored. -/
def byStoredDate (p q : NewQuote Instrument) : Bool :=
  decide (StoredTime.truncate p.date ≤ StoredTime.truncate q.date)

theorem byStoredDate_trans (p q r : NewQuote Instrument) (hpq : byStoredDate p q = true)
    (hqr : byStoredDate q r = true) : byStoredDate p r = true := by
  simp only [byStoredDate, decide_eq_true_eq] at *
  omega

theorem byStoredDate_total (p q : NewQuote Instrument) :
    byStoredDate p q = true ∨ byStoredDate q p = true := by
  simp only [byStoredDate, decide_eq_true_eq]
  omega

end NewQuote

theorem Bar.closing_of_toStored {bar : Bar} {stored : StoredBar} (h : bar.toStored = .ok stored) :
    stored.closing = Price.toStored bar.closing := by
  unfold Bar.toStored at h
  cases hvolume : Bar.storedVolume bar.volume with
  | error e =>
    rw [hvolume] at h
    cases h
  | ok volume =>
    rw [hvolume] at h
    cases h
    rfl

namespace Ingest

variable {batches : List (List (NewQuote Instrument))} {b : String}

/-- The newest of all quotes on a brand that were written, by the dates under which they are
stored. -/
def latestWritten (b : String) (batches : List (List (NewQuote Instrument))) :
    Option (NewQuote Instrument) :=
  newest NewQuote.byStoredDate (quotesOf b (written batches))

/-- Every symbol is used with one brand, and every brand with one symbol. -/
def OneToOne (quotes : List (NewQuote Instrument)) : Prop :=
  ∀ p ∈ quotes, ∀ q ∈ quotes,
    p.subject.symbol = q.subject.symbol ↔ p.subject.brandId = q.subject.brandId

theorem OneToOne.mono {quotes quotes' : List (NewQuote Instrument)} (hone : OneToOne quotes)
    (hsub : ∀ q ∈ quotes', q ∈ quotes) : OneToOne quotes' :=
  fun p hp q hq => hone p (hsub p hp) q (hsub q hq)

theorem mem_flatten_of_mem_written {q : NewQuote Instrument} (hq : q ∈ written batches) :
    q ∈ batches.flatten := by
  obtain ⟨batch, hbatch, hq⟩ := List.mem_flatMap.mp hq
  exact List.mem_flatten_of_mem hbatch (mem_of_mem_lastPerKey hq)

/-- Every row of the daily series was written for a quote with its subject and date. -/
theorem Filled.exists_written {store : Store} (hfilled : Filled batches store)
    {r : QuoteRow Instrument} (hr : r ∈ store.daily) :
    ∃ q ∈ written batches, q.subject = r.subject ∧ StoredTime.ofInstant? q.date = some r.date := by
  obtain ⟨rows, hrows, hstore⟩ := hfilled.daily
  have hkept : ∀ r ∈ rows.foldl Series.daily.table.rule.put [],
      ∃ w ∈ rows, w.subject = r.subject ∧ w.date = r.date := by
    apply TableRule.forall_mem_foldl_put
    · intro stored row hstored _ _
      exact hstored
    · simp
    · intro row hrow
      exact ⟨row, hrow, rfl, rfl⟩
  obtain ⟨w, hw, hsubject, hdate⟩ := hkept r (hstore ▸ hr)
  have hcolumns : w.columns ∈ (written batches).map NewQuote.columns :=
    hrows ▸ List.mem_map_of_mem hw
  obtain ⟨q, hq, heq⟩ := List.mem_map.mp hcolumns
  simp only [NewQuote.columns, QuoteRow.columns, Prod.mk.injEq] at heq
  exact ⟨q, hq, heq.1.trans hsubject, by rw [heq.2.1, hdate]⟩

theorem key_eq_iff {i j : Instrument} : Subject.key i = Subject.key j ↔ i.symbol = j.symbol := by
  change [i.symbol] = [j.symbol] ↔ _
  simp

/-- Of the quotes under the key of a brand's newest quote, that one is the last. The key may be any
that tells the symbols apart and the days as far as the order does. -/
theorem getLast?_filter_newest {κ : Type} [DecidableEq κ] {key : NewQuote Instrument → κ}
    {le : NewQuote Instrument → NewQuote Instrument → Bool}
    (htrans : ∀ x y z, le x y = true → le y z = true → le x z = true)
    {quotes : List (NewQuote Instrument)} (hone : OneToOne quotes) {p : NewQuote Instrument}
    (hp : newest le (quotesOf b quotes) = some p)
    (hkey : ∀ q, key q = key p ↔
      q.subject.symbol = p.subject.symbol ∧ le p q = true ∧ le q p = true) :
    (quotes.filter fun q => decide (key q = key p)).getLast? = some p := by
  have hmem := mem_quotesOf.mp (mem_of_newest hp)
  have hle := le_of_newest hp
  rw [← hp, newest]
  congr 1
  conv => rhs; rw [quotesOf, List.filter_filter]
  apply List.filter_congr
  intro q hq
  rw [Bool.eq_iff_iff, Bool.and_eq_true, decide_eq_true_eq, decide_eq_true_eq, List.all_eq_true,
    hkey, hone q hq p hmem.1, hmem.2]
  constructor
  · rintro ⟨hbrand, hpq, -⟩
    exact ⟨fun y hy => htrans y p q (hle y hy) hpq, hbrand⟩
  · rintro ⟨hall, hbrand⟩
    exact ⟨hbrand, hall p (mem_of_newest hp), hle q (mem_quotesOf.mpr ⟨hq, hbrand⟩)⟩

theorem getLast?_filter_latestWritten (hone : OneToOne batches.flatten) {p : NewQuote Instrument}
    (hp : latestWritten b batches = some p) {d : StoredTime}
    (hd : StoredTime.ofInstant? p.date = some d) :
    ((written batches).filter fun q => decide ((Subject.key q.subject, StoredTime.ofInstant? q.date) =
      (Subject.key p.subject, some d))).getLast? = some p := by
  have hwritten : OneToOne (written batches) :=
    hone.mono fun q hq => mem_flatten_of_mem_written hq
  rw [← hd]
  apply getLast?_filter_newest NewQuote.byStoredDate_trans hwritten hp
  intro q
  rw [Prod.mk.injEq, key_eq_iff, NewQuote.byStoredDate, NewQuote.byStoredDate, decide_eq_true_eq,
    decide_eq_true_eq]
  apply and_congr_right
  intro _
  constructor
  · intro hdate
    have hq := StoredTime.micros_of_ofInstant? (hdate.trans hd)
    have hp := StoredTime.micros_of_ofInstant? hd
    omega
  · intro hle
    exact StoredTime.ofInstant?_congr (by omega)

theorem Filled.nodup_keys {store : Store} (hfilled : Filled batches store) :
    (store.daily.map Series.daily.table.rule.key).Nodup := by
  obtain ⟨rows, -, hstore⟩ := hfilled.daily
  rw [hstore]
  exact TableRule.nodup_keys_foldl_put Series.daily.table_keepsKey (by simp) rows

/-- Under the key of a brand's latest quote the bar of that quote is stored. -/
theorem Filled.lookup_latestWritten {store : Store} (hfilled : Filled batches store)
    (hone : OneToOne batches.flatten) {p : NewQuote Instrument}
    (hp : latestWritten b batches = some p) :
    ∃ r d, StoredTime.ofInstant? p.date = some d ∧ p.bar.toStored = .ok r.bar ∧
      Series.daily.table.rule.lookup store.daily (Subject.key p.subject, d) = some r := by
  obtain ⟨rows, hrows, hstore⟩ := hfilled.daily
  have hmem := mem_quotesOf.mp (mem_of_newest hp)
  have hcolumns : p.columns ∈ rows.map QuoteRow.columns := hrows ▸ List.mem_map_of_mem hmem.1
  obtain ⟨w, -, hw⟩ := List.mem_map.mp hcolumns
  simp only [NewQuote.columns, QuoteRow.columns, Prod.mk.injEq] at hw
  have hlast := getLast?_filter_of_map_eq hrows fun c =>
    decide ((Subject.key c.1, c.2.1) = (Subject.key p.subject, some w.date))
  have hquotes := getLast?_filter_latestWritten hone hp hw.2.1.symm
  rw [show ((written batches).filter fun q => decide ((Subject.key q.columns.1, q.columns.2.1) =
    (Subject.key p.subject, some w.date))).getLast? = some p from hquotes, Option.map_some,
    Option.map_eq_some_iff] at hlast
  obtain ⟨last, hlast, hlastColumns⟩ := hlast
  simp only [NewQuote.columns, QuoteRow.columns, Prod.mk.injEq] at hlastColumns
  have hkey : (rows.filter fun r => decide
      (Series.daily.table.rule.key r = (Subject.key p.subject, w.date))).getLast? = some last := by
    rw [← hlast]
    congr 1
    apply List.filter_congr
    intro r _
    change decide ((Subject.key r.subject, r.date) = _) =
      decide ((Subject.key r.subject, some r.date) = _)
    simp only [Prod.mk.injEq, Option.some.injEq]
  have hlookup := TableRule.lookup_foldl_put Series.daily.table_keepsKey (f := QuoteOf.bar)
    (fun _ _ => rfl) [] rows (Subject.key p.subject, w.date)
  rw [← hstore, hkey, Option.map_some] at hlookup
  obtain ⟨r, hr, hbar⟩ := Option.map_eq_some_iff.mp hlookup
  exact ⟨r, w.date, hw.2.1.symm, by rw [hbar, hlastColumns.2.2], hr⟩

/-- A row of the daily series has the brand of a written quote exactly when it has its symbol. -/
theorem Filled.symbol_iff {store : Store} (hfilled : Filled batches store)
    (hone : OneToOne batches.flatten) {r : QuoteRow Instrument} (hr : r ∈ store.daily)
    {p : NewQuote Instrument} (hp : p ∈ written batches) :
    r.subject.symbol = p.subject.symbol ↔ r.subject.brandId = p.subject.brandId := by
  obtain ⟨q, hq, hsubject, -⟩ := hfilled.exists_written hr
  rw [← hsubject]
  exact hone q (mem_flatten_of_mem_written hq) p (mem_flatten_of_mem_written hp)

/-- A brand has one latest row, and its close is that of the brand's latest quote. -/
theorem Filled.latestRow {store : Store} (hfilled : Filled batches store)
    (hone : OneToOne batches.flatten) {p : NewQuote Instrument}
    (hp : latestWritten b batches = some p) :
    ∃ r ∈ store.daily, store.IsLatestRow b r ∧
      (∀ r' ∈ store.daily, store.IsLatestRow b r' → r' = r) ∧
      r.bar.closing = Price.toStored p.bar.closing := by
  obtain ⟨r, d, hd, hbar, hlookup⟩ := hfilled.lookup_latestWritten hone hp
  have hmem := mem_quotesOf.mp (mem_of_newest hp)
  have hr := TableRule.mem_of_lookup hlookup
  have hkey : (Subject.key r.subject, r.date) = (Subject.key p.subject, d) :=
    TableRule.key_of_lookup hlookup
  rw [Prod.mk.injEq, key_eq_iff] at hkey
  have hbrand : r.subject.brandId = b :=
    ((hfilled.symbol_iff hone hr hmem.1).mp hkey.1).trans hmem.2
  have hlatest : ∀ r' ∈ store.daily, r'.subject.brandId = b → r'.date ≤ r.date := by
    intro r' hr' hbrand'
    obtain ⟨q, hq, hsubject, hdate⟩ := hfilled.exists_written hr'
    have hle := le_of_newest hp q (mem_quotesOf.mpr ⟨hq, by rw [hsubject, hbrand']⟩)
    rw [NewQuote.byStoredDate, decide_eq_true_eq, ← StoredTime.micros_of_ofInstant? hdate,
      ← StoredTime.micros_of_ofInstant? hd, ← hkey.2] at hle
    exact hle
  refine ⟨r, hr, ⟨hbrand, hlatest⟩, fun r' hr' hlatest' => ?_, Bar.closing_of_toStored hbar⟩
  have hdate : r'.date = r.date :=
    StoredTime.eq_of_micros_eq (Int.le_antisymm (hlatest r' hr' hlatest'.1)
      (hlatest'.2 r hr hbrand))
  have hsymbol := (hfilled.symbol_iff hone hr' hmem.1).mpr (hlatest'.1.trans hmem.2.symm)
  have hkey' : Series.daily.table.rule.key r' = (Subject.key p.subject, d) :=
    Prod.ext (key_eq_iff.mpr hsymbol) (hdate.trans hkey.2)
  have hfound := TableRule.lookup_of_mem hfilled.nodup_keys hr'
  rw [hkey', hlookup, Option.some.injEq] at hfound
  exact hfound.symm

theorem exists_latestWritten (hone : OneToOne batches.flatten) {x : NewQuote Instrument}
    (hx : x ∈ batches.flatten) (hb : x.subject.brandId = b) :
    ∃ p, latestWritten b batches = some p := by
  obtain ⟨batch, hbatch, hxbatch⟩ := List.mem_flatten.mp hx
  obtain ⟨y, hylast, hykey⟩ := exists_mem_lastPerKey NewQuote.key hxbatch
  have hywritten : y ∈ written batches := List.mem_flatMap.mpr ⟨batch, hbatch, hylast⟩
  have hsymbol : y.subject.symbol = x.subject.symbol := key_eq_iff.mp (congrArg Prod.fst hykey)
  have hbrand := (hone y (mem_flatten_of_mem_written hywritten) x hx).mp hsymbol
  exact exists_newest NewQuote.byStoredDate_trans NewQuote.byStoredDate_total
    (List.ne_nil_of_mem (mem_quotesOf.mpr ⟨hywritten, hbrand.trans hb⟩))

end Ingest

end PriceArchive
