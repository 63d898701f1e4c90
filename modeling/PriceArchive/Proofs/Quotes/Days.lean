import PriceArchive.Proofs.Action.Kept
import PriceArchive.Proofs.Price.Bars
import PriceArchive.Proofs.Quotes.Listing
import PriceArchive.Proofs.Work.Commit

namespace PriceArchive

/-- What tells subjects apart is among their texts. -/
class LawfulSubject (σ : Type) [Subject σ] : Prop where
  mem_texts_of_mem_key : ∀ (x : σ), ∀ k ∈ Subject.key x, k ∈ Subject.texts x

instance : LawfulSubject Instrument := ⟨fun _ _ hk => List.mem_append_left _ hk⟩

instance : LawfulSubject Ticker := ⟨fun _ _ hk => hk⟩

instance : LawfulSubject Unit := ⟨fun _ _ hk => hk⟩

variable {σ : Type} [Subject σ]

/-- The row is the one under which a quote is stored. -/
def QuoteRow.StoredFor (r : QuoteRow σ) (q : NewQuote σ) : Prop :=
  Subject.key r.subject = Subject.key q.subject ∧ StoredTime.ofInstant? q.date = some r.date

namespace Quotes

/-- All quotes of a series can be read. -/
def Readable (series : Series σ) (s : Store) : Prop :=
  ∀ r ∈ series.get s, ∃ x, ofRow r = .ok x

/-- A quote is stored, a listing succeeds, and it returns the quote exactly when a range covers the
date. -/
def ListedOn (series : Series σ) (listing : Action (List (Quote σ))) (range : DateRange)
    (q : NewQuote σ) (date : Date) (s : Session) : Prop :=
  (∃ r ∈ series.get s.store, r.StoredFor q) ∧
    ∃ result, listing s = (.ok result, s) ∧
      ∀ r ∈ series.get s.store, r.StoredFor q →
        ∃ x, ofRow r = .ok x ∧ (x ∈ result ↔ range.Covers date)

omit [Subject σ] in
theorem ofRow_readable_iff {r : QuoteRow σ} :
    (∃ x, ofRow r = .ok x) ↔ ∃ b, Bar.ofStored r.bar = .ok b := by
  unfold ofRow
  cases Bar.ofStored r.bar with
  | error e => simp [bind, Except.bind]
  | ok b => simp [bind, Except.bind, pure, Except.pure]

/-- What holds of the stored bars of a series and of those that are written holds after the write. -/
theorem forall_bar_of_upsert {series : Series σ} {batch : List (NewQuote σ)} {s t : Session} {n : Nat}
    (h : upsert series batch s = (.ok n, t)) {P : StoredBar → Prop}
    (hstored : ∀ r ∈ series.get s.store, P r.bar)
    (hbatch : ∀ q ∈ batch, ∀ bar, q.bar.toStored = .ok bar → P bar) :
    ∀ r ∈ series.get t.store, P r.bar := by
  obtain ⟨rows, hrows, ht⟩ := upsert_eq_ok h
  rw [ht, series.get_putAll]
  refine TableRule.forall_mem_foldl_put (fun _ _ _ hrow _ => hrow) hstored ?_
  intro row hrow
  obtain ⟨q, hq, hcolumns⟩ := exists_mem_of_map_eq hrows hrow
  rw [NewQuote.columns, QuoteRow.columns, Prod.mk.injEq, Prod.mk.injEq] at hcolumns
  exact hbatch q (mem_of_mem_lastPerKey hq) row.bar hcolumns.2.2

/-- A write that succeeds has accepted the keys of its quotes and left a row for each. -/
theorem exists_storedFor_of_upsert [LawfulSubject σ] {series : Series σ} {batch : List (NewQuote σ)}
    {s t : Session} {n : Nat} (h : upsert series batch s = (.ok n, t)) {q : NewQuote σ}
    (hq : q ∈ batch) :
    Binding.texts (Subject.key q.subject) = .ok () ∧ ∃ r ∈ series.get t.store, r.StoredFor q := by
  obtain ⟨rows, hrows, htexts, ht⟩ := upsert_eq_ok_texts h
  obtain ⟨q', hq', hkey⟩ := exists_mem_lastPerKey NewQuote.key hq
  obtain ⟨row, hrow, hcolumns⟩ := exists_mem_of_map_eq hrows.symm hq'
  rw [NewQuote.columns, QuoteRow.columns, Prod.mk.injEq, Prod.mk.injEq] at hcolumns
  rw [NewQuote.key, NewQuote.key, Prod.mk.injEq] at hkey
  have hsubject : Subject.key row.subject = Subject.key q.subject := by
    rw [hcolumns.1, hkey.1]
  have hdate : StoredTime.ofInstant? q.date = some row.date := by
    rw [← hkey.2, ← hcolumns.2.1]
  constructor
  · have hrowTexts := htexts row hrow
    rw [Binding.texts_eq_ok_iff] at hrowTexts ⊢
    rw [← hsubject]
    exact fun k hk => hrowTexts k (LawfulSubject.mem_texts_of_mem_key row.subject k hk)
  · obtain ⟨r, hr, hrkey⟩ :=
      TableRule.exists_mem_foldl_put series.table_keepsKey (series.get s.store) hrow
    rw [← series.get_putAll, ← ht] at hr
    have hkeys : (Subject.key r.subject, r.date) = (Subject.key row.subject, row.date) := hrkey
    rw [Prod.mk.injEq] at hkeys
    exact ⟨r, hr, hkeys.1.trans hsubject, by rw [hdate, hkeys.2]⟩

/-- After a write of quotes of ordinary prices to a series that can be read, a listing of the subject of
a quote succeeds and returns it for the ranges that cover the day on which it is stored. -/
theorem listedOn_of_upsert [LawfulSubject σ] {series : Series σ} {batch : List (NewQuote σ)}
    {s t : Session} {n : Nat} (h : upsert series batch s = (.ok n, t))
    (hserver : s.StaysConnected t) (hreadable : Readable series s.store)
    (hbatch : ∀ q ∈ batch, q.bar.Ordinary) {q : NewQuote σ}
    (hq : q ∈ batch) {range : DateRange} {lower upper : Option StoredTime}
    (hrange : range.Accepted lower upper) :
    ListedOn series (list series (Subject.key q.subject) range) range q q.date.storedDate t := by
  have hreads : Readable series t.store := by
    intro r hr
    refine ofRow_readable_iff.mpr (forall_bar_of_upsert (P := fun bar => ∃ b, Bar.ofStored bar = .ok b)
      h (fun r hr => ofRow_readable_iff.mp (hreadable r hr)) (fun q hq bar hbar => ?_) r hr)
    exact Bar.ofStored_of_ordinary (hbatch q hq) hbar
  obtain ⟨htexts, hstored⟩ := exists_storedFor_of_upsert h hq
  obtain ⟨result, hresult, hlisted⟩ := list_of_readable series htexts hrange
    (open_of_upsert (List.ne_nil_of_mem hq) h hserver) hreads
  refine ⟨hstored, result, hresult, fun r hr hfor => ?_⟩
  obtain ⟨x, hx⟩ := hreads r hr
  refine ⟨x, hx, ?_⟩
  rw [hlisted r hr hfor.1 x hx, date_of_ofRow hx, StoredTime.date_of_ofInstant? hfor.2]

theorem listBySymbol_eq (series : Series σ) {symbol : String} (h : symbol ≠ "") (range : DateRange) :
    listBySymbol series ⟨symbol, range⟩ = list series [symbol] range := by
  have hempty : ¬ symbol.isEmpty = true := by simpa using h
  exact if_neg hempty

/-- In every session, after a write of quotes of ordinary prices to a series that could be read, and with
a connection as for the write, the listing of the symbol of a quote, or of the index, succeeds for every
range whose bounds the store accepts, and it returns the quote exactly when the range covers the date on
which the quote is stored. That is its date, but the next one for a quote that rolls over. -/
theorem listedOn_storedDate {range : DateRange} {lower upper : Option StoredTime}
    (hrange : range.Accepted lower upper) {s t : Session} (hserver : s.StaysConnected t) (n : Nat) :
    (∀ batch : List (NewQuote Instrument), Readable Series.daily s.store →
      (∀ q ∈ batch, q.bar.Ordinary) → upsert Series.daily batch s = (.ok n, t) →
        ∀ q ∈ batch, q.subject.symbol ≠ "" →
          ListedOn Series.daily (listBySymbol Series.daily ⟨q.subject.symbol, range⟩) range q
            q.date.storedDate t) ∧
      (∀ batch : List (NewQuote Ticker), Readable Series.forAnalysis s.store →
        (∀ q ∈ batch, q.bar.Ordinary) → upsert Series.forAnalysis batch s = (.ok n, t) →
          ∀ q ∈ batch, q.subject.symbol ≠ "" →
            ListedOn Series.forAnalysis (listBySymbol Series.forAnalysis ⟨q.subject.symbol, range⟩)
              range q q.date.storedDate t) ∧
      ∀ (index : MarketIndex) (batch : List (NewQuote Unit)),
        Readable (Series.ofIndex index) s.store → (∀ q ∈ batch, q.bar.Ordinary) →
          upsert (Series.ofIndex index) batch s = (.ok n, t) → ∀ q ∈ batch,
            ListedOn (Series.ofIndex index) (list (Series.ofIndex index) [] range) range q
              q.date.storedDate t := by
  refine ⟨fun batch hreadable hbatch h q hq hsymbol => ?_,
    fun batch hreadable hbatch h q hq hsymbol => ?_, fun index batch hreadable hbatch h q hq => ?_⟩
  · rw [listBySymbol_eq Series.daily hsymbol]
    exact listedOn_of_upsert h hserver hreadable hbatch hq hrange
  · rw [listBySymbol_eq Series.forAnalysis hsymbol]
    exact listedOn_of_upsert h hserver hreadable hbatch hq hrange
  · exact listedOn_of_upsert h hserver hreadable hbatch hq hrange

/-- A quote for the last half microsecond of 1999. -/
def lastMoment : NewQuote Instrument where
  subject := ⟨"1001", "b1"⟩
  date := ⟨946684799, 999999500, by decide, by decide, by decide⟩
  bar := Bar.make default default default default 1

/-- The days up to the last one of 1999. -/
def untilLastDay : DateRange := ⟨none, some lastMoment.date.startOfDay⟩

/-- The session after the quote is written. -/
def afterLastMoment : Session := (upsert Series.daily [lastMoment] Work.quietStart).2

theorem upsert_lastMoment :
    upsert Series.daily [lastMoment] Work.quietStart = (.ok 1, afterLastMoment) :=
  Prod.ext (by decide +kernel) rfl

theorem list_lastMoment :
    (listBySymbol Series.daily ⟨"1001", untilLastDay⟩ afterLastMoment).1 = .ok [] := by
  decide +kernel

theorem untilLastDay_accepted : untilLastDay.Accepted none (some ⟨0, by decide, by decide⟩) where
  lower := rfl
  upper := ⟨some ⟨946684800, 0, by decide, by decide, by decide⟩, by decide +kernel,
    by decide +kernel⟩

theorem staysConnected_afterLastMoment : Work.quietStart.StaysConnected afterLastMoment := .inl trivial

theorem readable_quietStart : Readable Series.daily Work.quietStart.store :=
  fun _ hr => absurd hr List.not_mem_nil

theorem lastMoment_ordinary : ∀ q ∈ [lastMoment], q.bar.Ordinary := by decide +kernel

/-- The range of its own day can miss a quote. -/
theorem listing_can_miss_the_day :
    ¬ ∀ (q : NewQuote Instrument) (range : DateRange) (lower upper : Option StoredTime)
      (s t : Session) (n : Nat), range.Accepted lower upper → s.StaysConnected t →
        Readable Series.daily s.store → q.bar.Ordinary → upsert Series.daily [q] s = (.ok n, t) → q.subject.symbol ≠ "" →
          ListedOn Series.daily (listBySymbol Series.daily ⟨q.subject.symbol, range⟩) range q
            q.date.date t := by
  intro hlists
  obtain ⟨⟨r, hr, hfor⟩, result, hresult, hlisted⟩ := hlists lastMoment untilLastDay _ _ _ _ _
    untilLastDay_accepted staysConnected_afterLastMoment readable_quietStart
    (lastMoment_ordinary lastMoment (by simp)) upsert_lastMoment (by decide)
  have hempty : result = [] := Except.ok.inj ((congrArg Prod.fst hresult).symm.trans list_lastMoment)
  obtain ⟨x, -, hcovered⟩ := hlisted r hr hfor
  rw [hempty] at hcovered
  exact List.not_mem_nil (hcovered.mpr (by decide +kernel))

theorem listedOn_lastMoment :
    untilLastDay.Accepted none (some ⟨0, by decide, by decide⟩) ∧
      Work.quietStart.StaysConnected afterLastMoment ∧ lastMoment.date.RollsOver ∧
      ListedOn Series.daily (listBySymbol Series.daily ⟨"1001", untilLastDay⟩) untilLastDay lastMoment
        lastMoment.date.storedDate afterLastMoment := by
  obtain ⟨hdaily, -, -⟩ :=
    listedOn_storedDate untilLastDay_accepted staysConnected_afterLastMoment 1
  refine ⟨untilLastDay_accepted, staysConnected_afterLastMoment, by decide +kernel, ?_⟩
  exact hdaily [lastMoment] readable_quietStart lastMoment_ordinary upsert_lastMoment lastMoment
    (by simp) (by decide)

end Quotes

end PriceArchive
