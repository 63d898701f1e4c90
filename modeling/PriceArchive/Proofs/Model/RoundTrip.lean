import PriceArchive.Model.Filter
import PriceArchive.Model.MarketIndex
import PriceArchive.Model.Quote
import PriceArchive.Model.Snapshot
import PriceArchive.Proofs.Json.Record
import PriceArchive.Proofs.Price.Bars

namespace PriceArchive

open Json

section Distinct

variable {d : Decimal} {t : Instant} {decimals : List Decimal} {times : List Instant}

theorem distinct_nil : Distinct [] [] := by simp [Distinct]

theorem distinct_cons_decimal :
    Distinct (d :: decimals) times ↔ d.asRead = d ∧ Distinct decimals times := by
  rw [Distinct, List.forall_mem_cons, and_assoc, ← Decimal.asRead_eq_self_iff]
  rfl

theorem distinct_cons_time :
    Distinct decimals (t :: times) ↔ t.asRead = t ∧ Distinct decimals times := by
  rw [Distinct, List.forall_mem_cons, and_left_comm, ← Instant.asRead_eq_self_iff]
  rfl

/-- A time that may be missing. -/
theorem distinct_toList {x : Option Instant} :
    Distinct decimals (x.toList ++ times) ↔ x.map Instant.asRead = x ∧ Distinct decimals times := by
  cases x with
  | none => simp
  | some t => simp [distinct_cons_time]

end Distinct

namespace Brand

/-- What is read from the JSON form of a brand. -/
def asRead (brand : Brand Instant) : Brand Instant := brand.mapTimes Instant.asRead

/-- The times of a brand. -/
def times (brand : Brand Instant) : List Instant :=
  brand.createdAt :: brand.updatedAt :: (brand.deletedAt.toList ++ [])

theorem asRead_eq_self_iff (brand : Brand Instant) : brand.asRead = brand ↔ Distinct [] brand.times := by
  obtain ⟨id, symbol, name, market, sector33, sector17, createdAt, updatedAt, deletedAt⟩ := brand
  simp [asRead, mapTimes, times, distinct_cons_time, distinct_toList, distinct_nil, -List.append_nil]

theorem codec : Codec Brand.toJson Brand.ofJson? asRead := by
  refine FieldsCodec.codec ⟨fun brand fields h => ?_, fun brand => ?_⟩ (fun _ => rfl)
    fun _ => (by decide : columns.Nodup)
  · simp only [Fields.hold_cons] at h
    have hdeleted : fields.getOption "deleted_at" instant? = some (brand.deletedAt.map Instant.asRead) :=
      Fields.getOption_of_eq codec_instant (fun _ => nofun) (by simp only [h])
    simp [Fields.get, h, hdeleted, codec_string.value, codec_instant.value, asRead, mapTimes]
  · simp [Writable.string, codec_instant.writable, codec_instant.writable_ofOption]

end Brand

namespace NewBrand

/-- What is read from the JSON form of a report. -/
def asRead (brand : NewBrand) : NewBrand := { brand with updatedAt := brand.updatedAt.asRead }

theorem asRead_eq_self_iff (brand : NewBrand) :
    brand.asRead = brand ↔ Distinct [] [brand.updatedAt] := by
  obtain ⟨id, symbol, name, market, sector33, sector17, updatedAt⟩ := brand
  simp [asRead, distinct_cons_time, distinct_nil]

theorem codec : Codec NewBrand.toJson NewBrand.ofJson? asRead := by
  refine FieldsCodec.codec ⟨fun brand fields h => ?_, fun brand => ?_⟩ (fun _ => rfl)
    fun _ => (by decide : columns.Nodup)
  · simp only [Fields.hold_cons] at h
    simp [Fields.get, h, codec_string.value, codec_instant.value, asRead]
  · simp [Writable.string, codec_instant.writable]

end NewBrand

namespace BrandFilter

theorem codec : Codec BrandFilter.toJson BrandFilter.ofJson? id := by
  refine FieldsCodec.codec ⟨fun f fields h => ?_, fun f => ?_⟩ (fun _ => rfl)
    fun _ => (by decide : columns.Nodup)
  · simp only [Fields.hold_cons] at h
    simp [Fields.get, h, codec_bool.value, codec_strings.value, codec_string.value,
      codec_signedWord.value, TextSet.ofList_items]
  · simp [Writable.bool, Writable.string, codec_strings.writable, codec_signedWord.writable]

end BrandFilter

namespace DateRange

/-- What is read from the JSON form of a range. -/
def asRead (range : DateRange) : DateRange :=
  ⟨range.first.map Instant.asRead, range.last.map Instant.asRead⟩

/-- The ends of a range. -/
def times (range : DateRange) : List Instant := range.first.toList ++ (range.last.toList ++ [])

theorem asRead_eq_self_iff (range : DateRange) : range.asRead = range ↔ Distinct [] range.times := by
  obtain ⟨first, last⟩ := range
  simp [asRead, times, distinct_toList, distinct_nil, -List.append_nil]

theorem fieldsCodec : FieldsCodec DateRange.toFields DateRange.ofFields? asRead where
  value range fields h := by
    simp only [toFields, Fields.hold_cons] at h
    have hfirst := Fields.getOption_of_eq codec_instant (fun _ => nofun) h.1
    have hlast := Fields.getOption_of_eq codec_instant (fun _ => nofun) h.2.1
    simp [ofFields?, hfirst, hlast, asRead]
  writable range := by simp [toFields, codec_instant.writable_ofOption]

theorem codec : Codec DateRange.toJson DateRange.ofJson? asRead :=
  fieldsCodec.codec (fun _ => rfl) fun _ => (by decide : columns.Nodup)

end DateRange

namespace QuoteFilter

/-- What is read from the JSON form of a filter. -/
def asRead (f : QuoteFilter) : QuoteFilter := { f with range := f.range.asRead }

theorem asRead_eq_self_iff (f : QuoteFilter) : f.asRead = f ↔ Distinct [] f.range.times := by
  rw [← f.range.asRead_eq_self_iff]
  obtain ⟨symbol, range⟩ := f
  simp [asRead]

theorem codec : Codec QuoteFilter.toJson QuoteFilter.ofJson? asRead := by
  refine FieldsCodec.codec ⟨fun f fields h => ?_, fun f => ?_⟩ (fun _ => rfl)
    fun _ => (by decide : ("ticker_symbol" :: DateRange.columns).Nodup)
  · rw [Fields.hold_cons] at h
    have hrange : DateRange.ofFields? fields = some f.range.asRead := DateRange.fieldsCodec.value f.range fields h.2
    simp [Fields.get, h.1, hrange, codec_string.value, asRead]
  · exact List.forall_mem_cons.mpr ⟨.string f.symbol, DateRange.fieldsCodec.writable f.range⟩

end QuoteFilter

namespace Bar

/-- What is read from the JSON form of a bar. -/
def asRead (bar : Bar) : Bar :=
  ⟨bar.opening.asRead, bar.high.asRead, bar.low.asRead, bar.closing.asRead, bar.adjustedClosing.asRead,
    bar.volume⟩

theorem asRead_eq_self_iff (bar : Bar) : bar.asRead = bar ↔ Distinct bar.prices [] := by
  obtain ⟨opening, high, low, closing, adjustedClosing, volume⟩ := bar
  simp [asRead, prices, distinct_cons_decimal, distinct_nil]

theorem fieldsCodec : FieldsCodec Bar.toFields Bar.ofFields? asRead where
  value bar fields h := by
    simp only [toFields, Fields.hold_cons] at h
    simp [ofFields?, Fields.get, h, codec_decimal.value, codec_volume.value, asRead]
  writable bar := by simp [toFields, codec_decimal.writable, codec_volume.writable]

theorem codec : Codec Bar.toJson Bar.ofJson? asRead :=
  fieldsCodec.codec (fun _ => rfl) fun _ => (by decide : columns.Nodup)

end Bar

section Quotes

/-- The columns of a quote besides those of its subject. -/
def Quote.ownColumns : List String := "id" :: "date" :: Bar.columns ++ ["created_at", "updated_at"]

/-- A subject whose fields are told from the other columns of a quote and read back. -/
class SubjectCodec (σ : Type) [Subject σ] : Prop where
  fieldsCodec : FieldsCodec (Subject.toFields (σ := σ)) Subject.ofFields? id
  nodup_names : ∀ s : σ, ((Subject.toFields s).map Prod.fst ++ Quote.ownColumns).Nodup

instance : SubjectCodec Instrument where
  fieldsCodec := by
    refine ⟨fun s fields h => ?_, fun s => ?_⟩
    · simp only [Subject.toFields, Fields.hold_cons] at h
      simp [Subject.ofFields?, Fields.get, h, codec_string.value]
    · simp [Subject.toFields, Writable.string]
  nodup_names _ := (by decide : (["ticker_symbol", "stock_brand_id"] ++ Quote.ownColumns).Nodup)

instance : SubjectCodec Ticker where
  fieldsCodec := by
    refine ⟨fun s fields h => ?_, fun s => ?_⟩
    · simp only [Subject.toFields, Fields.hold_cons] at h
      simp [Subject.ofFields?, Fields.get, h, codec_string.value]
    · simp [Subject.toFields, Writable.string]
  nodup_names _ := (by decide : ("ticker_symbol" :: Quote.ownColumns).Nodup)

instance : SubjectCodec Unit where
  fieldsCodec := ⟨fun _ _ _ => rfl, fun _ => nofun⟩
  nodup_names _ := (by decide : Quote.ownColumns.Nodup)

variable {σ : Type} [Subject σ] [SubjectCodec σ]

/-- What is read from the JSON form of a quote. -/
def Quote.asRead (q : Quote σ) : Quote σ :=
  { q with
    date := q.date.asRead, bar := q.bar.asRead, createdAt := q.createdAt.asRead,
    updatedAt := q.updatedAt.asRead }

/-- The times of a quote. -/
def Quote.times (q : Quote σ) : List Instant := [q.date, q.createdAt, q.updatedAt]

omit [Subject σ] [SubjectCodec σ] in
theorem Quote.asRead_eq_self_iff (q : Quote σ) : q.asRead = q ↔ Distinct q.bar.prices q.times := by
  have hbar := q.bar.asRead_eq_self_iff
  obtain ⟨id, subject, date, bar, createdAt, updatedAt⟩ := q
  simp only [asRead, times, distinct_cons_time, ← hbar, QuoteOf.mk.injEq, true_and]
  exact ⟨fun ⟨hdate, hprices, hcreated, hupdated⟩ => ⟨hdate, hcreated, hupdated, hprices⟩,
    fun ⟨hdate, hcreated, hupdated, hprices⟩ => ⟨hdate, hprices, hcreated, hupdated⟩⟩

theorem Quote.codec : Codec (Quote.toJson (σ := σ)) Quote.ofJson? Quote.asRead := by
  refine FieldsCodec.codec ⟨fun q fields h => ?_, fun q => ?_⟩ (fun _ => rfl) fun q => ?_
  · rw [Fields.hold_append, Fields.hold_append, Fields.hold_cons, Fields.hold_cons] at h
    obtain ⟨⟨⟨hid, hsubject⟩, hdate, hbar⟩, htimes⟩ := h
    simp only [Fields.hold_cons] at htimes
    have hread : Subject.ofFields? fields = some q.subject := SubjectCodec.fieldsCodec.value _ _ hsubject
    have hvalues : Bar.ofFields? fields = some q.bar.asRead := Bar.fieldsCodec.value _ _ hbar
    simp [Fields.get, hid, hdate, htimes, hread, hvalues, codec_string.value, codec_instant.value, asRead]
  · have hsubject := SubjectCodec.fieldsCodec.writable q.subject
    have hbar := Bar.fieldsCodec.writable q.bar
    simp only [List.forall_mem_append, List.forall_mem_cons]
    exact ⟨⟨⟨.string q.id, hsubject⟩, codec_instant.writable q.date, hbar⟩,
      codec_instant.writable q.createdAt, codec_instant.writable q.updatedAt, nofun⟩
  · have hnames := SubjectCodec.nodup_names q.subject
    rw [Quote.ownColumns, List.cons_append, List.perm_middle.nodup_iff] at hnames
    rw [List.map_append, List.map_append, List.append_assoc]
    exact hnames

/-- What is read from the JSON form of a quote that comes in. -/
def NewQuote.asRead (q : NewQuote σ) : NewQuote σ :=
  { q with date := q.date.asRead, bar := q.bar.asRead }

omit [Subject σ] [SubjectCodec σ] in
theorem NewQuote.asRead_eq_self_iff (q : NewQuote σ) :
    q.asRead = q ↔ Distinct q.bar.prices [q.date] := by
  have hbar := q.bar.asRead_eq_self_iff
  obtain ⟨subject, date, bar⟩ := q
  simp only [asRead, distinct_cons_time, ← hbar, NewQuote.mk.injEq, true_and]

theorem NewQuote.codec : Codec (NewQuote.toJson (σ := σ)) NewQuote.ofJson? NewQuote.asRead := by
  refine FieldsCodec.codec ⟨fun q fields h => ?_, fun q => ?_⟩ (fun _ => rfl) fun q => ?_
  · rw [Fields.hold_append, Fields.hold_cons] at h
    obtain ⟨hsubject, hdate, hbar⟩ := h
    have hread : Subject.ofFields? fields = some q.subject := SubjectCodec.fieldsCodec.value _ _ hsubject
    have hvalues : Bar.ofFields? fields = some q.bar.asRead := Bar.fieldsCodec.value _ _ hbar
    simp [Fields.get, hdate, hread, hvalues, codec_instant.value, asRead]
  · have hsubject := SubjectCodec.fieldsCodec.writable q.subject
    have hbar := Bar.fieldsCodec.writable q.bar
    rw [List.forall_mem_append, List.forall_mem_cons]
    exact ⟨hsubject, codec_instant.writable q.date, hbar⟩
  · have hnames := SubjectCodec.nodup_names q.subject
    have hpart : ("date" :: Bar.columns).Sublist Quote.ownColumns :=
      ((List.sublist_append_left _ _).cons_cons "date").cons "id"
    rw [List.map_append]
    exact hnames.sublist (hpart.append_left _)

end Quotes

namespace Snapshot

/-- What is read from the JSON form of a snapshot. -/
def asRead (s : Snapshot) : Snapshot :=
  { s with
    tradePrice := s.tradePrice.asRead, currentPrice := s.currentPrice.asRead,
    createdAt := s.createdAt.asRead, updatedAt := s.updatedAt.asRead }

theorem asRead_eq_self_iff (s : Snapshot) :
    s.asRead = s ↔ Distinct [s.tradePrice, s.currentPrice] [s.createdAt, s.updatedAt] := by
  obtain ⟨id, brandId, tradePrice, currentPrice, action, method, memo, createdAt, updatedAt⟩ := s
  simp only [asRead, distinct_cons_decimal, distinct_cons_time, distinct_nil, SnapshotOf.mk.injEq, true_and,
    and_true]
  exact ⟨fun ⟨htrade, hcurrent, hcreated, hupdated⟩ => ⟨hcreated, hupdated, htrade, hcurrent⟩,
    fun ⟨hcreated, hupdated, htrade, hcurrent⟩ => ⟨htrade, hcurrent, hcreated, hupdated⟩⟩

theorem codec : Codec Snapshot.toJson Snapshot.ofJson? asRead := by
  refine FieldsCodec.codec ⟨fun s fields h => ?_, fun s => ?_⟩ (fun _ => rfl)
    fun _ => (by decide : columns.Nodup)
  · simp only [Fields.hold_cons] at h
    simp [Fields.get, h, codec_string.value, codec_decimal.value, codec_instant.value, asRead]
  · simp [Writable.string, codec_decimal.writable, codec_instant.writable]

end Snapshot

namespace NewSnapshot

/-- What is read from the JSON form of a snapshot that comes in. -/
def asRead (s : NewSnapshot) : NewSnapshot :=
  { s with tradePrice := s.tradePrice.asRead, currentPrice := s.currentPrice.asRead }

theorem asRead_eq_self_iff (s : NewSnapshot) :
    s.asRead = s ↔ Distinct [s.tradePrice, s.currentPrice] [] := by
  obtain ⟨brandId, tradePrice, currentPrice, action, method, memo⟩ := s
  simp [asRead, distinct_cons_decimal, distinct_nil]

theorem codec : Codec NewSnapshot.toJson NewSnapshot.ofJson? asRead := by
  refine FieldsCodec.codec ⟨fun s fields h => ?_, fun s => ?_⟩ (fun _ => rfl)
    fun _ => (by decide : columns.Nodup)
  · simp only [Fields.hold_cons] at h
    simp [Fields.get, h, codec_string.value, codec_decimal.value, asRead]
  · simp [Writable.string, codec_decimal.writable]

end NewSnapshot

theorem MarketIndex.codec : Codec MarketIndex.toJson MarketIndex.ofJson? id where
  value index := by cases index <;> rfl
  writable index := .string index.name

/-- Every record of the model is read from its JSON form and from the text of that form, with every digit
of a decimal, every nanosecond of a time and every option that is missing. It is read as the same record
exactly if it holds no zero with a minus sign, which is read without it, and no time that runs on into the
leap second of a second which does not end its minute, which is read as the second that follows. -/
theorem model_round_trips :
    RoundTrips Brand.toJson Brand.ofJson? Brand.asRead (fun _ => []) Brand.times ∧
    RoundTrips NewBrand.toJson NewBrand.ofJson? NewBrand.asRead (fun _ => []) (fun b => [b.updatedAt]) ∧
    RoundTrips BrandFilter.toJson BrandFilter.ofJson? id (fun _ => []) (fun _ => []) ∧
    RoundTrips DateRange.toJson DateRange.ofJson? DateRange.asRead (fun _ => []) DateRange.times ∧
    RoundTrips QuoteFilter.toJson QuoteFilter.ofJson? QuoteFilter.asRead (fun _ => [])
      (fun f => f.range.times) ∧
    RoundTrips Bar.toJson Bar.ofJson? Bar.asRead Bar.prices (fun _ => []) ∧
    RoundTrips (Quote.toJson (σ := Instrument)) Quote.ofJson? Quote.asRead (fun q => q.bar.prices)
      Quote.times ∧
    RoundTrips (NewQuote.toJson (σ := Instrument)) NewQuote.ofJson? NewQuote.asRead
      (fun q => q.bar.prices) (fun q => [q.date]) ∧
    RoundTrips (Quote.toJson (σ := Ticker)) Quote.ofJson? Quote.asRead (fun q => q.bar.prices)
      Quote.times ∧
    RoundTrips (NewQuote.toJson (σ := Ticker)) NewQuote.ofJson? NewQuote.asRead
      (fun q => q.bar.prices) (fun q => [q.date]) ∧
    RoundTrips Snapshot.toJson Snapshot.ofJson? Snapshot.asRead
      (fun s => [s.tradePrice, s.currentPrice]) (fun s => [s.createdAt, s.updatedAt]) ∧
    RoundTrips NewSnapshot.toJson NewSnapshot.ofJson? NewSnapshot.asRead
      (fun s => [s.tradePrice, s.currentPrice]) (fun _ => []) ∧
    RoundTrips (Quote.toJson (σ := Unit)) Quote.ofJson? Quote.asRead (fun q => q.bar.prices)
      Quote.times ∧
    RoundTrips (NewQuote.toJson (σ := Unit)) NewQuote.ofJson? NewQuote.asRead
      (fun q => q.bar.prices) (fun q => [q.date]) ∧
    RoundTrips MarketIndex.toJson MarketIndex.ofJson? id (fun _ => []) (fun _ => []) := by
  have hnothing {α : Type} (x : α) : id x = x ↔ Distinct [] [] := iff_of_true rfl distinct_nil
  refine ⟨Brand.codec.roundTrips Brand.asRead_eq_self_iff,
    NewBrand.codec.roundTrips NewBrand.asRead_eq_self_iff, BrandFilter.codec.roundTrips hnothing,
    DateRange.codec.roundTrips DateRange.asRead_eq_self_iff,
    QuoteFilter.codec.roundTrips QuoteFilter.asRead_eq_self_iff,
    Bar.codec.roundTrips Bar.asRead_eq_self_iff, ?daily, ?newDaily, ?forAnalysis, ?newForAnalysis,
    Snapshot.codec.roundTrips Snapshot.asRead_eq_self_iff,
    NewSnapshot.codec.roundTrips NewSnapshot.asRead_eq_self_iff, ?index, ?newIndex,
    MarketIndex.codec.roundTrips hnothing⟩
  case daily => exact Quote.codec.roundTrips Quote.asRead_eq_self_iff
  case newDaily => exact NewQuote.codec.roundTrips NewQuote.asRead_eq_self_iff
  case forAnalysis => exact Quote.codec.roundTrips Quote.asRead_eq_self_iff
  case newForAnalysis => exact NewQuote.codec.roundTrips NewQuote.asRead_eq_self_iff
  case index => exact Quote.codec.roundTrips Quote.asRead_eq_self_iff
  case newIndex => exact NewQuote.codec.roundTrips NewQuote.asRead_eq_self_iff

/-- A bar of zeros with a minus sign. -/
def minusZeroBar : Bar := .make (-.zero) (-.zero) (-.zero) (-.zero) 1

/-- Half a second into a leap second of the first second of 1970. -/
def strayLeapSecond : Instant := { Instant.epoch with
  nanos := 1500000000
  nanos_lt := Instant.half_leap_lt }

/-- The zeros are read without their sign, and the time as half a second after the second second began. -/
theorem model_can_lose_signs_and_leap_seconds :
    (¬ ∀ bar : Bar, Bar.ofJson? bar.toJson = some bar) ∧
      ¬ ∀ range : DateRange, DateRange.ofJson? range.toJson = some range :=
  ⟨fun hsame => absurd (hsame minusZeroBar) (by decide +kernel),
    fun hsame => absurd (hsame ⟨some strayLeapSecond, none⟩) (by decide +kernel)⟩

end PriceArchive
