import PriceArchive.Model.Bar

namespace PriceArchive

/-- Whose price a quote of the daily series is. -/
structure Instrument where
  symbol : String
  /-- The id of the brand that first used the symbol on that date. -/
  brandId : String
  deriving DecidableEq

/-- Whose price a quote of the series for analysis is. -/
structure Ticker where
  symbol : String
  deriving DecidableEq

/-- Whose prices a series holds. -/
class Subject (σ : Type) where
  /-- What tells two subjects apart on one date. -/
  key : σ → List String
  /-- The text columns, in order. -/
  texts : σ → List String
  toFields : σ → List (String × Json)
  /-- The subject that the fields of a JSON form give. -/
  ofFields? : Json.Fields → Option σ

instance instSubjectInstrument : Subject Instrument where
  key s := [s.symbol]
  texts s := [s.symbol, s.brandId]
  toFields s := [("ticker_symbol", .string s.symbol), ("stock_brand_id", .string s.brandId)]
  ofFields? fields := do
    let symbol ← fields.get "ticker_symbol" Json.string?
    let brandId ← fields.get "stock_brand_id" Json.string?
    return ⟨symbol, brandId⟩

instance instSubjectTicker : Subject Ticker where
  key s := [s.symbol]
  texts s := [s.symbol]
  toFields s := [("ticker_symbol", .string s.symbol)]
  ofFields? fields := do return ⟨← fields.get "ticker_symbol" Json.string?⟩

instance instSubjectUnit : Subject Unit where
  key _ := []
  texts _ := []
  toFields _ := []
  ofFields? _ := some ()

/-- A quote about a subject, with times of type `τ` and value columns of type `β`. -/
structure QuoteOf (σ τ β : Type) where
  id : String
  subject : σ
  date : τ
  bar : β
  createdAt : τ
  updatedAt : τ
  deriving DecidableEq

/-- A quote to compute with. -/
abbrev Quote (σ : Type) := QuoteOf σ Instant Bar

/-- A quote as it comes in; its id is assigned when it is first stored. -/
structure NewQuote (σ : Type) where
  subject : σ
  date : Instant
  bar : Bar
  deriving DecidableEq

namespace QuoteOf

variable {σ τ β : Type} [Subject σ]

/-- What tells two quotes of a series apart: the subject's key and the date. -/
def key (q : QuoteOf σ τ β) : List String × τ := (Subject.key q.subject, q.date)

end QuoteOf

namespace Quote

variable {σ : Type} [Subject σ]

/-- The JSON form; the columns of the bar stand among the other fields. -/
def toJson (q : Quote σ) : Json :=
  .object (("id", .string q.id) :: Subject.toFields q.subject ++ ("date", .ofInstant q.date) ::
    q.bar.toFields ++
    [("created_at", .ofInstant q.createdAt), ("updated_at", .ofInstant q.updatedAt)])

def ofJson? (j : Json) : Option (Quote σ) := do
  let fields ← j.fields?
  let id ← fields.get "id" Json.string?
  let subject ← Subject.ofFields? fields
  let date ← fields.get "date" Json.instant?
  let bar ← Bar.ofFields? fields
  let createdAt ← fields.get "created_at" Json.instant?
  let updatedAt ← fields.get "updated_at" Json.instant?
  return ⟨id, subject, date, bar, createdAt, updatedAt⟩

end Quote

namespace NewQuote

variable {σ : Type} [Subject σ]

/-- What tells two quotes of a batch apart: the subject's key and the date, to the nanosecond. -/
def key (q : NewQuote σ) : List String × Instant := (Subject.key q.subject, q.date)

/-- The JSON form; the columns of the bar stand among the other fields. -/
def toJson (q : NewQuote σ) : Json :=
  .object (Subject.toFields q.subject ++ ("date", .ofInstant q.date) :: q.bar.toFields)

def ofJson? (j : Json) : Option (NewQuote σ) := do
  let fields ← j.fields?
  let subject ← Subject.ofFields? fields
  let date ← fields.get "date" Json.instant?
  let bar ← Bar.ofFields? fields
  return ⟨subject, date, bar⟩

/-- The quote of the daily series as a quote of the series for analysis: without the brand. -/
def forAnalysis (q : NewQuote Instrument) : NewQuote Ticker := ⟨⟨q.subject.symbol⟩, q.date, q.bar⟩

end NewQuote

end PriceArchive
