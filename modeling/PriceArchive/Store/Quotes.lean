import PriceArchive.Model.Filter
import PriceArchive.Store.Binding
import PriceArchive.Store.Brands
import PriceArchive.Store.Session

namespace PriceArchive

namespace Quotes

variable {σ : Type} [Subject σ]

/-- A stored quote as it is read. -/
def ofRow (row : QuoteRow σ) : Except ConversionError (Quote σ) := do
  let bar ← Bar.ofStored row.bar
  return ⟨row.id, row.subject, row.date.toInstant, bar, row.createdAt.toInstant,
    row.updatedAt.toInstant⟩

/-- Stored quotes as they are read; one that cannot be read fails them all. -/
def ofRows : List (QuoteRow σ) → Except ConversionError (List (Quote σ))
  | [] => .ok []
  | row :: rest => do
    let q ← ofRow row
    let qs ← ofRows rest
    return q :: qs

/-- The bars of quotes in their stored form. -/
def storedBars : List (NewQuote σ) → Except ConversionError (List (NewQuote σ × StoredBar))
  | [] => .ok []
  | q :: rest => do
    let bar ← q.bar.toStored
    let others ← storedBars rest
    return (q, bar) :: others

/-- Quotes with an id for each, written now. -/
def withIds (now : Instant) : List (NewQuote σ × StoredBar) →
    Action (List (QuoteOf σ Instant StoredBar))
  | [] => pure []
  | (q, bar) :: rest => do
    let id ← Action.freshId
    let others ← withIds now rest
    return ⟨id, q.subject, q.date, bar, now, now⟩ :: others

/-- Writes the quotes of one statement. -/
def upsertStatement (series : Series σ) (batch : List (QuoteOf σ Instant StoredBar)) :
    Statement Nat := fun s => do
  let rows ← Binding.all Binding.quote batch
  let stored ← (QuoteRow.rule series.names).upsert (series.get s) rows
  return (rows.length, series.set s stored)

/-- Writes quotes and answers how many were written. Of several quotes for one subject and date, to
the nanosecond, the last counts. -/
def upsert (series : Series σ) (batch : List (NewQuote σ)) : Action Nat := do
  if batch.isEmpty then return 0
  let now ← Action.now
  let bars ← Action.ofConversion (storedBars (lastPerKey NewQuote.key batch))
  let rows ← withIds now bars
  Session.runAll series.names.upsertOperation
    ((chunks rowsPerStatement rows).map (upsertStatement series))

def byDate (a b : QuoteRow σ) : Bool := decide (a.date ≤ b.date)

/-- The row of the latest date. -/
def latestOf : List (QuoteRow σ) → Option (QuoteRow σ)
  | [] => none
  | row :: rest =>
    match latestOf rest with
    | none => some row
    | some other => if other.date ≤ row.date then some row else some other

/-- The rows of a subject. -/
def ofSubject (subject : List String) (rows : List (QuoteRow σ)) : List (QuoteRow σ) :=
  rows.filter fun r => decide (Subject.key r.subject = subject)

/-- The latest quote of a subject; `what` says in an error what is missing. -/
def latest (series : Series σ) (subject : List String) (what : String) : Action (Quote σ) := do
  let row ← Session.run series.names.latestOperation (.read fun s => do
    Binding.texts subject
    return latestOf (ofSubject subject (series.get s)))
  match row with
  | some row => Action.ofConversion (ofRow row)
  | none => Action.fail (.notFound what)

/-- Whether a date is in a range that includes its lower bound and excludes its upper one. -/
def within (lower upper : Option StoredTime) (date : StoredTime) : Bool :=
  (match lower with
    | none => true
    | some t => decide (t ≤ date)) &&
  (match upper with
    | none => true
    | some t => decide (date < t))

/-- The quotes of a subject in a range of days, by date. -/
def list (series : Series σ) (subject : List String) (range : DateRange) :
    Action (List (Quote σ)) := do
  let upper ← Action.ofTime range.upperBound
  let rows ← Session.run series.names.listOperation (.read fun s => do
    Binding.texts subject
    let lower ← Binding.optionalTime range.lowerBound
    let upper ← Binding.optionalTime upper
    return sortBy byDate ((ofSubject subject (series.get s)).filter fun r =>
      within lower upper r.date))
  Action.ofConversion (ofRows rows)

/-- The quotes of a symbol in a range of days, by date; the symbol may not be empty. -/
def listBySymbol (series : Series σ) (f : QuoteFilter) : Action (List (Quote σ)) := do
  if f.symbol.isEmpty then Action.fail (.invalidInput "ticker symbol is required")
  list series [f.symbol] f.range

/-- Deletes the rows that a test picks out, and answers how many. -/
def deleteStatement (series : Series σ) (texts : List String) (doomed : QuoteRow σ → Bool) :
    Statement Nat := fun s => do
  Binding.texts texts
  return (((series.get s).filter doomed).length,
    series.set s ((series.get s).filter fun r => !doomed r))

/-- Deletes the quotes of some symbols, and answers how many. -/
def deleteBySymbols (series : Series σ) (operation : String) (symbols : List String) :
    Action Nat := do
  if symbols.isEmpty then return 0
  Session.run operation
    (deleteStatement series symbols fun r => symbols.any fun s => decide (Subject.key r.subject = [s]))

/-- Deletes the quotes of the daily series that belong to some brands, and answers how many. -/
def deleteByBrands (ids : List String) : Action Nat := do
  if ids.isEmpty then return 0
  Session.run "delete daily prices by stock brand"
    (deleteStatement Series.daily ids fun r => ids.contains r.subject.brandId)

/-- The latest quote of a symbol in the daily series. -/
def latestDaily (symbol : String) : Action (Quote Instrument) :=
  latest Series.daily [symbol] ("daily price for " ++ symbol)

/-- The latest quote of a symbol in the series for analysis. -/
def latestForAnalysis (symbol : String) : Action (Quote Ticker) :=
  latest Series.forAnalysis [symbol] ("analyze daily price for " ++ symbol)

def latestOfIndex (index : MarketIndex) : Action (Quote Unit) :=
  latest (Series.ofIndex index) [] (index.name ++ " daily price")

end Quotes

end PriceArchive
