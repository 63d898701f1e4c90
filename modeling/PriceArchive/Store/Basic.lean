import PriceArchive.Calendar.StoredTime
import PriceArchive.Model.Brand
import PriceArchive.Model.MarketIndex
import PriceArchive.Model.Quote
import PriceArchive.Model.Snapshot
import PriceArchive.Store.Table

namespace PriceArchive

/-- A stored brand. -/
abbrev BrandRow := Brand StoredTime

/-- A stored quote. -/
abbrev QuoteRow (σ : Type) := QuoteOf σ StoredTime StoredBar

/-- A stored snapshot. -/
abbrev SnapshotRow := SnapshotOf StoredTime Binary64

/-- The average volume traded under a ticker symbol, worked out elsewhere. -/
structure VolumeAverage where
  symbol : String
  average : Binary64
  createdAt : StoredTime
  updatedAt : StoredTime
  deriving DecidableEq

/-- The contents of the tables. -/
structure Store where
  brands : List BrandRow
  daily : List (QuoteRow Instrument)
  forAnalysis : List (QuoteRow Ticker)
  snapshots : List SnapshotRow
  nikkei : List (QuoteRow Unit)
  topix : List (QuoteRow Unit)
  volumeAverages : List VolumeAverage
  deriving DecidableEq

namespace Store

def empty : Store := ⟨[], [], [], [], [], [], []⟩

instance : Inhabited Store := ⟨empty⟩

/-- The names of the tables with the numbers of their rows. -/
def counts (s : Store) : List (String × Nat) :=
  [("stock_brands", s.brands.length), ("daily_prices", s.daily.length),
    ("daily_prices_for_analyze", s.forAnalysis.length),
    ("analyze_stock_brand_price_histories", s.snapshots.length),
    ("nikkei_daily_prices", s.nikkei.length), ("topix_daily_prices", s.topix.length),
    ("volume_average_per_tickers", s.volumeAverages.length)]

end Store

/-- The refusal of a row whose key is taken. -/
def taken (rows : Bool) (constraint : String) : Option Refusal :=
  if rows then some (.duplicateKey constraint) else none

namespace BrandRow

/-- The stored brand after a report on it: what is said about it changes, but not its symbol, its
creation or its deletion. -/
def refresh (stored proposed : BrandRow) : BrandRow :=
  { stored with
    name := proposed.name
    market := proposed.market
    sector33 := proposed.sector33
    sector17 := proposed.sector17
    updatedAt := proposed.updatedAt }

/-- Why a brand may not be added: its id is taken, or it is active and so is another brand with its
symbol. -/
def refusal (rows : List BrandRow) (row : BrandRow) : Option Refusal :=
  taken (rows.any fun r => decide (r.id = row.id)) "stock_brands_pkey" <|>
    taken (row.isActive && rows.any fun r => r.isActive && decide (r.symbol = row.symbol))
      "idx_stock_brands_active_ticker_symbol"

def rule : TableRule BrandRow String where
  key := Brand.id
  overwrite := refresh
  refusal := refusal

end BrandRow

/-- What a series of quotes is called where it is stored and read. -/
structure SeriesNames where
  table : String
  /-- The constraint on subject and date. -/
  keyConstraint : String
  /-- The operation of writing quotes. -/
  upsertOperation : String
  /-- The operation of reading the latest quote. -/
  latestOperation : String
  /-- The operation of reading a range of quotes. -/
  listOperation : String
  deriving DecidableEq

namespace QuoteRow

variable {σ : Type} [Subject σ]

/-- The stored quote after another for the same day: its values and the time of writing change. -/
def replaceBar (stored proposed : QuoteRow σ) : QuoteRow σ :=
  { stored with bar := proposed.bar, updatedAt := proposed.updatedAt }

/-- Why a quote may not be added: its volume is negative, its id is taken, or its day is. -/
def refusal (names : SeriesNames) (rows : List (QuoteRow σ)) (row : QuoteRow σ) : Option Refusal :=
  (if row.bar.volume < 0 then some (.checkViolated names.table (names.table ++ "_volume_check"))
    else none) <|>
  taken (rows.any fun r => decide (r.id = row.id)) (names.table ++ "_pkey") <|>
  taken (rows.any fun r => decide (QuoteOf.key r = QuoteOf.key row)) names.keyConstraint

def rule (names : SeriesNames) : TableRule (QuoteRow σ) (List String × StoredTime) where
  key := QuoteOf.key
  overwrite := replaceBar
  refusal := refusal names

end QuoteRow

/-- A series of quotes: its names and its place in the store. -/
structure Series (σ : Type) where
  names : SeriesNames
  get : Store → List (QuoteRow σ)
  set : Store → List (QuoteRow σ) → Store
  get_set : ∀ s rows, get (set s rows) = rows := by intros; rfl
  set_set : ∀ s rows rows', set (set s rows) rows' = set s rows' := by intros; rfl
  set_get : ∀ s, set s (get s) = s := by intros; rfl

namespace Series

def daily : Series Instrument where
  names := {
    table := "daily_prices"
    keyConstraint := "daily_prices_ticker_symbol_date_key"
    upsertOperation := "upsert daily prices"
    latestOperation := "get latest daily price"
    listOperation := "list daily prices by symbol" }
  get := Store.daily
  set s rows := { s with daily := rows }

def forAnalysis : Series Ticker where
  names := {
    table := "daily_prices_for_analyze"
    keyConstraint := "daily_prices_for_analyze_ticker_symbol_date_key"
    upsertOperation := "upsert analyze daily prices"
    latestOperation := "get latest analyze daily price"
    listOperation := "list analyze daily prices by symbol" }
  get := Store.forAnalysis
  set s rows := { s with forAnalysis := rows }

def indexNames (index : MarketIndex) : SeriesNames where
  table := index.tableName
  keyConstraint := index.tableName ++ "_date_key"
  upsertOperation := "upsert index daily prices"
  latestOperation := "get latest index daily price"
  listOperation := "list index daily prices"

def ofIndex : MarketIndex → Series Unit
  | .nikkei =>
    { names := indexNames .nikkei, get := Store.nikkei, set s rows := { s with nikkei := rows } }
  | .topix =>
    { names := indexNames .topix, get := Store.topix, set s rows := { s with topix := rows } }

end Series

namespace SnapshotRow

/-- The stored snapshot after another for its brand: the current price and the time of writing
change. -/
def replaceCurrent (stored proposed : SnapshotRow) : SnapshotRow :=
  { stored with currentPrice := proposed.currentPrice, updatedAt := proposed.updatedAt }

/-- Why a snapshot may not be added: its id is taken, or its brand has one. -/
def refusal (rows : List SnapshotRow) (row : SnapshotRow) : Option Refusal :=
  taken (rows.any fun r => decide (r.id = row.id)) "analyze_stock_brand_price_histories_pkey" <|>
    taken (rows.any fun r => decide (r.brandId = row.brandId))
      "analyze_stock_brand_price_histories_stock_brand_id_key"

def rule : TableRule SnapshotRow String where
  key := SnapshotOf.brandId
  overwrite := replaceCurrent
  refusal := refusal

end SnapshotRow

namespace VolumeAverage

/-- Why an average may not be added: its symbol has one. -/
def refusal (rows : List VolumeAverage) (row : VolumeAverage) : Option Refusal :=
  taken (rows.any fun r => decide (r.symbol = row.symbol)) "volume_average_per_tickers_pkey"

def rule : TableRule VolumeAverage String where
  key := VolumeAverage.symbol
  overwrite _ proposed := proposed
  refusal := refusal

end VolumeAverage

end PriceArchive
