import PriceArchive.Json.Reader
import PriceArchive.Job.Basic
import PriceArchive.Settings.Basic
import PriceArchive.Settings.EnvironmentFile
import PriceArchive.Schedule.Basic
import PriceArchive.Log.Basic
import PriceArchive.Log.Filter
import PriceArchive.Service
import PriceArchive.Main
import PriceArchive.Proofs.Action.PartialWrites
import PriceArchive.Proofs.Ingest.LatestClose
import PriceArchive.Proofs.Action.BatchedWrites
import PriceArchive.Proofs.Cleanup.Leftover
import PriceArchive.Proofs.Quotes.Collision
import PriceArchive.Proofs.Quotes.Days
import PriceArchive.Proofs.Price.Rescaling
import PriceArchive.Proofs.Price.Rewriting
import PriceArchive.Proofs.Price.RoundTrip
import PriceArchive.Proofs.Store.Reached
import PriceArchive.Proofs.Store.Sound
import PriceArchive.Proofs.Store.Consistent
import PriceArchive.Proofs.Store.Readable
import PriceArchive.Proofs.Brands.Hidden
import PriceArchive.Proofs.Brands.Paging
import PriceArchive.Proofs.Store.Lasting
import PriceArchive.Proofs.Cleanup.Exact
import PriceArchive.Proofs.Action.Kept
import PriceArchive.Proofs.Ingest.InStep
import PriceArchive.Proofs.Action.Repeated
import PriceArchive.Proofs.Calendar.DaysBefore
import PriceArchive.Proofs.Cleanup.Repeated
import PriceArchive.Proofs.Ingest.Repeated
import PriceArchive.Proofs.Quotes.Plain
import PriceArchive.Proofs.Quotes.Latest
import PriceArchive.Proofs.Brands.HighVolume
import PriceArchive.Proofs.Brands.FirstPage
import PriceArchive.Proofs.Calendar.DayCount
import PriceArchive.Proofs.Text.Digits
import PriceArchive.Proofs.Calendar.Text
import PriceArchive.Proofs.Json.Text
import PriceArchive.Proofs.Json.Record
import PriceArchive.Proofs.Model.RoundTrip
import PriceArchive.Proofs.Cleanup.Retention
import PriceArchive.Proofs.Price.Order
import PriceArchive.Proofs.Brands.Upserted
import PriceArchive.Proofs.Ingest.Ties
import PriceArchive.Proofs.Calendar.NextDate
import PriceArchive.Proofs.Model.DayBounds
import PriceArchive.Proofs.Price.Rounding
import PriceArchive.Proofs.Number.FewestDigits
import PriceArchive.Proofs.Decimal.Overlong
import PriceArchive.Proofs.Price.Doubles
import PriceArchive.Proofs.Settings.Reading
import PriceArchive.Proofs.Table.Slots
import PriceArchive.Proofs.Schedule.Reading
import PriceArchive.Proofs.Log.Reading
import PriceArchive.Proofs.Settings.Loading
import PriceArchive.Proofs.Service
