import PriceArchive.Store.Basic

namespace PriceArchive

namespace Binding

def text (s : String) : Except Refusal Unit :=
  if s.toList.contains '\x00' then .error .nulCharacter else .ok ()

def texts : List String → Except Refusal Unit
  | [] => .ok ()
  | s :: rest =>
    match text s with
    | .ok () => texts rest
    | .error r => .error r

def time (t : Instant) : Except Refusal StoredTime :=
  match StoredTime.ofInstant? t with
  | some t => .ok t
  | none => .error .timeOutOfRange

def optionalTime : Option Instant → Except Refusal (Option StoredTime)
  | none => .ok none
  | some t => (time t).map some

/-- Several values of one kind, in order. -/
def all {α β : Type} (bind : α → Except Refusal β) : List α → Except Refusal (List β)
  | [] => .ok []
  | x :: rest =>
    match bind x with
    | .ok y => (all bind rest).map (y :: ·)
    | .error r => .error r

/-- A brand; its time of creation is the store's own. -/
def newBrand (createdAt : StoredTime) (b : NewBrand) : Except Refusal BrandRow := do
  texts [b.id, b.symbol, b.name, b.market.code, b.market.name, b.sector33.code, b.sector33.name,
    b.sector17.code, b.sector17.name]
  let updatedAt ← time b.updatedAt
  return {
    id := b.id
    symbol := b.symbol
    name := b.name
    market := b.market
    sector33 := b.sector33
    sector17 := b.sector17
    createdAt := createdAt
    updatedAt := updatedAt
    deletedAt := none }

/-- A brand with all its times. -/
def brand (b : Brand Instant) : Except Refusal BrandRow := do
  texts [b.id, b.symbol, b.name, b.market.code, b.market.name, b.sector33.code, b.sector33.name,
    b.sector17.code, b.sector17.name]
  let createdAt ← time b.createdAt
  let updatedAt ← time b.updatedAt
  let deletedAt ← optionalTime b.deletedAt
  return {
    id := b.id
    symbol := b.symbol
    name := b.name
    market := b.market
    sector33 := b.sector33
    sector17 := b.sector17
    createdAt := createdAt
    updatedAt := updatedAt
    deletedAt := deletedAt }

/-- A quote whose bar is already in its stored form. -/
def quote {σ : Type} [Subject σ] (q : QuoteOf σ Instant StoredBar) : Except Refusal (QuoteRow σ) := do
  texts (q.id :: Subject.texts q.subject)
  let date ← time q.date
  let createdAt ← time q.createdAt
  let updatedAt ← time q.updatedAt
  return ⟨q.id, q.subject, date, q.bar, createdAt, updatedAt⟩

/-- A snapshot whose prices are already in their stored form. -/
def snapshot (s : SnapshotOf Instant Binary64) : Except Refusal SnapshotRow := do
  texts [s.id, s.brandId, s.action, s.method, s.memo]
  let createdAt ← time s.createdAt
  let updatedAt ← time s.updatedAt
  return { s with createdAt := createdAt, updatedAt := updatedAt }

end Binding

end PriceArchive
