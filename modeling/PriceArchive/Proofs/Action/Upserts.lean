import PriceArchive.Proofs.Session.Batch
import PriceArchive.Work.Call

namespace PriceArchive

open Statement

/-- The session after so many clock readings and ids are drawn. -/
def Session.drew (s : Session) (ticks ids : Nat) : Session :=
  { s with supply :=
    { s.supply with ticks := s.supply.ticks + ticks, issued := s.supply.issued + ids } }

namespace Session

@[simp] theorem drew_store (s : Session) (ticks ids : Nat) :
    (s.drew ticks ids).store = s.store := rfl

/-- The session after a batch of statements that are kept one by one. -/
def kept (s : Session) (statements : List (Statement Nat)) : Session :=
  { s with store := (keepEach statements s.store).2 }

/-- A read that sends texts first. -/
theorem run_read_of_given {α : Type} {s : Session} (hgiven : s.server.refusal = none)
    (hs : s.transaction = none) (operation : String) (texts : List String) (f : Store → α) :
    run operation (.read fun store => do
        Binding.texts texts
        return f store) s =
      match Binding.texts texts with
      | .ok () => (.ok (f s.store), s.asked)
      | .error r => (.error (.error (.query operation (.refused r))), s.asked) := by
  rw [run_of_given hgiven hs, Statement.read]
  cases Binding.texts texts with
  | ok _ => rfl
  | error r => rfl

theorem now_apply (s : Session) :
    Action.now s = (.ok (s.supply.clock s.supply.ticks), s.drew 1 0) := rfl

theorem freshId_apply (s : Session) :
    Action.freshId s = (.ok (s.supply.ids s.supply.issued), s.drew 0 1) := rfl

end Session

namespace Quotes

variable {σ : Type}

/-- Quotes with the ids that come next, written now. -/
def stamped (now : Instant) (ids : Nat → String) :
    Nat → List (NewQuote σ × StoredBar) → List (QuoteOf σ Instant StoredBar)
  | _, [] => []
  | n, (q, bar) :: rest => ⟨ids n, q.subject, q.date, bar, now, now⟩ :: stamped now ids (n + 1) rest

theorem withIds_apply (now : Instant) (bars : List (NewQuote σ × StoredBar)) (s : Session) :
    withIds now bars s =
      (.ok (stamped now s.supply.ids s.supply.issued bars), s.drew 0 bars.length) := by
  induction bars generalizing s with
  | nil => rfl
  | cons first rest ih =>
    obtain ⟨q, bar⟩ := first
    rw [withIds, Action.bind_of_ok (Session.freshId_apply s), Action.bind_of_ok (ih _)]
    simp only [Session.drew, Action.pure_apply, stamped, List.length_cons, Nat.add_zero]
    rw [Nat.add_right_comm, Nat.add_assoc]

theorem stamped_take (now : Instant) (ids : Nat → String) (n m : Nat)
    (bars : List (NewQuote σ × StoredBar)) :
    stamped now ids n (bars.take m) = (stamped now ids n bars).take m := by
  induction bars generalizing n m with
  | nil => simp [stamped]
  | cons first rest ih =>
    obtain ⟨q, bar⟩ := first
    cases m with
    | zero => rfl
    | succ m => rw [List.take_succ_cons, stamped, stamped, ih, List.take_succ_cons]

variable [Subject σ]

/-- The statements by which quotes are written. -/
def statements (series : Series σ) (supply : Supply) (bars : List (NewQuote σ × StoredBar)) :
    List (Statement Nat) :=
  (chunks rowsPerStatement
    (stamped (supply.clock supply.ticks) supply.ids supply.issued bars)).map
      (upsertStatement series)

/-- A bulk write of quotes looks at all bars first; then its statements are run. -/
theorem upsert_apply (series : Series σ) {batch : List (NewQuote σ)} (hbatch : batch ≠ [])
    (s : Session) :
    upsert series batch s =
      match storedBars (lastPerKey NewQuote.key batch) with
      | .error e => (.error (.error (.conversion e.message)), s.drew 1 0)
      | .ok bars =>
        Session.runAll series.names.upsertOperation (statements series s.supply bars)
          (s.drew 1 bars.length) := by
  have hempty : ¬ batch.isEmpty = true := by simpa using hbatch
  rw [upsert, if_neg hempty, Action.bind_of_ok (Session.now_apply s)]
  cases storedBars (lastPerKey NewQuote.key batch) with
  | error e => rfl
  | ok bars =>
    rw [Action.ofConversion, Action.bind_of_ok (Action.pure_apply _ _),
      Action.bind_of_ok (withIds_apply _ _ _)]
    simp only [Session.drew, statements, Nat.add_zero]

/-- Without a transaction its statements are kept one by one. -/
theorem upsert_alone {s : Session} (hlive : s.server = .live) (hs : s.transaction = none)
    (series : Series σ) {batch : List (NewQuote σ)} (hbatch : batch ≠ []) :
    upsert series batch s =
      match storedBars (lastPerKey NewQuote.key batch) with
      | .error e => (.error (.error (.conversion e.message)), s.drew 1 0)
      | .ok bars =>
        (Session.ofRefusal series.names.upsertOperation
            (keepEach (statements series s.supply bars) s.store).1,
          (s.drew 1 bars.length).kept (statements series s.supply bars)) := by
  rw [upsert_apply series hbatch]
  cases storedBars (lastPerKey NewQuote.key batch) with
  | error e => rfl
  | ok bars => exact Session.runAll_alone (by exact hlive) (by exact hs) _ _

end Quotes

namespace Snapshots

/-- Snapshots with the ids that come next and stored prices, written now. -/
def stamped (now : Instant) (ids : Nat → String) :
    Nat → List NewSnapshot → List (SnapshotOf Instant Binary64)
  | _, [] => []
  | n, s :: rest =>
    ⟨ids n, s.brandId, Price.toStored s.tradePrice, Price.toStored s.currentPrice, s.action,
      s.method, s.memo, now, now⟩ :: stamped now ids (n + 1) rest

theorem withIds_apply (now : Instant) (batch : List NewSnapshot) (s : Session) :
    withIds now batch s =
      (.ok (stamped now s.supply.ids s.supply.issued batch), s.drew 0 batch.length) := by
  induction batch generalizing s with
  | nil => rfl
  | cons first rest ih =>
    rw [withIds, Action.bind_of_ok (Session.freshId_apply s), Action.bind_of_ok (ih _)]
    simp only [Session.drew, Action.pure_apply, stamped, List.length_cons, Nat.add_zero]
    rw [Nat.add_right_comm, Nat.add_assoc]

theorem stamped_take (now : Instant) (ids : Nat → String) (n m : Nat) (batch : List NewSnapshot) :
    stamped now ids n (batch.take m) = (stamped now ids n batch).take m := by
  induction batch generalizing n m with
  | nil => simp [stamped]
  | cons first rest ih =>
    cases m with
    | zero => rfl
    | succ m => rw [List.take_succ_cons, stamped, stamped, ih, List.take_succ_cons]

/-- The statements by which snapshots are written. -/
def statements (supply : Supply) (batch : List NewSnapshot) : List (Statement Nat) :=
  (chunks rowsPerStatement
    (stamped (supply.clock supply.ticks) supply.ids supply.issued batch)).map upsertStatement

/-- A bulk write of snapshots draws its ids first; then its statements are run. -/
theorem upsert_apply {batch : List NewSnapshot} (hbatch : batch ≠ []) (s : Session) :
    upsert batch s =
      let rows := lastPerKey NewSnapshot.brandId batch
      Session.runAll "upsert analyze current prices" (statements s.supply rows)
        (s.drew 1 rows.length) := by
  have hempty : ¬ batch.isEmpty = true := by simpa using hbatch
  rw [upsert, if_neg hempty, Action.bind_of_ok (Session.now_apply s),
    Action.bind_of_ok (withIds_apply _ _ _)]
  simp only [Session.drew, statements, Nat.add_zero]

theorem upsert_alone {s : Session} (hlive : s.server = .live) (hs : s.transaction = none)
    {batch : List NewSnapshot} (hbatch : batch ≠ []) :
    upsert batch s =
      let rows := lastPerKey NewSnapshot.brandId batch
      (Session.ofRefusal "upsert analyze current prices"
          (keepEach (statements s.supply rows) s.store).1,
        (s.drew 1 rows.length).kept (statements s.supply rows)) := by
  rw [upsert_apply hbatch]
  exact Session.runAll_alone (by exact hlive) (by exact hs) _ _

end Snapshots

namespace Brands

/-- The reports of a batch that are written: of those with one id the last, and none on a brand that
was soft-deleted. -/
def written (batch : List NewBrand) (rows : List BrandRow) : List NewBrand :=
  (lastPerKey NewBrand.id batch).filter fun b =>
    !(softDeletedIds (batch.map NewBrand.id) rows).contains b.id

/-- The statements by which brands are written. -/
def statements (supply : Supply) (batch : List NewBrand) : List (Statement Nat) :=
  (chunks rowsPerStatement batch).map (upsertStatement (supply.clock supply.ticks))

/-- A bulk write of brands looks up the soft-deleted ones first, for which all ids are sent. -/
theorem upsert_apply {s : Session} (hgiven : s.server.refusal = none) (hs : s.transaction = none)
    {batch : List NewBrand} (hbatch : batch ≠ []) :
    upsert batch s =
      match Binding.texts (batch.map NewBrand.id) with
      | .error r =>
        (.error (.error (.query "load soft-deleted stock brand ids" (.refused r))), s.asked)
      | .ok () =>
        Session.runAll "upsert stock brands" (statements s.supply (written batch s.store.brands))
          (s.asked.drew 1 0) := by
  have hempty : ¬ batch.isEmpty = true := by simpa using hbatch
  rw [upsert, if_neg hempty, Action.bind_apply, Session.run_read_of_given hgiven hs]
  cases Binding.texts (batch.map NewBrand.id) with
  | error r => rfl
  | ok _ => rfl

theorem upsert_alone {s : Session} (hlive : s.server = .live) (hs : s.transaction = none)
    {batch : List NewBrand} (hbatch : batch ≠ []) :
    upsert batch s =
      match Binding.texts (batch.map NewBrand.id) with
      | .error r =>
        (.error (.error (.query "load soft-deleted stock brand ids" (.refused r))), s)
      | .ok () =>
        let rows := written batch s.store.brands
        (Session.ofRefusal "upsert stock brands" (keepEach (statements s.supply rows) s.store).1,
          (s.drew 1 0).kept (statements s.supply rows)) := by
  rw [upsert_apply (by rw [hlive]; rfl) hs hbatch, Session.asked_of_live hlive]
  cases Binding.texts (batch.map NewBrand.id) with
  | error r => rfl
  | ok _ => exact Session.runAll_alone (by exact hlive) (by exact hs) _ _

end Brands

end PriceArchive
