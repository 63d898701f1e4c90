import PriceArchive.Proofs.Action.OneByOne
import PriceArchive.Proofs.Calendar.StoredTime
import PriceArchive.Proofs.Table.Batching
import PriceArchive.Proofs.Work.Commit

namespace PriceArchive

/-- What agrees of the rows in a table agrees of the stores into which they are put. -/
theorem Table.agreeButGiven {α ρ κ γ ν δ : Type} [DecidableEq κ] {table : Table ρ κ}
    (c : table.rule.Columns γ ν δ) {key : α → Option κ} {given : α → γ} {batch : List α}
    {p : α → Bool} {whole single : List ρ} {s t u : Store} (ht : t = table.putAll s whole)
    (hu : u = table.putAll s single)
    (h : whole.map c.written = (lastPerKey table.rule.key single).map c.written)
    (hitems : single.map (fun r => (some (table.rule.key r), c.given r)) =
      (batch.filter p).map fun x => (key x, given x))
    (hpassed : ∀ k, k ∉ (table.get s).map table.rule.key →
      ∀ x ∈ batch, key x = some k → p x = true) :
    c.AgreeButGiven key given batch (table.get s) (table.get t) (table.get u) := by
  rw [ht, hu, get_putAll, get_putAll]
  exact c.agreeButGiven h hitems hpassed

section Quotes

variable {σ : Type} [Subject σ]

/-- The columns of a series: a row keeps its subject, for which an instrument names a brand. -/
def Series.columns (series : Series σ) :
    series.table.rule.Columns σ StoredBar (String × StoredTime) where
  given r := r.subject
  values r := r.bar
  drawn r := (r.id, r.createdAt)
  keepsKey := series.table_keepsKey
  given_overwrite _ _ := rfl
  values_overwrite _ _ := rfl
  drawn_overwrite _ _ := rfl
  overwrite_self _ := rfl

/-- The key under which a quote is stored, if its date can be stored. -/
def NewQuote.rowKey? (q : NewQuote σ) : Option (List String × StoredTime) :=
  (StoredTime.ofInstant? q.date).map fun date => (Subject.key q.subject, date)

/-- Rows with the columns of some quotes show their bars under their keys. -/
theorem QuoteRow.shown_of_columns {rows : List (QuoteRow σ)} {quotes : List (NewQuote σ)}
    (h : rows.map QuoteRow.columns = quotes.map NewQuote.columns) :
    rows.map (fun r => (some (QuoteOf.key r), (Except.ok r.bar : Except ConversionError StoredBar))) =
      quotes.map fun q => (q.rowKey?, q.bar.toStored) := by
  refine map_eq_map_of_imp (fun r q heq => ?_) h
  rw [QuoteRow.columns, NewQuote.columns, Prod.mk.injEq, Prod.mk.injEq] at heq
  rw [NewQuote.rowKey?, ← heq.1, ← heq.2.1, ← heq.2.2]
  rfl

theorem QuoteRow.keys_of_columns {rows : List (QuoteRow σ)} {quotes : List (NewQuote σ)}
    (h : rows.map QuoteRow.columns = quotes.map NewQuote.columns) :
    rows.map (fun r => some (QuoteOf.key r)) = quotes.map NewQuote.rowKey? :=
  map_eq_map_of_imp (fun _ _ heq => congrArg Prod.fst heq) (QuoteRow.shown_of_columns h)

namespace Quotes

/-- Two quotes of a batch for one subject have one date or are told apart where they are stored. -/
def DatesApart (batch : List (NewQuote σ)) : Prop :=
  ∀ p ∈ batch, ∀ q ∈ batch, p.storedKey = q.storedKey → p.date = q.date

instance (batch : List (NewQuote σ)) : Decidable (DatesApart batch) :=
  inferInstanceAs (Decidable (∀ p ∈ batch, ∀ q ∈ batch, _ → _))

theorem key_eq_iff_of_datesApart {batch : List (NewQuote σ)} (hdates : DatesApart batch)
    (hstored : ∀ q ∈ batch, StoredTime.ofInstant? q.date ≠ none) :
    ∀ p ∈ batch, ∀ q ∈ batch, p.key = q.key ↔
      (Subject.key p.columns.1, p.columns.2.1) = (Subject.key q.columns.1, q.columns.2.1) := by
  intro p hp q hq
  rw [NewQuote.key, NewQuote.key, NewQuote.columns, NewQuote.columns, Prod.mk.injEq, Prod.mk.injEq]
  refine and_congr_right fun hsubject => ⟨congrArg StoredTime.ofInstant?, fun hdate => ?_⟩
  dsimp only at hdate
  obtain ⟨d, hd⟩ := Option.ne_none_iff_exists'.mp (hstored p hp)
  apply hdates p hp q hq
  rw [NewQuote.storedKey, NewQuote.storedKey, hsubject, ← StoredTime.micros_of_ofInstant? hd,
    ← StoredTime.micros_of_ofInstant? (hdate ▸ hd)]

/-- One call for a batch of quotes and one call for every quote agree but for the added subjects. -/
theorem agreeButGiven (series : Series σ) {batch : List (NewQuote σ)} (hdates : DatesApart batch)
    {s t u : Session} {n m : Nat} (hwhole : upsert series batch s = (.ok n, t))
    (hsingle : Action.oneByOne (upsert series) batch s = (.ok m, u)) :
    series.columns.AgreeButGiven NewQuote.rowKey? NewQuote.subject batch (series.get s.store)
      (series.get t.store) (series.get u.store) := by
  obtain ⟨whole, hwholeRows, ht⟩ := upsert_eq_ok hwhole
  obtain ⟨single, hsingleRows, hu⟩ := oneByOne_eq_ok hsingle
  have hstored : ∀ q ∈ batch, StoredTime.ofInstant? q.date ≠ none := by
    intro q hq hnone
    obtain ⟨r, -, hcolumns⟩ := exists_mem_of_map_eq hsingleRows.symm hq
    have hdate : some r.date = StoredTime.ofInstant? q.date := congrArg (fun c => c.2.1) hcolumns
    rw [hnone] at hdate
    cases hdate
  have hcollapsed : (lastPerKey series.table.rule.key single).map QuoteRow.columns =
      (lastPerKey NewQuote.key batch).map NewQuote.columns := by
    refine map_lastPerKey_of_map_eq (k := fun c => (Subject.key c.1, c.2.1))
      (key_eq_iff_of_datesApart hdates hstored) (fun r r' => ?_) hsingleRows
    change QuoteOf.key r = QuoteOf.key r' ↔ _
    simp [QuoteOf.key, QuoteRow.columns]
  have hwritten : whole.map series.columns.written =
      (lastPerKey series.table.rule.key single).map series.columns.written := by
    refine map_eq_map_of_imp (fun r r' heq => ?_) (hwholeRows.trans hcollapsed.symm)
    rw [QuoteRow.columns, QuoteRow.columns, Prod.mk.injEq, Prod.mk.injEq] at heq
    change ((Subject.key r.subject, r.date), r.subject, r.bar) = _
    rw [heq.1, Option.some.inj heq.2.1, Except.ok.inj heq.2.2]
    rfl
  have hitems : single.map (fun r => (some (series.table.rule.key r), r.subject)) =
      (batch.filter fun _ => true).map fun q => (q.rowKey?, q.subject) := by
    rw [List.filter_true]
    refine map_eq_map_of_imp (fun r q heq => ?_) hsingleRows
    rw [QuoteRow.columns, NewQuote.columns, Prod.mk.injEq, Prod.mk.injEq] at heq
    rw [NewQuote.rowKey?, ← heq.1, ← heq.2.1]
    rfl
  exact Table.agreeButGiven series.columns ht hu hwritten hitems fun _ _ _ _ _ => rfl

end Quotes

end Quotes

namespace Snapshots

/-- The columns of the snapshots: all but the current price belongs to whoever created the row. -/
def columns :
    table.rule.Columns (Binary64 × String × String × String) Binary64 (String × StoredTime) where
  given r := (r.tradePrice, r.action, r.method, r.memo)
  values r := r.currentPrice
  drawn r := (r.id, r.createdAt)
  keepsKey := table_keepsKey
  given_overwrite _ _ := rfl
  values_overwrite _ _ := rfl
  drawn_overwrite _ _ := rfl
  overwrite_self _ := rfl

/-- What a snapshot gives the row that it adds. -/
def given (h : NewSnapshot) : Binary64 × String × String × String :=
  (Price.toStored h.tradePrice, h.action, h.method, h.memo)

/-- One call for a batch of snapshots and one call for every snapshot agree but for what the added ones
are given. -/
theorem agreeButGiven {batch : List NewSnapshot} {s t u : Session} {n m : Nat}
    (hwhole : upsert batch s = (.ok n, t))
    (hsingle : Action.oneByOne upsert batch s = (.ok m, u)) :
    columns.AgreeButGiven (fun h => some h.brandId) given batch s.store.snapshots t.store.snapshots
      u.store.snapshots := by
  obtain ⟨whole, hwholeRows, ht⟩ := upsert_eq_ok hwhole
  obtain ⟨single, hsingleRows, hu⟩ := oneByOne_eq_ok hsingle
  have hcollapsed : (lastPerKey table.rule.key single).map SnapshotRow.storedColumns =
      (lastPerKey NewSnapshot.brandId batch).map NewSnapshot.storedColumns :=
    map_lastPerKey_of_map_eq (k := Prod.fst) (fun _ _ _ _ => Iff.rfl) (fun _ _ => Iff.rfl)
      hsingleRows
  have hitems : single.map (fun r => (some (table.rule.key r), columns.given r)) =
      (batch.filter fun _ => true).map fun h => (some h.brandId, given h) := by
    rw [List.filter_true]
    exact map_eq_map_of_imp (fun _ _ heq => congrArg (fun c => (some c.1, c.2.1)) heq) hsingleRows
  exact Table.agreeButGiven columns ht hu (hwholeRows.trans hcollapsed.symm) hitems
    fun _ _ _ _ _ => rfl

end Snapshots

namespace Brands

/-- The columns of the brands: a row keeps its ticker symbol and whether it was soft-deleted. -/
def columns : table.rule.Columns (String × Option StoredTime)
    (String × Label × Label × Label × Option StoredTime) StoredTime where
  given r := (r.symbol, r.deletedAt)
  values r := (r.name, r.market, r.sector33, r.sector17, some r.updatedAt)
  drawn r := r.createdAt
  keepsKey := table_keepsKey
  given_overwrite _ _ := rfl
  values_overwrite _ _ := rfl
  drawn_overwrite _ _ := rfl
  overwrite_self _ := rfl

/-- What a report gives the row that it adds, which is active. -/
def given (b : NewBrand) : String × Option StoredTime := (b.symbol, none)

/-- A brand that was soft-deleted is stored. -/
theorem not_softDeleted_of_not_mem {rows : List BrandRow} {id : String}
    (h : id ∉ rows.map table.rule.key) : softDeleted rows id = false := by
  apply List.any_eq_false.mpr
  intro r hr hrow
  rw [Bool.and_eq_true, decide_eq_true_eq] at hrow
  exact h (hrow.1 ▸ List.mem_map_of_mem hr)

/-- One call for a batch of reports and one call for every report agree but for the ticker symbols of the
added brands. -/
theorem agreeButGiven {batch : List NewBrand} {s t u : Session} {n m : Nat}
    (hwhole : upsert batch s = (.ok n, t))
    (hsingle : Action.oneByOne upsert batch s = (.ok m, u)) :
    columns.AgreeButGiven (fun b => some b.id) given batch s.store.brands t.store.brands
      u.store.brands := by
  obtain ⟨whole, hwholeRows, ht⟩ := upsert_eq_ok hwhole
  obtain ⟨single, hsingleRows, hu⟩ := oneByOne_eq_ok hsingle
  have hcollapsed : (lastPerKey table.rule.key single).map BrandRow.storedColumns =
      (written batch s.store.brands).map NewBrand.storedColumns := by
    rw [written_eq]
    exact map_lastPerKey_of_map_eq (k := Prod.fst) (fun _ _ _ _ => Iff.rfl) (fun _ _ => Iff.rfl)
      hsingleRows
  have hitems : single.map (fun r => (some (table.rule.key r), columns.given r)) =
      (batch.filter fun b => !softDeleted s.store.brands b.id).map
        fun b => (some b.id, given b) :=
    map_eq_map_of_imp (fun _ _ heq => congrArg (fun c => (some c.1, c.2.1)) heq) hsingleRows
  refine Table.agreeButGiven columns ht hu (hwholeRows.trans hcollapsed.symm) hitems
    fun k hk b _ hb => ?_
  rw [← Option.some.inj hb] at hk
  rw [Bool.not_eq_true']
  exact not_softDeleted_of_not_mem hk

end Brands

namespace Action

/-- When a bulk write succeeds in one call and also with one call for every row, in any session, both
leave the same rows in the same order, with the same keys and values, and what rows that were stored
before keep is the same. What an added row keeps comes from the last row of its key in the first case and
from the first in the second; so the rows are the same exactly when, for every key that was not stored,
those two give the same. Of quotes no two with one stored key may have different dates. -/
theorem bulk_write_agrees_but_given (s t u : Session) (n m : Nat) :
    (∀ (σ : Type) [Subject σ] (series : Series σ) (batch : List (NewQuote σ)),
      Quotes.DatesApart batch → Quotes.upsert series batch s = (.ok n, t) →
        oneByOne (Quotes.upsert series) batch s = (.ok m, u) →
          series.columns.AgreeButGiven NewQuote.rowKey? NewQuote.subject batch (series.get s.store)
            (series.get t.store) (series.get u.store)) ∧
      (∀ batch : List NewSnapshot, Snapshots.upsert batch s = (.ok n, t) →
        oneByOne Snapshots.upsert batch s = (.ok m, u) →
          Snapshots.columns.AgreeButGiven (fun h => some h.brandId) Snapshots.given batch
            s.store.snapshots t.store.snapshots u.store.snapshots) ∧
      ∀ batch : List NewBrand, Brands.upsert batch s = (.ok n, t) →
        oneByOne Brands.upsert batch s = (.ok m, u) →
          Brands.columns.AgreeButGiven (fun b => some b.id) Brands.given batch s.store.brands
            t.store.brands u.store.brands :=
  ⟨fun _ _ series _ hdates => Quotes.agreeButGiven series hdates,
    fun _ => Snapshots.agreeButGiven, fun _ => Brands.agreeButGiven⟩

/-- Two snapshots of one brand with different memos. -/
def twoMemos : List NewSnapshot :=
  [(NewSnapshot.ofPrice "b1" default).withMemo "first",
    (NewSnapshot.ofPrice "b1" default).withMemo "second"]

theorem upsert_twoMemos : (Snapshots.upsert twoMemos Work.quietStart).1 = .ok 1 := by decide +kernel

theorem oneByOne_twoMemos :
    (oneByOne Snapshots.upsert twoMemos Work.quietStart).1 = .ok 2 := by decide +kernel

theorem memos_of_twoMemos :
    (Snapshots.upsert twoMemos Work.quietStart).2.store.snapshots.map SnapshotOf.memo = ["second"] ∧
      (oneByOne Snapshots.upsert twoMemos Work.quietStart).2.store.snapshots.map SnapshotOf.memo =
        ["first"] := by decide +kernel

/-- One call does not leave the rows that one call for every row leaves. -/
theorem bulk_write_can_change_what_is_kept :
    ¬ ∀ (batch : List NewSnapshot) (s t u : Session) (n m : Nat),
      Snapshots.upsert batch s = (.ok n, t) → oneByOne Snapshots.upsert batch s = (.ok m, u) →
        List.Forall₂ (Snapshots.columns.Same s.store.snapshots) t.store.snapshots
          u.store.snapshots := by
  intro hsame
  have hrows := hsame twoMemos Work.quietStart _ _ _ _ (Prod.ext upsert_twoMemos rfl)
    (Prod.ext oneByOne_twoMemos rfl)
  have hmemos : (Snapshots.upsert twoMemos Work.quietStart).2.store.snapshots.map SnapshotOf.memo =
      (oneByOne Snapshots.upsert twoMemos Work.quietStart).2.store.snapshots.map
        SnapshotOf.memo := by
    rw [← List.forall₂_eq_eq_eq, List.forall₂_map_left_iff, List.forall₂_map_right_iff]
    exact hrows.imp fun _ _ hsame => congrArg (fun given => given.2.2.2) hsame.2.1
  rw [memos_of_twoMemos.1, memos_of_twoMemos.2] at hmemos
  exact absurd hmemos (by decide)

/-- Two quotes of one symbol and date for different brands. -/
def twoBrandIds : List (NewQuote Instrument) :=
  [⟨⟨"1001", "b1"⟩, .epoch, Bar.make default default default default 1⟩,
    ⟨⟨"1001", "b2"⟩, .epoch, Bar.make default default default default 2⟩]

/-- Two reports on one brand with different ticker symbols. -/
def twoSymbols : List NewBrand :=
  [⟨"b1", "1001", "N", .empty, .empty, .empty, .epoch⟩,
    ⟨"b1", "1002", "N", .empty, .empty, .empty, .epoch⟩]

theorem upsert_twoBrandIds :
    (Quotes.upsert Series.daily twoBrandIds Work.quietStart).1 = .ok 1 ∧
      (oneByOne (Quotes.upsert Series.daily) twoBrandIds Work.quietStart).1 = .ok 2 := by
  decide +kernel

theorem upsert_twoSymbols :
    (Brands.upsert twoSymbols Work.quietStart).1 = .ok 1 ∧
      (oneByOne Brands.upsert twoSymbols Work.quietStart).1 = .ok 2 := by decide +kernel

theorem bulk_write_agrees_two :
    Quotes.DatesApart twoBrandIds ∧
      Series.daily.columns.AgreeButGiven NewQuote.rowKey? NewQuote.subject twoBrandIds []
        (Quotes.upsert Series.daily twoBrandIds Work.quietStart).2.store.daily
        (oneByOne (Quotes.upsert Series.daily) twoBrandIds Work.quietStart).2.store.daily ∧
      Snapshots.columns.AgreeButGiven (fun h => some h.brandId) Snapshots.given twoMemos []
        (Snapshots.upsert twoMemos Work.quietStart).2.store.snapshots
        (oneByOne Snapshots.upsert twoMemos Work.quietStart).2.store.snapshots ∧
      Brands.columns.AgreeButGiven (fun b => some b.id) Brands.given twoSymbols []
        (Brands.upsert twoSymbols Work.quietStart).2.store.brands
        (oneByOne Brands.upsert twoSymbols Work.quietStart).2.store.brands := by
  have hdates : Quotes.DatesApart twoBrandIds := by decide +kernel
  refine ⟨hdates, ?_, ?_, ?_⟩
  · exact (bulk_write_agrees_but_given Work.quietStart _ _ 1 2).1 Instrument Series.daily twoBrandIds
      hdates (Prod.ext upsert_twoBrandIds.1 rfl) (Prod.ext upsert_twoBrandIds.2 rfl)
  · exact (bulk_write_agrees_but_given Work.quietStart _ _ 1 2).2.1 twoMemos
      (Prod.ext upsert_twoMemos rfl) (Prod.ext oneByOne_twoMemos rfl)
  · exact (bulk_write_agrees_but_given Work.quietStart _ _ 1 2).2.2 twoSymbols
      (Prod.ext upsert_twoSymbols.1 rfl) (Prod.ext upsert_twoSymbols.2 rfl)

end Action

end PriceArchive
