import PriceArchive.Proofs.Action.Calls
import PriceArchive.Proofs.Action.Upserts
import PriceArchive.Proofs.Session.Solo
import PriceArchive.Proofs.Table.Batch
import PriceArchive.Proofs.Table.Binding
import PriceArchive.Proofs.Table.Keyed

namespace PriceArchive

open Statement

/-- A table in its place in the store. -/
structure Table (ρ κ : Type) [DecidableEq κ] where
  rule : TableRule ρ κ
  get : Store → List ρ
  set : Store → List ρ → Store
  get_set : ∀ s rows, get (set s rows) = rows
  set_set : ∀ s rows rows', set (set s rows) rows' = set s rows'
  set_get : ∀ s, set s (get s) = s

namespace Table

variable {ρ κ α : Type} [DecidableEq κ]

/-- The statement that writes some rows, if they can be sent. -/
def write (table : Table ρ κ) (bound : Except Refusal (List ρ)) : Statement Nat := fun s =>
  match bound with
  | .error r => .error r
  | .ok rows =>
    match table.rule.upsert (table.get s) rows with
    | .error r => .error r
    | .ok stored => .ok (rows.length, table.set s stored)

/-- The store after some rows are put into the table. -/
def putAll (table : Table ρ κ) (s : Store) (rows : List ρ) : Store :=
  table.set s (rows.foldl table.rule.put (table.get s))

theorem putAll_nil (table : Table ρ κ) (s : Store) : table.putAll s [] = s := table.set_get s

theorem putAll_append (table : Table ρ κ) (s : Store) (rows rows' : List ρ) :
    table.putAll s (rows ++ rows') = table.putAll (table.putAll s rows) rows' := by
  unfold putAll
  rw [List.foldl_append, table.get_set, table.set_set]

theorem get_putAll (table : Table ρ κ) (s : Store) (rows : List ρ) :
    table.get (table.putAll s rows) = rows.foldl table.rule.put (table.get s) :=
  table.get_set ..

theorem write_eq_ok {table : Table ρ κ} {bound : Except Refusal (List ρ)} {s t : Store} {n : Nat}
    (h : table.write bound s = .ok (n, t)) :
    ∃ rows, bound = .ok rows ∧ t = table.putAll s rows := by
  unfold write at h
  split at h
  · cases h
  · rename_i rows
    split at h
    · cases h
    · rename_i stored hstored
      cases h
      refine ⟨rows, rfl, ?_⟩
      rw [TableRule.upsert_eq_foldl_put hstored]
      rfl

end Table

/-- Statements that are kept one by one and all accepted leave what one statement with all their rows
would leave. -/
theorem Table.keepEach_write {ρ κ α : Type} [DecidableEq κ] {table : Table ρ κ}
    {bind : α → Except Refusal ρ} {pieces : List (List α)} {s t : Store} {n : Nat}
    (h : keepEach (pieces.map fun piece => table.write (Binding.all bind piece)) s = (.ok n, t)) :
    ∃ rows, pieces.flatten.map bind = rows.map .ok ∧ t = table.putAll s rows := by
  induction pieces generalizing s n with
  | nil =>
    cases h
    exact ⟨[], rfl, (table.putAll_nil _).symm⟩
  | cons piece pieces ih =>
    rw [List.map_cons] at h
    cases hpiece : table.write (Binding.all bind piece) s with
    | error r =>
      rw [keepEach, hpiece] at h
      cases h
    | ok answer =>
      obtain ⟨m, next⟩ := answer
      obtain ⟨rows, hrows, rfl⟩ := write_eq_ok hpiece
      rw [keepEach_cons_of_ok hpiece] at h
      rcases hrest : keepEach (pieces.map fun piece => table.write (Binding.all bind piece))
        (table.putAll s rows) with ⟨r | k, left⟩
      · rw [hrest] at h
        cases h
      · rw [hrest] at h
        cases h
        obtain ⟨rows', hrows', rfl⟩ := ih hrest
        refine ⟨rows ++ rows', ?_, (table.putAll_append s rows rows').symm⟩
        rw [List.flatten_cons, List.map_append, List.map_append, hrows', Binding.all_eq_ok_iff.mp hrows]

section Quotes

variable {σ : Type} [Subject σ]

/-- The table of a series. -/
def Series.table (series : Series σ) : Table (QuoteRow σ) (List String × StoredTime) where
  rule := QuoteRow.rule series.names
  get := series.get
  set := series.set
  get_set := series.get_set
  set_set := series.set_set
  set_get := series.set_get

theorem Series.get_putAll (series : Series σ) (s : Store) (rows : List (QuoteRow σ)) :
    series.get (series.table.putAll s rows) =
      rows.foldl series.table.rule.put (series.get s) :=
  series.table.get_putAll s rows

theorem Series.table_keepsKey (series : Series σ) : series.table.rule.KeepsKey :=
  fun _ _ h => h

/-- The columns that a quote determines where it is stored. -/
def NewQuote.columns (q : NewQuote σ) : σ × Option StoredTime × Except ConversionError StoredBar :=
  (q.subject, StoredTime.ofInstant? q.date, q.bar.toStored)

/-- What tells two quotes apart where they are stored: the subject's key and the date in the
microseconds of the store. -/
def NewQuote.storedKey (q : NewQuote σ) : List String × Int :=
  (Subject.key q.subject, StoredTime.truncate q.date)

/-- The columns of a stored quote that come from the quote. -/
def QuoteRow.columns (r : QuoteRow σ) : σ × Option StoredTime × Except ConversionError StoredBar :=
  (r.subject, some r.date, .ok r.bar)

namespace Quotes

theorem upsertStatement_eq_write (series : Series σ) (batch : List (QuoteOf σ Instant StoredBar)) :
    upsertStatement series batch = series.table.write (Binding.all Binding.quote batch) := by
  funext s
  unfold upsertStatement Table.write
  cases Binding.all Binding.quote batch with
  | error r => rfl
  | ok rows =>
    dsimp only [Series.table]
    change ((QuoteRow.rule series.names).upsert (series.get s) rows >>= _) = _
    cases (QuoteRow.rule series.names).upsert (series.get s) rows with
    | error r => rfl
    | ok stored => rfl

omit [Subject σ] in
theorem storedBars_eq_ok {batch : List (NewQuote σ)} {bars : List (NewQuote σ × StoredBar)}
    (h : storedBars batch = .ok bars) :
    batch.map (fun q => (q.subject, q.date, q.bar.toStored)) =
      bars.map fun b => (b.1.subject, b.1.date, .ok b.2) := by
  induction batch generalizing bars with
  | nil =>
    cases h
    rfl
  | cons q rest ih =>
    unfold storedBars at h
    cases hbar : q.bar.toStored with
    | error e =>
      rw [hbar] at h
      cases h
    | ok bar =>
      cases hrest : storedBars rest with
      | error e =>
        rw [hbar, hrest] at h
        cases h
      | ok others =>
        rw [hbar, hrest] at h
        cases h
        rw [List.map_cons, List.map_cons, hbar, ih hrest]

omit [Subject σ] in
theorem map_stamped (now : Instant) (ids : Nat → String) (n : Nat)
    (bars : List (NewQuote σ × StoredBar)) :
    (stamped now ids n bars).map (fun q => (q.subject, q.date, q.bar)) =
      bars.map fun b => (b.1.subject, b.1.date, b.2) := by
  induction bars generalizing n with
  | nil => rfl
  | cons first rest ih =>
    rw [stamped, List.map_cons, List.map_cons, ih]

omit [Subject σ] in
/-- The quotes that are sent have the columns of those of the batch. -/
theorem columns_of_stamped {batch : List (NewQuote σ)} {bars : List (NewQuote σ × StoredBar)}
    (h : storedBars batch = .ok bars) (now : Instant) (ids : Nat → String) (n : Nat) :
    (stamped now ids n bars).map
        (fun q => (q.subject, StoredTime.ofInstant? q.date, Except.ok q.bar)) =
      batch.map NewQuote.columns := by
  have hstamped := map_eq_map_of_imp
    (fun (q : QuoteOf σ Instant StoredBar) (b : NewQuote σ × StoredBar) hqb =>
      congrArg (fun c => (c.1, StoredTime.ofInstant? c.2.1,
        (Except.ok c.2.2 : Except ConversionError StoredBar))) hqb)
    (map_stamped now ids n bars)
  have htaken := map_eq_map_of_imp
    (fun (q : NewQuote σ) (b : NewQuote σ × StoredBar) hqb =>
      congrArg (fun c => (c.1, StoredTime.ofInstant? c.2.1, c.2.2)) hqb)
    (storedBars_eq_ok h)
  exact hstamped.trans htaken.symm

omit [Subject σ] in
/-- A quote that is sent comes from one of the batch: it has the quote's subject and date and its
stored bar, the clock reading, and an id that is drawn for it. -/
theorem mem_stamped {now : Instant} {ids : Nat → String} {n : Nat}
    {bars : List (NewQuote σ × StoredBar)} {q : QuoteOf σ Instant StoredBar}
    (hq : q ∈ stamped now ids n bars) :
    ∃ b ∈ bars, ∃ m, n ≤ m ∧ q = ⟨ids m, b.1.subject, b.1.date, b.2, now, now⟩ := by
  induction bars generalizing n with
  | nil => cases hq
  | cons b rest ih =>
    rcases List.mem_cons.mp hq with rfl | hq
    · exact ⟨b, by simp, n, Nat.le_refl n, rfl⟩
    · obtain ⟨b', hb', m, hm, rfl⟩ := ih hq
      exact ⟨b', List.mem_cons_of_mem b hb', m, by omega, rfl⟩

omit [Subject σ] in
theorem mem_storedBars {batch : List (NewQuote σ)} {bars : List (NewQuote σ × StoredBar)}
    (h : storedBars batch = .ok bars) {b : NewQuote σ × StoredBar} (hb : b ∈ bars) :
    ∃ q ∈ batch, q.subject = b.1.subject ∧ q.date = b.1.date ∧ q.bar.toStored = .ok b.2 := by
  obtain ⟨q, hq, heq⟩ := exists_mem_of_map_eq (storedBars_eq_ok h).symm hb
  simp only [Prod.mk.injEq] at heq
  exact ⟨q, hq, heq⟩

theorem columns_of_quote_eq_ok {q : QuoteOf σ Instant StoredBar} {r : QuoteRow σ}
    (h : Binding.quote q = .ok r) :
    (q.subject, StoredTime.ofInstant? q.date, Except.ok q.bar) = r.columns := by
  obtain ⟨-, hdate, -, -, -, hsubject, hbar⟩ := Binding.quote_eq_ok_iff.mp h
  rw [QuoteRow.columns, hsubject, hbar, Binding.time_eq_ok_iff.mp hdate]

theorem upsert_sends_any (series : Series σ) (batch : List (NewQuote σ)) :
    (upsert series batch).Sends fun _ _ => True :=
  upsert_sends series batch fun _ => trivial

/-- The quotes that are sent: with the ids that come next, written now. -/
def sent (supply : Supply) (bars : List (NewQuote σ × StoredBar)) :
    List (QuoteOf σ Instant StoredBar) :=
  stamped (supply.clock supply.ticks) supply.ids supply.issued bars

/-- The statements of a bulk write, as writes into the table of the series. -/
def writes (series : Series σ) (supply : Supply) (bars : List (NewQuote σ × StoredBar)) :
    List (Statement Nat) :=
  (chunks rowsPerStatement (sent supply bars)).map fun piece =>
    series.table.write (Binding.all Binding.quote piece)

theorem statements_eq_writes (series : Series σ) (supply : Supply)
    (bars : List (NewQuote σ × StoredBar)) : statements series supply bars = writes series supply bars :=
  List.map_congr_left fun piece _ => upsertStatement_eq_write series piece

theorem keepEach_of_upsert {series : Series σ} {batch : List (NewQuote σ)} (hbatch : batch ≠ [])
    {s t : Session} {n : Nat} (h : upsert series batch s = (.ok n, t)) :
    ∃ bars, storedBars (lastPerKey NewQuote.key batch) = .ok bars ∧
      keepEach (writes series s.supply bars) s.store = (.ok n, t.store) := by
  have hsolo := ((upsert_sends_any series batch).solo_of_ok h).2
  rw [upsert_alone rfl rfl series hbatch] at hsolo
  cases hbars : storedBars (lastPerKey NewQuote.key batch) with
  | error e =>
    rw [hbars] at hsolo
    cases hsolo
  | ok bars =>
    rw [hbars, Prod.mk.injEq, statements_eq_writes] at hsolo
    refine ⟨bars, rfl, ?_⟩
    rw [← Session.solo_store t, ← hsolo.2]
    exact Session.keepEach_of_ofRefusal hsolo.1

/-- In every session, a bulk write of quotes that ends with a value has put the last quote of each key
into the series, and the store has accepted the texts of each. -/
theorem upsert_eq_ok_texts {s t : Session} {n : Nat} {series : Series σ} {batch : List (NewQuote σ)}
    (h : upsert series batch s = (.ok n, t)) :
    ∃ rows : List (QuoteRow σ),
      rows.map QuoteRow.columns = (lastPerKey NewQuote.key batch).map NewQuote.columns ∧
        (∀ r ∈ rows, Binding.texts (Subject.texts r.subject) = .ok ()) ∧
        t.store = series.table.putAll s.store rows := by
  by_cases hbatch : batch = []
  · subst hbatch
    cases h
    exact ⟨[], rfl, by simp, (series.table.putAll_nil _).symm⟩
  obtain ⟨bars, hbars, hkept⟩ := keepEach_of_upsert hbatch h
  obtain ⟨rows, hrows, hstore⟩ := Table.keepEach_write hkept
  rw [flatten_chunks] at hrows
  refine ⟨rows, ?_, fun r hr => ?_, hstore⟩
  · have hbound := map_eq_map_of_imp
      (fun (q : QuoteOf σ Instant StoredBar) r hr => columns_of_quote_eq_ok hr) hrows
    exact hbound.symm.trans (columns_of_stamped hbars _ _ _)
  · obtain ⟨q, -, hq⟩ := exists_mem_of_map_eq hrows.symm hr
    obtain ⟨htexts, -, -, -, -, hsubject, -⟩ := Binding.quote_eq_ok_iff.mp hq
    rw [Binding.texts_eq_ok_iff] at htexts ⊢
    rw [hsubject]
    exact fun x hx => htexts x (List.mem_cons_of_mem _ hx)

/-- In every session, a bulk write of quotes that ends with a value has put the last quote of each key
into the series. -/
theorem upsert_eq_ok {s t : Session} {n : Nat} {series : Series σ} {batch : List (NewQuote σ)}
    (h : upsert series batch s = (.ok n, t)) :
    ∃ rows : List (QuoteRow σ),
      rows.map QuoteRow.columns = (lastPerKey NewQuote.key batch).map NewQuote.columns ∧
        t.store = series.table.putAll s.store rows := by
  obtain ⟨rows, hrows, -, ht⟩ := upsert_eq_ok_texts h
  exact ⟨rows, hrows, ht⟩

end Quotes

end Quotes

/-- The columns that a snapshot determines where it is stored: its brand, what belongs to whoever created
it, and the current price. -/
def NewSnapshot.storedColumns (h : NewSnapshot) :
    String × (Binary64 × String × String × String) × Binary64 :=
  (h.brandId, (Price.toStored h.tradePrice, h.action, h.method, h.memo),
    Price.toStored h.currentPrice)

/-- The columns of a stored snapshot that come from the snapshot. -/
def SnapshotRow.storedColumns (r : SnapshotRow) :
    String × (Binary64 × String × String × String) × Binary64 :=
  (r.brandId, (r.tradePrice, r.action, r.method, r.memo), r.currentPrice)

namespace Snapshots

/-- The table of the snapshots. -/
def table : Table SnapshotRow String where
  rule := SnapshotRow.rule
  get := Store.snapshots
  set s rows := { s with snapshots := rows }
  get_set _ _ := rfl
  set_set _ _ _ := rfl
  set_get := Eq.refl

theorem table_keepsKey : table.rule.KeepsKey := fun _ _ h => h

theorem upsertStatement_eq_write (batch : List (SnapshotOf Instant Binary64)) :
    upsertStatement batch = table.write (Binding.all Binding.snapshot batch) := by
  funext s
  unfold upsertStatement Table.write
  cases Binding.all Binding.snapshot batch with
  | error r => rfl
  | ok rows =>
    dsimp only [table]
    change (SnapshotRow.rule.upsert s.snapshots rows >>= _) = _
    cases SnapshotRow.rule.upsert s.snapshots rows with
    | error r => rfl
    | ok stored => rfl

theorem map_stamped (now : Instant) (ids : Nat → String) (n : Nat) (batch : List NewSnapshot) :
    (stamped now ids n batch).map
        (fun h => (h.brandId, (h.tradePrice, h.action, h.method, h.memo), h.currentPrice)) =
      batch.map NewSnapshot.storedColumns := by
  induction batch generalizing n with
  | nil => rfl
  | cons first rest ih =>
    rw [stamped, List.map_cons, List.map_cons, ih]
    rfl

theorem columns_of_snapshot_eq_ok {h : SnapshotOf Instant Binary64} {r : SnapshotRow}
    (hr : Binding.snapshot h = .ok r) :
    (h.brandId, (h.tradePrice, h.action, h.method, h.memo), h.currentPrice) = r.storedColumns := by
  obtain ⟨-, -, -, -, hbrand, htrade, hcurrent, haction, hmethod, hmemo⟩ :=
    Binding.snapshot_eq_ok_iff.mp hr
  rw [SnapshotRow.storedColumns, hbrand, htrade, hcurrent, haction, hmethod, hmemo]

theorem upsert_sends_any (batch : List NewSnapshot) : (upsert batch).Sends fun _ _ => True :=
  upsert_sends batch fun _ => trivial

/-- The snapshots that are sent: with the ids that come next, written now. -/
def sent (supply : Supply) (batch : List NewSnapshot) : List (SnapshotOf Instant Binary64) :=
  stamped (supply.clock supply.ticks) supply.ids supply.issued
    (lastPerKey NewSnapshot.brandId batch)

/-- The statements of a bulk write, as writes into the table of the snapshots. -/
def writes (supply : Supply) (batch : List NewSnapshot) : List (Statement Nat) :=
  (chunks rowsPerStatement (sent supply batch)).map fun piece =>
    table.write (Binding.all Binding.snapshot piece)

theorem statements_eq_writes (supply : Supply) (batch : List NewSnapshot) :
    statements supply (lastPerKey NewSnapshot.brandId batch) = writes supply batch :=
  List.map_congr_left fun piece _ => upsertStatement_eq_write piece

theorem keepEach_of_upsert {batch : List NewSnapshot} (hbatch : batch ≠ []) {s t : Session} {n : Nat}
    (h : upsert batch s = (.ok n, t)) :
    keepEach (writes s.supply batch) s.store = (.ok n, t.store) := by
  have hsolo := ((upsert_sends_any batch).solo_of_ok h).2
  rw [upsert_alone rfl rfl hbatch, Prod.mk.injEq, statements_eq_writes] at hsolo
  rw [← Session.solo_store t, ← hsolo.2]
  exact Session.keepEach_of_ofRefusal hsolo.1

/-- In every session, a bulk write of snapshots that ends with a value has put the last snapshot of each
brand into the table. -/
theorem upsert_eq_ok {s t : Session} {n : Nat} {batch : List NewSnapshot}
    (h : upsert batch s = (.ok n, t)) :
    ∃ rows : List SnapshotRow,
      rows.map SnapshotRow.storedColumns =
          (lastPerKey NewSnapshot.brandId batch).map NewSnapshot.storedColumns ∧
        t.store = table.putAll s.store rows := by
  by_cases hbatch : batch = []
  · subst hbatch
    cases h
    exact ⟨[], rfl, (table.putAll_nil _).symm⟩
  obtain ⟨rows, hrows, hstore⟩ := Table.keepEach_write (keepEach_of_upsert hbatch h)
  rw [flatten_chunks] at hrows
  have hbound := map_eq_map_of_imp
    (fun (h : SnapshotOf Instant Binary64) r hr => columns_of_snapshot_eq_ok hr) hrows
  exact ⟨rows, hbound.symm.trans (map_stamped _ _ _ _), hstore⟩

end Snapshots

/-- The columns that a report on a brand determines where it is stored: the brand's id, what it keeps,
and what every report replaces. -/
def NewBrand.storedColumns (b : NewBrand) :
    String × (String × Option StoredTime) × String × Label × Label × Label × Option StoredTime :=
  (b.id, (b.symbol, none), b.name, b.market, b.sector33, b.sector17,
    StoredTime.ofInstant? b.updatedAt)

/-- The columns of a stored brand that a report can determine. -/
def BrandRow.storedColumns (r : BrandRow) :
    String × (String × Option StoredTime) × String × Label × Label × Label × Option StoredTime :=
  (r.id, (r.symbol, r.deletedAt), r.name, r.market, r.sector33, r.sector17, some r.updatedAt)

namespace Brands

/-- The table of the brands. -/
def table : Table BrandRow String where
  rule := BrandRow.rule
  get := Store.brands
  set s rows := { s with brands := rows }
  get_set _ _ := rfl
  set_set _ _ _ := rfl
  set_get := Eq.refl

theorem table_keepsKey : table.rule.KeepsKey := fun _ _ h => h

theorem upsertStatement_eq_write {now : Instant} {createdAt : StoredTime}
    (hnow : Binding.time now = .ok createdAt) (batch : List NewBrand) :
    upsertStatement now batch = table.write (Binding.all (Binding.newBrand createdAt) batch) := by
  funext s
  unfold upsertStatement Table.write
  rw [hnow]
  change (Binding.all (Binding.newBrand createdAt) batch >>= _) = _
  cases Binding.all (Binding.newBrand createdAt) batch with
  | error r => rfl
  | ok rows =>
    dsimp only [table]
    change (BrandRow.rule.upsert s.brands rows >>= _) = _
    cases BrandRow.rule.upsert s.brands rows with
    | error r => rfl
    | ok stored => rfl

theorem columns_of_newBrand_eq_ok {createdAt : StoredTime} {b : NewBrand} {r : BrandRow}
    (hr : Binding.newBrand createdAt b = .ok r) : b.storedColumns = r.storedColumns := by
  obtain ⟨-, hupdated, hid, hsymbol, hname, hmarket, hsector33, hsector17, -, hdeleted⟩ :=
    Binding.newBrand_eq_ok_iff.mp hr
  rw [NewBrand.storedColumns, BrandRow.storedColumns, Binding.time_eq_ok_iff.mp hupdated, hid,
    hsymbol, hname, hmarket, hsector33, hsector17, hdeleted]

theorem upsert_sends_any (batch : List NewBrand) : (upsert batch).Sends fun _ _ => True :=
  upsert_sends batch (fun _ _ _ => trivial) fun _ _ => trivial

/-- The statements of a bulk write, as writes into the table of the brands; the brands that are added
were created at one time. -/
def writes (createdAt : StoredTime) (batch : List NewBrand) : List (Statement Nat) :=
  (chunks rowsPerStatement batch).map fun piece =>
    table.write (Binding.all (Binding.newBrand createdAt) piece)

theorem statements_eq_writes {supply : Supply} {createdAt : StoredTime}
    (hnow : Binding.time (supply.clock supply.ticks) = .ok createdAt) (batch : List NewBrand) :
    statements supply batch = writes createdAt batch :=
  List.map_congr_left fun piece _ => upsertStatement_eq_write hnow piece

/-- Without a clock reading that can be stored only a write of no rows gets through. -/
theorem keepEach_of_upsert {batch : List NewBrand} (hbatch : batch ≠ []) {s t : Session} {n : Nat}
    (h : upsert batch s = (.ok n, t)) :
    Binding.texts (batch.map NewBrand.id) = .ok () ∧
      ((written batch s.store.brands = [] ∧ n = 0 ∧ t.store = s.store) ∨
        ∃ createdAt, keepEach (writes createdAt (written batch s.store.brands)) s.store =
          (.ok n, t.store)) := by
  have hsolo := ((upsert_sends_any batch).solo_of_ok h).2
  rw [upsert_alone rfl rfl hbatch] at hsolo
  cases htexts : Binding.texts (batch.map NewBrand.id) with
  | error r =>
    rw [htexts] at hsolo
    cases hsolo
  | ok _ =>
    rw [htexts, Prod.mk.injEq] at hsolo
    obtain ⟨hresult, hstore⟩ := hsolo
    have hkept := Session.keepEach_of_ofRefusal hresult
    have hleft : (keepEach (statements s.solo.supply (written batch s.solo.store.brands))
        s.solo.store).2 = t.store := congrArg Session.store hstore
    rw [hleft, Session.solo_supply, Session.solo_store] at hkept
    refine ⟨rfl, ?_⟩
    cases hnow : Binding.time (s.supply.clock s.supply.ticks) with
    | error r =>
      cases hwritten : written batch s.store.brands with
      | nil =>
        rw [hwritten, statements, chunks, List.map_nil, keepEach, Prod.mk.injEq] at hkept
        exact .inl ⟨rfl, (Except.ok.inj hkept.1).symm, hkept.2.symm⟩
      | cons b rest =>
        rw [hwritten, statements, chunks_cons, List.map_cons, keepEach, upsertStatement, hnow]
          at hkept
        cases hkept
    | ok createdAt =>
      rw [statements_eq_writes hnow] at hkept
      exact .inr ⟨createdAt, hkept⟩

/-- In every session, a bulk write of brands that ends with a value has put the last report on each brand
that was not soft-deleted into the table. -/
theorem upsert_eq_ok {s t : Session} {n : Nat} {batch : List NewBrand}
    (h : upsert batch s = (.ok n, t)) :
    ∃ rows : List BrandRow,
      rows.map BrandRow.storedColumns =
          (written batch s.store.brands).map NewBrand.storedColumns ∧
        t.store = table.putAll s.store rows := by
  by_cases hbatch : batch = []
  · subst hbatch
    cases h
    exact ⟨[], rfl, (table.putAll_nil _).symm⟩
  obtain ⟨-, ⟨hnone, -, hsame⟩ | ⟨createdAt, hkept⟩⟩ := keepEach_of_upsert hbatch h
  · exact ⟨[], by rw [hnone]; rfl, hsame.trans (table.putAll_nil _).symm⟩
  · obtain ⟨rows, hrows, hstore⟩ := Table.keepEach_write hkept
    rw [flatten_chunks] at hrows
    exact ⟨rows, (map_eq_map_of_imp (fun b r hr => columns_of_newBrand_eq_ok hr) hrows).symm, hstore⟩

end Brands

end PriceArchive
