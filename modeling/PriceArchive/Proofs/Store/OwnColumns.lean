import PriceArchive.Proofs.Table.Actives
import PriceArchive.Proofs.Table.Overlay

namespace PriceArchive

namespace TableRule

variable {ρ κ α : Type} [DecidableEq κ] {rule : TableRule ρ κ} {f : ρ → α}

/-- A column that overwriting leaves alone begins with the values that were there. -/
theorem map_prefix_upsert (hover : ∀ stored proposed, f (rule.overwrite stored proposed) = f stored)
    {rows rows' batch : List ρ} (h : rule.upsert rows batch = .ok rows') :
    rows.map f <+: rows'.map f := by
  refine upsertFrom_preserves (I := fun rows' => rows.map f <+: rows'.map f) ?_ ?_ List.prefix_rfl h
  · intro rows' row hprefix
    rwa [map_update fun stored proposed _ => hover stored proposed]
  · intro rows' row hprefix _ _
    rw [List.map_append]
    exact hprefix.trans (List.prefix_append _ _)

/-- It has no value twice when a row with a taken value is turned down. -/
theorem nodup_map_upsert (hover : ∀ stored proposed, f (rule.overwrite stored proposed) = f stored)
    (hfree : ∀ rows row, rule.refusal rows row = none → f row ∉ rows.map f)
    {rows rows' batch : List ρ} (hrows : (rows.map f).Nodup) (h : rule.upsert rows batch = .ok rows') :
    (rows'.map f).Nodup := by
  refine upsertFrom_preserves (I := fun rows => (rows.map f).Nodup) ?_ ?_ hrows h
  · intro rows row hrows
    rwa [map_update fun stored proposed _ => hover stored proposed]
  · intro rows row hrows _ hrefusal
    exact nodup_map_concat hrows (hfree rows row hrefusal)

end TableRule

section Rows

/-- The columns of a brand that stay as long as it is stored: its ticker symbol and its creation. -/
def BrandRow.ownColumns (b : BrandRow) : String × StoredTime := (b.symbol, b.createdAt)

/-- The columns of a quote that stay as long as it is stored: its subject, its date and its creation. -/
def QuoteRow.ownColumns {σ : Type} (r : QuoteRow σ) : σ × StoredTime × StoredTime :=
  (r.subject, r.date, r.createdAt)

/-- The columns of a snapshot that stay as long as it is stored: its brand, what belongs to whoever created
it, and its creation. -/
def SnapshotRow.ownColumns (r : SnapshotRow) :
    String × (Binary64 × String × String × String) × StoredTime :=
  (r.brandId, (r.tradePrice, r.action, r.method, r.memo), r.createdAt)

section Relations

variable {ρ α : Type} (id : ρ → String) (f : ρ → α)

/-- The rows of one table are the first of another, in their ids and some columns. -/
def BeginsWith (rows rows' : List ρ) : Prop :=
  (rows.map fun r => (id r, f r)) <+: rows'.map fun r => (id r, f r)

/-- Rows of two tables with one id agree in some columns. -/
def AgreeById (rows rows' : List ρ) : Prop := ∀ r ∈ rows, ∀ r' ∈ rows', id r' = id r → f r' = f r

variable {id f} {rows rows' rows'' : List ρ}

theorem BeginsWith.refl : BeginsWith id f rows rows := List.prefix_rfl

theorem BeginsWith.trans (h : BeginsWith id f rows rows') (h' : BeginsWith id f rows' rows'') :
    BeginsWith id f rows rows'' :=
  List.IsPrefix.trans h h'

/-- Every row is there under its id. -/
theorem BeginsWith.exists_id (h : BeginsWith id f rows rows') {r : ρ} (hr : r ∈ rows) :
    ∃ r' ∈ rows', id r' = id r := by
  obtain ⟨r', hr', hcolumns⟩ := List.mem_map.mp (h.mem (List.mem_map_of_mem hr))
  exact ⟨r', hr', congrArg Prod.fst hcolumns⟩

theorem BeginsWith.agreeById (h : BeginsWith id f rows rows') (hids : (rows'.map id).Nodup) :
    AgreeById id f rows rows' := by
  intro r hr r' hr' heq
  obtain ⟨r'', hr'', hcolumns⟩ := List.mem_map.mp (h.mem (List.mem_map_of_mem hr))
  rw [Prod.mk.injEq] at hcolumns
  rw [List.inj_on_of_nodup_map hids hr' hr'' (heq.trans hcolumns.1.symm), hcolumns.2]

theorem AgreeById.of_subset (h : rows' ⊆ rows) (hids : (rows.map id).Nodup) :
    AgreeById id f rows rows' :=
  fun _ hr _ hr' heq => congrArg f (List.inj_on_of_nodup_map hids (h hr') hr heq)

theorem BeginsWith.upsert {κ : Type} [DecidableEq κ] {rule : TableRule ρ κ}
    (hover : ∀ stored proposed, (id (rule.overwrite stored proposed), f (rule.overwrite stored proposed)) =
      (id stored, f stored)) {batch : List ρ} (h : rule.upsert rows batch = .ok rows') :
    BeginsWith id f rows rows' :=
  TableRule.map_prefix_upsert hover h

theorem BeginsWith.map {g : ρ → ρ} (hg : ∀ r, (id (g r), f (g r)) = (id r, f r)) :
    BeginsWith id f rows (rows.map g) := by
  have hcolumns : (rows.map g).map (fun r => (id r, f r)) = rows.map fun r => (id r, f r) := by
    rw [List.map_map]
    exact List.map_congr_left fun r _ => hg r
  exact ⟨[], by rw [hcolumns, List.append_nil]⟩

section Overlays

variable [DecidableEq ρ] {old mine kept : List ρ}

/-- What a transaction sees agrees with its own rows, if what is kept agrees with what it found. -/
theorem AgreeById.overlaidRows (hmine : (mine.map id).Nodup) (h : AgreeById id f old kept) :
    AgreeById id f mine (overlaidRows id old mine kept) := by
  intro r hr r' hr' heq
  rcases mem_overlaidRows.mp hr' with ⟨hmem, -⟩ | ⟨hmem, hwrote⟩
  · rw [List.inj_on_of_nodup_map hmine hmem hr heq]
  · exact h r (mem_of_wroteRow_eq_false hmine hr (heq ▸ hwrote)) r' hmem heq

/-- A transaction misses none of its own rows, if what is kept misses none of what it found. -/
theorem exists_id_overlaidRows (hmine : (mine.map id).Nodup) (h : ∀ r ∈ old, ∃ r' ∈ kept, id r' = id r)
    {r : ρ} (hr : r ∈ mine) : ∃ r' ∈ overlaidRows id old mine kept, id r' = id r := by
  by_cases hwrote : wroteRow id old mine (id r) = true
  · exact ⟨r, mem_overlaidRows.mpr (.inl ⟨hr, hwrote⟩), rfl⟩
  · rw [Bool.not_eq_true] at hwrote
    obtain ⟨r', hr', heq⟩ := h r (mem_of_wroteRow_eq_false hmine hr hwrote)
    exact ⟨r', mem_overlaidRows.mpr (.inr ⟨hr', heq.symm ▸ hwrote⟩), heq⟩

end Overlays

end Relations

end Rows

namespace Store

/-- In every table every id is there once. -/
structure IdsOnce (s : Store) : Prop where
  brands : (s.brands.map Brand.id).Nodup
  daily : (s.daily.map QuoteOf.id).Nodup
  forAnalysis : (s.forAnalysis.map QuoteOf.id).Nodup
  snapshots : (s.snapshots.map SnapshotOf.id).Nodup
  nikkei : (s.nikkei.map QuoteOf.id).Nodup
  topix : (s.topix.map QuoteOf.id).Nodup

/-- A relation of tables, told apart by their ids and own columns. -/
abbrev TableRelation := {ρ α : Type} → (ρ → String) → (ρ → α) → List ρ → List ρ → Prop

/-- Each table of one store is related to that of another; the volume averages, which the archive only
reads, are the same. -/
structure Tablewise (R : TableRelation) (s t : Store) : Prop where
  brands : R Brand.id BrandRow.ownColumns s.brands t.brands
  daily : R QuoteOf.id QuoteRow.ownColumns s.daily t.daily
  forAnalysis : R QuoteOf.id QuoteRow.ownColumns s.forAnalysis t.forAnalysis
  snapshots : R SnapshotOf.id SnapshotRow.ownColumns s.snapshots t.snapshots
  nikkei : R QuoteOf.id QuoteRow.ownColumns s.nikkei t.nikkei
  topix : R QuoteOf.id QuoteRow.ownColumns s.topix t.topix
  volumeAverages : t.volumeAverages = s.volumeAverages

/-- The rows that were there are there, with their own columns, and others only after them. -/
abbrev Grows : Store → Store → Prop := Tablewise BeginsWith

/-- Rows are gone, and those that are left are as they were. -/
abbrev Shrinks : Store → Store → Prop := Tablewise fun _ _ rows rows' => rows' ⊆ rows

/-- Rows that are in both stores under one id agree in their own columns. -/
abbrev Agrees : Store → Store → Prop := Tablewise AgreeById

/-- No row is gone: every one is still there under its id. -/
abbrev LosesNone : Store → Store → Prop :=
  Tablewise fun id _ rows rows' => ∀ r ∈ rows, ∃ r' ∈ rows', id r' = id r

namespace Tablewise

variable {R S : TableRelation} {s t u : Store}

theorem refl (hR : ∀ {ρ α : Type} (id : ρ → String) (f : ρ → α) rows, R id f rows rows) (s : Store) :
    Tablewise R s s :=
  ⟨hR .., hR .., hR .., hR .., hR .., hR .., rfl⟩

theorem trans (hR : ∀ {ρ α : Type} {id : ρ → String} {f : ρ → α} {rows rows' rows''},
      R id f rows rows' → R id f rows' rows'' → R id f rows rows'')
    (hst : Tablewise R s t) (htu : Tablewise R t u) : Tablewise R s u where
  brands := hR hst.brands htu.brands
  daily := hR hst.daily htu.daily
  forAnalysis := hR hst.forAnalysis htu.forAnalysis
  snapshots := hR hst.snapshots htu.snapshots
  nikkei := hR hst.nikkei htu.nikkei
  topix := hR hst.topix htu.topix
  volumeAverages := htu.volumeAverages.trans hst.volumeAverages

theorem imp (hs : s.IdsOnce) (ht : t.IdsOnce)
    (himp : ∀ {ρ α : Type} {id : ρ → String} {f : ρ → α} {rows rows'}, (rows.map id).Nodup →
      (rows'.map id).Nodup → R id f rows rows' → S id f rows rows')
    (h : Tablewise R s t) : Tablewise S s t where
  brands := himp hs.brands ht.brands h.brands
  daily := himp hs.daily ht.daily h.daily
  forAnalysis := himp hs.forAnalysis ht.forAnalysis h.forAnalysis
  snapshots := himp hs.snapshots ht.snapshots h.snapshots
  nikkei := himp hs.nikkei ht.nikkei h.nikkei
  topix := himp hs.topix ht.topix h.topix
  volumeAverages := h.volumeAverages

/-- What relates the kept rows to those that a transaction found relates what it sees to its own rows. -/
theorem overlaid {old mine kept : Store} (hmine : mine.IdsOnce)
    (himp : ∀ {ρ α : Type} [DecidableEq ρ] {id : ρ → String} {f : ρ → α} {old mine kept : List ρ},
      (mine.map id).Nodup → R id f old kept → S id f mine (overlaidRows id old mine kept))
    (h : Tablewise R old kept) : Tablewise S mine (.overlaid old mine kept) where
  brands := himp hmine.brands h.brands
  daily := himp hmine.daily h.daily
  forAnalysis := himp hmine.forAnalysis h.forAnalysis
  snapshots := himp hmine.snapshots h.snapshots
  nikkei := himp hmine.nikkei h.nikkei
  topix := himp hmine.topix h.topix
  volumeAverages := rfl

end Tablewise

variable {s t : Store}

theorem Grows.refl (s : Store) : s.Grows s := Tablewise.refl (fun _ _ _ => BeginsWith.refl) s

theorem Grows.trans {s t u : Store} (hst : s.Grows t) (htu : t.Grows u) : s.Grows u :=
  Tablewise.trans BeginsWith.trans hst htu

theorem Shrinks.refl (s : Store) : s.Shrinks s :=
  Tablewise.refl (R := fun _ _ rows rows' => rows' ⊆ rows) (fun _ _ rows => List.Subset.refl rows) s

theorem Shrinks.trans {s t u : Store} (hst : s.Shrinks t) (htu : t.Shrinks u) : s.Shrinks u :=
  Tablewise.trans (fun h h' => List.Subset.trans h' h) hst htu

/-- A store that has only grown has lost no row, and the rows have their own columns. -/
theorem Grows.agrees (hs : s.IdsOnce) (ht : t.IdsOnce) (h : s.Grows t) : s.Agrees t ∧ s.LosesNone t :=
  ⟨h.imp hs ht fun _ hids hbegins => hbegins.agreeById hids,
    h.imp hs ht fun _ _ hbegins _ hr => hbegins.exists_id hr⟩

/-- A store that has only shrunk has changed no row. -/
theorem Shrinks.agrees (hs : s.IdsOnce) (ht : t.IdsOnce) (h : s.Shrinks t) : s.Agrees t :=
  h.imp hs ht fun hids _ hsub => .of_subset hsub hids

theorem IdsOnce.empty : Store.empty.IdsOnce :=
  ⟨List.nodup_nil, List.nodup_nil, List.nodup_nil, List.nodup_nil, List.nodup_nil, List.nodup_nil⟩

variable {old mine kept : Store}

theorem IdsOnce.overlaid (hmine : mine.IdsOnce) (hkept : kept.IdsOnce) :
    (Store.overlaid old mine kept).IdsOnce where
  brands := nodup_ids_overlaidRows hmine.brands hkept.brands
  daily := nodup_ids_overlaidRows hmine.daily hkept.daily
  forAnalysis := nodup_ids_overlaidRows hmine.forAnalysis hkept.forAnalysis
  snapshots := nodup_ids_overlaidRows hmine.snapshots hkept.snapshots
  nikkei := nodup_ids_overlaidRows hmine.nikkei hkept.nikkei
  topix := nodup_ids_overlaidRows hmine.topix hkept.topix

theorem Agrees.overlaid (hmine : mine.IdsOnce) (h : old.Agrees kept) :
    mine.Agrees (.overlaid old mine kept) :=
  Tablewise.overlaid hmine (fun hids hagree => hagree.overlaidRows hids) h

theorem LosesNone.overlaid (hmine : mine.IdsOnce) (h : old.LosesNone kept) :
    mine.LosesNone (.overlaid old mine kept) :=
  Tablewise.overlaid hmine (fun hids hloses _ hr => exists_id_overlaidRows hids hloses hr) h

end Store

end PriceArchive
