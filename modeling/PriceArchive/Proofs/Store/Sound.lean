import PriceArchive.Proofs.Session.Keeps
import PriceArchive.Proofs.Store.Identity
import PriceArchive.Proofs.Store.Reached
import PriceArchive.Proofs.Table.Actives

namespace PriceArchive

open PriceArchive.Action Statement

/-- The volume is not negative, and the prices have a property. -/
def StoredBar.Sound (Q : Binary64 → Prop) (bar : StoredBar) : Prop :=
  0 ≤ bar.volume.toInt ∧ ∀ x ∈ bar.prices, Q x

theorem StoredBar.From.sound {P : Decimal → Prop} {Q : Binary64 → Prop}
    (hPQ : ∀ d, P d → Q (Price.toStored d)) {stored : StoredBar} (h : stored.From P) :
    stored.Sound Q := by
  obtain ⟨bar, hstored, hprices⟩ := h
  obtain ⟨hvolume, hstoredPrices⟩ := Bar.toStored_eq_ok_iff.mp hstored
  refine ⟨?_, fun x hx => ?_⟩
  · rw [(Bar.storedVolume_eq_ok hvolume).1]
    omega
  · rw [hstoredPrices] at hx
    obtain ⟨p, hp, rfl⟩ := List.mem_map.mp hx
    exact hPQ p (hprices p hp)

/-- A series has one row per subject and date, and every bar is sound. -/
def Series.Sound {σ : Type} [Subject σ] (Q : Binary64 → Prop) (series : Series σ) (s : Store) : Prop :=
  (QuoteRow.rule series.names).Keyed (fun r => StoredBar.Sound Q r.bar) (series.get s)

/-- The tables of a store are as they should be, with prices that have a property. -/
structure Store.Sound (Q : Binary64 → Prop) (s : Store) : Prop where
  brands : Brands.WellFormed s.brands
  daily : Series.daily.Sound Q s
  forAnalysis : Series.forAnalysis.Sound Q s
  nikkei : (Series.ofIndex .nikkei).Sound Q s
  topix : (Series.ofIndex .topix).Sound Q s
  snapshots : SnapshotRow.rule.Keyed (fun r => Q r.tradePrice ∧ Q r.currentPrice) s.snapshots

variable {P : Decimal → Prop} {Q : Binary64 → Prop} {s t : Store} {n : Nat}

section Statements

variable {σ : Type} [Subject σ] {series : Series σ}

theorem Series.Sound.upsert (h : series.Sound Q s) {batch : List (QuoteOf σ Instant StoredBar)}
    (hbatch : ∀ q ∈ batch, StoredBar.Sound Q q.bar)
    (hstep : Quotes.upsertStatement series batch s = .ok (n, t)) :
    ∃ rows, t = series.set s rows ∧ series.Sound Q t := by
  obtain ⟨rows, hrows, hstep⟩ := bind_eq_ok_iff.mp hstep
  obtain ⟨stored, hupsert, hstep⟩ := bind_eq_ok_iff.mp hstep
  cases hstep
  refine ⟨stored, rfl, ?_⟩
  rw [Series.Sound, series.get_set]
  refine TableRule.Keyed.upsert h series.table_keepsKey (fun _ _ _ hrow _ => hrow) ?_ hupsert
  intro row hrow
  obtain ⟨q, hq, hbound⟩ := exists_mem_of_map_eq (Binding.all_eq_ok_iff.mp hrows).symm hrow
  obtain ⟨-, -, -, -, -, -, hbar⟩ := Binding.quote_eq_ok_iff.mp hbound
  exact hbar ▸ hbatch q hq

theorem Series.Sound.delete (h : series.Sound Q s) {texts : List String} {doomed : QuoteRow σ → Bool}
    (hstep : Quotes.deleteStatement series texts doomed s = .ok (n, t)) :
    ∃ rows, t = series.set s rows ∧ series.Sound Q t := by
  obtain ⟨_, -, hstep⟩ := bind_eq_ok_iff.mp hstep
  cases hstep
  refine ⟨_, rfl, ?_⟩
  rw [Series.Sound, series.get_set]
  exact TableRule.Keyed.filter h _

end Statements

namespace Store.Sound

theorem empty : Store.empty.Sound Q := ⟨.nil, .nil, .nil, .nil, .nil, .nil⟩

theorem index (h : s.Sound Q) (index : MarketIndex) : (Series.ofIndex index).Sound Q s := by
  cases index with
  | nikkei => exact h.nikkei
  | topix => exact h.topix

theorem upsertBrands (h : s.Sound Q) {now : Instant} {batch : List NewBrand}
    (hstep : Brands.upsertStatement now batch s = .ok (n, t)) : t.Sound Q := by
  obtain ⟨createdAt, -, hstep⟩ := bind_eq_ok_iff.mp hstep
  obtain ⟨rows, -, hstep⟩ := bind_eq_ok_iff.mp hstep
  obtain ⟨brands, hupsert, hstep⟩ := bind_eq_ok_iff.mp hstep
  cases hstep
  exact { h with brands := h.brands.upsert hupsert }

theorem deleteBrands (h : s.Sound Q) {ids : List String} {x : Unit}
    (hstep : Brands.deleteStatement ids s = .ok (x, t)) : t.Sound Q := by
  obtain ⟨_, -, hstep⟩ := bind_eq_ok_iff.mp hstep
  cases hstep
  exact { h with brands := h.brands.filter _ }

theorem softDeleteBrands (h : s.Sound Q) {now refreshedAt : Instant}
    (hstep : Brands.softDeleteStatement now refreshedAt s = .ok (n, t)) : t.Sound Q := by
  obtain ⟨deletedAt, -, hstep⟩ := bind_eq_ok_iff.mp hstep
  obtain ⟨bound, -, hstep⟩ := bind_eq_ok_iff.mp hstep
  cases hstep
  exact { h with
    brands := h.brands.map Brands.id_softDeleteIfStale Brands.symbol_softDeleteIfStale
      Brands.isActive_of_softDeleteIfStale }

theorem upsertSnapshots (h : s.Sound Q) {batch : List (SnapshotOf Instant Binary64)}
    (hbatch : ∀ x ∈ batch, Q x.tradePrice ∧ Q x.currentPrice)
    (hstep : Snapshots.upsertStatement batch s = .ok (n, t)) : t.Sound Q := by
  obtain ⟨rows, hrows, hstep⟩ := bind_eq_ok_iff.mp hstep
  obtain ⟨stored, hupsert, hstep⟩ := bind_eq_ok_iff.mp hstep
  cases hstep
  have hover : ∀ r row : SnapshotRow, Q r.tradePrice ∧ Q r.currentPrice →
      Q row.tradePrice ∧ Q row.currentPrice → r.brandId = row.brandId →
        Q r.tradePrice ∧ Q row.currentPrice := fun _ _ hr hrow _ => ⟨hr.1, hrow.2⟩
  refine { h with snapshots := h.snapshots.upsert Snapshots.table_keepsKey hover ?_ hupsert }
  intro row hrow
  obtain ⟨x, hx, hbound⟩ := exists_mem_of_map_eq (Binding.all_eq_ok_iff.mp hrows).symm hrow
  obtain ⟨-, -, -, -, -, htrade, hcurrent, -⟩ := Binding.snapshot_eq_ok_iff.mp hbound
  exact htrade ▸ hcurrent ▸ hbatch x hx

theorem deleteSnapshots (h : s.Sound Q) {ids : List String}
    (hstep : Snapshots.deleteStatement ids s = .ok (n, t)) : t.Sound Q := by
  obtain ⟨_, -, hstep⟩ := bind_eq_ok_iff.mp hstep
  cases hstep
  exact { h with snapshots := h.snapshots.filter _ }

/-- A row of a series that is written or deleted concerns no other table. -/
theorem setDaily (h : s.Sound Q) {rows : List (QuoteRow Instrument)}
    (hset : t = Series.daily.set s rows ∧ Series.daily.Sound Q t) : t.Sound Q := by
  obtain ⟨rfl, hsound⟩ := hset
  exact { h with daily := hsound }

theorem setForAnalysis (h : s.Sound Q) {rows : List (QuoteRow Ticker)}
    (hset : t = Series.forAnalysis.set s rows ∧ Series.forAnalysis.Sound Q t) : t.Sound Q := by
  obtain ⟨rfl, hsound⟩ := hset
  exact { h with forAnalysis := hsound }

theorem setIndex (h : s.Sound Q) {index : MarketIndex} {rows : List (QuoteRow Unit)}
    (hset : t = (Series.ofIndex index).set s rows ∧ (Series.ofIndex index).Sound Q t) :
    t.Sound Q := by
  obtain ⟨rfl, hsound⟩ := hset
  cases index with
  | nikkei => exact { h with nikkei := hsound }
  | topix => exact { h with topix := hsound }

/-- A statement that an operation sends keeps the store sound. -/
theorem sent (h : s.Sound Q) (hPQ : ∀ d, P d → Q (Price.toStored d)) {β : Type} {st : Statement β}
    (hst : Sent P β st) {x : β} (hstep : st s = .ok (x, t)) : t.Sound Q := by
  cases hst with
  | read f => exact (Statement.read_eq_ok hstep).2 ▸ h
  | upsertBrands now batch => exact h.upsertBrands hstep
  | deleteBrands ids => exact h.deleteBrands hstep
  | softDeleteBrands now refreshedAt => exact h.softDeleteBrands hstep
  | upsertDaily batch hbars =>
    obtain ⟨rows, hset⟩ := h.daily.upsert (fun q hq => (hbars q hq).sound hPQ) hstep
    exact h.setDaily hset
  | deleteDaily texts doomed =>
    obtain ⟨rows, hset⟩ := h.daily.delete hstep
    exact h.setDaily hset
  | upsertForAnalysis batch hbars =>
    obtain ⟨rows, hset⟩ := h.forAnalysis.upsert (fun q hq => (hbars q hq).sound hPQ) hstep
    exact h.setForAnalysis hset
  | deleteForAnalysis texts doomed =>
    obtain ⟨rows, hset⟩ := h.forAnalysis.delete hstep
    exact h.setForAnalysis hset
  | upsertIndex index batch hbars =>
    obtain ⟨rows, hset⟩ := (h.index index).upsert (fun q hq => (hbars q hq).sound hPQ) hstep
    exact h.setIndex hset
  | upsertSnapshots batch hprices =>
    refine h.upsertSnapshots (fun x hx => ?_) hstep
    obtain ⟨⟨trade, htrade, htradeEq⟩, ⟨current, hcurrent, hcurrentEq⟩⟩ := hprices x hx
    exact ⟨htradeEq ▸ hPQ trade htrade, hcurrentEq ▸ hPQ current hcurrent⟩
  | deleteSnapshots brandIds => exact h.deleteSnapshots hstep

theorem overlaid {old mine kept : Store} (hcollide : Store.collide old mine kept = false)
    (holdIds : old.IdsOnce) (hmineIds : mine.IdsOnce) (hkeptIds : kept.IdsOnce) (hold : old.Sound Q)
    (hmine : mine.Sound Q) (hkept : kept.Sound Q) : (Store.overlaid old mine kept).Sound Q := by
  have hapart := Store.apart_of_collide hcollide
  exact {
    brands := hold.brands.overlaidRows hmine.brands hkept.brands hapart.brands
    daily := TableRule.Keyed.overlaidRows hmine.daily hkept.daily holdIds.daily hmineIds.daily
      hkeptIds.daily hapart.daily
    forAnalysis := TableRule.Keyed.overlaidRows hmine.forAnalysis hkept.forAnalysis holdIds.forAnalysis
      hmineIds.forAnalysis hkeptIds.forAnalysis hapart.forAnalysis
    nikkei := TableRule.Keyed.overlaidRows hmine.nikkei hkept.nikkei holdIds.nikkei hmineIds.nikkei
      hkeptIds.nikkei hapart.nikkei
    topix := TableRule.Keyed.overlaidRows hmine.topix hkept.topix holdIds.topix hmineIds.topix
      hkeptIds.topix hapart.topix
    snapshots := hmine.snapshots.overlaidRows hkept.snapshots holdIds.snapshots hmineIds.snapshots
      hkeptIds.snapshots hapart.snapshots }

end Store.Sound

namespace Statement

/-- What writes and deletions respect relates the stores before and after a statement of the archive. -/
theorem Sent.relates {R : Store → Store → Prop} (hwrites : Store.RespectsWrites R)
    (hdeletions : Store.RespectsDeletions R) {β : Type} {st : Statement β} (hst : Sent P β st) :
    Relates R β st := by
  cases hst with
  | read f => exact (Reads.read f).relates hwrites.refl
  | upsertBrands now batch => exact Brands.upsertStatement_relates hwrites.brands now batch
  | deleteBrands ids => exact Brands.deleteStatement_relates hdeletions.brands ids
  | softDeleteBrands now refreshedAt =>
    exact Brands.softDeleteStatement_relates hwrites.softDeletion now refreshedAt
  | upsertDaily batch => exact Quotes.upsertStatement_relates hwrites.daily batch
  | deleteDaily texts doomed => exact Quotes.deleteStatement_relates hdeletions.daily texts doomed
  | upsertForAnalysis batch => exact Quotes.upsertStatement_relates hwrites.forAnalysis batch
  | deleteForAnalysis texts doomed =>
    exact Quotes.deleteStatement_relates hdeletions.forAnalysis texts doomed
  | upsertIndex index batch => exact Quotes.upsertStatement_relates (hwrites.index index) batch
  | upsertSnapshots batch => exact Snapshots.upsertStatement_relates hwrites.snapshots batch
  | deleteSnapshots brandIds => exact Snapshots.deleteStatement_relates hdeletions.snapshots brandIds

end Statement

namespace Session

/-- Statements keep a store sound, and its ids apart. -/
theorem keptByStatements_sound (hPQ : ∀ d, P d → Q (Price.toStored d)) :
    KeptByStatements P (Keeps fun s => s.IdsOnce ∧ s.Sound Q) where
  draw _ _ h := ⟨h.store, h.start⟩
  run _ operation _ hst h := h.run operation fun x next hstep =>
    ⟨hst.relates Store.respectsWrites_idsOnce Store.respectsDeletions_idsOnce _ x next hstep h.store.1,
      h.store.2.sent hPQ hst hstep⟩

theorem keptByOverlays_sound : KeptByOverlays fun s => s.IdsOnce ∧ s.Sound Q :=
  fun hcollide hold hmine hkept => ⟨hmine.1.overlaid hkept.1,
    .overlaid hcollide hold.1 hmine.1 hkept.1 hold.2 hmine.2 hkept.2⟩

/-- The store of a session that is reached is sound, and so is the one to which its transaction would go
back. -/
theorem Reached.sound {s : Session} (h : Reached P s) (hPQ : ∀ d, P d → Q (Price.toStored d)) :
    s.Keeps (Store.Sound Q) := by
  have hstatements := keptByStatements_sound hPQ
  have hkeeps : s.Keeps fun s => s.IdsOnce ∧ s.Sound Q := by
    induction h with
    | start server clock ids order => exact keeps_start ⟨.empty, .empty⟩ server clock ids order
    | draw _ supply ih => exact ⟨ih.store, ih.start⟩
    | serve _ server ih => exact ⟨ih.store, ih.start⟩
    | run _ operation hst ih => exact hstatements.run _ operation _ hst ih
    | beginUnit _ ih => exact ih.beginUnit
    | commit _ ih => exact ih.commit
    | rolledBack _ ih => exact ih.rolledBack
    | rollBackByHand _ ih => exact ih.rollBackByHand
    | breakDeferred _ ih => exact ih.breakDeferred
    | job _ hj hrun ih =>
      exact ih.beside keptByOverlays_sound
        (fun u hu => Job.perform_keeps hj (keptByUnits_keeps _) hstatements hu) hrun
    | callBeside _ hc hrun ih =>
      exact ih.beside keptByOverlays_sound (fun u hu => Call.perform_keeps hc hstatements hu) hrun
  exact ⟨hkeeps.store.2, fun start d hrunning => (hkeeps.start start d hrunning).2⟩

end Session

end PriceArchive
