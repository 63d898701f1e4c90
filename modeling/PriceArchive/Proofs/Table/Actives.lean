import PriceArchive.Proofs.Table.Keyed
import PriceArchive.Proofs.Table.Refusals
import PriceArchive.Store.Brands
import Mathlib.Data.List.Nodup

namespace PriceArchive

namespace Brands

/-- Every id is there once, and no symbol has two active brands. -/
structure WellFormed (rows : List BrandRow) : Prop where
  ids : (rows.map Brand.id).Nodup
  symbols : ∀ a ∈ rows, ∀ b ∈ rows, a.isActive = true → b.isActive = true →
    a.symbol = b.symbol → a = b

/-- Every brand of one table is in the other, under its id and with its symbol. -/
def Descends (rows rows' : List BrandRow) : Prop :=
  ∀ b ∈ rows, ∃ b' ∈ rows', b'.id = b.id ∧ b'.symbol = b.symbol

theorem Descends.trans {rows rows' rows'' : List BrandRow} (h : Descends rows rows')
    (h' : Descends rows' rows'') : Descends rows rows'' := by
  intro b hb
  obtain ⟨b', hb', hid, hsymbol⟩ := h b hb
  obtain ⟨b'', hb'', hid', hsymbol'⟩ := h' b' hb'
  exact ⟨b'', hb'', hid'.trans hid, hsymbol'.trans hsymbol⟩

/-- Changes of other columns leave the ids alone. -/
theorem ids_map {f : BrandRow → BrandRow} (hid : ∀ b, (f b).id = b.id) (rows : List BrandRow) :
    (rows.map f).map Brand.id = rows.map Brand.id := by
  rw [List.map_map]
  exact List.map_congr_left fun b _ => hid b

theorem descends_map {rows : List BrandRow} {f : BrandRow → BrandRow} (hid : ∀ b, (f b).id = b.id)
    (hsymbol : ∀ b, (f b).symbol = b.symbol) : Descends rows (rows.map f) :=
  fun b hb => ⟨f b, List.mem_map_of_mem hb, hid b, hsymbol b⟩

theorem descends_foldl_put (rows batch : List BrandRow) :
    Descends rows (batch.foldl BrandRow.rule.put rows) := by
  induction batch generalizing rows with
  | nil => exact fun b hb => ⟨b, hb, rfl, rfl⟩
  | cons row batch ih =>
    refine Descends.trans ?_ (ih (BrandRow.rule.put rows row))
    unfold TableRule.put
    split
    · apply descends_map
      · intro b
        split <;> rfl
      · intro b
        split <;> rfl
    · exact fun b hb => ⟨b, List.mem_append_left _ hb, rfl, rfl⟩

namespace WellFormed

variable {rows : List BrandRow}

theorem nil : WellFormed [] := ⟨List.nodup_nil, by simp⟩

theorem eq_of_id (h : WellFormed rows) {a b : BrandRow} (ha : a ∈ rows) (hb : b ∈ rows)
    (heq : a.id = b.id) : a = b :=
  List.inj_on_of_nodup_map h.ids ha hb heq

/-- An id leads to one brand. -/
theorem mem_ids_iff (h : WellFormed rows) {xs : List BrandRow} (hxs : xs ⊆ rows) {b : BrandRow}
    (hb : b ∈ rows) : b.id ∈ xs.map Brand.id ↔ b ∈ xs := by
  refine ⟨fun hid => ?_, fun hmem => List.mem_map_of_mem hmem⟩
  obtain ⟨b', hb', hsame⟩ := List.mem_map.mp hid
  exact h.eq_of_id (hxs hb') hb hsame ▸ hb'

/-- No two active brands have one symbol. -/
theorem nodup_symbols (h : WellFormed rows) : ((active rows).map Brand.symbol).Nodup := by
  have hrows : (active rows).Nodup := h.ids.of_map.filter _
  refine hrows.map_on fun a ha b hb heq => ?_
  obtain ⟨ha, haActive⟩ := List.mem_filter.mp ha
  obtain ⟨hb, hbActive⟩ := List.mem_filter.mp hb
  exact h.symbols a ha b hb haActive hbActive heq

theorem filter (h : WellFormed rows) (p : BrandRow → Bool) : WellFormed (rows.filter p) where
  ids := h.ids.sublist (List.filter_sublist.map _)
  symbols a ha b hb := h.symbols a (List.mem_of_mem_filter ha) b (List.mem_of_mem_filter hb)

/-- Changes that leave ids and symbols alone and make no brand active keep a table well-formed. -/
theorem map (h : WellFormed rows) {f : BrandRow → BrandRow} (hid : ∀ b, (f b).id = b.id)
    (hsymbol : ∀ b, (f b).symbol = b.symbol)
    (hactive : ∀ b, (f b).isActive = true → b.isActive = true) : WellFormed (rows.map f) where
  ids := by
    rw [ids_map hid]
    exact h.ids
  symbols := by
    intro a' ha' b' hb' haActive hbActive heq
    obtain ⟨a, ha, rfl⟩ := List.mem_map.mp ha'
    obtain ⟨b, hb, rfl⟩ := List.mem_map.mp hb'
    rw [hsymbol, hsymbol] at heq
    rw [h.symbols a ha b hb (hactive a haActive) (hactive b hbActive) heq]

/-- A brand that the table has nothing against keeps it well-formed. -/
theorem concat (h : WellFormed rows) {row : BrandRow} (hid : row.id ∉ rows.map Brand.id)
    (hfree : BrandRow.refusal rows row = none) : WellFormed (rows ++ [row]) where
  ids := nodup_map_concat h.ids hid
  symbols := by
    have hnew := (BrandRow.refusal_eq_none_iff.mp hfree).2
    intro a ha b hb haActive hbActive heq
    rw [List.mem_append, List.mem_singleton] at ha hb
    rcases ha with ha | rfl <;> rcases hb with hb | rfl
    · exact h.symbols a ha b hb haActive hbActive heq
    · exact absurd heq (hnew hbActive a ha haActive)
    · exact absurd heq.symm (hnew haActive b hb hbActive)
    · rfl

theorem upsert (h : WellFormed rows) {batch rows' : List BrandRow}
    (hupsert : BrandRow.rule.upsert rows batch = .ok rows') : WellFormed rows' := by
  refine TableRule.upsertFrom_preserves (I := WellFormed) ?_ ?_ h hupsert
  · intro rows row hrows
    apply hrows.map
    · intro b
      split <;> rfl
    · intro b
      split <;> rfl
    · intro b
      split <;> exact id
  · intro rows row hrows hid hfree
    exact hrows.concat hid hfree

end WellFormed

section SoftDelete

variable {bound now : StoredTime}

theorem id_softDeleteIfStale (b : BrandRow) : (softDeleteIfStale bound now b).id = b.id := by
  unfold softDeleteIfStale
  split <;> rfl

theorem symbol_softDeleteIfStale (b : BrandRow) :
    (softDeleteIfStale bound now b).symbol = b.symbol := by
  unfold softDeleteIfStale
  split <;> rfl

theorem isActive_of_softDeleteIfStale (b : BrandRow)
    (h : (softDeleteIfStale bound now b).isActive = true) : b.isActive = true := by
  unfold softDeleteIfStale at h
  split at h
  · cases h
  · exact h

end SoftDelete

end Brands

end PriceArchive
