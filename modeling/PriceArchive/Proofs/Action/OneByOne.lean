import PriceArchive.Proofs.Table.FirstPerKey
import PriceArchive.Proofs.Table.Written

namespace PriceArchive

namespace Action

variable {α : Type}

/-- One call for every item of a batch, in order; the numbers of rows are added up. -/
def oneByOne (f : List α → Action Nat) : List α → Action Nat
  | [] => pure 0
  | x :: rest => do
    let n ← f [x]
    let m ← oneByOne f rest
    return n + m

/-- If every call puts the rows of its item into the table, as long as a condition on the store holds
that it keeps, then all calls together put the rows of all items into the table. -/
theorem oneByOne_eq_ok {ρ κ ω : Type} [DecidableEq κ] {f : List α → Action Nat} {table : Table ρ κ}
    {I : Store → Prop} {view : ρ → ω} {item : α → List ω}
    (hone : ∀ x n (s t : Session), I s.store → f [x] s = (.ok n, t) →
      I t.store ∧ ∃ rows, rows.map view = item x ∧ t.store = table.putAll s.store rows)
    {batch : List α} {n : Nat} {s t : Session} (hI : I s.store)
    (h : oneByOne f batch s = (.ok n, t)) :
    ∃ rows, rows.map view = batch.flatMap item ∧ t.store = table.putAll s.store rows := by
  induction batch generalizing n s with
  | nil =>
    cases h
    exact ⟨[], rfl, (table.putAll_nil _).symm⟩
  | cons x rest ih =>
    rw [oneByOne, bind_eq_ok_iff] at h
    obtain ⟨k, u, hx, h⟩ := h
    obtain ⟨m, v, hrest, h⟩ := bind_eq_ok_iff.mp h
    cases h
    obtain ⟨hIu, rows, hrows, hu⟩ := hone x k s u hI hx
    obtain ⟨rows', hrows', hv⟩ := ih hIu hrest
    refine ⟨rows ++ rows', ?_, ?_⟩
    · rw [List.map_append, hrows, hrows', List.flatMap_cons]
    · rw [hv, hu, table.putAll_append]

end Action

section Quotes

variable {σ : Type} [Subject σ]

/-- One call for every quote puts all quotes into the series. -/
theorem Quotes.oneByOne_eq_ok {s t : Session} {n : Nat} {series : Series σ} {batch : List (NewQuote σ)}
    (h : Action.oneByOne (upsert series) batch s = (.ok n, t)) :
    ∃ rows : List (QuoteRow σ), rows.map QuoteRow.columns = batch.map NewQuote.columns ∧
      t.store = series.table.putAll s.store rows := by
  rw [List.map_eq_flatMap]
  refine Action.oneByOne_eq_ok (I := fun _ => True) ?_ trivial h
  intro q n s t _ hq
  exact ⟨trivial, upsert_eq_ok hq⟩

end Quotes

/-- One call for every snapshot puts all snapshots into the table. -/
theorem Snapshots.oneByOne_eq_ok {s t : Session} {n : Nat} {batch : List NewSnapshot}
    (h : Action.oneByOne upsert batch s = (.ok n, t)) :
    ∃ rows : List SnapshotRow,
      rows.map SnapshotRow.storedColumns = batch.map NewSnapshot.storedColumns ∧
        t.store = table.putAll s.store rows := by
  rw [List.map_eq_flatMap]
  refine Action.oneByOne_eq_ok (I := fun _ => True) ?_ trivial h
  intro x n s t _ hx
  exact ⟨trivial, upsert_eq_ok hx⟩

namespace Brands

/-- A brand with this id is stored that was soft-deleted. -/
def softDeleted (rows : List BrandRow) (id : String) : Bool :=
  rows.any fun r => decide (r.id = id) && !r.isActive

/-- What is written is what of the reports that are not on soft-deleted brands comes last for its
brand. -/
theorem written_eq (batch : List NewBrand) (rows : List BrandRow) :
    written batch rows =
      lastPerKey NewBrand.id (batch.filter fun b => !softDeleted rows b.id) := by
  rw [← filter_lastPerKey_of_key fun b _ b' _ hid => by rw [hid]]
  apply List.filter_congr
  intro b hb
  have hid : b.id ∈ batch.map NewBrand.id := List.mem_map_of_mem (mem_of_mem_lastPerKey hb)
  have hiff : b.id ∈ softDeletedIds (batch.map NewBrand.id) rows ↔ softDeleted rows b.id = true := by
    rw [softDeletedIds, softDeleted, List.any_eq_true, List.mem_map]
    constructor
    · rintro ⟨r, hr, hrid⟩
      rw [List.mem_filter, Bool.and_eq_true] at hr
      exact ⟨r, hr.1, by simp [hrid, hr.2.1]⟩
    · rintro ⟨r, hr, hrow⟩
      rw [Bool.and_eq_true, decide_eq_true_eq] at hrow
      refine ⟨r, List.mem_filter.mpr ⟨hr, ?_⟩, hrow.1⟩
      rw [Bool.and_eq_true, List.contains_iff_mem, hrow.1]
      exact ⟨hrow.2, hid⟩
  rw [Bool.eq_iff_iff, Bool.not_eq_true', Bool.not_eq_true', ← Bool.not_eq_true, ← Bool.not_eq_true,
    List.contains_iff_mem, hiff]

/-- Reports change nothing about which brands are soft-deleted. -/
theorem softDeleted_foldl_put {rows batch : List BrandRow}
    (hbatch : ∀ row ∈ batch, row.isActive = true) (id : String) :
    softDeleted (batch.foldl BrandRow.rule.put rows) id = softDeleted rows id := by
  induction batch generalizing rows with
  | nil => rfl
  | cons row batch ih =>
    rw [List.foldl_cons, ih fun r hr => hbatch r (List.mem_cons_of_mem row hr), TableRule.put]
    split
    · rw [TableRule.update, softDeleted, List.any_map]
      congr 1
      funext r
      rw [Function.comp_apply]
      split <;> rfl
    · rw [softDeleted, List.any_append]
      simp [hbatch row (by simp), softDeleted]

/-- One call for every report puts all reports into the table that are not on brands that were
soft-deleted at the start. -/
theorem oneByOne_eq_ok {s t : Session} {n : Nat} {batch : List NewBrand}
    (h : Action.oneByOne upsert batch s = (.ok n, t)) :
    ∃ rows : List BrandRow,
      rows.map BrandRow.storedColumns =
          (batch.filter fun b => !softDeleted s.store.brands b.id).map NewBrand.storedColumns ∧
        t.store = table.putAll s.store rows := by
  have hitems : (batch.filter fun b => !softDeleted s.store.brands b.id).map NewBrand.storedColumns =
      batch.flatMap fun b =>
        ([b].filter fun b => !softDeleted s.store.brands b.id).map NewBrand.storedColumns := by
    rw [← List.map_flatMap, ← List.filter_flatMap, List.flatMap_singleton']
  rw [hitems]
  refine Action.oneByOne_eq_ok
    (I := fun store => ∀ id, softDeleted store.brands id = softDeleted s.store.brands id) ?_
    (fun _ => rfl) h
  intro b m u v hsame hb
  obtain ⟨rows, hrows, hv⟩ := upsert_eq_ok hb
  have hactive : ∀ row ∈ rows, row.isActive = true := by
    intro row hrow
    obtain ⟨b, -, hcolumns⟩ := exists_mem_of_map_eq hrows hrow
    have hdeleted : row.deletedAt = none := congrArg (fun c => c.2.1.2) hcolumns.symm
    rw [Brand.isActive, hdeleted]
    rfl
  refine ⟨fun id => ?_, rows, ?_, hv⟩
  · rw [hv, ← hsame id]
    exact softDeleted_foldl_put hactive id
  · rw [hrows, written_eq, lastPerKey_of_nodup ?_]
    · simp only [hsame]
    · exact (List.pairwise_singleton (· ≠ ·) b.id).sublist ((List.filter_sublist ..).map NewBrand.id)

end Brands

end PriceArchive
