import PriceArchive.Proofs.Table.Actives
import PriceArchive.Store.Overlay
import Mathlib.Data.List.Nodup

namespace PriceArchive

section Rows

variable {ρ κ : Type} [DecidableEq κ] {id : ρ → κ} {rival : ρ → ρ → Bool} {old mine kept rows : List ρ}
  {r : ρ}

theorem find?_id_of_mem (hids : (rows.map id).Nodup) (hr : r ∈ rows) :
    (rows.find? fun r' => decide (id r' = id r)) = some r := by
  rcases hfind : rows.find? fun r' => decide (id r' = id r) with _ | r'
  · exact absurd (decide_eq_true rfl) (List.find?_eq_none.mp hfind r hr)
  · have hid : id r' = id r := by simpa using List.find?_some hfind
    exact congrArg some (List.inj_on_of_nodup_map hids (List.mem_of_find?_eq_some hfind) hr hid)

variable [DecidableEq ρ]

/-- A row that was not written was there before. -/
theorem mem_of_wroteRow_eq_false (hids : (mine.map id).Nodup) (hr : r ∈ mine)
    (hwrote : wroteRow id old mine (id r) = false) : r ∈ old := by
  have hsame := of_not_not (of_decide_eq_false hwrote)
  rw [find?_id_of_mem hids hr] at hsame
  exact List.mem_of_find?_eq_some hsame

/-- A row that was there before and was not written is there. -/
theorem mem_of_mem_of_wroteRow_eq_false (hids : (old.map id).Nodup) (hr : r ∈ old)
    (hwrote : wroteRow id old mine (id r) = false) : r ∈ mine := by
  have hsame := of_not_not (of_decide_eq_false hwrote)
  rw [find?_id_of_mem hids hr] at hsame
  exact List.mem_of_find?_eq_some hsame.symm

theorem mem_overlaidRows :
    r ∈ overlaidRows id old mine kept ↔
      (r ∈ mine ∧ wroteRow id old mine (id r) = true) ∨
        (r ∈ kept ∧ wroteRow id old mine (id r) = false) := by
  rw [overlaidRows, List.mem_append, List.mem_filter, List.mem_filter, Bool.not_eq_true']

theorem mem_or_mem_of_mem_overlaidRows (hr : r ∈ overlaidRows id old mine kept) :
    r ∈ mine ∨ r ∈ kept :=
  (mem_overlaidRows.mp hr).imp And.left And.left

/-- Ids that are there once on both sides are there once in what a transaction sees: from one side come
those that it wrote, and from the other those that it did not. -/
theorem nodup_ids_overlaidRows (hmine : (mine.map id).Nodup) (hkept : (kept.map id).Nodup) :
    ((overlaidRows id old mine kept).map id).Nodup := by
  rw [overlaidRows, List.map_append]
  refine List.Nodup.append (hmine.sublist (List.filter_sublist.map _))
    (hkept.sublist (List.filter_sublist.map _)) fun k hwritten hunwritten => ?_
  obtain ⟨a, ha, rfl⟩ := List.mem_map.mp hwritten
  obtain ⟨b, hb, hid⟩ := List.mem_map.mp hunwritten
  have hnot := (List.mem_filter.mp hb).2
  rw [hid, (List.mem_filter.mp ha).2] at hnot
  cases hnot

/-- A table has at most one row of each kind. -/
def Unrivalled (rival : ρ → ρ → Bool) (rows : List ρ) : Prop :=
  ∀ a ∈ rows, ∀ b ∈ rows, rival a b = true → a = b

/-- If a row that a transaction wrote and one that is kept rival each other, they are the same row, unless
the writers are in each other's way. -/
theorem eq_of_rival_of_wroteRow (hold : (old.map id).Nodup) (hkept : (kept.map id).Nodup)
    (hmine : Unrivalled rival mine) (hapart : rowsCollide id rival old mine kept = false) {a b : ρ}
    (ha : a ∈ mine) (hawrote : wroteRow id old mine (id a) = true) (hb : b ∈ kept)
    (hbwrote : wroteRow id old mine (id b) = false) (hrival : rival a b = true) : a = b := by
  by_cases hbkept : wroteRow id old kept (id b) = true
  · rw [rowsCollide, Bool.or_eq_false_iff] at hapart
    have hcollide : (mine.any fun a => wroteRow id old mine (id a) &&
        kept.any fun b => wroteRow id old kept (id b) && rival a b) = true :=
      List.any_eq_true.mpr ⟨a, ha, Bool.and_eq_true_iff.mpr ⟨hawrote,
        List.any_eq_true.mpr ⟨b, hb, Bool.and_eq_true_iff.mpr ⟨hbkept, hrival⟩⟩⟩⟩
    rw [hapart.2] at hcollide
    cases hcollide
  · -- Neither of the two wrote the kept row, so the transaction has it too.
    have hbold := mem_of_wroteRow_eq_false hkept hb (Bool.not_eq_true _ ▸ hbkept)
    exact hmine a ha b (mem_of_mem_of_wroteRow_eq_false hold hbold hbwrote) hrival

theorem Unrivalled.overlaidRows (hsymm : ∀ a b, rival a b = rival b a) (hold : (old.map id).Nodup)
    (hkeptIds : (kept.map id).Nodup) (hmine : Unrivalled rival mine) (hkept : Unrivalled rival kept)
    (hapart : rowsCollide id rival old mine kept = false) :
    Unrivalled rival (overlaidRows id old mine kept) := by
  intro a ha b hb hrival
  rcases mem_overlaidRows.mp ha with ⟨ha, hawrote⟩ | ⟨ha, hawrote⟩ <;>
    rcases mem_overlaidRows.mp hb with ⟨hb, hbwrote⟩ | ⟨hb, hbwrote⟩
  · exact hmine a ha b hb hrival
  · exact eq_of_rival_of_wroteRow hold hkeptIds hmine hapart ha hawrote hb hbwrote hrival
  · exact (eq_of_rival_of_wroteRow hold hkeptIds hmine hapart hb hbwrote ha hawrote
      (hsymm a b ▸ hrival)).symm
  · exact hkept a ha b hb hrival

end Rows

/-- In no table two who turn the store `old` into `mine` and into `kept` are in each other's way. -/
structure Store.Apart (old mine kept : Store) : Prop where
  brands : rowsCollide Brand.id BrandRow.rival old.brands mine.brands kept.brands = false
  daily : rowsCollide QuoteOf.id QuoteRow.rival old.daily mine.daily kept.daily = false
  forAnalysis :
    rowsCollide QuoteOf.id QuoteRow.rival old.forAnalysis mine.forAnalysis kept.forAnalysis = false
  snapshots :
    rowsCollide SnapshotOf.id SnapshotRow.rival old.snapshots mine.snapshots kept.snapshots = false
  nikkei : rowsCollide QuoteOf.id QuoteRow.rival old.nikkei mine.nikkei kept.nikkei = false
  topix : rowsCollide QuoteOf.id QuoteRow.rival old.topix mine.topix kept.topix = false

theorem Store.apart_of_collide {old mine kept : Store} (h : collide old mine kept = false) :
    Apart old mine kept := by
  simp only [collide, Bool.or_eq_false_iff] at h
  obtain ⟨⟨⟨⟨⟨hbrands, hdaily⟩, hforAnalysis⟩, hsnapshots⟩, hnikkei⟩, htopix⟩ := h
  exact ⟨hbrands, hdaily, hforAnalysis, hsnapshots, hnikkei, htopix⟩

/-- Rows with a key each that no two rows share: what a transaction sees has it too. -/
theorem nodup_map_overlaidRows {ρ κ α : Type} [DecidableEq ρ] [DecidableEq κ] [DecidableEq α] {id : ρ → κ}
    {key : ρ → α} {old mine kept : List ρ} (hold : (old.map id).Nodup) (hmineIds : (mine.map id).Nodup)
    (hkeptIds : (kept.map id).Nodup) (hmine : (mine.map key).Nodup) (hkept : (kept.map key).Nodup)
    (hapart : rowsCollide id (fun a b => decide (key a = key b)) old mine kept = false) :
    ((overlaidRows id old mine kept).map key).Nodup := by
  have hunrivalled : ∀ {rows : List ρ}, (rows.map key).Nodup →
      Unrivalled (fun a b => decide (key a = key b)) rows :=
    fun hrows a ha b hb hrival => List.inj_on_of_nodup_map hrows ha hb (of_decide_eq_true hrival)
  have hseen := Unrivalled.overlaidRows (fun a b => by rw [decide_eq_decide]; exact eq_comm) hold hkeptIds
    (hunrivalled hmine) (hunrivalled hkept) hapart
  exact (nodup_ids_overlaidRows hmineIds hkeptIds).of_map.map_on fun a ha b hb heq =>
    hseen a ha b hb (decide_eq_true heq)

/-- A keyed table in which rows with one key rival each other stays one. -/
theorem TableRule.Keyed.overlaidRows {ρ κ ι : Type} [DecidableEq ρ] [DecidableEq κ] [DecidableEq ι]
    {rule : TableRule ρ κ} {P : ρ → Prop} {id : ρ → ι} {old mine kept : List ρ} (hmine : rule.Keyed P mine)
    (hkept : rule.Keyed P kept) (hold : (old.map id).Nodup) (hmineIds : (mine.map id).Nodup)
    (hkeptIds : (kept.map id).Nodup)
    (hapart : rowsCollide id (fun a b => decide (rule.key a = rule.key b)) old mine kept = false) :
    rule.Keyed P (overlaidRows id old mine kept) where
  keys := nodup_map_overlaidRows hold hmineIds hkeptIds hmine.keys hkept.keys hapart
  all r hr := (mem_or_mem_of_mem_overlaidRows hr).elim (hmine.all r) (hkept.all r)

theorem Brands.WellFormed.overlaidRows {old mine kept : List BrandRow} (hold : WellFormed old)
    (hmine : WellFormed mine) (hkept : WellFormed kept)
    (hapart : rowsCollide Brand.id BrandRow.rival old mine kept = false) :
    WellFormed (overlaidRows Brand.id old mine kept) where
  ids := nodup_ids_overlaidRows hmine.ids hkept.ids
  symbols := by
    have hunrivalled : ∀ {rows : List BrandRow}, WellFormed rows → Unrivalled BrandRow.rival rows := by
      intro rows hrows a ha b hb hrival
      simp only [BrandRow.rival, Bool.and_eq_true, decide_eq_true_eq] at hrival
      exact hrows.symbols a ha b hb hrival.1.1 hrival.1.2 hrival.2
    have hsymm : ∀ a b : BrandRow, a.rival b = b.rival a := by
      intro a b
      rw [BrandRow.rival, BrandRow.rival, Bool.and_comm a.isActive, decide_eq_decide.mpr eq_comm]
    have hseen := Unrivalled.overlaidRows hsymm hold.ids hkept.ids (hunrivalled hmine)
      (hunrivalled hkept) hapart
    intro a ha b hb haActive hbActive heq
    exact hseen a ha b hb (by simp [BrandRow.rival, haActive, hbActive, heq])

end PriceArchive
