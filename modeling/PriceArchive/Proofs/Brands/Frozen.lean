import PriceArchive.Proofs.Table.Overlay
import PriceArchive.Proofs.Table.Sort
import PriceArchive.Proofs.Work.Respects

namespace PriceArchive

open PriceArchive.Action Session Statement

namespace Brands

/-- Some soft-deleted brands are in the table, in which every id is there once. -/
structure Frozen (deleted rows : List BrandRow) : Prop where
  inactive : ∀ r ∈ deleted, r.isActive = false
  ids : (rows.map Brand.id).Nodup
  mem : ∀ r ∈ deleted, r ∈ rows

namespace Frozen

variable {deleted rows : List BrandRow}

theorem nil : Frozen [] [] := ⟨List.forall_mem_nil _, List.nodup_nil, List.forall_mem_nil _⟩

theorem eq_of_id (h : Frozen deleted rows) {a b : BrandRow} (ha : a ∈ rows) (hb : b ∈ rows)
    (heq : a.id = b.id) : a = b :=
  List.inj_on_of_nodup_map h.ids ha hb heq

/-- An active brand has another id. -/
theorem id_ne_of_mem_active (h : Frozen deleted rows) {r b : BrandRow} (hr : r ∈ deleted)
    (hb : b ∈ active rows) : b.id ≠ r.id := by
  intro heq
  obtain ⟨hstored, hactive⟩ := List.mem_filter.mp hb
  rw [h.eq_of_id hstored (h.mem r hr) heq, h.inactive r hr] at hactive
  cases hactive

/-- So has a report that is written. -/
theorem id_ne_of_mem_written (h : Frozen deleted rows) {r : BrandRow} (hr : r ∈ deleted)
    {batch : List NewBrand} {b : NewBrand} (hb : b ∈ written batch rows) : r.id ≠ b.id := by
  intro heq
  obtain ⟨hlast, hkept⟩ := List.mem_filter.mp hb
  rw [Bool.not_eq_true', ← Bool.not_eq_true, List.contains_iff_mem] at hkept
  have hid : r.id ∈ batch.map NewBrand.id := heq ▸ List.mem_map_of_mem (mem_of_mem_lastPerKey hlast)
  refine hkept (heq ▸ List.mem_map_of_mem (List.mem_filter.mpr ⟨h.mem r hr, ?_⟩))
  rw [h.inactive r hr, Bool.not_false, Bool.true_and, List.contains_iff_mem]
  exact hid

theorem map (h : Frozen deleted rows) {f : BrandRow → BrandRow} (hid : ∀ b, (f b).id = b.id)
    (hsame : ∀ b, b.isActive = false → f b = b) : Frozen deleted (rows.map f) where
  inactive := h.inactive
  ids := by
    rw [ids_map hid]
    exact h.ids
  mem r hr := List.mem_map.mpr ⟨r, h.mem r hr, hsame r (h.inactive r hr)⟩

theorem filter (h : Frozen deleted rows) {kept : BrandRow → Bool}
    (hkept : ∀ r ∈ deleted, kept r = true) : Frozen deleted (rows.filter kept) where
  inactive := h.inactive
  ids := h.ids.sublist (List.filter_sublist.map _)
  mem r hr := List.mem_filter.mpr ⟨h.mem r hr, hkept r hr⟩

theorem foldl_put (h : Frozen deleted rows) {batch : List BrandRow}
    (hbatch : ∀ row ∈ batch, ∀ r ∈ deleted, r.id ≠ row.id) :
    Frozen deleted (batch.foldl BrandRow.rule.put rows) where
  inactive := h.inactive
  ids := TableRule.nodup_keys_foldl_put table_keepsKey h.ids batch
  mem r hr := TableRule.mem_foldl_put_of_ne (h.mem r hr) fun row hrow => hbatch row hrow r hr

/-- A brand that is added as it is. -/
theorem insert (h : Frozen deleted rows) {row : BrandRow} {rows' : List BrandRow}
    (hrows : BrandRow.rule.insert rows row = .ok rows') : Frozen deleted rows' := by
  obtain ⟨hfree, rfl⟩ := TableRule.insert_eq_ok hrows
  have hnew := (BrandRow.refusal_eq_none_iff.mp hfree).1
  exact ⟨h.inactive, nodup_map_concat h.ids hnew, fun r hr => List.mem_append_left _ (h.mem r hr)⟩

/-- A frozen brand is there on both sides, so that it is seen whoever wrote it. -/
theorem overlaidRows {old mine kept : List BrandRow} (hmine : Frozen deleted mine)
    (hkept : Frozen deleted kept) : Frozen deleted (overlaidRows Brand.id old mine kept) where
  inactive := hmine.inactive
  ids := nodup_ids_overlaidRows hmine.ids hkept.ids
  mem r hr := by
    cases hwrote : wroteRow Brand.id old mine r.id with
    | true => exact mem_overlaidRows.mpr (.inl ⟨hmine.mem r hr, hwrote⟩)
    | false => exact mem_overlaidRows.mpr (.inr ⟨hkept.mem r hr, hwrote⟩)

end Frozen

end Brands

/-- Some soft-deleted brands are in the store, and in the one to which the transaction would go back. -/
def Session.Freezes (deleted : List BrandRow) (s : Session) : Prop :=
  s.Keeps fun store => Brands.Frozen deleted store.brands

section Calls

variable {deleted : List BrandRow} {s : Session}

namespace Brands

/-- A bulk write finds out first which of its brands were soft-deleted, and passes them over. -/
theorem upsert_freezes (batch : List NewBrand) (h : s.Freezes deleted) :
    (upsert batch s).2.Freezes deleted := by
  unfold upsert
  split
  · exact h
  refine h.read_bind _ fun gone hgone t _ ht => ?_
  obtain ⟨_, -, hgone⟩ := bind_eq_ok_iff.mp hgone
  cases hgone
  refine (Sends.bind .now fun now => .runAll _ _ fun st hst => ?_).keepsBoth ht
  obtain ⟨piece, hpiece, rfl⟩ := List.mem_map.mp hst
  intro before n after hstep hbefore
  obtain ⟨createdAt, -, hstep⟩ := bind_eq_ok_iff.mp hstep
  obtain ⟨rows, hrows, hstep⟩ := bind_eq_ok_iff.mp hstep
  obtain ⟨brands, hupsert, hstep⟩ := bind_eq_ok_iff.mp hstep
  cases hstep
  change Frozen deleted brands
  rw [TableRule.upsert_eq_foldl_put hupsert]
  refine hbefore.foldl_put fun row hrow r hr => ?_
  obtain ⟨b, hb, hbound⟩ := exists_mem_of_map_eq (Binding.all_eq_ok_iff.mp hrows).symm hrow
  obtain ⟨-, -, hid, -⟩ := Binding.newBrand_eq_ok_iff.mp hbound
  rw [hid]
  exact h.store.id_ne_of_mem_written hr ((sublist_of_mem_chunks hpiece).mem hb)

/-- A deletion finds out first which of its brands are active, and deletes these. -/
theorem delete_freezes (ids : List String) (h : s.Freezes deleted) :
    (delete ids s).2.Freezes deleted := by
  unfold delete
  split
  · exact h
  refine h.read_bind _ fun doomed hdoomed t _ ht => ?_
  obtain ⟨_, -, hdoomed⟩ := bind_eq_ok_iff.mp hdoomed
  cases hdoomed
  split
  · exact ht
  refine (Sends.bind (.run _ _ fun before x after hstep hbefore => ?_) fun _ => .pure _).keepsBoth ht
  obtain ⟨_, -, hstep⟩ := bind_eq_ok_iff.mp hstep
  cases hstep
  refine hbefore.filter fun r hr => ?_
  rw [Bool.not_eq_true', ← Bool.not_eq_true, List.contains_iff_mem, List.map_map]
  intro hid
  obtain ⟨b, hb, hid⟩ := List.mem_map.mp hid
  rw [activeAmong, mem_sortBy] at hb
  exact h.store.id_ne_of_mem_active hr (List.mem_filter.mp hb).1 hid

theorem softDeleteStale_freezes (refreshedAt : Instant) (h : s.Freezes deleted) :
    (softDeleteStale refreshedAt s).2.Freezes deleted := by
  refine (softDeleteStale_sends refreshedAt fun now refreshedAt =>
    softDeleteStatement_relates (fun before bound now hbefore => ?_) now refreshedAt).keepsBoth h
  refine Frozen.map hbefore id_softDeleteIfStale fun b hb => ?_
  rw [softDeleteIfStale, if_neg (by simp [hb])]

end Brands

end Calls

/-- Runs leave soft-deleted brands as they are. -/
theorem Session.LeadsTo.freezes {deleted : List BrandRow} {s t : Session} (h : s.LeadsTo t)
    (hs : s.Freezes deleted) : t.Freezes deleted :=
  h.keeps_brands (fun batch _ ht => Brands.upsert_freezes batch ht)
    (fun ids _ ht => Brands.delete_freezes ids ht)
    (fun refreshedAt _ ht => Brands.softDeleteStale_freezes refreshedAt ht)
    (fun _ _ _ _ hinsert ht => ht.insert hinsert)
    (fun _ _ hmine hkept => Brands.Frozen.overlaidRows hmine hkept) hs

end PriceArchive
