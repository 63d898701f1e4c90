import PriceArchive.Proofs.Table.Overlay
import PriceArchive.Proofs.Work.Respects

namespace PriceArchive

open PriceArchive.Action Session Statement

namespace Brands

theorem respectsWrites_wellFormed :
    Store.RespectsWrites fun s t => WellFormed s.brands → WellFormed t.brands where
  refl _ h := h
  brands _ _ _ hupsert h := h.upsert hupsert
  softDeletion _ _ _ h :=
    h.map id_softDeleteIfStale symbol_softDeleteIfStale isActive_of_softDeleteIfStale
  daily _ _ _ _ h := h
  forAnalysis _ _ _ _ h := h
  snapshots _ _ _ _ h := h
  index index _ _ _ _ h := by cases index <;> exact h

theorem respectsDeletions_wellFormed :
    Store.RespectsDeletions fun s t => WellFormed s.brands → WellFormed t.brands where
  refl _ h := h
  brands _ _ h := h.filter _
  daily _ _ h := h
  forAnalysis _ _ h := h
  snapshots _ _ h := h

theorem keptByOverlays_wellFormed : KeptByOverlays fun s => WellFormed s.brands :=
  fun hapart hold hmine hkept => hold.overlaidRows hmine hkept (Store.apart_of_collide hapart).brands

/-- The ids and the ticker symbols can be sent to the store. -/
def Sendable (rows : List BrandRow) : Prop := ∀ b ∈ rows, Binding.texts [b.id, b.symbol] = .ok ()

/-- The ids and the symbols of some of the brands can be sent. -/
theorem Sendable.texts {rows xs : List BrandRow} (h : Sendable rows) (hxs : xs ⊆ rows) :
    Binding.texts (xs.map Brand.id) = .ok () ∧ Binding.texts (xs.map Brand.symbol) = .ok () := by
  have hboth : ∀ b ∈ xs, Binding.text b.id = .ok () ∧ Binding.text b.symbol = .ok () := by
    intro b hb
    have htexts := Binding.texts_eq_ok_iff.mp (h b (hxs hb))
    exact ⟨htexts _ (by simp), htexts _ (by simp)⟩
  rw [Binding.texts_eq_ok_iff, Binding.texts_eq_ok_iff, List.forall_mem_map, List.forall_mem_map]
  exact ⟨fun b hb => (hboth b hb).1, fun b hb => (hboth b hb).2⟩

theorem Sendable.filter {rows : List BrandRow} (h : Sendable rows) (p : BrandRow → Bool) :
    Sendable (rows.filter p) :=
  fun b hb => h b (List.mem_of_mem_filter hb)

theorem Sendable.map {rows : List BrandRow} (h : Sendable rows) {f : BrandRow → BrandRow}
    (hid : ∀ b, (f b).id = b.id) (hsymbol : ∀ b, (f b).symbol = b.symbol) : Sendable (rows.map f) := by
  intro b' hb'
  obtain ⟨b, hb, rfl⟩ := List.mem_map.mp hb'
  rw [hid, hsymbol]
  exact h b hb

theorem Sendable.insert {rows rows' : List BrandRow} {row : BrandRow} (h : Sendable rows)
    (hrow : Binding.texts [row.id, row.symbol] = .ok ())
    (hinsert : BrandRow.rule.insert rows row = .ok rows') : Sendable rows' := by
  obtain ⟨-, rfl⟩ := TableRule.insert_eq_ok hinsert
  exact List.forall_mem_append.mpr ⟨h, List.forall_mem_singleton.mpr hrow⟩

theorem upsertStatement_sendable (now : Instant) (batch : List NewBrand) :
    Relates (fun s t => Sendable s.brands → Sendable t.brands) Nat (upsertStatement now batch) := by
  intro s n t hstep hs
  obtain ⟨createdAt, -, hstep⟩ := bind_eq_ok_iff.mp hstep
  obtain ⟨rows, hrows, hstep⟩ := bind_eq_ok_iff.mp hstep
  obtain ⟨brands, hupsert, hstep⟩ := bind_eq_ok_iff.mp hstep
  cases hstep
  change Sendable brands
  rw [TableRule.upsert_eq_foldl_put hupsert]
  refine TableRule.forall_mem_foldl_put (fun r row hr _ _ => hr) hs fun row hrow => ?_
  obtain ⟨b, -, hbound⟩ := exists_mem_of_map_eq (Binding.all_eq_ok_iff.mp hrows).symm hrow
  exact Binding.texts_of_newBrand_eq_ok hbound

end Brands

namespace Session.InRun

variable {s : Session}

theorem wellFormed (h : s.InRun) : Brands.WellFormed s.store.brands := by
  obtain ⟨server, clock, ids, order, hrun⟩ := h
  exact (hrun.keeps_of_respects Brands.respectsWrites_wellFormed Brands.respectsDeletions_wellFormed
    (fun _ _ h => h) Brands.keptByOverlays_wellFormed
    (keeps_start Brands.WellFormed.nil server clock ids order)).store

theorem sendable (h : s.InRun) : Brands.Sendable s.store.brands := by
  obtain ⟨server, clock, ids, order, hrun⟩ := h
  refine (hrun.keeps_brands (J := Brands.Sendable) (fun batch t ht => ?_) (fun ids t ht => ?_)
    (fun refreshedAt t ht => ?_) (fun _ _ _ hrow hinsert hrows => hrows.insert hrow hinsert)
    (fun _ _ hmine hkept b hb => (mem_or_mem_of_mem_overlaidRows hb).elim (hmine b) (hkept b))
    (keeps_start (List.forall_mem_nil _) server clock ids order)).store
  · exact (Brands.upsert_sends batch (fun _ _ hread => hread.relates fun _ h => h)
      Brands.upsertStatement_sendable).keepsBoth ht
  · exact (Brands.delete_sends ids (fun _ _ hread => hread.relates fun _ h => h)
      (Brands.deleteStatement_relates fun s kept hs => Brands.Sendable.filter hs _)).keepsBoth ht
  · exact (Brands.softDeleteStale_sends refreshedAt (Brands.softDeleteStatement_relates
      fun s bound now hs => Brands.Sendable.map hs Brands.id_softDeleteIfStale
        Brands.symbol_softDeleteIfStale)).keepsBoth ht

end Session.InRun

end PriceArchive
