import PriceArchive.Proofs.Store.OwnColumns
import PriceArchive.Proofs.Work.Respects

namespace PriceArchive

open Session

namespace Store

theorem nodup_ids_upsertQuotes {σ : Type} [Subject σ] {names : SeriesNames}
    {rows batch stored : List (QuoteRow σ)} (h : (rows.map QuoteOf.id).Nodup)
    (hupsert : (QuoteRow.rule names).upsert rows batch = .ok stored) : (stored.map QuoteOf.id).Nodup :=
  TableRule.nodup_map_upsert (fun _ _ => rfl) (fun _ _ h => (QuoteRow.refusal_eq_none_iff.mp h).2.1) h hupsert

/-- A row whose id is taken is turned down, and one that is overwritten keeps its id. -/
theorem respectsWrites_idsOnce : RespectsWrites fun s t => s.IdsOnce → t.IdsOnce where
  refl _ h := h
  brands _ _ _ hupsert h := { h with
    brands := TableRule.nodup_map_upsert (fun _ _ => rfl)
      (fun _ _ h => (BrandRow.refusal_eq_none_iff.mp h).1) h.brands hupsert }
  softDeletion _ _ _ h := { h with
    brands := by
      rw [Brands.ids_map Brands.id_softDeleteIfStale]
      exact h.brands }
  daily _ _ _ hupsert h := { h with daily := nodup_ids_upsertQuotes h.daily hupsert }
  forAnalysis _ _ _ hupsert h := { h with forAnalysis := nodup_ids_upsertQuotes h.forAnalysis hupsert }
  snapshots _ _ _ hupsert h := { h with
    snapshots := TableRule.nodup_map_upsert (fun _ _ => rfl)
      (fun _ _ h => (SnapshotRow.refusal_eq_none_iff.mp h).1) h.snapshots hupsert }
  index index _ _ _ hupsert h := by
    cases index with
    | nikkei => exact { h with nikkei := nodup_ids_upsertQuotes h.nikkei hupsert }
    | topix => exact { h with topix := nodup_ids_upsertQuotes h.topix hupsert }

theorem respectsDeletions_idsOnce : RespectsDeletions fun s t => s.IdsOnce → t.IdsOnce where
  refl _ h := h
  brands _ _ h := { h with brands := h.brands.sublist (List.filter_sublist.map _) }
  daily _ _ h := { h with daily := h.daily.sublist (List.filter_sublist.map _) }
  forAnalysis _ _ h := { h with forAnalysis := h.forAnalysis.sublist (List.filter_sublist.map _) }
  snapshots _ _ h := { h with snapshots := h.snapshots.sublist (List.filter_sublist.map _) }

theorem keptByOverlays_idsOnce : KeptByOverlays IdsOnce := fun _ _ hmine hkept => hmine.overlaid hkept

end Store

theorem Session.LeadsTo.idsOnce {s t : Session} (h : s.LeadsTo t) (hs : s.Keeps Store.IdsOnce) :
    t.Keeps Store.IdsOnce :=
  h.keeps_of_respects Store.respectsWrites_idsOnce Store.respectsDeletions_idsOnce
    (fun _ _ h => { h with }) Store.keptByOverlays_idsOnce hs

theorem Session.InRun.idsOnce {s : Session} (h : s.InRun) : s.Keeps Store.IdsOnce := by
  obtain ⟨server, clock, ids, order, hrun⟩ := h
  exact hrun.idsOnce (keeps_start .empty server clock ids order)

end PriceArchive
