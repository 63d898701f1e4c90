import PriceArchive.Proofs.Brands.Frozen
import PriceArchive.Proofs.Brands.Listing
import PriceArchive.Proofs.Cleanup.Leftover

namespace PriceArchive

open PriceArchive.Action Session

/-- The store without the brand with an id. -/
def Store.withoutBrand (s : Store) (id : String) : Store :=
  { s with brands := s.brands.filter fun b => decide (b.id ≠ id) }

/-- The session without the brand with an id. -/
def Session.withoutBrand (s : Session) (id : String) : Session :=
  { s with store := s.store.withoutBrand id }

namespace Call

/-- Whether an operation returns brands, or what it finds with brands. -/
def listsBrands : Call → Bool
  | findBrands | findBrand _ | findBrandsFrom .. | filterBrands _ | findStaleBrands _
  | deleteBrands _ | pageHighVolume .. => true
  | _ => false

/-- The ids of the brands in an answer. -/
def brandIds : (c : Call) → c.Reply → List String
  | findBrands, brands | findBrandsFrom .., brands | filterBrands _, brands
  | deleteBrands _, brands => List.map Brand.id brands
  | findBrand _, brand => (Option.map Brand.id brand).toList
  | findStaleBrands _, ids => ids
  | _, _ => []

end Call

namespace Brands

theorem Frozen.active_withoutBrand {deleted : List BrandRow} {s : Store}
    (h : Frozen deleted s.brands) {r : BrandRow} (hr : r ∈ deleted) :
    active (s.withoutBrand r.id).brands = active s.brands := by
  unfold Store.withoutBrand active
  rw [List.filter_filter]
  refine List.filter_congr fun b hb => ?_
  cases hactive : b.isActive with
  | false => rfl
  | true => simpa using h.id_ne_of_mem_active hr (List.mem_filter.mpr ⟨hb, hactive⟩)

theorem delete_fst_congr (ids : List String) {s : Session} {store : Store}
    (h : active store.brands = active s.store.brands) :
    (delete ids { s with store := store }).1 = (delete ids s).1 := by
  unfold delete
  split
  · rfl
  refine bind_fst_congr (run_read_fst_congr _ (by rw [activeAmong, activeAmong, h])) ?_
  intro doomed t t' ht ht'
  obtain ⟨-, rfl⟩ := run_read_eq_ok ht
  obtain ⟨-, rfl⟩ := run_read_eq_ok ht'
  split
  · rfl
  rw [checkedOut_with_store]
  refine bind_fst_congr (run_fst_congr _ ?_) fun _ _ _ _ _ => rfl
  rw [checkedOut_store]
  unfold deleteStatement
  cases Binding.texts (doomed.map Brand.id) <;> rfl

section Answers

variable {s t : Session}

theorem findAll_eq_ok {brands : List (Brand Instant)} (h : findAll s = (.ok brands, t)) :
    brands = (sortBy (bySymbol s.order) (active s.store.brands)).map ofRow := by
  obtain ⟨hread, -⟩ := run_read_eq_ok h
  cases hread
  rfl

theorem findBySymbol_eq_ok {symbol : String} {brand : Option (Brand Instant)}
    (h : findBySymbol symbol s = (.ok brand, t)) :
    brand = ((active s.store.brands).find? fun b => decide (b.symbol = symbol)).map ofRow := by
  obtain ⟨hread, -⟩ := run_read_eq_ok h
  obtain ⟨_, -, hread⟩ := PriceArchive.bind_eq_ok_iff.mp hread
  cases hread
  rfl

theorem findStale_eq_some {threshold : Instant} {ids : List String}
    (h : findStale threshold s = (.ok ids, t)) :
    ∃ bound, ids = (sortBy (byId s.order) (stale bound s.store.brands)).map Brand.id := by
  obtain ⟨hread, -⟩ := run_read_eq_ok h
  obtain ⟨bound, -, hread⟩ := PriceArchive.bind_eq_ok_iff.mp hread
  cases hread
  exact ⟨bound, rfl⟩

theorem delete_eq_activeAmong {ids : List String} {brands : List (Brand Instant)}
    (h : delete ids s = (.ok brands, t)) :
    brands = (activeAmong s.order ids s.store.brands).map ofRow := by
  have hsends := delete_sends (P := fun _ _ => True) ids (fun _ _ _ => trivial) fun _ => trivial
  exact (delete_eq_ok (s := s.solo) (t := t.solo) rfl rfl (hsends.solo_of_ok h).2).1

/-- Brands as they are read have the ids of their rows. -/
theorem ids_subset {rows rows' : List BrandRow} (h : rows ⊆ rows') :
    (rows.map ofRow).map Brand.id ⊆ rows'.map Brand.id := by
  rw [List.map_map]
  exact List.map_subset Brand.id h

theorem mem_takeLimit {α : Type} {limit : Option Nat} {xs : List α} {x : α}
    (hx : x ∈ takeLimit limit xs) : x ∈ xs := by
  cases limit with
  | none => exact hx
  | some n => exact List.mem_of_mem_take hx

end Answers

end Brands

namespace Call

variable {c : Call} {s : Session}

/-- What is not active has no influence on an operation that returns brands. -/
theorem perform_fst_congr (hc : c.listsBrands = true) {store : Store}
    (hactive : Brands.active store.brands = Brands.active s.store.brands)
    (haverages : store.volumeAverages = s.store.volumeAverages) :
    (c.perform { s with store := store }).1 = (c.perform s).1 := by
  cases c with
  | findBrands => exact run_read_fst_congr _ (by rw [hactive])
  | findBrand symbol => exact run_read_fst_congr _ (by rw [hactive])
  | findBrandsFrom cursor limit => exact run_read_fst_congr _ (by rw [hactive])
  | filterBrands filter => exact run_read_fst_congr _ (by rw [hactive])
  | findStaleBrands threshold => exact run_read_fst_congr _ (by rw [hactive])
  | deleteBrands ids => exact Brands.delete_fst_congr ids hactive
  | pageHighVolume cursor limit =>
    change (HighVolume.page cursor limit _).1 = (HighVolume.page cursor limit s).1
    unfold HighVolume.page
    split
    · rfl
    · exact run_read_fst_congr _ (by rw [HighVolume.joined, HighVolume.joined, hactive, haverages])
  | _ => cases hc

/-- The brands in an answer are active ones. -/
theorem brandIds_subset_active {reply : c.Reply} (h : (c.perform s).1 = .ok reply) :
    c.brandIds reply ⊆ (Brands.active s.store.brands).map Brand.id := by
  have hok : c.perform s = (.ok reply, (c.perform s).2) := Prod.ext h rfl
  have hfilter : ∀ f : BrandFilter, Brands.takeLimit f.limit? (sortBy (Brands.bySymbol s.order)
      ((Brands.active s.store.brands).filter (Brands.allowedBy s.order f))) ⊆
        Brands.active s.store.brands :=
    fun f b hb => (List.mem_filter.mp (mem_sortBy.mp (Brands.mem_takeLimit hb))).1
  cases c with
  | findBrands =>
    obtain rfl := Brands.findAll_eq_ok hok
    exact Brands.ids_subset fun b hb => mem_sortBy.mp hb
  | findBrand symbol =>
    obtain rfl := Brands.findBySymbol_eq_ok hok
    intro id hid
    change id ∈ (Option.map Brand.id (Option.map Brands.ofRow _)).toList at hid
    rw [Option.mem_toList, Option.map_map, Option.map_eq_some_iff] at hid
    obtain ⟨b, hb, rfl⟩ := hid
    exact List.mem_map_of_mem (f := Brand.id) (List.mem_of_find?_eq_some hb)
  | findBrandsFrom cursor limit =>
    obtain rfl := Brands.findWithFilter_eq_ok hok
    exact Brands.ids_subset (hfilter _)
  | filterBrands filter =>
    obtain rfl := Brands.findWithFilter_eq_ok hok
    exact Brands.ids_subset (hfilter filter)
  | findStaleBrands threshold =>
    obtain ⟨bound, rfl⟩ := Brands.findStale_eq_some hok
    exact List.map_subset Brand.id fun b hb => (List.mem_filter.mp (mem_sortBy.mp hb)).1
  | deleteBrands ids =>
    obtain rfl := Brands.delete_eq_activeAmong hok
    exact Brands.ids_subset fun b hb => Brands.mem_active_of_mem_activeAmong hb
  | _ => exact List.nil_subset _

end Call

/-- Nothing that is done in the session is still to be committed or rolled back. -/
def Session.Settled (s : Session) : Prop :=
  ∀ start deferred, s.transaction ≠ some (.running start deferred)

/-- In every run that starts with empty tables, a brand that is soft-deleted in a committed state stays in
the table from then on, with every column as it is and as the only row with its id, and in the store to
which an open transaction would go back. The operations that return brands, the page of brands with a
volume average among them, answer what they would answer without the row, and its id is in no answer. -/
theorem Session.InRun.soft_deleted_frozen_and_hidden {s t : Session} (hs : s.InRun) (hsettled : s.Settled)
    {r : BrandRow} (hr : r ∈ s.store.brands) (hdeleted : r.deletedAt.isSome = true) (ht : s.LeadsTo t) :
    (r ∈ t.store.brands ∧ ∀ b ∈ t.store.brands, b.id = r.id → b = r) ∧
      (∀ start deferred, t.transaction = some (.running start deferred) → r ∈ start.brands) ∧
      ∀ c : Call, c.listsBrands = true →
        (c.perform t).1 = (c.perform (t.withoutBrand r.id)).1 ∧
          ∀ reply, (c.perform t).1 = .ok reply → r.id ∉ c.brandIds reply := by
  have hinactive : ∀ x ∈ [r], x.isActive = false := by
    intro x hx
    rw [List.mem_singleton.mp hx, Brand.isActive, ← Option.not_isSome, hdeleted]
    rfl
  obtain ⟨server, clock, ids, order, hrun⟩ := hs
  have hids := (hrun.freezes (keeps_start Brands.Frozen.nil server clock ids order)).store.ids
  -- The row is frozen on its own; other soft-deleted rows play no part.
  have hfreezes : s.Freezes [r] :=
    ⟨⟨hinactive, hids, fun x hx => List.mem_singleton.mp hx ▸ hr⟩,
      fun start d hrunning => absurd hrunning (hsettled start d)⟩
  have hkept := ht.freezes hfreezes
  have hmem := hkept.store.mem r (List.mem_singleton_self r)
  refine ⟨⟨hmem, fun b hb hid => hkept.store.eq_of_id hb hmem hid⟩, ?_, fun c hc => ⟨?_, ?_⟩⟩
  · intro start d hrunning
    exact (hkept.start start d hrunning).mem r (List.mem_singleton_self r)
  · exact (Call.perform_fst_congr hc
      (hkept.store.active_withoutBrand (List.mem_singleton_self r)) rfl).symm
  · intro reply hreply hid
    obtain ⟨b, hb, heq⟩ := List.mem_map.mp (Call.brandIds_subset_active hreply hid)
    exact hkept.store.id_ne_of_mem_active (List.mem_singleton_self r) hb heq

namespace Brands

/-- Brand `a` is reported and soft-deleted. -/
def afterSoftDeletion : Session :=
  ((Call.softDeleteBrands (Cleanup.startOfDay 3 (by decide))).perform
    ((Call.upsertBrands [Cleanup.report1001 "a"]).perform Work.quietStart).2).2

/-- Then a unit of work reports it again, with another brand that has its symbol, and a cleanup removes the
brands that were not reported that day. -/
def afterNextReport : Session :=
  (Cleanup.run 1 (Cleanup.startOfDay 4 (by decide))
    ((Work.call (.upsertBrands [Cleanup.report1001 "a", Cleanup.report1001 "b"])).performAsUnit
      afterSoftDeletion).2).2

theorem soft_deleted_afterSoftDeletion :
    ∃ r ∈ afterSoftDeletion.store.brands, r.id = "a" ∧ r.deletedAt.isSome = true := by
  decide +kernel

theorem afterSoftDeletion_frozen_and_hidden :
    afterSoftDeletion.InRun ∧ afterSoftDeletion.Settled ∧
      afterSoftDeletion.LeadsTo afterNextReport ∧
      ∃ r ∈ afterSoftDeletion.store.brands, r.id = "a" ∧ r.deletedAt.isSome = true ∧
        r ∈ afterNextReport.store.brands ∧
        (Call.findBrands.perform afterNextReport).1 =
          (Call.findBrands.perform (afterNextReport.withoutBrand "a")).1 := by
  have hstart : afterSoftDeletion.InRun :=
    ⟨_, _, _, _, (LeadsTo.refl.request (.call _)).request (.call _)⟩
  have hnext : afterSoftDeletion.LeadsTo afterNextReport :=
    (LeadsTo.refl.performAsUnit _).performJob (by decide +kernel) (.cleanup 1 _)
  have hsettled : afterSoftDeletion.Settled := fun start d => by
    rw [show afterSoftDeletion.transaction = none by decide +kernel]
    nofun
  obtain ⟨r, hr, hid, hdeleted⟩ := soft_deleted_afterSoftDeletion
  obtain ⟨⟨hkept, -⟩, -, hhidden⟩ :=
    InRun.soft_deleted_frozen_and_hidden hstart hsettled hr hdeleted hnext
  exact ⟨hstart, hsettled, hnext, r, hr, hid, hdeleted, hkept, hid ▸ (hhidden .findBrands rfl).1⟩

end Brands

end PriceArchive
