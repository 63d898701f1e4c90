import PriceArchive.Proofs.Action.Sends
import PriceArchive.Work.Basic

namespace PriceArchive

open PriceArchive.Action Statement

namespace Brands

theorem findAll_sends : findAll.Sends Reads := .withOrder fun _ => .run _ _ (.read _)

theorem findStale_sends (threshold : Instant) : (findStale threshold).Sends Reads :=
  .withOrder fun _ => .run _ _ (.read _)

theorem dump_sends : dump.Sends Reads := .withOrder fun _ => .run _ _ (.read _)

theorem findWithFilter_sends (f : BrandFilter) : (findWithFilter f).Sends Reads :=
  .withOrder fun _ => .run _ _ (.read _)

theorem upsert_sends {P : StatementClass} (batch : List NewBrand)
    (hread : ∀ β (st : Statement β), Reads β st → P β st)
    (hwrite : ∀ now rows, P Nat (upsertStatement now rows)) : (upsert batch).Sends P := by
  unfold upsert
  refine .ite (.pure 0) (.bind (.run _ _ (hread _ _ (.read _))) fun deleted => .bind .now fun now => ?_)
  apply Sends.runAll
  intro st hst
  obtain ⟨rows, _, rfl⟩ := List.mem_map.mp hst
  exact hwrite now rows

theorem delete_sends {P : StatementClass} (ids : List String)
    (hread : ∀ β (st : Statement β), Reads β st → P β st)
    (hdelete : ∀ ids, P Unit (deleteStatement ids)) : (delete ids).Sends P := by
  unfold delete
  refine .ite (.pure []) (.bind (.withOrder fun _ => .run _ _ (hread _ _ (.read _))) fun doomed =>
    .ite (.pure []) ?_)
  exact .bind (.run _ _ (hdelete _)) fun _ => .pure doomed

theorem softDeleteStale_sends {P : StatementClass} (refreshedAt : Instant)
    (hdelete : ∀ now refreshedAt, P Nat (softDeleteStatement now refreshedAt)) :
    (softDeleteStale refreshedAt).Sends P :=
  .bind .now fun now => .run _ _ (hdelete now refreshedAt)

end Brands

namespace Quotes

variable {σ : Type} [Subject σ] {P : StatementClass}

omit [Subject σ] in
theorem withIds_sends (now : Instant) (bars : List (NewQuote σ × StoredBar)) :
    (withIds now bars).Sends P := by
  induction bars with
  | nil => exact .pure []
  | cons first rest ih =>
    obtain ⟨q, bar⟩ := first
    exact .bind .freshId fun id => .bind ih fun others => .pure _

theorem upsert_sends (series : Series σ) (batch : List (NewQuote σ))
    (hwrite : ∀ rows, P Nat (upsertStatement series rows)) : (upsert series batch).Sends P := by
  unfold upsert
  refine .ite (.pure 0) (.bind .now fun now => .bind (.ofConversion _) fun bars =>
    .bind (withIds_sends now bars) fun rows => ?_)
  apply Sends.runAll
  intro st hst
  obtain ⟨chunk, _, rfl⟩ := List.mem_map.mp hst
  exact hwrite chunk

theorem latest_sends (series : Series σ) (subject : List String) (what : String) :
    (latest series subject what).Sends Reads := by
  unfold latest
  refine .bind (.run _ _ (.read _)) fun row => ?_
  cases row with
  | none => exact .fail _ nofun
  | some row => exact .ofConversion _

theorem list_sends (series : Series σ) (subject : List String) (range : DateRange) :
    (list series subject range).Sends Reads :=
  .bind (.ofTime _) fun _ => .bind (.run _ _ (.read _)) fun _ => .ofConversion _

theorem listBySymbol_sends (series : Series σ) (f : QuoteFilter) :
    (listBySymbol series f).Sends Reads := by
  unfold listBySymbol
  exact .ite (.bind (.fail _ nofun) fun _ => list_sends series [f.symbol] f.range)
    (list_sends series [f.symbol] f.range)

theorem deleteBySymbols_sends (series : Series σ) (operation : String) (symbols : List String)
    (hdelete : ∀ texts doomed, P Nat (deleteStatement series texts doomed)) :
    (deleteBySymbols series operation symbols).Sends P :=
  .ite (.pure 0) (.run _ _ (hdelete _ _))

theorem deleteByBrands_sends (ids : List String)
    (hdelete : ∀ texts doomed, P Nat (deleteStatement Series.daily texts doomed)) :
    (deleteByBrands ids).Sends P :=
  .ite (.pure 0) (.run _ _ (hdelete _ _))

end Quotes

namespace Snapshots

variable {P : StatementClass}

theorem withIds_sends (now : Instant) (batch : List NewSnapshot) :
    (withIds now batch).Sends P := by
  induction batch with
  | nil => exact .pure []
  | cons first rest ih => exact .bind .freshId fun id => .bind ih fun others => .pure _

theorem upsert_sends (batch : List NewSnapshot)
    (hwrite : ∀ rows, P Nat (upsertStatement rows)) : (upsert batch).Sends P := by
  unfold upsert
  refine .ite (.pure 0) (.bind .now fun now => .bind (withIds_sends now _) fun rows => ?_)
  apply Sends.runAll
  intro st hst
  obtain ⟨chunk, _, rfl⟩ := List.mem_map.mp hst
  exact hwrite chunk

theorem find_sends (brandId : String) : (find brandId).Sends Reads := by
  unfold find
  refine .bind (.run _ _ (.read _)) fun row => ?_
  cases row with
  | none => exact .pure none
  | some row => exact .bind (.ofConversion _) fun _ => .pure _

theorem delete_sends (brandIds : List String) (hdelete : ∀ ids, P Nat (deleteStatement ids)) :
    (delete brandIds).Sends P :=
  .ite (.pure 0) (.run _ _ (hdelete _))

end Snapshots

theorem HighVolume.page_sends (cursor : String) (limit : Int64) :
    (HighVolume.page cursor limit).Sends Reads := by
  unfold HighVolume.page
  exact .ite (.bind (.fail _ nofun) fun _ => .withOrder fun _ => .run _ _ (.read _))
    (.withOrder fun _ => .run _ _ (.read _))

namespace Call

/-- Whether an operation only reads. -/
def readsOnly : Call → Bool
  | findBrands | findBrand _ | findBrandsFrom .. | filterBrands _ | findStaleBrands _
  | latestDaily _ | listDaily _ | latestForAnalysis _ | listForAnalysis _ | findSnapshot _
  | latestOfIndex _ | listIndex .. | pageHighVolume .. => true
  | _ => false

theorem perform_sends_reads {c : Call} (hc : c.readsOnly = true) : c.perform.Sends Reads := by
  cases c with
  | findBrands => exact Brands.findAll_sends
  | findBrand symbol => exact .run _ _ (.read _)
  | findBrandsFrom cursor limit => exact Brands.findWithFilter_sends _
  | filterBrands filter => exact Brands.findWithFilter_sends filter
  | findStaleBrands threshold => exact Brands.findStale_sends threshold
  | latestDaily symbol => exact Quotes.latest_sends _ _ _
  | listDaily filter => exact Quotes.listBySymbol_sends _ filter
  | latestForAnalysis symbol => exact Quotes.latest_sends _ _ _
  | listForAnalysis filter => exact Quotes.listBySymbol_sends _ filter
  | findSnapshot brandId => exact Snapshots.find_sends brandId
  | latestOfIndex index => exact Quotes.latest_sends _ _ _
  | listIndex index range => exact Quotes.list_sends _ _ range
  | pageHighVolume cursor limit => exact HighVolume.page_sends cursor limit
  | _ => cases hc

/-- Every operation is made of draws, early ends and statements. -/
theorem perform_sends (c : Call) : c.perform.Sends fun _ _ => True := by
  by_cases hc : c.readsOnly = true
  · exact (perform_sends_reads hc).mono fun _ _ _ => trivial
  · cases c with
    | upsertBrands batch =>
      exact Brands.upsert_sends batch (fun _ _ _ => trivial) fun _ _ => trivial
    | deleteBrands ids => exact Brands.delete_sends ids (fun _ _ _ => trivial) fun _ => trivial
    | softDeleteBrands refreshedAt =>
      exact Brands.softDeleteStale_sends refreshedAt fun _ _ => trivial
    | upsertDaily batch => exact Quotes.upsert_sends _ batch fun _ => trivial
    | deleteDailyOfBrands ids => exact Quotes.deleteByBrands_sends ids fun _ _ => trivial
    | deleteDailyOfSymbols symbols =>
      exact Quotes.deleteBySymbols_sends _ _ symbols fun _ _ => trivial
    | upsertForAnalysis batch => exact Quotes.upsert_sends _ batch fun _ => trivial
    | deleteForAnalysisOfSymbols symbols =>
      exact Quotes.deleteBySymbols_sends _ _ symbols fun _ _ => trivial
    | upsertSnapshots batch => exact Snapshots.upsert_sends batch fun _ => trivial
    | deleteSnapshots brandIds => exact Snapshots.delete_sends brandIds fun _ => trivial
    | upsertIndex index batch => exact Quotes.upsert_sends _ batch fun _ => trivial
    | _ => exact absurd rfl hc

end Call

end PriceArchive
