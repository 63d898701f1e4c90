import PriceArchive.Proofs.Brands.Paging

namespace PriceArchive

open Session

namespace TextOrder

/-- The empty text comes before every other one. -/
def EmptyFirst (order : TextOrder) : Prop := ∀ x, x ≠ "" → order.lt "" x

theorem EmptyFirst.lt_iff {order : TextOrder} (h : order.EmptyFirst) {x : String} :
    order.lt "" x ↔ x ≠ "" :=
  ⟨fun hlt heq => order.irrefl "" (heq ▸ hlt), h x⟩

theorem emptyFirst_codePoints : codePoints.EmptyFirst := by
  intro x h
  rw [ne_eq, ← String.toList_eq_nil_iff] at h
  change "" < x
  rw [String.lt_iff, String.toList_empty]
  cases hx : x.toList with
  | nil => exact absurd hx h
  | cons c cs => exact List.nil_lt_cons c cs

end TextOrder

namespace Brands

variable {order : TextOrder}

/-- All active brands, in strictly ascending order of their ticker symbols. -/
structure ListsActive (order : TextOrder) (rows listed : List BrandRow) : Prop where
  ascending : Ascending order listed
  mem_iff : ∀ b, b ∈ listed ↔ b ∈ rows ∧ b.isActive = true

theorem WellFormed.listsActive {rows : List BrandRow} (h : WellFormed rows) (order : TextOrder) :
    ListsActive order rows (sortBy (bySymbol order) (active rows)) where
  ascending := ascending_sortBy h.nodup_symbols
  mem_iff b := by rw [mem_sortBy, active, List.mem_filter]

/-- The brands with a symbol. -/
def named (rows : List BrandRow) : List BrandRow := rows.filter fun b => decide (b.symbol ≠ "")

theorem named_eq_self_iff {rows : List BrandRow} : named rows = rows ↔ ∀ b ∈ rows, b.symbol ≠ "" := by
  rw [named, List.filter_eq_self]
  simp only [decide_eq_true_eq]

/-- From the empty cursor on, all markets allowed, the brands with a symbol are listed. -/
theorem ListsActive.lists_named {f : BrandFilter} {rows listed : List BrandRow}
    (h : ListsActive order rows listed) (hempty : order.EmptyFirst) (hcursor : f.cursor = "") (hall : ∀ code, f.Allows code) :
    Lists order f rows (named listed) where
  ascending := h.ascending.sublist List.filter_sublist
  mem_iff b := by
    rw [named, List.mem_filter, h.mem_iff, decide_eq_true_eq, hcursor,
      hempty.lt_iff, and_assoc]
    exact ⟨fun ⟨hb, hactive, hsymbol⟩ => ⟨hb, hactive, hsymbol, hall _⟩,
      fun ⟨hb, hactive, hsymbol, _⟩ => ⟨hb, hactive, hsymbol⟩⟩

theorem allows_all (limit : Int64) (code : String) : (BrandFilter.all.withLimit limit).Allows code :=
  .inl rfl

theorem findAll_of_open {s : Session} (hs : s.Open) :
    findAll s = (.ok ((sortBy (bySymbol s.order) (active s.store.brands)).map ofRow), s) :=
  run_read_of_open hs _ rfl

end Brands

open Brands in
/-- In every open session of a run, on a store that puts the empty text first, all brands are listed in
strictly ascending order of their symbols, and the filter that restricts nothing answers the same but for a
brand whose symbol is empty: the answers are equal exactly when no active brand has the empty symbol. On
brands that do not change, pages of any positive limit from the empty cursor to the end list all but such a
brand, and there is a walk to the end. -/
theorem Session.InRun.first_page {s : Session} (hs : s.InRun) (hopen : s.Open)
    (hempty : s.order.EmptyFirst) :
    ∃ rows, ListsActive s.order s.store.brands rows ∧ findAll s = (.ok (rows.map ofRow), s) ∧
      findWithFilter .all s = (.ok ((named rows).map ofRow), s) ∧
      (findWithFilter .all s = findAll s ↔
        ∀ b ∈ s.store.brands, b.isActive = true → b.symbol ≠ "") ∧
      ∀ limit : Int64, 0 < limit →
        (∀ pages : List (List (Brand Instant)),
          Walk (BrandFilter.all.withLimit limit) (pages.map fun page => (s, page)) →
            pages.getLast? = some [] → pages.flatten = (named rows).map ofRow) ∧
        ∃ pages : List (List (Brand Instant)),
          Walk (BrandFilter.all.withLimit limit) (pages.map fun page => (s, page)) ∧
            pages.getLast? = some [] := by
  have hrows := hs.wellFormed.listsActive s.order
  have hlists (limit : Int64) := hrows.lists_named (f := BrandFilter.all.withLimit limit) hempty
    rfl (allows_all limit)
  have hfiltered : findWithFilter .all s = (.ok ((named (sortBy (bySymbol s.order)
      (active s.store.brands))).map ofRow), s) := by
    rw [findWithFilter_of_open hopen rfl, (hs.wellFormed.lists s.order .all).eq (hlists 0)]
    rfl
  refine ⟨_, hrows, findAll_of_open hopen, hfiltered, ?_, fun limit hlimit => ?_⟩
  · rw [hfiltered, findAll_of_open hopen]
    generalize sortBy (bySymbol s.order) (active s.store.brands) = rows at hrows
    have hsame : ((named rows).map ofRow = rows.map ofRow) ↔ named rows = rows := by
      refine ⟨fun h => ?_, fun h => by rw [h]⟩
      have hlength := congrArg List.length h
      rw [List.length_map, List.length_map] at hlength
      exact List.filter_sublist.eq_of_length hlength
    rw [Prod.mk.injEq, and_iff_left rfl, Except.ok.injEq, hsame, named_eq_self_iff]
    simp only [hrows.mem_iff, and_imp]
  · have hsome : (BrandFilter.all.withLimit limit).limit? = some limit.toInt.toNat := if_pos hlimit
    exact ⟨fun pages hwalk hlast => (hwalk.unchanged hs hsome (hlists limit)).2 hlast,
      exists_walk hs hopen rfl hsome (hlists limit)⟩

namespace Brands

/-- A brand with this id and symbol. -/
def report (id symbol : String) : NewBrand :=
  ⟨id, symbol, "N", ⟨"111", "Prime"⟩, .empty, .empty, .epoch⟩

/-- The session after a brand without a symbol and one with a symbol were written. -/
def afterUnnamed : Session :=
  ((Call.upsertBrands [report "b1" "", report "b2" "1001"]).perform
    (.start .live (fun _ => .epoch) toString)).2

theorem afterUnnamed_inRun : afterUnnamed.InRun := ⟨_, _, _, _, LeadsTo.refl.request (.call _)⟩

theorem afterUnnamed_emptyFirst : afterUnnamed.order.EmptyFirst := by
  have horder : afterUnnamed.order = .codePoints := (Call.perform_sends (.upsertBrands _)).keeps_order _
  exact horder ▸ TextOrder.emptyFirst_codePoints

theorem afterUnnamed_open : afterUnnamed.Open := open_of_live (by decide +kernel) (by decide +kernel)

theorem first_page_afterUnnamed :
    afterUnnamed.InRun ∧ afterUnnamed.Open ∧ afterUnnamed.order.EmptyFirst ∧
      (∃ rows, findAll afterUnnamed = (.ok (rows.map ofRow), afterUnnamed) ∧
        rows.map Brand.symbol = ["", "1001"] ∧
        findWithFilter .all afterUnnamed = (.ok ((named rows).map ofRow), afterUnnamed) ∧
        (named rows).map Brand.symbol = ["1001"]) ∧
      findWithFilter .all afterUnnamed ≠ findAll afterUnnamed := by
  obtain ⟨rows, -, hall, hfiltered, hequal, -⟩ := afterUnnamed_inRun.first_page afterUnnamed_open
    afterUnnamed_emptyFirst
  have hrows : rows.map Brand.symbol = ["", "1001"] := by
    have hlisted : (findAll afterUnnamed).1.toOption.map (List.map Brand.symbol) =
        some ["", "1001"] := by decide +kernel
    rw [hall] at hlisted
    simpa [Except.toOption, ofRow, Brand.mapTimes, Function.comp_def] using hlisted
  have hnamed : (named rows).map Brand.symbol = ["1001"] := by
    have hfilter := congrArg (List.filter fun symbol => decide (symbol ≠ "")) hrows
    rw [List.filter_map] at hfilter
    exact hfilter
  refine ⟨afterUnnamed_inRun, afterUnnamed_open, afterUnnamed_emptyFirst,
    ⟨rows, hall, hrows, hfiltered, hnamed⟩, fun h => ?_⟩
  have hunnamed : ∃ b ∈ afterUnnamed.store.brands, b.isActive = true ∧ b.symbol = "" := by
    decide +kernel
  obtain ⟨b, hb, hactive, hsymbol⟩ := hunnamed
  exact hequal.mp h b hb hactive hsymbol

/-- A brand without a symbol is among all brands, but not among those that the filter lists. -/
theorem unnamed_brand_is_on_no_page :
    ¬ ∀ s : Session, s.InRun → s.Open → (findWithFilter .all s).1 = (findAll s).1 := by
  intro hsame
  have hequal := hsame afterUnnamed afterUnnamed_inRun afterUnnamed_open
  have hfiltered : (findWithFilter .all afterUnnamed).1.toOption.map List.length = some 1 := by
    decide +kernel
  have hall : (findAll afterUnnamed).1.toOption.map List.length = some 2 := by decide +kernel
  rw [hequal, hall] at hfiltered
  cases hfiltered

end Brands

end PriceArchive
