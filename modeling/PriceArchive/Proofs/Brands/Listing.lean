import PriceArchive.Proofs.Session.Solo
import PriceArchive.Proofs.Table.Actives
import PriceArchive.Proofs.Table.Binding
import PriceArchive.Proofs.Table.Sort

namespace PriceArchive

open Session

/-- Whether brands of a market are listed: those of the main markets only, or of certain markets, or of
all. -/
def BrandFilter.Allows (f : BrandFilter) (code : String) : Prop :=
  if f.onlyMainMarkets = true then code ∈ ["111", "112", "113"]
  else f.marketCodes.items = [] ∨ code ∈ f.marketCodes.items

namespace Brands

variable {order : TextOrder}

theorem allowedBy_eq_true_iff {f : BrandFilter} {b : BrandRow} :
    allowedBy order f b = true ↔ order.lt f.cursor b.symbol ∧ f.Allows b.market.code := by
  unfold allowedBy BrandFilter.Allows
  rw [Bool.and_eq_true, decide_eq_true_iff]
  refine and_congr_right fun _ => ?_
  by_cases hmain : f.onlyMainMarkets = true
  · rw [if_pos hmain, BrandFilter.markets?, if_pos hmain]
    exact List.contains_iff_mem
  · rw [if_neg hmain, BrandFilter.markets?, if_neg hmain]
    by_cases hnone : f.marketCodes.items = []
    · simp [hnone]
    · rw [if_neg (by simpa using hnone)]
      simp [hnone]

/-- The ticker symbols ascend, and none is there twice. -/
def Ascending (order : TextOrder) (rows : List BrandRow) : Prop :=
  rows.Pairwise fun a b => order.lt a.symbol b.symbol

theorem ascending_sortBy {rows : List BrandRow} (h : (rows.map Brand.symbol).Nodup) :
    Ascending order (sortBy (bySymbol order) rows) :=
  ascending_sortBy_text h

/-- The listing of the brands that a filter lets through, whatever its limit. -/
structure Lists (order : TextOrder) (f : BrandFilter) (rows listed : List BrandRow) : Prop where
  ascending : Ascending order listed
  mem_iff : ∀ b, b ∈ listed ↔
    b ∈ rows ∧ b.isActive = true ∧ order.lt f.cursor b.symbol ∧ f.Allows b.market.code

theorem WellFormed.lists {rows : List BrandRow} (h : WellFormed rows) (order : TextOrder)
    (f : BrandFilter) :
    Lists order f rows (sortBy (bySymbol order) ((active rows).filter (allowedBy order f))) where
  ascending := ascending_sortBy (h.nodup_symbols.sublist (List.filter_sublist.map _))
  mem_iff b := by
    rw [mem_sortBy, List.mem_filter, active, List.mem_filter, allowedBy_eq_true_iff, and_assoc]

namespace Lists

variable {f : BrandFilter} {rows listed listed' : List BrandRow}

theorem eq (h : Lists order f rows listed) (h' : Lists order f rows listed') : listed = listed' :=
  eq_of_ascending h.ascending h'.ascending fun b => (h.mem_iff b).trans (h'.mem_iff b).symm

/-- After the last of its first brands a listing goes on as it is. -/
theorem drop (h : Lists order f rows listed) {n : Nat} {first : List BrandRow} {b : BrandRow}
    (hfirst : listed.take n = first ++ [b]) : Lists order (f.after b.symbol) rows (listed.drop n) where
  ascending := h.ascending.sublist (List.drop_sublist n listed)
  mem_iff c := by
    have hcursor : order.lt f.cursor b.symbol :=
      ((h.mem_iff b).mp (List.mem_of_mem_take (hfirst ▸ List.mem_concat_self))).2.2.1
    rw [mem_drop_iff_of_ascending h.ascending hfirst, h.mem_iff]
    constructor
    · rintro ⟨⟨hstored, hactive, -, hallowed⟩, hlt⟩
      exact ⟨hstored, hactive, hlt, hallowed⟩
    · rintro ⟨hstored, hactive, hlt, hallowed⟩
      exact ⟨⟨hstored, hactive, order.trans hcursor hlt, hallowed⟩, hlt⟩

end Lists

theorem takeLimit_limit? {α : Type} (f : BrandFilter) (xs : List α) :
    takeLimit f.limit? xs = if 0 < f.limit then xs.take f.limit.toInt.toNat else xs := by
  unfold BrandFilter.limit?
  split <;> rfl

theorem findWithFilter_eq_ok {f : BrandFilter} {brands : List (Brand Instant)} {s t : Session}
    (h : findWithFilter f s = (.ok brands, t)) :
    brands = (takeLimit f.limit?
      (sortBy (bySymbol s.order) ((active s.store.brands).filter (allowedBy s.order f)))).map ofRow := by
  obtain ⟨hread, -⟩ := run_read_eq_ok h
  obtain ⟨_, -, hread⟩ := bind_eq_ok_iff.mp hread
  cases hread
  rfl

/-- What a filter answers, if its texts can be sent. -/
theorem findWithFilter_of_open {f : BrandFilter} {s : Session} (hs : s.Open)
    (hf : Binding.texts (filterTexts f) = .ok ()) :
    findWithFilter f s = (.ok ((takeLimit f.limit?
      (sortBy (bySymbol s.order) ((active s.store.brands).filter (allowedBy s.order f)))).map ofRow), s) := by
  refine run_read_of_open hs _ ?_
  rw [hf]
  rfl

end Brands

end PriceArchive
