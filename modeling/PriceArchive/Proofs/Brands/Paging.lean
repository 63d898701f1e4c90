import PriceArchive.Proofs.Brands.Listing
import PriceArchive.Proofs.Brands.Reached
import PriceArchive.Proofs.Table.Pages

namespace PriceArchive

open Session

namespace Brands

/-- Pages that a filter answers one after the other, each in the session where it is asked for: after a page
comes the one after the symbol of its last brand, and after a page without brands none. A walk may stop
before the end. -/
inductive Walk : BrandFilter → List (Session × List (Brand Instant)) → Prop where
  | stop (f : BrandFilter) : Walk f []
  | last {f : BrandFilter} {s : Session} (hpage : (findWithFilter f s).1 = .ok []) : Walk f [(s, [])]
  | next {f : BrandFilter} {s : Session} {page : List (Brand Instant)} {b : Brand Instant}
    {rest : List (Session × List (Brand Instant))} (hpage : (findWithFilter f s).1 = .ok (page ++ [b]))
    (hrest : Walk (f.after b.symbol) rest) : Walk f ((s, page ++ [b]) :: rest)

/-- The brands on some pages. -/
def listed (pages : List (Session × List (Brand Instant))) : List (Brand Instant) :=
  pages.flatMap Prod.snd

/-- The pages end with one that has no brands. -/
def Complete (pages : List (Session × List (Brand Instant))) : Prop :=
  pages.getLast?.map Prod.snd = some []

theorem Complete.of_cons {s : Session} {page : List (Brand Instant)} {b : Brand Instant}
    {rest : List (Session × List (Brand Instant))} (h : Complete ((s, page ++ [b]) :: rest)) :
    Complete rest := by
  cases rest with
  | nil => simp [Complete] at h
  | cons p rest => exact h

variable {f : BrandFilter} {s : Session}

/-- A page is the first part of a listing. -/
theorem page_eq (hs : s.InRun) {page : List (Brand Instant)}
    (h : (findWithFilter f s).1 = .ok page) :
    ∃ rows, Lists s.order f s.store.brands rows ∧ page = (takeLimit f.limit? rows).map ofRow :=
  ⟨_, hs.wellFormed.lists s.order f, findWithFilter_eq_ok (t := (findWithFilter f s).2) (Prod.ext h rfl)⟩

theorem takeLimit_sublist {α : Type} (limit : Option Nat) (xs : List α) :
    (takeLimit limit xs).Sublist xs := by
  cases limit with
  | none => exact .refl xs
  | some n => exact List.take_sublist n xs

theorem pos_of_limit? {n : Nat} (h : f.limit? = some n) : 0 < n := by
  unfold BrandFilter.limit? at h
  split at h
  · rename_i hpos
    cases h
    rw [Int64.lt_iff_toInt_lt, Int64.toInt_zero] at hpos
    omega
  · cases h

/-- Only a listing of no brands has a first page without brands. -/
theorem eq_nil_of_takeLimit {rows : List BrandRow} (h : takeLimit f.limit? rows = []) : rows = [] := by
  cases hlimit : f.limit? with
  | none => rwa [hlimit] at h
  | some n =>
    rw [hlimit] at h
    have hn := pos_of_limit? hlimit
    exact (List.take_eq_nil_iff.mp h).resolve_left (by omega)

/-- The rows of a page with a last brand. -/
theorem exists_rows_of_concat {rows : List BrandRow} {page : List (Brand Instant)} {b : Brand Instant}
    (h : page ++ [b] = rows.map ofRow) :
    ∃ first row, rows = first ++ [row] ∧ page = first.map ofRow ∧ b = ofRow row := by
  obtain ⟨first, last, hrows, hpage, hlast⟩ := List.map_eq_append_iff.mp h.symm
  obtain ⟨row, rfl, hrow⟩ := List.map_eq_singleton_iff.mp hlast
  exact ⟨first, row, hrows, hpage.symm, hrow.symm⟩

theorem page_ascending (hs : s.InRun) {page : List (Brand Instant)}
    (h : (findWithFilter f s).1 = .ok page) :
    (page.map Brand.symbol).Pairwise s.order.lt ∧ ∀ b ∈ page, s.order.lt f.cursor b.symbol := by
  obtain ⟨rows, hrows, rfl⟩ := page_eq hs h
  have hsub := takeLimit_sublist f.limit? rows
  constructor
  · rw [List.map_map, List.pairwise_map]
    exact hrows.ascending.sublist hsub
  · intro b hb
    obtain ⟨row, hrow, rfl⟩ := List.mem_map.mp hb
    exact ((hrows.mem_iff row).mp (hsub.mem hrow)).2.2.1

namespace Walk

variable {order : TextOrder} {pages : List (Session × List (Brand Instant))}

/-- What is listed stands in strictly ascending order of the ticker symbols, after the cursor. -/
theorem ascending (h : Walk f pages) (hruns : ∀ p ∈ pages, p.1.InRun ∧ p.1.order = order) :
    ((listed pages).map Brand.symbol).Pairwise order.lt ∧
      ∀ b ∈ listed pages, order.lt f.cursor b.symbol := by
  induction h with
  | stop f => exact ⟨List.Pairwise.nil, List.forall_mem_nil _⟩
  | last hpage => exact ⟨List.Pairwise.nil, List.forall_mem_nil _⟩
  | @next f s page b rest hpage _ ih =>
    obtain ⟨⟨hs, rfl⟩, hrest⟩ := List.forall_mem_cons.mp hruns
    obtain ⟨hfirst, hcursor⟩ := page_ascending hs hpage
    obtain ⟨hlater, hafter⟩ := ih hrest
    have hb := hcursor b (by simp)
    rw [List.map_append, List.pairwise_append] at hfirst
    have hbefore : ∀ a ∈ page, s.order.lt a.symbol b.symbol := fun a ha =>
      hfirst.2.2 a.symbol (List.mem_map_of_mem ha) b.symbol (List.mem_singleton_self _)
    -- The rest is after the symbol of the page's last brand, and the page up to it.
    rw [listed, List.flatMap_cons, List.map_append, List.map_append, List.pairwise_append,
      List.pairwise_append]
    refine ⟨⟨hfirst, hlater, ?_⟩, List.forall_mem_append.mpr ⟨hcursor, fun c hc => ?_⟩⟩
    · rw [← List.map_append]
      intro x hx y hy
      obtain ⟨a, ha, rfl⟩ := List.mem_map.mp hx
      obtain ⟨c, hc, rfl⟩ := List.mem_map.mp hy
      rcases List.mem_append.mp ha with ha | ha
      · exact s.order.trans (hbefore a ha) (hafter c hc)
      · exact List.mem_singleton.mp ha ▸ hafter c hc
    · exact s.order.trans hb (hafter c hc)

/-- A walk to the end lists every brand that is there all along. -/
theorem mem_listed (h : Walk f pages) (hruns : ∀ p ∈ pages, p.1.InRun ∧ p.1.order = order)
    (hcomplete : Complete pages)
    {r : BrandRow} (hr : ∀ p ∈ pages, r ∈ p.1.store.brands) (hactive : r.isActive = true)
    (hcursor : order.lt f.cursor r.symbol) (hallowed : f.Allows r.market.code) :
    ofRow r ∈ listed pages := by
  induction h with
  | stop f => cases hcomplete
  | @last f s hpage =>
    obtain ⟨hs, rfl⟩ := hruns _ (List.mem_singleton_self _)
    obtain ⟨rows, hrows, heq⟩ := page_eq hs hpage
    have hmem := (hrows.mem_iff r).mpr ⟨hr _ (List.mem_singleton_self _), hactive, hcursor, hallowed⟩
    rw [eq_nil_of_takeLimit (List.map_eq_nil_iff.mp heq.symm)] at hmem
    cases hmem
  | @next f s page b rest hpage _ ih =>
    obtain ⟨⟨hs, rfl⟩, hrest⟩ := List.forall_mem_cons.mp hruns
    obtain ⟨hstored, hrestStored⟩ := List.forall_mem_cons.mp hr
    obtain ⟨rows, hrows, heq⟩ := page_eq hs hpage
    have hmem := (hrows.mem_iff r).mpr ⟨hstored, hactive, hcursor, hallowed⟩
    rw [listed, List.flatMap_cons, List.mem_append]
    -- A brand that is not on this page is listed after its last one, so the rest of the walk gets to it.
    by_cases hfirst : r ∈ takeLimit f.limit? rows
    · exact .inl (heq ▸ List.mem_map_of_mem hfirst)
    · refine .inr (ih hrest hcomplete.of_cons hrestStored ?_ hallowed)
      obtain ⟨first, row, htake, -, rfl⟩ := exists_rows_of_concat heq
      cases hlimit : f.limit? with
      | none =>
        rw [hlimit] at hfirst
        exact absurd hmem hfirst
      | some n =>
        rw [hlimit] at hfirst htake
        rw [← List.take_append_drop n rows, List.mem_append] at hmem
        have hdrop := hmem.resolve_left hfirst
        exact (((hrows.drop htake).mem_iff r).mp hdrop).2.2.1

end Walk

section Unchanged

variable {n : Nat} {rows : List BrandRow}

/-- On brands that do not change, a walk cuts the listing into pages. -/
theorem Walk.cuts (hs : s.InRun) (hlimit : f.limit? = some n) (hrows : Lists s.order f s.store.brands rows)
    {pages : List (List (Brand Instant))} (h : Walk f (pages.map fun page => (s, page))) :
    Pages n (rows.map ofRow) pages := by
  generalize hpages : (pages.map fun page => (s, page)) = walk at h
  -- On the walk, for all rows that its filter lists: after a page these are the ones without the page.
  induction h generalizing pages rows with
  | stop f =>
    rw [List.map_eq_nil_iff] at hpages
    subst hpages
    exact .stop _
  | @last f s' hpage =>
    obtain ⟨page, rfl, hpage'⟩ := List.map_eq_singleton_iff.mp hpages
    obtain ⟨rfl, rfl⟩ := Prod.mk.inj hpage'
    obtain ⟨rows', hrows', heq⟩ := page_eq hs hpage
    have hnil := eq_nil_of_takeLimit (List.map_eq_nil_iff.mp heq.symm)
    obtain rfl := hrows.eq hrows'
    rw [hnil]
    exact .last
  | @next f s' page b rest hpage _ ih =>
    obtain ⟨first, later, rfl, hfirst, hlater⟩ := List.map_eq_cons_iff.mp hpages
    obtain ⟨rfl, rfl⟩ := Prod.mk.inj hfirst
    obtain ⟨rows', hrows', heq⟩ := page_eq hs hpage
    obtain rfl := hrows.eq hrows'
    obtain ⟨start, row, htake, hstart, rfl⟩ := exists_rows_of_concat heq
    rw [hlimit, takeLimit] at htake heq
    have hrest := ih hlimit (hrows.drop htake) hlater
    rw [List.map_drop] at hrest
    rw [heq, List.map_take]
    exact .next (by rw [← List.map_take, ← heq]; simp) hrest

/-- On brands that do not change, a walk has no more pages than the rows fill, and one without brands; to
the end, it lists the rows in order. -/
theorem Walk.unchanged (hs : s.InRun) (hlimit : f.limit? = some n)
    (hrows : Lists s.order f s.store.brands rows) {pages : List (List (Brand Instant))}
    (h : Walk f (pages.map fun page => (s, page))) :
    pages.length ≤ (rows.length + n - 1) / n + 1 ∧
      (pages.getLast? = some [] → pages.flatten = rows.map ofRow) := by
  have hcut := h.cuts hs hlimit hrows
  refine ⟨?_, hcut.flatten_eq⟩
  have hbound := hcut.length_le (pos_of_limit? hlimit)
  rwa [List.length_map] at hbound

/-- Pages into which the listing is cut are answered one after the other. -/
theorem Walk.of_pages (hs : s.InRun) (hopen : s.Open) (hf : Binding.texts (filterTexts f) = .ok ())
    (hlimit : f.limit? = some n) (hrows : Lists s.order f s.store.brands rows)
    {pages : List (List (Brand Instant))} (h : Pages n (rows.map ofRow) pages) :
    Walk f (pages.map fun page => (s, page)) := by
  generalize hxs : rows.map ofRow = xs at h
  induction h generalizing f rows with
  | stop xs => exact .stop f
  | last =>
    have hpage := findWithFilter_of_open hopen hf
    rw [(hs.wellFormed.lists s.order f).eq hrows, List.map_eq_nil_iff.mp hxs, hlimit, takeLimit,
      List.take_nil] at hpage
    exact .last (congrArg Prod.fst hpage)
  | @next xs pages htake _ ih =>
    subst hxs
    have hpage := findWithFilter_of_open hopen hf
    rw [(hs.wellFormed.lists s.order f).eq hrows, hlimit, takeLimit] at hpage
    rcases List.eq_nil_or_concat (rows.take n) with hnil | ⟨first, row, hrow⟩
    · exact absurd (by rw [← List.map_take, hnil, List.map_nil]) htake
    · rw [List.concat_eq_append] at hrow
      rw [hrow, List.map_append, List.map_singleton] at hpage
      have hmem : row ∈ rows.take n := hrow ▸ List.mem_concat_self
      have hstored := ((hrows.mem_iff row).mp (List.mem_of_mem_take hmem)).1
      have hnext : Binding.texts (filterTexts (f.after row.symbol)) = .ok () := by
        have hsymbol := hs.sendable row hstored
        rw [Binding.texts_eq_ok_iff] at hf hsymbol ⊢
        exact List.forall_mem_cons.mpr
          ⟨hsymbol row.symbol (by simp), fun x hx => hf x (List.mem_cons_of_mem _ hx)⟩
      rw [← List.map_take, hrow, List.map_append, List.map_singleton]
      exact .next (congrArg Prod.fst hpage) (ih hnext hlimit (hrows.drop hrow) List.map_drop)

/-- There is a walk to the end. -/
theorem exists_walk (hs : s.InRun) (hopen : s.Open) (hf : Binding.texts (filterTexts f) = .ok ())
    (hlimit : f.limit? = some n) (hrows : Lists s.order f s.store.brands rows) :
    ∃ pages : List (List (Brand Instant)), Walk f (pages.map fun page => (s, page)) ∧
      pages.getLast? = some [] := by
  obtain ⟨pages, hpages, hlast⟩ := Pages.exists_to_end (pos_of_limit? hlimit) (rows.map ofRow)
  exact ⟨pages, .of_pages hs hopen hf hlimit hrows hpages, hlast⟩

end Unchanged

end Brands

/-- In every open session of a run, a filter whose texts can be sent lists the active brands after its
cursor, of the markets that it allows, in strictly ascending order of their ticker symbols, up to its limit
if that is positive. A walk, whatever was written between its pages, lists no symbol twice, and if it goes to
the end it lists every brand that was there all along, active, allowed and after the first cursor. On brands
that do not change, a walk has no more pages than the `k` listed brands fill and one without brands, it
concatenates to the listing without a limit if it goes to the end, and there is one that goes to the end. -/
theorem Session.InRun.brands_paged {s : Session} (hs : s.InRun) (hopen : s.Open) (f : BrandFilter)
    (hf : Binding.texts (Brands.filterTexts f) = .ok ()) :
    (∃ rows, Brands.Lists s.order f s.store.brands rows ∧
      Brands.findWithFilter f s =
        (.ok ((if 0 < f.limit then rows.take f.limit.toInt.toNat else rows).map Brands.ofRow), s)) ∧
    (∀ pages, Brands.Walk f pages → (∀ p ∈ pages, p.1.InRun ∧ p.1.order = s.order) →
      ((Brands.listed pages).map Brand.symbol).Pairwise s.order.lt ∧
      (Brands.Complete pages → ∀ r : BrandRow, (∀ p ∈ pages, r ∈ p.1.store.brands) → r.isActive = true →
        s.order.lt f.cursor r.symbol → f.Allows r.market.code → Brands.ofRow r ∈ Brands.listed pages)) ∧
    (0 < f.limit → ∃ all, Brands.findWithFilter (f.withLimit 0) s = (.ok all, s) ∧
      (∀ pages : List (List (Brand Instant)), Brands.Walk f (pages.map fun page => (s, page)) →
        pages.length ≤ (all.length + f.limit.toInt.toNat - 1) / f.limit.toInt.toNat + 1 ∧
        (pages.getLast? = some [] → pages.flatten = all)) ∧
      ∃ pages : List (List (Brand Instant)), Brands.Walk f (pages.map fun page => (s, page)) ∧
        pages.getLast? = some []) := by
  have hrows := hs.wellFormed.lists s.order f
  refine ⟨⟨_, hrows, ?_⟩, fun pages hwalk hruns => ⟨(hwalk.ascending hruns).1, ?_⟩, fun hlimit => ?_⟩
  · rw [Brands.findWithFilter_of_open hopen hf, Brands.takeLimit_limit?]
  · intro hcomplete r hr hactive hcursor hallowed
    exact hwalk.mem_listed hruns hcomplete hr hactive hcursor hallowed
  · have hsome : f.limit? = some f.limit.toInt.toNat := by rw [BrandFilter.limit?, if_pos hlimit]
    refine ⟨_, Brands.findWithFilter_of_open (f := f.withLimit 0) hopen hf, fun pages hwalk => ?_,
      Brands.exists_walk hs hopen hf hsome hrows⟩
    obtain ⟨hbound, hlist⟩ := hwalk.unchanged hs hsome hrows
    refine ⟨?_, hlist⟩
    rw [List.length_map]
    exact hbound

namespace Brands

/-- Three brands of a main market. -/
def threeBrands : Session :=
  ((Call.upsertBrands (["1001", "1002", "1003"].map fun symbol =>
    ⟨symbol, symbol, "N", ⟨"111", "Prime"⟩, .empty, .empty, .epoch⟩)).perform
      (.start .live (fun _ => .epoch) toString)).2

theorem brands_paged_threeBrands :
    threeBrands.InRun ∧ threeBrands.Open ∧
      Binding.texts (filterTexts (BrandFilter.mainOnly.withLimit 2)) = .ok () ∧
      ((active threeBrands.store.brands).map Brand.symbol).length = 3 ∧
      ∃ pages : List (List (Brand Instant)),
        Walk (BrandFilter.mainOnly.withLimit 2) (pages.map fun page => (threeBrands, page)) ∧
          pages.getLast? = some [] ∧ pages.length ≤ 3 := by
  have hrun : threeBrands.InRun := ⟨_, _, _, _, LeadsTo.refl.request (.call _)⟩
  have hopen : threeBrands.Open := open_of_live (by decide +kernel) (by decide +kernel)
  have htexts : Binding.texts (filterTexts (BrandFilter.mainOnly.withLimit 2)) = .ok () := by decide
  obtain ⟨-, -, hunchanged⟩ := hrun.brands_paged hopen (BrandFilter.mainOnly.withLimit 2) htexts
  obtain ⟨all, hall, hwalks, pages, hwalk, hlast⟩ := hunchanged (by decide)
  refine ⟨hrun, hopen, htexts, by decide +kernel, pages, hwalk, hlast, ?_⟩
  have hthree : all.length = 3 := by
    have hlisted : (findWithFilter ((BrandFilter.mainOnly.withLimit 2).withLimit 0)
        threeBrands).1.toOption.map List.length = some 3 := by
      decide +kernel
    rw [hall] at hlisted
    exact Option.some.inj hlisted
  have hbound := (hwalks pages hwalk).1
  rw [hthree] at hbound
  exact hbound

/-- The store takes no text with the character U+0000, so a filter with such a cursor is turned down. -/
theorem nul_cursor_lists_nothing :
    ¬ ∀ (s : Session) (f : BrandFilter), s.InRun → s.Open → 0 < f.limit →
      ∃ page, (findWithFilter f s).1 = .ok page := by
  intro hlists
  obtain ⟨page, hpage⟩ := hlists (.start .live (fun _ => .epoch) toString)
    ((BrandFilter.all.after "\x00").withLimit 1) ⟨_, _, _, _, .refl⟩ rfl (by decide)
  cases hpage

end Brands

end PriceArchive
