import PriceArchive.Proofs.Brands.Paging

namespace PriceArchive

open Session

/-- The session with other volume averages, worked out elsewhere. -/
def Session.withAverages (averages : List VolumeAverage) (s : Session) : Session :=
  { s with store := { s.store with volumeAverages := averages } }

namespace HighVolume

/-- An active brand with its symbol's volume average, both stored. -/
def Stored (s : Store) (x : HighVolumeBrand) : Prop :=
  (∃ v ∈ s.volumeAverages, v.symbol = x.symbol ∧ v.average = x.average) ∧
    ∃ b ∈ s.brands, b.isActive = true ∧ b.symbol = x.symbol ∧ b.name = x.name

/-- The brands are as every run leaves them, and the averages are for different symbols. -/
structure Joinable (s : Store) : Prop where
  brands : Brands.WellFormed s.brands
  sendable : Brands.Sendable s.brands
  averages : (s.volumeAverages.map VolumeAverage.symbol).Nodup

theorem joinable_withAverages {s : Session} (hs : s.InRun) {averages : List VolumeAverage}
    (h : (averages.map VolumeAverage.symbol).Nodup) : Joinable (s.withAverages averages).store :=
  ⟨hs.wellFormed, hs.sendable, h⟩

/-- The listing of all brands with a volume average after a symbol, without a limit. -/
structure Lists (order : TextOrder) (cursor : String) (s : Store) (listed : List HighVolumeBrand) : Prop
    where
  ascending : listed.Pairwise fun x y => order.lt x.symbol y.symbol
  mem_iff : ∀ x, x ∈ listed ↔ order.lt cursor x.symbol ∧ Stored s x

variable {order : TextOrder}

theorem mem_joined {cursor : String} {s : Store} {x : HighVolumeBrand} :
    x ∈ joined order cursor s ↔ order.lt cursor x.symbol ∧ Stored s x := by
  simp only [joined, List.mem_flatMap, List.mem_filter, List.mem_map, Brands.active,
    decide_eq_true_eq, Stored]
  constructor
  · rintro ⟨v, ⟨hv, hcursor⟩, b, ⟨⟨hb, hactive⟩, hsymbol⟩, rfl⟩
    exact ⟨hcursor, ⟨v, hv, rfl, rfl⟩, b, hb, hactive, hsymbol, rfl⟩
  · rintro ⟨hcursor, ⟨v, hv, hsymbol, haverage⟩, b, hb, hactive, hbrand, hname⟩
    rw [← hsymbol] at hcursor hbrand
    refine ⟨v, ⟨hv, hcursor⟩, b, ⟨⟨hb, hactive⟩, hbrand⟩, ?_⟩
    rw [hsymbol, haverage, hname]

/-- Averages of different symbols, joined to brands of which one at most is active for each symbol, give
one row at most for each symbol. -/
theorem nodup_symbols_joined {s : Store} (h : Joinable s) (cursor : String) :
    ((joined order cursor s).map HighVolumeBrand.symbol).Nodup := by
  rw [joined, List.map_flatMap, List.nodup_flatMap]
  constructor
  · intro v _
    have hsame : ((Brands.active s.brands).filter fun b => decide (b.symbol = v.symbol)).map
        (fun _ => v.symbol) =
          ((Brands.active s.brands).filter fun b => decide (b.symbol = v.symbol)).map Brand.symbol :=
      List.map_congr_left fun b hb => (of_decide_eq_true (List.mem_filter.mp hb).2).symm
    rw [List.map_map]
    change (List.map (fun _ => v.symbol) _).Nodup
    rw [hsame]
    exact h.brands.nodup_symbols.sublist (List.filter_sublist.map _)
  · have hdifferent : (s.volumeAverages.filter fun v => decide (order.lt cursor v.symbol)).Pairwise
        fun v w => v.symbol ≠ w.symbol :=
      (List.pairwise_map.mp h.averages).sublist List.filter_sublist
    refine hdifferent.imp fun {v w} hne => ?_
    intro k hv hw
    simp only [List.map_map, List.mem_map, Function.comp_apply] at hv hw
    obtain ⟨_, -, rfl⟩ := hv
    obtain ⟨_, -, hk⟩ := hw
    exact hne hk.symm

theorem lists_joined {s : Store} (h : Joinable s) (order : TextOrder) (cursor : String) :
    Lists order cursor s (sortBy (fun a b => order.le a.symbol b.symbol) (joined order cursor s)) where
  ascending := ascending_sortBy_text (nodup_symbols_joined h cursor)
  mem_iff _ := mem_sortBy.trans mem_joined

namespace Lists

variable {cursor : String} {s : Store} {listed listed' : List HighVolumeBrand}

theorem eq (h : Lists order cursor s listed) (h' : Lists order cursor s listed') : listed = listed' :=
  eq_of_ascending h.ascending h'.ascending fun x => (h.mem_iff x).trans (h'.mem_iff x).symm

/-- After the last of its first rows a listing goes on as it is. -/
theorem drop (h : Lists order cursor s listed) {n : Nat} {first : List HighVolumeBrand}
    {x : HighVolumeBrand} (hfirst : listed.take n = first ++ [x]) :
    Lists order x.symbol s (listed.drop n) where
  ascending := h.ascending.sublist (List.drop_sublist n listed)
  mem_iff y := by
    have hcursor : order.lt cursor x.symbol :=
      ((h.mem_iff x).mp (List.mem_of_mem_take (hfirst ▸ List.mem_concat_self))).1
    rw [mem_drop_iff_of_ascending h.ascending hfirst, h.mem_iff]
    exact ⟨fun ⟨⟨_, hstored⟩, hlt⟩ => ⟨hlt, hstored⟩,
      fun ⟨hlt, hstored⟩ => ⟨⟨order.trans hcursor hlt, hstored⟩, hlt⟩⟩

end Lists

section Page

variable {cursor : String} {limit : Int64} {s : Session}

/-- A page of no brands, or of fewer, is not asked for. -/
theorem page_of_limit_le (hlimit : limit ≤ 0) (cursor : String) (s : Session) :
    page cursor limit s =
      (.error (.error (.invalidInput
        ("high volume page limit must be positive, got " ++ toString limit.toInt))), s) := by
  rw [page, if_pos hlimit]
  rfl

theorem page_of_pos (hlimit : 0 < limit) (cursor : String) :
    page cursor limit = withOrder fun order =>
      Session.run "find high volume stock brands" (.read fun s => do
        Binding.text cursor
        return (sortBy (fun a b => order.le a.symbol b.symbol) (joined order cursor s)).take
          limit.toInt.toNat) := by
  have hnot : ¬ limit ≤ 0 := by
    rw [Int64.lt_iff_toInt_lt] at hlimit
    rw [Int64.le_iff_toInt_le]
    omega
  rw [page, if_neg hnot]

theorem page_of_open (hs : s.Open) (hjoin : Joinable s.store) (hcursor : Binding.text cursor = .ok ())
    (hlimit : 0 < limit) {rows : List HighVolumeBrand} (hrows : Lists s.order cursor s.store rows) :
    page cursor limit s = (.ok (rows.take limit.toInt.toNat), s) := by
  rw [page_of_pos hlimit]
  refine run_read_of_open hs _ ?_
  rw [hcursor, hrows.eq (lists_joined hjoin s.order cursor)]
  rfl

/-- A page is the first part of the listing. -/
theorem page_eq_ok (hjoin : Joinable s.store) (hlimit : 0 < limit) {xs : List HighVolumeBrand}
    (h : (page cursor limit s).1 = .ok xs) {rows : List HighVolumeBrand}
    (hrows : Lists s.order cursor s.store rows) : xs = rows.take limit.toInt.toNat := by
  rw [page_of_pos hlimit] at h
  obtain ⟨hread, -⟩ := run_read_eq_ok (Prod.ext h rfl)
  obtain ⟨_, -, hread⟩ := bind_eq_ok_iff.mp hread
  rw [hrows.eq (lists_joined hjoin s.order cursor)]
  exact (Except.ok.inj hread).symm

end Page

/-- Pages that are answered one after the other in a session that does not change: after a page comes the
one after the symbol of its last brand, and after a page without brands none. A walk may stop before the
end. -/
inductive Walk (limit : Int64) (s : Session) : String → List (List HighVolumeBrand) → Prop where
  | stop (cursor : String) : Walk limit s cursor []
  | last {cursor : String} (hpage : (page cursor limit s).1 = .ok []) : Walk limit s cursor [[]]
  | next {cursor : String} {first : List HighVolumeBrand} {x : HighVolumeBrand}
    {rest : List (List HighVolumeBrand)} (hpage : (page cursor limit s).1 = .ok (first ++ [x]))
    (hrest : Walk limit s x.symbol rest) : Walk limit s cursor ((first ++ [x]) :: rest)

namespace Walk

variable {cursor : String} {limit : Int64} {s : Session} {pages : List (List HighVolumeBrand)}

theorem toNat_pos (hlimit : 0 < limit) : 0 < limit.toInt.toNat := by
  rw [Int64.lt_iff_toInt_lt, Int64.toInt_zero] at hlimit
  omega

/-- A walk cuts the listing into pages. -/
theorem cuts (hjoin : Joinable s.store) (hlimit : 0 < limit) (h : Walk limit s cursor pages)
    {rows : List HighVolumeBrand} (hrows : Lists s.order cursor s.store rows) :
    Pages limit.toInt.toNat rows pages := by
  induction h generalizing rows with
  | stop cursor => exact .stop rows
  | last hpage =>
    have htake := (page_eq_ok hjoin hlimit hpage hrows).symm
    have hpos := toNat_pos hlimit
    rw [(List.take_eq_nil_iff.mp htake).resolve_left (by omega)]
    exact .last
  | next hpage _ ih =>
    have htake := (page_eq_ok hjoin hlimit hpage hrows).symm
    have hpage : rows.take limit.toInt.toNat ≠ [] := by
      rw [htake]
      simp
    rw [← htake]
    exact .next hpage (ih (hrows.drop htake))

/-- The pages into which the listing is cut are answered one after the other. -/
theorem of_pages (hjoin : Joinable s.store) (hs : s.Open) (hcursor : Binding.text cursor = .ok ())
    (hlimit : 0 < limit) {rows : List HighVolumeBrand} (hrows : Lists s.order cursor s.store rows)
    (h : Pages limit.toInt.toNat rows pages) : Walk limit s cursor pages := by
  induction h generalizing cursor with
  | stop rows => exact .stop cursor
  | last =>
    have hpage := page_of_open hs hjoin hcursor hlimit hrows
    rw [List.take_nil] at hpage
    exact .last (congrArg Prod.fst hpage)
  | @next rows pages htake _ ih =>
    have hpage := page_of_open hs hjoin hcursor hlimit hrows
    obtain ⟨first, x, hfirst⟩ := (List.eq_nil_or_concat (rows.take limit.toInt.toNat)).resolve_left htake
    rw [List.concat_eq_append] at hfirst
    rw [hfirst] at hpage ⊢
    refine .next (congrArg Prod.fst hpage) (ih ?_ (hrows.drop hfirst))
    -- The next cursor is the symbol of a stored brand, which can be sent.
    have hx : x ∈ rows := List.mem_of_mem_take (hfirst ▸ List.mem_concat_self)
    obtain ⟨-, -, b, hb, -, hsymbol, -⟩ := (hrows.mem_iff x).mp hx
    rw [← hsymbol]
    exact Binding.texts_eq_ok_iff.mp (hjoin.sendable b hb) b.symbol (by simp)

end Walk

/-- In every open session of a run, whatever the volume averages are, if no two are for one symbol: a page
with a positive limit has the first brands of the listing of those after the cursor, which is in strictly
ascending order of the symbols and has each active brand with an average once. Pages one after the other,
each after the last symbol of the one before, are no more than the listing fills and an empty one; to the
end they make up the listing, and they can go to the end. In every session whatsoever a limit that is not
positive is an invalid input, and nothing happens. -/
theorem high_volume_paged (cursor : String) (limit : Int64) :
    (∀ (s : Session) (averages : List VolumeAverage), s.InRun → s.Open →
      (averages.map VolumeAverage.symbol).Nodup → Binding.text cursor = .ok () → 0 < limit →
        ∃ rows, Lists s.order cursor (s.withAverages averages).store rows ∧
          page cursor limit (s.withAverages averages) =
            (.ok (rows.take limit.toInt.toNat), s.withAverages averages) ∧
          (∀ pages, Walk limit (s.withAverages averages) cursor pages →
            pages.length ≤ (rows.length + limit.toInt.toNat - 1) / limit.toInt.toNat + 1 ∧
            (pages.getLast? = some [] → pages.flatten = rows)) ∧
          ∃ pages, Walk limit (s.withAverages averages) cursor pages ∧ pages.getLast? = some []) ∧
    (limit ≤ 0 → ∀ s : Session, page cursor limit s =
      (.error (.error (.invalidInput
        ("high volume page limit must be positive, got " ++ toString limit.toInt))), s)) := by
  refine ⟨fun s averages hs hopen haverages hcursor hlimit => ?_, fun hlimit s =>
    page_of_limit_le hlimit cursor s⟩
  have hjoin := joinable_withAverages hs haverages
  have hopen' : (s.withAverages averages).Open := hopen
  have hrows := lists_joined hjoin s.order cursor
  refine ⟨_, hrows, page_of_open hopen' hjoin hcursor hlimit hrows, fun pages hwalk => ?_, ?_⟩
  · have hcut := hwalk.cuts hjoin hlimit hrows
    exact ⟨hcut.length_le (Walk.toNat_pos hlimit), hcut.flatten_eq⟩
  · obtain ⟨pages, hpages, hlast⟩ := Pages.exists_to_end (Walk.toNat_pos hlimit) _
    exact ⟨pages, .of_pages hjoin hopen' hcursor hlimit hrows hpages, hlast⟩

/-- Averages for a symbol that has no brand and for two that have one. -/
def threeAverages : List VolumeAverage :=
  ["1002", "9999", "1001"].map fun symbol =>
    ⟨symbol, default, ⟨0, by decide, by decide⟩, ⟨0, by decide, by decide⟩⟩

theorem high_volume_paged_threeAverages :
    Brands.threeBrands.InRun ∧ Brands.threeBrands.Open ∧
      (threeAverages.map VolumeAverage.symbol).Nodup ∧ Binding.text "1000" = .ok () ∧ (0 : Int64) < 1 ∧
      ∃ rows, Lists Brands.threeBrands.order "1000" (Brands.threeBrands.withAverages threeAverages).store
          rows ∧
        rows.map HighVolumeBrand.symbol = ["1001", "1002"] ∧
        ∃ pages, Walk 1 (Brands.threeBrands.withAverages threeAverages) "1000" pages ∧
          pages.flatten = rows := by
  have hrun : Brands.threeBrands.InRun := ⟨_, _, _, _, LeadsTo.refl.request (.call _)⟩
  have hopen : Brands.threeBrands.Open := open_of_live (by decide +kernel) (by decide +kernel)
  have hdifferent : (threeAverages.map VolumeAverage.symbol).Nodup := by decide
  obtain ⟨rows, hrows, -, hwalks, pages, hwalk, hlast⟩ := (high_volume_paged "1000" 1).1 _ _ hrun hopen
    hdifferent rfl (by decide)
  refine ⟨hrun, hopen, hdifferent, rfl, by decide, rows, hrows, ?_, pages, hwalk,
    (hwalks pages hwalk).2 hlast⟩
  rw [hrows.eq (lists_joined (joinable_withAverages hrun hdifferent) Brands.threeBrands.order "1000")]
  decide +kernel

/-- The store takes no text with the character U+0000, so such a cursor has no page. -/
theorem nul_cursor_has_no_page :
    ¬ ∀ (s : Session) (averages : List VolumeAverage) (cursor : String) (limit : Int64), s.InRun →
      s.Open → (averages.map VolumeAverage.symbol).Nodup → 0 < limit →
        ∃ rows, Lists s.order cursor (s.withAverages averages).store rows ∧
          (page cursor limit (s.withAverages averages)).1 = .ok (rows.take limit.toInt.toNat) := by
  intro hpages
  obtain ⟨rows, -, hpage⟩ := hpages (.start .live (fun _ => .epoch) toString) [] "\x00" 1
    ⟨_, _, _, _, .refl⟩ rfl List.nodup_nil (by decide)
  cases hpage

end HighVolume

end PriceArchive
