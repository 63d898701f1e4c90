import PriceArchive.Proofs.Action.Conversion
import PriceArchive.Proofs.Store.Consistent

namespace PriceArchive

open PriceArchive.Action Session

namespace Call

/-- The stored prices that a reading operation selects. -/
def selected (s : Store) : Call → List Binary64
  | latestDaily symbol => Quotes.pricesOf (Quotes.latestRows Series.daily [symbol] s)
  | listDaily f => Quotes.pricesOf (Quotes.listedRows Series.daily [f.symbol] f.range s)
  | latestForAnalysis symbol => Quotes.pricesOf (Quotes.latestRows Series.forAnalysis [symbol] s)
  | listForAnalysis f => Quotes.pricesOf (Quotes.listedRows Series.forAnalysis [f.symbol] f.range s)
  | latestOfIndex index => Quotes.pricesOf (Quotes.latestRows (Series.ofIndex index) [] s)
  | listIndex index range => Quotes.pricesOf (Quotes.listedRows (Series.ofIndex index) [] range s)
  | findSnapshot brandId => Snapshots.pricesOf (Snapshots.foundRows brandId s)
  | _ => []

end Call

namespace Store

variable {s : Store}

theorem quotePrices_subset {σ : Type} {rows all : List (QuoteRow σ)} (hrows : rows ⊆ all)
    (hall : all.map QuoteOf.bar ⊆ s.bars) : Quotes.pricesOf rows ⊆ s.prices := by
  intro x hx
  obtain ⟨r, hr, hx⟩ := List.mem_flatMap.mp hx
  have hbar : r.bar ∈ s.bars := hall (List.mem_map_of_mem (hrows hr))
  exact List.mem_append_left _ (List.mem_flatMap.mpr ⟨r.bar, hbar, hx⟩)

theorem dailyBars_subset (s : Store) : (Series.daily.get s).map QuoteOf.bar ⊆ s.bars := by
  intro bar hbar
  simp only [bars, List.mem_append]
  exact .inl (.inl (.inl hbar))

theorem analysisBars_subset (s : Store) : (Series.forAnalysis.get s).map QuoteOf.bar ⊆ s.bars := by
  intro bar hbar
  simp only [bars, List.mem_append]
  exact .inl (.inl (.inr hbar))

theorem indexBars_subset (index : MarketIndex) (s : Store) :
    ((Series.ofIndex index).get s).map QuoteOf.bar ⊆ s.bars := by
  intro bar hbar
  simp only [bars, List.mem_append]
  cases index with
  | nikkei => exact .inl (.inr hbar)
  | topix => exact .inr hbar

theorem snapshotPrices_subset (s : Store) {rows : List SnapshotRow} (hrows : rows ⊆ s.snapshots) :
    Snapshots.pricesOf rows ⊆ s.prices := by
  intro x hx
  obtain ⟨r, hr, hx⟩ := List.mem_flatMap.mp hx
  exact List.mem_append_right _ (List.mem_flatMap.mpr ⟨r, hrows hr, hx⟩)

theorem selected_subset (s : Store) (c : Call) : c.selected s ⊆ s.prices := by
  cases c with
  | latestDaily symbol =>
    exact quotePrices_subset (Quotes.latestRows_subset ..) s.dailyBars_subset
  | listDaily f => exact quotePrices_subset (Quotes.listedRows_subset ..) s.dailyBars_subset
  | latestForAnalysis symbol =>
    exact quotePrices_subset (Quotes.latestRows_subset ..) s.analysisBars_subset
  | listForAnalysis f =>
    exact quotePrices_subset (Quotes.listedRows_subset ..) s.analysisBars_subset
  | latestOfIndex index =>
    exact quotePrices_subset (Quotes.latestRows_subset ..) (s.indexBars_subset index)
  | listIndex index range =>
    exact quotePrices_subset (Quotes.listedRows_subset ..) (s.indexBars_subset index)
  | findSnapshot brandId => exact s.snapshotPrices_subset (Snapshots.foundRows_subset brandId s)
  | _ => exact List.nil_subset _

end Store

/-- Where no volume is negative, a reading operation has an answer only if the prices that it selects
can be read, and ends with a conversion error only if one of them cannot. -/
theorem Call.perform_convertsIf {c : Call} (hreads : c.readsOnly = true) {s : Session}
    (hvolumes : ∀ bar ∈ s.store.bars, 0 ≤ bar.volume.toInt) :
    ConvertsIf (∀ x ∈ c.selected s.store, Price.Readable x) (c.perform s).1 := by
  have hdaily : ∀ r ∈ Series.daily.get s.store, 0 ≤ r.bar.volume.toInt := fun r hr =>
    hvolumes r.bar (s.store.dailyBars_subset (List.mem_map_of_mem hr))
  have hanalysis : ∀ r ∈ Series.forAnalysis.get s.store, 0 ≤ r.bar.volume.toInt := fun r hr =>
    hvolumes r.bar (s.store.analysisBars_subset (List.mem_map_of_mem hr))
  have hindex : ∀ index, ∀ r ∈ (Series.ofIndex index).get s.store, 0 ≤ r.bar.volume.toInt :=
    fun index r hr => hvolumes r.bar (s.store.indexBars_subset index (List.mem_map_of_mem hr))
  have hnone : ∀ x ∈ ([] : List Binary64), Price.Readable x := fun _ h => absurd h List.not_mem_nil
  cases c with
  | findBrands => exact .read hnone
  | findBrand symbol => exact .read hnone
  | findBrandsFrom cursor limit => exact .read hnone
  | filterBrands filter => exact .read hnone
  | findStaleBrands threshold => exact .read hnone
  | latestDaily symbol => exact Quotes.latest_convertsIf hdaily _ _
  | listDaily f => exact Quotes.listBySymbol_convertsIf hdaily f
  | latestForAnalysis symbol => exact Quotes.latest_convertsIf hanalysis _ _
  | listForAnalysis f => exact Quotes.listBySymbol_convertsIf hanalysis f
  | findSnapshot brandId => exact Snapshots.find_convertsIf brandId s
  | latestOfIndex index => exact Quotes.latest_convertsIf (hindex index) _ _
  | listIndex index range => exact Quotes.list_convertsIf (hindex index) _ range
  | pageHighVolume cursor limit =>
    change ConvertsIf _ (HighVolume.page cursor limit s).1
    rw [HighVolume.page]
    split
    · exact .error fun _ h => by cases h
    · exact .read hnone
  | _ => cases hreads

namespace Session

/-- What is stored for a price can be read exactly if the price is not oversize. In a session that is
reached with some prices, a reading operation that ends with a conversion error has selected what is
stored for an oversize one of them, so there is such a price; and one that has an answer has selected
nothing that is stored for an oversize price. -/
theorem reads_convert_unless_oversize {P : Decimal → Prop} {s : Session} (h : Reached P s) {c : Call}
    (hreads : c.readsOnly = true) :
    (∀ d, (∃ p, Price.ofStored (Price.toStored d) = .ok p) ↔ ¬ Price.Oversize d) ∧
      (∀ reason, (c.perform s).1 = .error (.error (.conversion reason)) →
        ∃ d, P d ∧ Price.Oversize d ∧ Price.toStored d ∈ c.selected s.store) ∧
      ∀ x, (c.perform s).1 = .ok x →
        ∀ d, Price.Oversize d → Price.toStored d ∉ c.selected s.store := by
  have hsound := (h.sound (Q := Price.StoredFrom P) fun d hd => ⟨d, hd, rfl⟩).store
  have hconverts := c.perform_convertsIf hreads fun bar hbar => (hsound.bars bar hbar).1
  refine ⟨Price.readable_iff, fun reason hfails => ?_, fun x hx d hd hmem => ?_⟩
  · have hunreadable := hconverts.of_conversion reason hfails
    push Not at hunreadable
    obtain ⟨x, hx, hunreadable⟩ := hunreadable
    obtain ⟨d, hd, rfl⟩ := hsound.prices x (s.store.selected_subset c hx)
    exact ⟨d, hd, not_not.mp fun hsize => hunreadable ((Price.readable_iff d).mpr hsize), hx⟩
  · exact (Price.readable_iff d).mp (hconverts.of_ok x hx _ hmem) hd

/-- The session after a quote was written. -/
def holding (q : NewQuote Instrument) : Session :=
  ((Call.upsertDaily [q]).perform (.start .live (fun _ => .epoch) toString)).2

/-- A quote with the largest whole close that is not oversize. -/
def almostOversize : NewQuote Instrument where
  subject := ⟨"1001", "b1"⟩
  date := .epoch
  bar := Bar.make default default default
    (.ofParts false 79228162514264333195497439231 0 (by decide) (Nat.zero_le _)) 1

/-- All quotes of the symbol. -/
def listAll : Call := .listDaily ⟨"1001", ⟨none, none⟩⟩

theorem holding_reached {P : Decimal → Prop} {q : NewQuote Instrument} (hq : ∀ p ∈ q.bar.prices, P p) :
    Reached P (holding q) :=
  Call.perform_reached (c := .upsertDaily [q]) (by simpa [Call.Prices] using hq) (Reached.start ..)

theorem list_largest :
    (Quotes.listBySymbol Series.daily ⟨"1001", ⟨none, none⟩⟩ (holding (Store.largest 1))).1 =
      .error (.error (.conversion
        "79228162514264340000000000000: Invalid decimal: overflow from too many digits")) := by
  decide +kernel

/-- The largest decimal is written, and then the series cannot be read. -/
theorem written_price_can_be_unreadable :
    (¬ ∀ d, ∃ p, Price.ofStored (Price.toStored d) = .ok p) ∧
      ¬ ∀ s, Reached (fun _ => True) s → ∀ c : Call, c.readsOnly = true →
        ∀ reason, (c.perform s).1 ≠ .error (.error (.conversion reason)) := by
  constructor
  · intro hreadable
    obtain ⟨p, hp⟩ := hreadable (Store.largest 1).bar.closing
    have herror : (Price.ofStored (Price.toStored (Store.largest 1).bar.closing)).toOption = none := by
      decide +kernel
    rw [hp] at herror
    cases herror
  · intro hreads
    exact hreads (holding (Store.largest 1)) (holding_reached fun _ _ => trivial) listAll rfl _
      list_largest

theorem reads_convert_almostOversize :
    (∃ d, Price.Oversize d ∧ Price.toStored d ∈ listAll.selected (holding (Store.largest 1)).store) ∧
      Reached (fun d => ¬ Price.Oversize d) (holding almostOversize) ∧
      (listAll.selected (holding almostOversize).store).length = 5 ∧
      ∀ reason, (listAll.perform (holding almostOversize)).1 ≠
        .error (.error (.conversion reason)) := by
  have hreached : Reached (fun d => ¬ Price.Oversize d) (holding almostOversize) :=
    holding_reached (by decide +kernel)
  obtain ⟨-, hlargest, -⟩ := reads_convert_unless_oversize
    (holding_reached (P := fun _ => True) (q := Store.largest 1) fun _ _ => trivial) (c := listAll) rfl
  obtain ⟨-, halmost, -⟩ := reads_convert_unless_oversize hreached (c := listAll) rfl
  obtain ⟨d, -, hd⟩ := hlargest _ list_largest
  refine ⟨⟨d, hd⟩, hreached, by decide +kernel, fun reason hfails => ?_⟩
  obtain ⟨d, hnot, hsize, -⟩ := halmost reason hfails
  exact hnot hsize

end Session

end PriceArchive
