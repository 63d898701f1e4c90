import PriceArchive.Proofs.Quotes.Days

namespace PriceArchive

open PriceArchive.Action Session

namespace Action

variable {α β : Type} {readable : Prop} {s : Session}

/-- With a value it ends only if some stored values can be read, with a conversion error only if they
cannot. -/
structure ConvertsIf (readable : Prop) (result : Except Halt α) : Prop where
  of_ok : ∀ x, result = .ok x → readable
  of_conversion : ∀ reason, result = .error (.error (.conversion reason)) → ¬ readable

theorem ConvertsIf.ok (h : readable) (x : α) : ConvertsIf readable (.ok x : Except Halt α) :=
  ⟨fun _ _ => h, nofun⟩

theorem ConvertsIf.error {halt : Halt} (h : ∀ reason, halt ≠ .error (.conversion reason)) :
    ConvertsIf readable (.error halt : Except Halt α) :=
  ⟨nofun, fun reason heq => absurd (Except.error.inj heq) (h reason)⟩

theorem ConvertsIf.ofConversion {r : Except ConversionError α} (h : (∃ x, r = .ok x) ↔ readable) :
    ConvertsIf readable (Action.ofConversion r s).1 := by
  rw [← h]
  cases r with
  | ok x => exact .ok ⟨x, rfl⟩ x
  | error e =>
    have hunreadable : ¬ ∃ x, (.error e : Except ConversionError α) = .ok x := nofun
    refine ⟨fun x hx => ?_, fun _ _ => hunreadable⟩
    cases hx

theorem ConvertsIf.map {a : Action α} (h : ConvertsIf readable (a s).1) (f : α → β) :
    ConvertsIf readable ((a >>= fun x => pure (f x)) s).1 := by
  rw [bind_apply]
  rcases has : a s with ⟨halt | x, t⟩
  · rw [has] at h
    refine ⟨nofun, fun reason heq => h.of_conversion reason ?_⟩
    cases heq
    rfl
  · rw [has] at h
    exact .ok (h.of_ok x rfl) (f x)

/-- What is converted after a read is up to what was read. -/
theorem ConvertsIf.read_bind {operation : String} {f : Store → Except Refusal α} {k : α → Action β}
    (h : ∀ x, f s.store = .ok x → ∀ t, ConvertsIf readable (k x t).1) :
    ConvertsIf readable ((run operation (.read f) >>= k) s).1 := by
  rw [bind_apply]
  by_cases hs : s.Ready
  · rcases run_of_ready hs operation (.read f) with ⟨x, next, hst, hrun⟩ | ⟨r, t, -, hrun⟩
    · rw [hrun]
      exact h x (Statement.read_eq_ok hst).1 _
    · rw [hrun]
      exact .error nofun
  · obtain ⟨e, he, hrun⟩ := run_of_not_ready hs operation (.read f)
    rw [hrun]
    refine .error fun reason heq => ?_
    cases heq
    exact he.elim

theorem ConvertsIf.read {operation : String} {f : Store → Except Refusal α} (h : readable) :
    ConvertsIf readable (run operation (.read f) s).1 := by
  rw [← bind_pure (run operation (.read f))]
  exact .read_bind fun x _ _ => .ok h x

end Action

namespace Quotes

variable {σ : Type} {rows : List (QuoteRow σ)}

/-- The stored prices of some quotes. -/
def pricesOf (rows : List (QuoteRow σ)) : List Binary64 := rows.flatMap fun r => r.bar.prices

theorem forall_pricesOf_iff {Q : Binary64 → Prop} :
    (∀ x ∈ pricesOf rows, Q x) ↔ ∀ r ∈ rows, ∀ x ∈ r.bar.prices, Q x := by
  simp only [pricesOf, List.mem_flatMap]
  exact ⟨fun h r hr x hx => h x ⟨r, hr, hx⟩, fun h x ⟨r, hr, hx⟩ => h r hr x hx⟩

/-- A quote whose volume is not negative can be read exactly if its prices can. -/
theorem ofRow_readable_iff_prices {r : QuoteRow σ} (hvolume : 0 ≤ r.bar.volume.toInt) :
    (∃ x, ofRow r = .ok x) ↔ ∀ x ∈ r.bar.prices, Price.Readable x := by
  have hread : ∃ volume, Bar.readVolume r.bar.volume = .ok volume := by
    refine ⟨_, if_neg ?_⟩
    rw [Int64.lt_iff_toInt_lt]
    simpa using hvolume
  rw [ofRow_readable_iff, Bar.exists_ofStored_iff, and_iff_right hread]

/-- Quotes can be read together exactly if each of them can. -/
theorem exists_ofRows_iff : (∃ xs, ofRows rows = .ok xs) ↔ ∀ r ∈ rows, ∃ x, ofRow r = .ok x := by
  refine ⟨?_, fun h => (ofRows_of_readable h).imp fun _ hxs => hxs.1⟩
  rintro ⟨xs, hxs⟩
  induction rows generalizing xs with
  | nil => simp
  | cons row rest ih =>
    obtain ⟨x, hx, hrest⟩ := bind_eq_ok_iff.mp hxs
    obtain ⟨others, hothers, -⟩ := bind_eq_ok_iff.mp hrest
    exact List.forall_mem_cons.mpr ⟨⟨x, hx⟩, ih others hothers⟩

theorem exists_ofRows_iff_prices (hvolumes : ∀ r ∈ rows, 0 ≤ r.bar.volume.toInt) :
    (∃ xs, ofRows rows = .ok xs) ↔ ∀ x ∈ pricesOf rows, Price.Readable x := by
  rw [exists_ofRows_iff, forall_pricesOf_iff]
  exact forall₂_congr fun r hr => ofRow_readable_iff_prices (hvolumes r hr)

theorem mem_of_latestOf {r : QuoteRow σ} (h : latestOf rows = some r) : r ∈ rows := by
  induction rows generalizing r with
  | nil => cases h
  | cons row rest ih =>
    unfold latestOf at h
    split at h
    · cases h
      exact List.mem_cons_self
    · rename_i other hother
      split at h
      · cases h
        exact List.mem_cons_self
      · cases h
        exact List.mem_cons_of_mem row (ih hother)

variable [Subject σ] {series : Series σ} {s : Session}

/-- The rows with which a read of the latest quote is answered. -/
def latestRows (series : Series σ) (subject : List String) (s : Store) : List (QuoteRow σ) :=
  (latestOf (ofSubject subject (series.get s))).toList

/-- The rows with which a listing is answered. -/
def listedRows (series : Series σ) (subject : List String) (range : DateRange) (s : Store) :
    List (QuoteRow σ) :=
  (ofSubject subject (series.get s)).filter fun r => decide (range.Covers r.date.toInstant.date)

theorem latestRows_subset (series : Series σ) (subject : List String) (s : Store) :
    latestRows series subject s ⊆ series.get s := by
  intro r hr
  exact List.mem_of_mem_filter (mem_of_latestOf (Option.mem_toList.mp hr))

theorem listedRows_subset (series : Series σ) (subject : List String) (range : DateRange)
    (s : Store) : listedRows series subject range s ⊆ series.get s := by
  intro r hr
  exact List.mem_of_mem_filter (List.mem_of_mem_filter hr)

theorem latest_convertsIf (hvolumes : ∀ r ∈ series.get s.store, 0 ≤ r.bar.volume.toInt)
    (subject : List String) (what : String) :
    ConvertsIf (∀ x ∈ pricesOf (latestRows series subject s.store), Price.Readable x)
      (latest series subject what s).1 := by
  refine .read_bind fun row hrow t => ?_
  obtain ⟨_, -, hlatest⟩ := bind_eq_ok_iff.mp hrow
  cases hlatest
  rw [latestRows]
  cases hlatest : latestOf (ofSubject subject (series.get s.store)) with
  | none => exact .error fun _ h => by cases h
  | some row =>
    have hmem := List.mem_of_mem_filter (mem_of_latestOf hlatest)
    refine .ofConversion ?_
    rw [Option.toList_some, forall_pricesOf_iff, List.forall_mem_singleton]
    exact ofRow_readable_iff_prices (hvolumes row hmem)

theorem list_convertsIf (hvolumes : ∀ r ∈ series.get s.store, 0 ≤ r.bar.volume.toInt)
    (subject : List String) (range : DateRange) :
    ConvertsIf (∀ x ∈ pricesOf (listedRows series subject range s.store), Price.Readable x)
      (list series subject range s).1 := by
  rw [list]
  cases hbound : range.upperBound with
  | error o => exact .error fun _ h => by cases h
  | ok bound =>
    refine .read_bind fun rows hrows t => ?_
    obtain ⟨_, -, hbounds⟩ := bind_eq_ok_iff.mp hrows
    obtain ⟨lower, hlower, hbounds⟩ := bind_eq_ok_iff.mp hbounds
    obtain ⟨upper, hupper, hlisted⟩ := bind_eq_ok_iff.mp hbounds
    have hrange : range.Accepted lower upper := ⟨hlower, bound, hbound, hupper⟩
    have hmem : ∀ r, r ∈ rows ↔ r ∈ listedRows series subject range s.store := by
      intro r
      rw [← Except.ok.inj hlisted, mem_sortBy, listedRows, List.mem_filter, List.mem_filter,
        within_iff_covers hrange, decide_eq_true_eq]
    refine .ofConversion ?_
    rw [exists_ofRows_iff_prices fun r hr =>
      hvolumes r (listedRows_subset series subject range s.store ((hmem r).mp hr))]
    simp only [forall_pricesOf_iff, hmem]

theorem listBySymbol_convertsIf (hvolumes : ∀ r ∈ series.get s.store, 0 ≤ r.bar.volume.toInt)
    (f : QuoteFilter) :
    ConvertsIf (∀ x ∈ pricesOf (listedRows series [f.symbol] f.range s.store), Price.Readable x)
      (listBySymbol series f s).1 := by
  by_cases hsymbol : f.symbol = ""
  · have hfails : (listBySymbol series f s).1 =
        .error (.error (.invalidInput "ticker symbol is required")) := by
      rw [listBySymbol, hsymbol]
      rfl
    rw [hfails]
    exact .error fun _ h => by cases h
  · change ConvertsIf _ (listBySymbol series ⟨f.symbol, f.range⟩ s).1
    rw [listBySymbol_eq series hsymbol]
    exact list_convertsIf hvolumes [f.symbol] f.range

end Quotes

namespace Snapshots

/-- The stored prices of some snapshots. -/
def pricesOf (rows : List SnapshotRow) : List Binary64 :=
  rows.flatMap fun r => [r.tradePrice, r.currentPrice]

/-- The rows with which a read of the snapshot of a brand is answered. -/
def foundRows (brandId : String) (s : Store) : List SnapshotRow :=
  (s.snapshots.find? fun r => decide (r.brandId = brandId)).toList

theorem foundRows_subset (brandId : String) (s : Store) : foundRows brandId s ⊆ s.snapshots :=
  fun _ hr => List.mem_of_find?_eq_some (Option.mem_toList.mp hr)

theorem exists_ofRow_iff {r : SnapshotRow} :
    (∃ x, ofRow r = .ok x) ↔ ∀ x ∈ pricesOf [r], Price.Readable x := by
  simp only [ofRow, bind_eq_ok_iff, pure, Except.pure, Except.ok.injEq, pricesOf, Price.Readable,
    List.flatMap_cons, List.flatMap_nil, List.append_nil, List.forall_mem_cons]
  constructor
  · rintro ⟨x, trade, htrade, current, hcurrent, -⟩
    exact ⟨⟨trade, htrade⟩, ⟨current, hcurrent⟩, by simp⟩
  · rintro ⟨⟨trade, htrade⟩, ⟨current, hcurrent⟩, -⟩
    exact ⟨_, trade, htrade, current, hcurrent, rfl⟩

theorem find_convertsIf (brandId : String) (s : Session) :
    ConvertsIf (∀ x ∈ pricesOf (foundRows brandId s.store), Price.Readable x)
      (find brandId s).1 := by
  refine .read_bind fun row hrow t => ?_
  obtain ⟨_, -, hfind⟩ := bind_eq_ok_iff.mp hrow
  cases hfind
  rw [foundRows]
  cases hfind : s.store.snapshots.find? fun r => decide (r.brandId = brandId) with
  | none => exact .ok (by simp [pricesOf]) none
  | some row =>
    rw [Option.toList_some, ← exists_ofRow_iff]
    exact ConvertsIf.map (.ofConversion Iff.rfl) some

end Snapshots

end PriceArchive
