import PriceArchive.Proofs.Calendar.DaysBefore
import PriceArchive.Proofs.Cleanup.Exact

namespace PriceArchive

/-- The reports on two removals are together the report on one. -/
structure CleanupReport.AddUp (first second whole : CleanupReport) : Prop where
  apart : first.brandIds.Disjoint second.brandIds
  brandIds : (first.brandIds ++ second.brandIds).Perm whole.brandIds
  symbols : (first.symbols ++ second.symbols).Perm whole.symbols
  daily : first.dailyDeleted + second.dailyDeleted = whole.dailyDeleted
  forAnalysis : first.forAnalysisDeleted + second.forAnalysisDeleted = whole.forAnalysisDeleted
  snapshots : first.snapshotsDeleted + second.snapshotsDeleted = whole.snapshotsDeleted

section Contains

variable {ρ β : Type} [BEq β] [LawfulBEq β] (f : ρ → β) (rows : List ρ)

theorem contains_congr {xs ys : List β} (h : ∀ y, y ∈ xs ↔ y ∈ ys) (y : β) :
    xs.contains y = ys.contains y := by
  rw [Bool.eq_iff_iff, List.contains_iff_mem, List.contains_iff_mem, h]

omit [LawfulBEq β] in
theorem filter_not_contains_append (xs ys : List β) :
    (rows.filter fun r => !(xs ++ ys).contains (f r)) =
      (rows.filter fun r => !xs.contains (f r)).filter fun r => !ys.contains (f r) := by
  rw [List.filter_filter]
  refine List.filter_congr fun r _ => ?_
  rw [List.contains_append, Bool.not_or, Bool.and_comm]

omit [LawfulBEq β] in
/-- What has one of some keys is counted where it is removed first. -/
theorem length_filter_contains_append (xs ys : List β) :
    (rows.filter fun r => (xs ++ ys).contains (f r)).length =
      (rows.filter fun r => xs.contains (f r)).length +
        ((rows.filter fun r => !xs.contains (f r)).filter fun r => ys.contains (f r)).length := by
  rw [List.filter_filter]
  induction rows with
  | nil => rfl
  | cons r rows ih =>
    simp only [List.filter_cons, List.contains_append] at ih ⊢
    cases xs.contains (f r) <;> cases ys.contains (f r) <;> simp <;> omega

end Contains

namespace Store

theorem without_without (s : Store) (first second : List BrandRow) :
    (s.without first).without second = s.without (first ++ second) := by
  simp only [without, List.map_append, filter_not_contains_append]

/-- Which brands are removed decides what is left, not their order. -/
theorem without_congr (s : Store) {doomed doomed' : List BrandRow} (h : ∀ b, b ∈ doomed ↔ b ∈ doomed') :
    s.without doomed = s.without doomed' := by
  have hids : ∀ y, (doomed.map Brand.id).contains y = (doomed'.map Brand.id).contains y :=
    contains_congr fun y => by simp only [List.mem_map, h]
  have hsymbols : ∀ y,
      (doomed.map Brand.symbol).contains y = (doomed'.map Brand.symbol).contains y :=
    contains_congr fun y => by simp only [List.mem_map, h]
  simp only [without, hids, hsymbols]

end Store

namespace Cleanup

/-- Two removals of different brands, one after the other, are reported as the removal of them all. -/
theorem reportOn_addUp {first second whole : List BrandRow} (h : (first ++ second).Perm whole)
    (hids : (whole.map Brand.id).Nodup) (limit₁ limit₂ limit : Instant) (s : Store) :
    CleanupReport.AddUp (reportOn limit₁ s first) (reportOn limit₂ (s.without first) second)
      (reportOn limit s whole) := by
  have hpermIds := h.map Brand.id
  have hpermSymbols := h.map Brand.symbol
  rw [List.map_append] at hpermIds hpermSymbols
  have hsameIds := contains_congr fun y => hpermIds.mem_iff (a := y)
  have hsameSymbols := contains_congr fun y => hpermSymbols.mem_iff (a := y)
  refine ⟨?_, hpermIds, hpermSymbols, ?_, ?_, ?_⟩
  · exact List.disjoint_of_nodup_append (hpermIds.nodup_iff.mpr hids)
  · simp only [reportOn, ← hsameIds]
    exact (length_filter_contains_append _ _ _ _).symm
  · simp only [reportOn, ← hsameSymbols]
    exact (length_filter_contains_append _ _ _ _).symm
  · simp only [reportOn, ← hsameIds]
    exact (length_filter_contains_append _ _ _ _).symm

variable {order : TextOrder} {rows : List BrandRow} {bound₁ bound₂ : StoredTime}

/-- Some brand is removed by a cleanup with the first bound but would be spared by one with the second. -/
def Spares (bound₁ bound₂ : StoredTime) (rows : List BrandRow) : Prop :=
  ∃ b ∈ rows, b.isActive = true ∧ bound₂ ≤ b.updatedAt ∧ b.updatedAt < bound₁

theorem not_spares_of_le (h : bound₁ ≤ bound₂) : ¬ Spares bound₁ bound₂ rows := by
  rintro ⟨b, -, -, hle, hlt⟩
  change bound₂.micros ≤ b.updatedAt.micros at hle
  change b.updatedAt.micros < bound₁.micros at hlt
  change bound₁.micros ≤ bound₂.micros at h
  omega

/-- The brands that a second cleanup removes are those that the first one has left. -/
theorem mem_doomed_after (h : Brands.WellFormed rows) {b : BrandRow} :
    b ∈ doomed order bound₂ (rows.filter fun b =>
        !((doomed order bound₁ rows).map Brand.id).contains b.id) ↔
      b ∈ rows ∧ b.isActive = true ∧ b.updatedAt < bound₂ ∧ ¬ b.updatedAt < bound₁ := by
  rw [filter_doomed h, mem_doomed (h.filter _), List.mem_filter]
  constructor
  · rintro ⟨⟨hb, hkept⟩, hactive, hlt⟩
    rw [hactive, Bool.true_and, Bool.not_eq_true', decide_eq_false_iff_not] at hkept
    exact ⟨hb, hactive, hlt, hkept⟩
  · rintro ⟨hb, hactive, hlt, hkept⟩
    refine ⟨⟨hb, ?_⟩, hactive, hlt⟩
    rw [hactive, Bool.true_and, Bool.not_eq_true', decide_eq_false_iff_not]
    exact hkept

theorem nodup_doomed_ids (h : Brands.WellFormed rows) (order : TextOrder) (bound : StoredTime) :
    ((doomed order bound rows).map Brand.id).Nodup := by
  rw [doomed_eq h]
  refine ((sortBy_perm _).map Brand.id).nodup_iff.mpr (h.ids.sublist ?_)
  exact (List.filter_sublist.trans List.filter_sublist).map _

/-- One cleanup after another has removed what either of them would have removed. -/
theorem mem_doomed_append (h : Brands.WellFormed rows) {b : BrandRow} :
    b ∈ doomed order bound₁ rows ++
        doomed order bound₂ (rows.filter fun b =>
          !((doomed order bound₁ rows).map Brand.id).contains b.id) ↔
      b ∈ rows ∧ b.isActive = true ∧ (b.updatedAt < bound₁ ∨ b.updatedAt < bound₂) := by
  rw [List.mem_append, mem_doomed h, mem_doomed_after h]
  by_cases hfirst : b.updatedAt < bound₁
  · simp [hfirst]
  · simp [hfirst]

/-- What is removed first and what is removed then are the brands that the second cleanup alone would
have removed, unless it would have spared some of them. -/
theorem doomed_append_perm (h : Brands.WellFormed rows) (hspares : ¬ Spares bound₁ bound₂ rows) :
    (doomed order bound₁ rows ++ doomed order bound₂
        (rows.filter fun b => !((doomed order bound₁ rows).map Brand.id).contains b.id)).Perm
      (doomed order bound₂ rows) := by
  have hfirst := (nodup_doomed_ids h order bound₁).of_map
  have hsecond := (nodup_doomed_ids (h.filter fun b =>
    !((doomed order bound₁ rows).map Brand.id).contains b.id) order bound₂).of_map
  have hdisjoint : (doomed order bound₁ rows).Disjoint (doomed order bound₂
      (rows.filter fun b => !((doomed order bound₁ rows).map Brand.id).contains b.id)) := by
    intro b hb hb'
    exact ((mem_doomed_after h).mp hb').2.2.2 ((mem_doomed h).mp hb).2.2
  rw [List.perm_ext_iff_of_nodup (hfirst.append hsecond hdisjoint) (nodup_doomed_ids h order bound₂).of_map]
  intro b
  rw [mem_doomed_append h, mem_doomed h]
  refine and_congr_right fun hb => and_congr_right fun hactive => or_iff_right_of_imp fun hlt => ?_
  apply Classical.byContradiction
  intro hkept
  exact hspares ⟨b, hb, hactive, Int.not_lt.mp hkept, hlt⟩

/-- The first of two cleanups makes a difference to what is left only by brands that the second one would
have spared. -/
theorem without_append_eq_iff {s : Store} (h : Brands.WellFormed s.brands) :
    s.without (doomed order bound₁ s.brands ++
        doomed order bound₂ (s.without (doomed order bound₁ s.brands)).brands) =
        s.without (doomed order bound₂ s.brands) ↔ ¬ Spares bound₁ bound₂ s.brands := by
  constructor
  · rintro hsame ⟨b, hb, hactive, hle, hlt⟩
    have hleft : b ∈ (s.without (doomed order bound₂ s.brands)).brands := by
      change b ∈ s.brands.filter _
      rw [filter_doomed h, List.mem_filter, hactive, Bool.true_and, Bool.not_eq_true',
        decide_eq_false_iff_not]
      exact ⟨hb, Int.not_lt.mpr hle⟩
    rw [← hsame] at hleft
    have hgone := (List.mem_filter.mp hleft).2
    rw [Bool.not_eq_true', ← Bool.not_eq_true, List.contains_iff_mem] at hgone
    exact hgone (List.mem_map_of_mem (List.mem_append_left _ ((mem_doomed h).mpr ⟨hb, hactive, hlt⟩)))
  · intro hspares
    exact s.without_congr fun b => (doomed_append_perm h hspares).mem_iff

/-- On a server that can be reached, and outside a transaction, of two cleanups with one retention either
may be run first: both end with their reports and leave the same store. It is the one that the second alone
would have left unless the first has removed a brand that the second would have spared, and then the two
reports together are that of the second alone: no brand and no row is counted twice or left out. The first
cleanup has the earlier threshold, and so removes no brand that the second would have spared, if its
instant is the earlier one and neither lies in a leap second; in the second's a leap second does no harm
when the retention is not negative. -/
theorem run_run_eq_run_iff {s : Session} {days : Int64} {now₁ now₂ limit₁ limit₂ : Instant}
    (hlive : s.server = .live) (hs : s.transaction = none) (hbrands : Brands.WellFormed s.store.brands)
    (htexts : Brands.Sendable s.store.brands) (hlimit₁ : threshold days now₁ = .ok limit₁)
    (hlimit₂ : threshold days now₂ = .ok limit₂) (hbound₁ : Binding.time limit₁ = .ok bound₁)
    (hbound₂ : Binding.time limit₂ = .ok bound₂) :
    ∃ whole first second other t u v w,
      run days now₂ s = (.ok whole, t) ∧
      run days now₁ s = (.ok first, u) ∧ run days now₂ u = (.ok second, v) ∧
      run days now₁ t = (.ok other, w) ∧ w.store = v.store ∧
      (v.store = t.store ↔ ¬ Spares bound₁ bound₂ s.store.brands) ∧
      (¬ Spares bound₁ bound₂ s.store.brands → first.AddUp second whole) ∧
      (now₁ ≤ now₂ → now₁.inLeapSecond = false →
        now₂.inLeapSecond = false ∨ 0 ≤ days.toInt → bound₁ ≤ bound₂) ∧
      (bound₁ ≤ bound₂ → ¬ Spares bound₁ bound₂ s.store.brands) := by
  refine ⟨_, _, _, _, _, _, _, _, run_of_time hlive hs htexts hlimit₂ hbound₂,
    run_of_time hlive hs htexts hlimit₁ hbound₁,
    run_of_time (by exact hlive) (by exact hs) (htexts.filter _) hlimit₂ hbound₂,
    run_of_time (by exact hlive) (by exact hs) (htexts.filter _) hlimit₁ hbound₁, ?_, ?_, ?_, ?_, ?_⟩
  · dsimp only
    rw [Store.without_without, Store.without_without]
    refine s.store.without_congr fun b => ?_
    rw [Store.without, Store.without, mem_doomed_append hbrands, mem_doomed_append hbrands, or_comm]
  · dsimp only
    rw [Store.without_without]
    exact without_append_eq_iff hbrands
  · intro hspares
    exact reportOn_addUp (doomed_append_perm hbrands hspares) (nodup_doomed_ids hbrands s.order bound₂) _ _ _ _
  · intro hle hleap₁ hleap₂
    exact Instant.bounds_le_of_le hlimit₁ hlimit₂ (Binding.time_eq_ok_iff.mp hbound₁)
      (Binding.time_eq_ok_iff.mp hbound₂) hle hleap₁ hleap₂
  · exact not_spares_of_le

/-- Then a third brand is reported, six days after the others. -/
def afterThirdBrand : Session :=
  (Brands.upsert [⟨"c", "1002", "N", .empty, .empty, .empty, startOfDay 6 (by decide)⟩]
    afterSecondBrand).2

/-- Each of two cleanups removes a brand that the second one would have removed. -/
theorem run_run_eq_run_iff_thirdBrand :
    afterThirdBrand.server = .live ∧ afterThirdBrand.transaction = none ∧
      Brands.WellFormed afterThirdBrand.store.brands ∧ Brands.Sendable afterThirdBrand.store.brands ∧
      startOfDay 2 (by decide) ≤ startOfDay 8 (by decide) ∧
      ∃ whole first second t u v,
        run 1 (startOfDay 8 (by decide)) afterThirdBrand = (.ok whole, t) ∧
        run 1 (startOfDay 2 (by decide)) afterThirdBrand = (.ok first, u) ∧
        run 1 (startOfDay 8 (by decide)) u = (.ok second, v) ∧
        first.brandIds = ["b"] ∧ whole.brandIds = ["b", "c"] ∧
        v.store = t.store ∧ first.AddUp second whole := by
  have hlive : afterThirdBrand.server = .live := by decide +kernel
  obtain ⟨hs, howned⟩ := (Ran.upsertBrands ran_afterSecondBrand
    [⟨"c", "1002", "N", .empty, .empty, .empty, startOfDay 6 (by decide)⟩]).owned
  have htexts : Brands.Sendable afterThirdBrand.store.brands := by
    unfold Brands.Sendable
    decide +kernel
  have hlimit₁ : threshold 1 (startOfDay 2 (by decide)) = .ok (startOfDay 1 (by decide)) := by
    decide +kernel
  have hlimit₂ : threshold 1 (startOfDay 8 (by decide)) = .ok (startOfDay 7 (by decide)) := by
    decide +kernel
  have hle : startOfDay 2 (by decide) ≤ startOfDay 8 (by decide) := by decide
  obtain ⟨whole, first, second, other, t, u, v, w, hwhole, hfirst, hsecond, -, -, hsame, haddUp, hbounds,
    hspares⟩ := run_run_eq_run_iff hlive hs howned.brands htexts hlimit₁ hlimit₂ rfl rfl
  have hnone := hspares (hbounds hle (by decide) (.inl (by decide)))
  have hfirstIds : (run 1 (startOfDay 2 (by decide)) afterThirdBrand).1 =
      .ok ⟨startOfDay 1 (by decide), ["b"], ["1001"], 0, 1, 1⟩ := by decide +kernel
  have hwholeIds : (run 1 (startOfDay 8 (by decide)) afterThirdBrand).1 =
      .ok ⟨startOfDay 7 (by decide), ["b", "c"], ["1001", "1002"], 0, 1, 1⟩ := by decide +kernel
  rw [hfirst] at hfirstIds
  rw [hwhole] at hwholeIds
  refine ⟨hlive, hs, howned.brands, htexts, hle, whole, first, second, t, u, v, hwhole, hfirst, hsecond,
    ?_, ?_, hsame.mpr hnone, haddUp hnone⟩
  · exact congrArg CleanupReport.brandIds (Except.ok.inj hfirstIds)
  · exact congrArg CleanupReport.brandIds (Except.ok.inj hwholeIds)

/-- Half a second into the leap second at the end of 2016. -/
def inLeapSecond2016 : Instant where
  seconds := 1483228799
  nanos := 1500000000
  min_le := by decide
  le_max := by decide
  nanos_lt := Instant.half_leap_lt

/-- The start of 2017. -/
def start2017 : Instant where
  seconds := 1483228800
  nanos := 0
  min_le := by decide
  le_max := by decide
  nanos_lt := Instant.epoch.nanos_lt

/-- A brand is reported in the first second of the last day of 2016. -/
def afterLastDayReport : Session :=
  (Brands.upsert [⟨"b1", "1001", "N", .empty, .empty, .empty,
    ⟨1483142400, 200000000, by decide, by decide, by decide⟩⟩] Work.quietStart).2

/-- A cleanup in a leap second can remove a brand that a later one, in the second after it, would have
spared: a day before, the first has the later time. -/
theorem cleanup_in_leap_second_removes_more :
    ¬ ∀ (s : Session) (days : Int64) (now₁ now₂ limit₁ limit₂ : Instant) (bound₁ bound₂ : StoredTime),
      Ran s → s.server = .live → Brands.Sendable s.store.brands → now₁ ≤ now₂ →
      threshold days now₁ = .ok limit₁ → threshold days now₂ = .ok limit₂ →
      Binding.time limit₁ = .ok bound₁ → Binding.time limit₂ = .ok bound₂ →
        (run days now₂ (run days now₁ s).2).2.store = (run days now₂ s).2.store := by
  intro hsame
  have hran : Ran afterLastDayReport := .upsertBrands (.start rfl rfl) _
  have htexts : Brands.Sendable afterLastDayReport.store.brands := by
    unfold Brands.Sendable
    decide +kernel
  have hstores := hsame afterLastDayReport 1 inLeapSecond2016 start2017 _ _ _ _ hran (by decide +kernel)
    htexts (by decide) rfl rfl rfl rfl
  have htwo : (run 1 start2017 (run 1 inLeapSecond2016 afterLastDayReport).2).2.store.brands.length =
      0 := by decide +kernel
  have hone : (run 1 start2017 afterLastDayReport).2.store.brands.length = 1 := by decide +kernel
  rw [hstores, hone] at htwo
  cases htwo

end Cleanup

end PriceArchive
