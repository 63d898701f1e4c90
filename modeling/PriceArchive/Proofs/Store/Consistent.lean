import PriceArchive.Proofs.Store.Sound

namespace PriceArchive

open Session

namespace Store

/-- The bars of all series. -/
def bars (s : Store) : List StoredBar :=
  s.daily.map QuoteOf.bar ++ s.forAnalysis.map QuoteOf.bar ++ s.nikkei.map QuoteOf.bar ++
    s.topix.map QuoteOf.bar

/-- All stored prices. -/
def prices (s : Store) : List Binary64 :=
  s.bars.flatMap StoredBar.prices ++ s.snapshots.flatMap fun r => [r.tradePrice, r.currentPrice]

/-- Nothing is there twice, volumes are not negative, and prices are numbers. -/
structure Consistent (s : Store) : Prop where
  brandIds : (s.brands.map Brand.id).Nodup
  activeSymbols : ((Brands.active s.brands).map Brand.symbol).Nodup
  daily : (s.daily.map fun r => (r.subject.symbol, r.date)).Nodup
  forAnalysis : (s.forAnalysis.map fun r => (r.subject.symbol, r.date)).Nodup
  nikkei : (s.nikkei.map QuoteOf.date).Nodup
  topix : (s.topix.map QuoteOf.date).Nodup
  snapshots : (s.snapshots.map SnapshotOf.brandId).Nodup
  volumes : ∀ bar ∈ s.bars, 0 ≤ bar.volume.toInt ∧ bar.volume.toInt ≤ 2 ^ 63 - 1
  prices : ∀ x ∈ s.prices, x.IsFinite

namespace Sound

variable {Q : Binary64 → Prop} {s : Store}

theorem bars (h : s.Sound Q) : ∀ bar ∈ s.bars, bar.Sound Q := by
  intro bar hbar
  simp only [Store.bars, List.mem_append, List.mem_map] at hbar
  rcases hbar with ((⟨r, hr, rfl⟩ | ⟨r, hr, rfl⟩) | ⟨r, hr, rfl⟩) | ⟨r, hr, rfl⟩
  · exact h.daily.all r hr
  · exact h.forAnalysis.all r hr
  · exact h.nikkei.all r hr
  · exact h.topix.all r hr

theorem prices (h : s.Sound Q) : ∀ x ∈ s.prices, Q x := by
  intro x hx
  rcases List.mem_append.mp hx with hx | hx
  · obtain ⟨bar, hbar, hx⟩ := List.mem_flatMap.mp hx
    exact (h.bars bar hbar).2 x hx
  · obtain ⟨r, hr, hx⟩ := List.mem_flatMap.mp hx
    obtain ⟨htrade, hcurrent⟩ := h.snapshots.all r hr
    simp only [List.mem_cons, List.not_mem_nil, or_false] at hx
    rcases hx with rfl | rfl
    · exact htrade
    · exact hcurrent

theorem consistent (h : s.Sound Binary64.IsFinite) : s.Consistent where
  brandIds := h.brands.ids
  activeSymbols := h.brands.nodup_symbols
  daily := by
    have hkeys := h.daily.keys
    exact List.Nodup.of_map (fun k : String × StoredTime => ([k.1], k.2)) (by rwa [List.map_map])
  forAnalysis := by
    have hkeys := h.forAnalysis.keys
    exact List.Nodup.of_map (fun k : String × StoredTime => ([k.1], k.2)) (by rwa [List.map_map])
  nikkei := by
    have hkeys := h.nikkei.keys
    exact List.Nodup.of_map (fun d : StoredTime => (([] : List String), d)) (by rwa [List.map_map])
  topix := by
    have hkeys := h.topix.keys
    exact List.Nodup.of_map (fun d : StoredTime => (([] : List String), d)) (by rwa [List.map_map])
  snapshots := h.snapshots.keys
  volumes bar hbar := by
    have hlt := bar.volume.toInt_lt
    exact ⟨(h.bars bar hbar).1, by omega⟩
  prices := h.prices

end Sound

end Store

theorem Call.prices_of_forall {P : Decimal → Prop} (hP : ∀ d, P d) (c : Call) : c.Prices P := by
  cases c <;> simp [Call.Prices, hP]

theorem Job.prices_of_forall {P : Decimal → Prop} (hP : ∀ d, P d) (j : Job) : j.Prices P := by
  cases j <;> simp [Job.Prices, hP]

/-- Whatever prices are handed over: the store of every session that is reached is consistent, and so is
the one to which an open transaction would go back; and every call, every unit of work inside and as a
whole, and every job, also while a transaction runs, leads from a session that is reached to another,
however it ends. -/
theorem Session.reached_consistent {s : Session} (h : Reached (fun _ => True) s) :
    s.store.Consistent ∧
      (∀ start deferred, s.transaction = some (.running start deferred) → start.Consistent) ∧
      (∀ c : Call, Reached (fun _ => True) (c.perform s).2) ∧
      (∀ (ε α : Type) (w : Work ε α), w.Asks (Request.Prices fun _ => True) →
        Reached (fun _ => True) (w.perform s).2 ∧ Reached (fun _ => True) (w.performAsUnit s).2) ∧
      ∀ (j : Job) answer t, j.run s = some (answer, t) → Reached (fun _ => True) t := by
  have hsound := h.sound (Q := Binary64.IsFinite) fun d _ => Price.isFinite_toStored d
  refine ⟨hsound.store.consistent, fun start d hrunning => (hsound.start start d hrunning).consistent,
    fun c => c.perform_reached (c.prices_of_forall fun _ => trivial) h, fun ε α w hw =>
      ⟨Work.perform_reached hw h, Work.performAsUnit_reached hw h⟩, fun j answer t hrun => ?_⟩
  exact h.job (j.prices_of_forall fun _ => trivial) hrun

namespace Store

/-- A quote of the daily series, with the largest decimal as its close. -/
def largest (volume : UInt64) : NewQuote Instrument where
  subject := ⟨"1001", "b1"⟩
  date := .epoch
  bar := Bar.make default default default
    (.ofParts false 79228162514264337593543950335 0 (by decide) (Nat.zero_le _)) volume

/-- A session in the middle of a unit, after one day was written twice. -/
def midUnit : Session :=
  ((Call.upsertDaily [largest 2]).perform
    ((Call.upsertDaily [largest 1]).perform
      (beginUnit (.start .live (fun _ => .epoch) toString)).2).2).2

theorem midUnit_reached : Reached (fun _ => True) midUnit :=
  Call.perform_reached (fun _ _ _ _ => trivial)
    (Call.perform_reached (fun _ _ _ _ => trivial) (Reached.start ..).beginUnit)

theorem reached_consistent_midUnit :
    Reached (fun _ => True) midUnit ∧ midUnit.transaction = some (.running .empty none) ∧
      midUnit.store.daily.map (fun r => r.bar.volume) = [2] ∧ midUnit.store.Consistent ∧
      Reached (fun _ => True) ((Work.call (.upsertDaily [largest 3])).performAsUnit midUnit).2 := by
  obtain ⟨hstore, -, -, hunits, -⟩ := reached_consistent midUnit_reached
  refine ⟨midUnit_reached, by decide +kernel, by decide +kernel, hstore, ?_⟩
  exact (hunits Error Nat (Work.call (.upsertDaily [largest 3]))
    ⟨fun _ _ _ _ => trivial, fun _ => trivial⟩).2

end Store

end PriceArchive
