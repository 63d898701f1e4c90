import PriceArchive.Proofs.Price.Bars

namespace PriceArchive

namespace Bar

/-- A price below a hundred billion in size, rounded to four fraction digits, is stored as a finite
double and read back as the rounded number. A bar of such prices, with a volume that fits, can be
stored and read, which gives every price rounded and the volume unchanged. -/
theorem ofStored_toStored_eq_round :
    (∀ d : Decimal, |(Price.round d).value| < 100000000000 →
      (Price.toStored d).IsFinite ∧
        ∃ p, Price.ofStored (Price.toStored d) = .ok p ∧ p.value = (Price.round d).value) ∧
    ∀ bar : Bar, (∀ p ∈ bar.prices, |(Price.round p).value| < 100000000000) →
      bar.volume.toNat ≤ 2 ^ 63 - 1 →
        ∃ stored b, bar.toStored = .ok stored ∧ ofStored stored = .ok b ∧ b.volume = bar.volume ∧
          List.Forall₂ (fun p q => q.value = (Price.round p).value) bar.prices b.prices := by
  refine ⟨fun d hd => ⟨Price.isFinite_toStored d, Price.value_ofStored_toStored hd⟩, ?_⟩
  intro bar hprices hvolume
  obtain ⟨stored, hstored⟩ := exists_toStored (by omega : bar.volume.toNat < 2 ^ 63)
  obtain ⟨b, hb, hbvolume, hbprices⟩ :=
    exists_ofStored hstored fun p hp => Price.value_ofStored_toStored (hprices p hp)
  exact ⟨stored, b, hstored, hb, hbvolume, hbprices⟩

/-- The largest number of fifteen digits that is rounded down to four fraction digits, below zero. -/
def lowest : Decimal := .ofParts true 99999999999999949 6 (by decide) (by decide)

/-- A bar at the limits: such prices, and the largest volume that fits. -/
def atLimits : Bar := Bar.make lowest lowest lowest lowest 9223372036854775807

theorem ofStored_toStored_atLimits :
    (∃ p, Price.ofStored (Price.toStored lowest) = .ok p ∧ p.value = (Price.round lowest).value) ∧
      ∃ stored b, atLimits.toStored = .ok stored ∧ ofStored stored = .ok b ∧
        b.volume = 9223372036854775807 ∧
          List.Forall₂ (fun p q => q.value = (Price.round p).value) atLimits.prices b.prices := by
  obtain ⟨hprice, hbar⟩ := ofStored_toStored_eq_round
  exact ⟨(hprice lowest (by decide +kernel)).2, hbar atLimits (by decide +kernel) (by decide)⟩

end Bar

end PriceArchive
