import PriceArchive.Model.Bar
import PriceArchive.Proofs.Price.Readable
import PriceArchive.Proofs.Table.Binding

namespace PriceArchive

/-- The prices of a stored day. -/
def StoredBar.prices (bar : StoredBar) : List Binary64 :=
  [bar.opening, bar.high, bar.low, bar.closing, bar.adjustedClosing]

namespace Bar

variable {bar b : Bar} {stored : StoredBar}

/-- The prices of a day. -/
def prices (bar : Bar) : List Decimal :=
  [bar.opening, bar.high, bar.low, bar.closing, bar.adjustedClosing]

/-- All prices are below a hundred billion in size. -/
def Ordinary (bar : Bar) : Prop := ∀ p ∈ bar.prices, |p.value| < 100000000000

instance (bar : Bar) : Decidable bar.Ordinary := inferInstanceAs (Decidable (∀ p ∈ _, _))

/-- A bar is stored with its prices stored one by one, if its volume can be stored. -/
theorem toStored_eq_ok_iff : bar.toStored = .ok stored ↔
    storedVolume bar.volume = .ok stored.volume ∧
      stored.prices = bar.prices.map Price.toStored := by
  obtain ⟨opening, high, low, closing, adjustedClosing, volume⟩ := stored
  simp only [toStored, bind_eq_ok_iff, pure, Except.pure, Except.ok.injEq, BarOf.mk.injEq,
    StoredBar.prices, prices, List.map_cons, List.map_nil, List.cons.injEq, and_true]
  grind

/-- A stored bar is read with its prices read one by one, if its volume can be read. -/
theorem ofStored_eq_ok_iff : ofStored stored = .ok b ↔
    readVolume stored.volume = .ok b.volume ∧
      List.Forall₂ (fun x p => Price.ofStored x = .ok p) stored.prices b.prices := by
  obtain ⟨opening, high, low, closing, adjustedClosing, volume⟩ := b
  simp only [ofStored, bind_eq_ok_iff, pure, Except.pure, Except.ok.injEq, BarOf.mk.injEq,
    StoredBar.prices, prices, List.forall₂_cons, List.forall₂_nil_left_iff, and_true]
  grind

/-- A stored bar can be read exactly if its volume and its prices can. -/
theorem exists_ofStored_iff : (∃ b, ofStored stored = .ok b) ↔
    (∃ volume, readVolume stored.volume = .ok volume) ∧
      ∀ x ∈ stored.prices, Price.Readable x := by
  simp only [ofStored, bind_eq_ok_iff, pure, Except.pure, Except.ok.injEq, StoredBar.prices,
    Price.Readable, List.forall_mem_cons]
  constructor
  · rintro ⟨b, volume, hvolume, opening, hopening, high, hhigh, low, hlow, closing, hclosing,
      adjusted, hadjusted, -⟩
    exact ⟨⟨volume, hvolume⟩, ⟨opening, hopening⟩, ⟨high, hhigh⟩, ⟨low, hlow⟩,
      ⟨closing, hclosing⟩, ⟨adjusted, hadjusted⟩, by simp⟩
  · rintro ⟨⟨volume, hvolume⟩, ⟨opening, hopening⟩, ⟨high, hhigh⟩, ⟨low, hlow⟩,
      ⟨closing, hclosing⟩, ⟨adjusted, hadjusted⟩, -⟩
    exact ⟨_, volume, hvolume, opening, hopening, high, hhigh, low, hlow, closing, hclosing,
      adjusted, hadjusted, rfl⟩

/-- A volume that can be stored is not negative then, and it is read back. -/
theorem storedVolume_eq_ok {volume : UInt64} {x : Int64} (h : storedVolume volume = .ok x) :
    x.toInt = volume.toNat ∧ readVolume x = .ok volume := by
  unfold storedVolume at h
  split at h
  · rename_i hvolume
    have hpow : Nat.pow 2 63 = 9223372036854775808 := by decide
    have hx : x.toInt = volume.toNat := by
      cases h
      change volume.toBitVec.toInt = _
      rw [BitVec.toInt_eq_toNat_of_lt]
      · rfl
      · change 2 * volume.toNat < 2 ^ 64
        omega
    refine ⟨hx, ?_⟩
    rw [readVolume, if_neg]
    · cases h
      simp
    · rw [Int64.lt_iff_toInt_lt, hx]
      simp
  · cases h

/-- A bar whose volume fits can be stored. -/
theorem exists_toStored (h : bar.volume.toNat < 2 ^ 63) : ∃ stored, bar.toStored = .ok stored := by
  have hvolume : storedVolume bar.volume = .ok bar.volume.toInt64 := if_pos h
  rw [toStored, hvolume]
  exact ⟨_, rfl⟩

/-- A volume that was narrowed is not negative. -/
theorem not_volume_neg_of_toStored (h : bar.toStored = .ok stored) : ¬ stored.volume < 0 := by
  have hvolume := (storedVolume_eq_ok (toStored_eq_ok_iff.mp h).1).1
  rw [Int64.lt_iff_toInt_lt, hvolume]
  simp

/-- What is stored for a bar can be read if this holds of what is stored for its prices; then the
volume is the same, and the prices are related to the given ones as each of them is. -/
theorem exists_ofStored {R : Decimal → Decimal → Prop} (h : bar.toStored = .ok stored)
    (hprices : ∀ p ∈ bar.prices, ∃ q, Price.ofStored (Price.toStored p) = .ok q ∧ R p q) :
    ∃ b, ofStored stored = .ok b ∧ b.volume = bar.volume ∧ List.Forall₂ R bar.prices b.prices := by
  obtain ⟨hvolume, hstored⟩ := toStored_eq_ok_iff.mp h
  simp only [prices, List.forall_mem_cons] at hprices
  obtain ⟨⟨opening, hopening, hRopening⟩, ⟨high, hhigh, hRhigh⟩, ⟨low, hlow, hRlow⟩,
    ⟨closing, hclosing, hRclosing⟩, ⟨adjusted, hadjusted, hRadjusted⟩, -⟩ := hprices
  refine ⟨⟨opening, high, low, closing, adjusted, bar.volume⟩, ofStored_eq_ok_iff.mpr ⟨?_, ?_⟩,
    rfl, ?_⟩
  · exact (storedVolume_eq_ok hvolume).2
  · rw [hstored]
    simp [prices, hopening, hhigh, hlow, hclosing, hadjusted]
  · simp [prices, hRopening, hRhigh, hRlow, hRclosing, hRadjusted]

/-- What is stored for a bar of ordinary prices can be read. -/
theorem ofStored_of_ordinary {bar : Bar} (hbar : bar.Ordinary) {stored : StoredBar}
    (h : bar.toStored = .ok stored) : ∃ b, ofStored stored = .ok b := by
  have hreadable : ∀ p ∈ bar.prices, ∃ q, Price.ofStored (Price.toStored p) = .ok q ∧ True := by
    intro p hp
    simp only [and_true]
    refine (Price.readable_iff p).mpr fun hlarge => ?_
    have hvalue := hbar p hp
    rw [Decimal.abs_value, hlarge.1, pow_zero, div_one] at hvalue
    have hmantissa : p.mantissa < 100000000000 := by exact_mod_cast hvalue
    have := hlarge.2
    omega
  obtain ⟨b, hb, -⟩ := exists_ofStored h hreadable
  exact ⟨b, hb⟩

end Bar

end PriceArchive
