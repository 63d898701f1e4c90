import PriceArchive.Proofs.Session.Transaction
import PriceArchive.Proofs.Table.Binding

namespace PriceArchive

namespace Supply

/-- The supply after some clock readings and ids have been taken. -/
structure Advances (before after : Supply) : Prop where
  clock : after.clock = before.clock
  ids : after.ids = before.ids
  ticks : before.ticks ≤ after.ticks
  issued : before.issued ≤ after.issued

theorem Advances.refl (supply : Supply) : supply.Advances supply :=
  ⟨rfl, rfl, Nat.le_refl _, Nat.le_refl _⟩

theorem Advances.trans {a b c : Supply} (hab : a.Advances b) (hbc : b.Advances c) : a.Advances c where
  clock := hbc.clock.trans hab.clock
  ids := hbc.ids.trans hab.ids
  ticks := Nat.le_trans hab.ticks hbc.ticks
  issued := Nat.le_trans hab.issued hbc.issued

/-- The clock readings and the ids that are still to come can be stored. -/
structure Storable (supply : Supply) : Prop where
  clock : ∀ n, supply.ticks ≤ n → StoredTime.ofInstant? (supply.clock n) ≠ none
  text : ∀ n, supply.issued ≤ n → Binding.text (supply.ids n) = .ok ()

theorem Storable.advances {a b : Supply} (h : a.Storable) (hab : a.Advances b) : b.Storable where
  clock n hn := by
    rw [hab.clock]
    exact h.clock n (Nat.le_trans hab.ticks hn)
  text n hn := by
    rw [hab.ids]
    exact h.text n (Nat.le_trans hab.issued hn)

/-- The next clock reading as it is stored. -/
theorem Storable.exists_time {supply : Supply} (h : supply.Storable) :
    ∃ t, Binding.time (supply.clock supply.ticks) = .ok t := by
  obtain ⟨t, ht⟩ := Option.ne_none_iff_exists'.mp (h.clock supply.ticks (Nat.le_refl _))
  exact ⟨t, Binding.time_eq_ok_iff.mpr ht⟩

end Supply

/-- A statement takes no clock reading and no id. -/
theorem Session.supply_run {α : Type} (operation : String) (st : Statement α) (s : Session) :
    (run operation st s).2.supply = s.supply := by
  obtain ⟨_, ⟨_, _, -, hrun⟩ | ⟨_, _, -, -, hrun⟩ | hrun⟩ := run_cases operation st s
  · rw [hrun]
  · rw [hrun]
    rfl
  · rw [hrun]

/-- However an action ends, it has done no more to the supply than to draw from it. -/
theorem Action.Sends.advances {P : StatementClass} {α : Type} {a : Action α} (h : a.Sends P)
    (s : Session) : s.supply.Advances (a s).2.supply := by
  induction h generalizing s with
  | pure a => exact .refl _
  | throw e he => exact .refl _
  | now => exact ⟨rfl, rfl, Nat.le_succ _, Nat.le_refl _⟩
  | freshId => exact ⟨rfl, rfl, Nat.le_refl _, Nat.le_succ _⟩
  | run operation st _ =>
    rw [Session.supply_run]
    exact .refl _
  | withOrder _ ih => exact ih s.order s
  | @bind _ _ a f _ _ iha ihf =>
    have hfirst := iha s
    rw [bind_apply]
    rcases ha : a s with ⟨halt | x, t⟩
    · rwa [ha] at hfirst
    · rw [ha] at hfirst
      exact hfirst.trans (ihf x t)

end PriceArchive
