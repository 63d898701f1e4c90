import PriceArchive.Proofs.Session.Solo
import PriceArchive.Proofs.Table.Written

namespace PriceArchive

open Session

/-- The transaction was aborted on the way from one session to the other. -/
def Session.Undone (s t : Session) : Prop :=
  ∃ start d, s.transaction = some (.running start d) ∧ t.transaction = some .aborted ∧
    t.store = start

section Statements

variable {R : Store → Store → Prop}

theorem Table.write_relates {ρ κ : Type} [DecidableEq κ] (table : Table ρ κ)
    (hR : ∀ s rows stored, table.rule.upsert (table.get s) rows = .ok stored →
      R s (table.set s stored)) (bound : Except Refusal (List ρ)) :
    Statement.Relates R Nat (table.write bound) := by
  intro s n t h
  unfold write at h
  split at h
  · cases h
  · rename_i rows
    split at h
    · cases h
    · rename_i stored hstored
      cases h
      exact hR s rows stored hstored

theorem Brands.upsertStatement_relates
    (hR : ∀ s rows stored, BrandRow.rule.upsert s.brands rows = .ok stored →
      R s { s with brands := stored }) (now : Instant) (batch : List NewBrand) :
    Statement.Relates R Nat (upsertStatement now batch) := by
  cases hnow : Binding.time now with
  | ok createdAt =>
    rw [upsertStatement_eq_write hnow]
    exact Table.write_relates table hR _
  | error r =>
    intro s n t h
    rw [upsertStatement, hnow] at h
    cases h

theorem Brands.deleteStatement_relates
    (hR : ∀ s kept, R s { s with brands := s.brands.filter kept }) (ids : List String) :
    Statement.Relates R Unit (deleteStatement ids) := by
  intro s x t h
  obtain ⟨_, -, h⟩ := bind_eq_ok_iff.mp h
  cases h
  exact hR s _

theorem Brands.softDeleteStatement_relates
    (hR : ∀ s bound now, R s { s with brands := s.brands.map (softDeleteIfStale bound now) })
    (now refreshedAt : Instant) : Statement.Relates R Nat (softDeleteStatement now refreshedAt) := by
  intro s n t h
  obtain ⟨deletedAt, -, h⟩ := bind_eq_ok_iff.mp h
  obtain ⟨bound, -, h⟩ := bind_eq_ok_iff.mp h
  cases h
  exact hR s bound deletedAt

section Quotes

variable {σ : Type} [Subject σ] {series : Series σ}

theorem Quotes.upsertStatement_relates
    (hR : ∀ s rows stored, (QuoteRow.rule series.names).upsert (series.get s) rows = .ok stored →
      R s (series.set s stored)) (batch : List (QuoteOf σ Instant StoredBar)) :
    Statement.Relates R Nat (upsertStatement series batch) := by
  rw [upsertStatement_eq_write]
  exact Table.write_relates series.table hR _

omit [Subject σ] in
theorem Quotes.deleteStatement_relates
    (hR : ∀ s kept, R s (series.set s ((series.get s).filter kept))) (texts : List String)
    (doomed : QuoteRow σ → Bool) : Statement.Relates R Nat (deleteStatement series texts doomed) := by
  intro s n t h
  obtain ⟨_, -, h⟩ := bind_eq_ok_iff.mp h
  cases h
  exact hR s _

end Quotes

theorem Snapshots.upsertStatement_relates
    (hR : ∀ s rows stored, SnapshotRow.rule.upsert s.snapshots rows = .ok stored →
      R s { s with snapshots := stored }) (batch : List (SnapshotOf Instant Binary64)) :
    Statement.Relates R Nat (upsertStatement batch) := by
  rw [upsertStatement_eq_write]
  exact Table.write_relates table hR _

theorem Snapshots.deleteStatement_relates
    (hR : ∀ s kept, R s { s with snapshots := s.snapshots.filter kept }) (ids : List String) :
    Statement.Relates R Nat (deleteStatement ids) := by
  intro s n t h
  obtain ⟨_, -, h⟩ := bind_eq_ok_iff.mp h
  cases h
  exact hR s _

end Statements

namespace Action.Sends

variable {R : Store → Store → Prop} {α : Type} {a : Action α}

/-- What the statements of an action respect holds from before the action to after it, unless one of
them was turned down in a transaction that runs. -/
theorem related (h : a.Sends (Statement.Relates R)) (hrefl : ∀ s, R s s)
    (htrans : ∀ s t u, R s t → R t u → R s u) (s : Session) :
    ((a s).2.transaction = s.transaction ∧ R s.store (a s).2.store) ∨
      (Refused (a s).1 ∧ s.Undone (a s).2) := by
  induction h generalizing s with
  | pure a => exact .inl ⟨rfl, hrefl _⟩
  | throw e he => exact .inl ⟨rfl, hrefl _⟩
  | now => exact .inl ⟨rfl, hrefl _⟩
  | freshId => exact .inl ⟨rfl, hrefl _⟩
  | run operation st hst =>
    obtain ⟨server, ⟨x, next, hanswer, hrun⟩ | ⟨start, d, hrunning, hrefused, hrun⟩ | hrun⟩ :=
      run_cases operation st s
    · rw [hrun]
      exact .inl ⟨rfl, hst _ x next hanswer⟩
    · rw [hrun]
      exact .inr ⟨hrefused, start, d, hrunning, rfl, rfl⟩
    · rw [hrun]
      exact .inl ⟨rfl, hrefl _⟩
  | withOrder _ ih => exact ih s.order s
  | @bind _ _ a f _ _ iha ihf =>
    rw [bind_apply]
    rcases has : a s with ⟨halt | x, t⟩
    · have ha := iha s
      rw [has] at ha
      exact ha.imp_right fun ⟨hrefused, hundone⟩ => ⟨hrefused.error, hundone⟩
    · have ha := iha s
      rw [has] at ha
      rcases ha with ⟨hplace, hrelated⟩ | ⟨hrefused, -⟩
      · rcases ihf x t with ⟨hplace', hrelated'⟩ | ⟨hrefused, start, d, hrunning, haborted⟩
        · exact .inl ⟨hplace'.trans hplace, htrans _ _ _ hrelated hrelated'⟩
        · exact .inr ⟨hrefused, start, d, hplace ▸ hrunning, haborted⟩
      · exact absurd hrefused (not_refused_ok x)

end Action.Sends

end PriceArchive
