import PriceArchive.Job.Basic
import PriceArchive.Proofs.Session.Keeps

namespace PriceArchive

namespace Session

variable {α : Type} {action : Action α} {s t : Session} {answer : Except Halt α}

theorem beside_of_settled (hs : s.transaction = none) : s.beside action = some (action s) := by
  obtain ⟨server, store, transaction, supply, order⟩ := s
  cases hs
  rfl

/-- How an action beside a session ends: on the session itself if it has no transaction; otherwise on the
session as others find it, and what the action keeps is laid under what the transaction wrote, if it still
runs. -/
theorem beside_cases (h : s.beside action = some (answer, t)) :
    (s.transaction = none ∧ action s = (answer, t)) ∨
      ∃ u, action s.outside = (answer, u) ∧
        ((∃ start d, s.transaction = some (.running start d) ∧
            Store.collide start s.store u.store = false ∧
            t = { u with store := .overlaid start s.store u.store }.enter u.store d) ∨
          ((s.transaction = some .aborted ∨ s.transaction = some .ended) ∧
            t = { u with transaction := s.transaction })) := by
  rcases hdone : action s.outside with ⟨answer', u⟩
  rcases htransaction : s.transaction with _ | ⟨start, d⟩ | _ | _
  · rw [beside_of_settled htransaction] at h
    exact .inl ⟨rfl, Option.some_inj.mp h⟩
  all_goals simp only [beside, htransaction, hdone] at h
  · split at h
    · cases h
    · rename_i hapart
      cases h
      exact .inr ⟨u, rfl, .inl ⟨start, d, rfl, Bool.not_eq_true _ ▸ hapart, rfl⟩⟩
  · cases h
    exact .inr ⟨u, rfl, .inr ⟨.inl rfl, rfl⟩⟩
  · cases h
    exact .inr ⟨u, rfl, .inr ⟨.inr rfl, rfl⟩⟩

/-- An action beside a session has no outcome exactly if it would keep something that is in the way of a
transaction that runs. -/
theorem beside_eq_none_iff :
    s.beside action = none ↔
      ∃ start d, s.transaction = some (.running start d) ∧
        Store.collide start s.store (action s.outside).2.store = true := by
  rcases hdone : action s.outside with ⟨answer, u⟩
  rcases htransaction : s.transaction with _ | ⟨start, d⟩ | _ | _ <;>
    simp only [beside, htransaction, hdone]
  · simp
  · constructor
    · intro h
      split at h
      · rename_i hcollide
        exact ⟨start, d, rfl, hcollide⟩
      · cases h
    · rintro ⟨start', d', heq, hcollide⟩
      cases heq
      rw [if_pos hcollide]
  · simp
  · simp

theorem outside_of_settled (hs : s.transaction = none) : s.outside = s := by
  obtain ⟨server, store, transaction, supply, order⟩ := s
  cases hs
  rfl

/-- Two sessions' stores are related, as the sessions see them and as they are committed. -/
structure Throughout (R : Store → Store → Prop) (s t : Session) : Prop where
  seen : R s.store t.store
  committed : R s.committed t.committed

/-- While the transaction stays as it is, what is committed changes only if the session's own store is it. -/
theorem Throughout.of_transaction {R : Store → Store → Prop} (hrefl : R s.committed s.committed)
    (htransaction : t.transaction = s.transaction) (hstep : R s.store t.store) : Throughout R s t := by
  refine ⟨hstep, ?_⟩
  obtain ⟨server, store, transaction, supply, order⟩ := s
  obtain ⟨server', store', transaction', supply', order'⟩ := t
  cases htransaction
  rcases transaction with _ | ⟨start, d⟩ | _ | _
  · exact hstep
  · exact hrefl
  · exact hstep
  · exact hstep

/-- What an action does outside holds of what is committed, and if it can be overlaid, of what the session
sees. -/
theorem Throughout.of_beside {R : Store → Store → Prop}
    (hoverlay : ∀ {kept}, R s.committed kept → R s.store (.overlaid s.committed s.store kept))
    (hsettled : (action s.outside).2.transaction = none)
    (hstep : R s.committed (action s.outside).2.store) (hrun : s.beside action = some (answer, t)) :
    Throughout R s t := by
  rcases beside_cases hrun with ⟨hs, hdone⟩ | ⟨u, hdone, ⟨start, d, hrunning, -, rfl⟩ | ⟨hover, rfl⟩⟩
  · have hcommitted : ∀ {v : Session}, v.transaction = none → v.committed = v.store := by
      intro v hv
      rw [Session.committed, hv]
    rw [outside_of_settled hs, hdone] at hsettled hstep
    rw [hcommitted hs] at hstep
    exact ⟨hstep, by rwa [hcommitted hs, hcommitted hsettled]⟩
  · rw [hdone] at hstep
    have hstart : s.committed = start := by rw [Session.committed, hrunning]
    exact ⟨hstart ▸ hoverlay hstep, hstep⟩
  · rw [hdone] at hstep
    have hcommitted : ∀ store, ({ s with store := store } : Session).committed = store := by
      intro store
      rcases hover with hover | hover <;> rw [Session.committed, hover]
    have hstore : s.committed = s.store := hcommitted s.store
    exact ⟨hstore ▸ hstep, (hcommitted u.store).symm ▸ hstep⟩

/-- Stores that have a property have it when one is laid over the other. -/
def KeptByOverlays (J : Store → Prop) : Prop :=
  ∀ {old mine kept : Store}, Store.collide old mine kept = false → J old → J mine → J kept →
    J (.overlaid old mine kept)

theorem Keeps.committed {J : Store → Prop} (h : s.Keeps J) : J s.committed := by
  obtain ⟨server, store, transaction, supply, order⟩ := s
  rcases transaction with _ | ⟨start, d⟩ | _ | _
  · exact h.store
  · exact h.start start d rfl
  · exact h.store
  · exact h.store

theorem Keeps.outside {J : Store → Prop} (h : s.Keeps J) : s.outside.Keeps J := ⟨h.committed, nofun⟩

/-- What an action keeps, it keeps beside a session. -/
theorem Keeps.beside {J : Store → Prop} (h : s.Keeps J) (hoverlay : KeptByOverlays J)
    (haction : ∀ u, u.Keeps J → (action u).2.Keeps J) (hrun : s.beside action = some (answer, t)) :
    t.Keeps J := by
  rcases beside_cases hrun with ⟨-, hdone⟩ | ⟨u, hdone, hended⟩
  · have hkept := haction s h
    rwa [hdone] at hkept
  have hkept := haction s.outside h.outside
  rw [hdone] at hkept
  rcases hended with ⟨start, d, hrunning, hapart, rfl⟩ | ⟨hover, rfl⟩
  · refine ⟨hoverlay hapart (h.start start d hrunning) h.store hkept.store, fun start' d' heq => ?_⟩
    cases heq
    exact hkept.store
  · refine ⟨hkept.store, fun start d hrunning => ?_⟩
    exact h.start start d hrunning

end Session

end PriceArchive
