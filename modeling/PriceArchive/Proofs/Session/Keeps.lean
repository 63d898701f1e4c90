import PriceArchive.Proofs.Session.Solo
import PriceArchive.Work.Basic

namespace PriceArchive

namespace Session

/-- Something holds of the store and of the one to which the transaction would go back. -/
structure Keeps (J : Store → Prop) (s : Session) : Prop where
  store : J s.store
  start : ∀ start deferred, s.transaction = some (.running start deferred) → J start

theorem keeps_start {J : Store → Prop} (hJ : J .empty) (server : Server) (clock : Nat → Instant)
    (ids : Nat → String) (order : TextOrder) :
    ((start server clock ids).orderedBy order).Keeps J :=
  ⟨hJ, nofun⟩

namespace Keeps

variable {J : Store → Prop} {s : Session}

theorem run (h : s.Keeps J) {α : Type} (operation : String) {st : Statement α}
    (hst : ∀ x next, st s.store = .ok (x, next) → J next) : (run operation st s).2.Keeps J := by
  obtain ⟨server, ⟨x, next, hanswer, hrun⟩ | ⟨start, d, hrunning, -, hrun⟩ | hrun⟩ :=
    run_cases operation st s
  · rw [hrun]
    exact ⟨hst x next hanswer, h.start⟩
  · rw [hrun]
    exact ⟨h.start start d hrunning, nofun⟩
  · rw [hrun]
    exact ⟨h.store, h.start⟩

/-- After a read the store is as before, so what follows can use the answer. -/
theorem read_bind (h : s.Keeps J) {α β : Type} (operation : String) {f : Store → Except Refusal α}
    {rest : α → Action β}
    (hrest : ∀ x, f s.store = .ok x → ∀ t : Session, t.store = s.store → t.Keeps J →
      (rest x t).2.Keeps J) :
    ((Session.run operation (.read f) >>= rest) s).2.Keeps J := by
  have hread : (Session.run operation (.read f) s).2.Keeps J :=
    h.run operation fun x next hst => (Statement.read_eq_ok hst).2 ▸ h.store
  rw [Action.bind_apply]
  rcases hrun : Session.run operation (.read f) s with ⟨halt | x, t⟩
  · rwa [hrun] at hread
  · rw [hrun] at hread
    obtain ⟨hanswer, rfl⟩ := run_read_eq_ok hrun
    exact hrest x hanswer _ (checkedOut_store s) hread

theorem beginUnit (h : s.Keeps J) : (Session.beginUnit s).2.Keeps J := by
  obtain ⟨server, store, transaction, supply, order⟩ := s
  cases transaction with
  | some tx => exact h
  | none =>
    rw [beginUnit_apply rfl]
    split
    · refine ⟨h.store, fun start d heq => ?_⟩
      cases heq
      exact h.store
    · exact ⟨h.store, nofun⟩

theorem commit (h : s.Keeps J) : (Session.commit s).2.Keeps J := by
  obtain ⟨server, store, transaction, supply, order⟩ := s
  rcases transaction with _ | ⟨start, _ | constraint⟩ | _ | _
  · exact ⟨h.store, nofun⟩
  · exact ⟨h.store, nofun⟩
  · exact ⟨h.start start _ rfl, nofun⟩
  · exact ⟨h.store, nofun⟩
  · exact ⟨h.store, nofun⟩

theorem rolledBack (h : s.Keeps J) : (Session.rolledBack s).Keeps J := by
  obtain ⟨server, store, transaction, supply, order⟩ := s
  rcases transaction with _ | ⟨start, deferred⟩ | _ | _
  · exact ⟨h.store, nofun⟩
  · exact ⟨h.start start deferred rfl, nofun⟩
  · exact ⟨h.store, nofun⟩
  · exact ⟨h.store, nofun⟩

theorem rollBackByHand (h : s.Keeps J) : (Session.rollBackByHand s).2.Keeps J := by
  obtain ⟨server, store, transaction, supply, order⟩ := s
  rcases transaction with _ | ⟨start, deferred⟩ | _ | _
  · exact h
  · exact ⟨h.start start deferred rfl, nofun⟩
  · exact ⟨h.store, nofun⟩
  · exact h

theorem breakDeferred (h : s.Keeps J) : (Session.breakDeferred s).2.Keeps J := by
  obtain ⟨server, store, transaction, supply, order⟩ := s
  rcases transaction with _ | ⟨start, deferred⟩ | _ | _
  · exact h
  · refine ⟨h.store, fun start' d heq => ?_⟩
    cases heq
    exact h.start start deferred rfl
  · exact h
  · exact h

end Keeps

end Session

open Session

/-- What every statement of an action keeps, the action keeps. -/
theorem Action.Sends.keepsBoth {J : Store → Prop} {α : Type} {a : Action α}
    (ha : a.Sends (Statement.Relates fun s t => J s → J t)) {s : Session} (hs : s.Keeps J) :
    (a s).2.Keeps J :=
  ha.preserves (fun _ _ ht => ⟨ht.store, ht.start⟩)
    (fun _ operation _ t hst ht => ht.run operation fun x next hstep => hst t.store x next hstep ht.store)
    hs

end PriceArchive
