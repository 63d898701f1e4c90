import PriceArchive.Proofs.Action.Sends
import PriceArchive.Work.Basic

namespace PriceArchive

namespace Session

variable {α : Type}

/-- The session in a transaction that runs. -/
def enter (s : Session) (start : Store) (deferred : Option String) : Session :=
  { s with transaction := some (.running start deferred) }

/-- The session in a transaction that was aborted. -/
def abort (s : Session) (start : Store) : Session :=
  { s with store := start, transaction := some .aborted }

/-- The session after someone has asked for a connection. -/
def asked (s : Session) : Session := { s with server := s.server.asked }

theorem asked_of_live {s : Session} (hlive : s.server = .live) : s.asked = s := by
  rw [asked, hlive]
  exact congrArg (fun server => { s with server := server }) hlive.symm

@[simp] theorem enter_store (s : Session) (start : Store) (d : Option String) :
    (s.enter start d).store = s.store := rfl

@[simp] theorem enter_supply (s : Session) (start : Store) (d : Option String) :
    (s.enter start d).supply = s.supply := rfl

theorem runAlone_apply (operation : String) (st : Statement α) (s : Session) :
    runAlone operation st s =
      match st s.store with
      | .ok (a, store) => (.ok a, { s with store := store })
      | .error r => (.error (.error (.query operation (.refused r))), s) := by
  simp only [runAlone, Action.get_bind_apply]
  cases st s.store with
  | ok answer => rfl
  | error r => rfl

theorem checkOut_apply (s : Session) :
    checkOut s =
      match s.server.refusal with
      | none => (.ok (), s.asked)
      | some reason => (.error (.error (.poolUnavailable reason)), s.asked) := by
  obtain ⟨server, store, transaction, supply, order⟩ := s
  rcases server with _ | reason | ⟨_ | reason, later⟩ <;> rfl

/-- A unit of work is begun on a connection of its own. -/
theorem beginUnit_apply {s : Session} (hs : s.transaction = none) :
    beginUnit s =
      match s.server.refusal with
      | none => (.ok (), s.asked.enter s.store none)
      | some reason => (.error (.error (.poolUnavailable reason)), s.asked) := by
  obtain ⟨server, store, transaction, supply, order⟩ := s
  cases hs
  rcases server with _ | reason | ⟨_ | reason, later⟩ <;> rfl

theorem run_of_given {s : Session} (hgiven : s.server.refusal = none) (hs : s.transaction = none)
    (operation : String) (st : Statement α) :
    run operation st s =
      match st s.store with
      | .ok (a, store) => (.ok a, { s.asked with store := store })
      | .error r => (.error (.error (.query operation (.refused r))), s.asked) := by
  have hcheck := checkOut_apply s
  rw [hgiven] at hcheck
  obtain ⟨server, store, transaction, supply, order⟩ := s
  cases hs
  exact (Action.bind_of_ok hcheck).trans (runAlone_apply operation st _)

/-- Without a connection no statement is sent. -/
theorem run_of_refusal {s : Session} {reason : String} (hrefusal : s.server.refusal = some reason)
    (hs : s.transaction = none) (operation : String) (st : Statement α) :
    run operation st s = (.error (.error (.poolUnavailable reason)), s.asked) := by
  have hcheck := checkOut_apply s
  rw [hrefusal] at hcheck
  obtain ⟨server, store, transaction, supply, order⟩ := s
  cases hs
  change (checkOut >>= fun _ => runAlone operation st) _ = _
  rw [Action.bind_apply, hcheck]

theorem run_alone {s : Session} (hlive : s.server = .live) (hs : s.transaction = none)
    (operation : String) (st : Statement α) :
    run operation st s =
      match st s.store with
      | .ok (a, store) => (.ok a, { s with store := store })
      | .error r => (.error (.error (.query operation (.refused r))), s) := by
  rw [run_of_given (by rw [hlive]; rfl) hs, asked_of_live hlive]

theorem run_ended {s : Session} (hs : s.transaction = some .ended) (operation : String)
    (st : Statement α) :
    run operation st s =
      match st s.store with
      | .ok (a, store) => (.ok a, { s with store := store })
      | .error r => (.error (.error (.query operation (.refused r))), s) := by
  obtain ⟨server, store, transaction, supply, order⟩ := s
  cases hs
  exact runAlone_apply operation st _

theorem run_enter (s : Session) (start : Store) (d : Option String) (operation : String)
    (st : Statement α) :
    run operation st (s.enter start d) =
      match st s.store with
      | .ok (a, store) => (.ok a, { s with store := store }.enter start d)
      | .error r => (.error (.error (.query operation (.refused r))), s.abort start) := by
  change runInside start operation st (s.enter start d) = _
  simp only [runInside, Action.get_bind_apply, enter_store]
  cases hst : st s.store with
  | ok answer => rfl
  | error r => rfl

theorem run_aborted {s : Session} (hs : s.transaction = some .aborted) (operation : String)
    (st : Statement α) :
    run operation st s =
      (.error (.error (.query operation (.refused .transactionAborted))), s) := by
  obtain ⟨server, store, transaction, supply, order⟩ := s
  cases hs
  rfl

/-- What a statement does to the session: it is kept, or it is turned down and the transaction is
aborted, or nothing is changed; without a transaction it has asked for a connection. -/
theorem run_cases (operation : String) (st : Statement α) (s : Session) :
    ∃ server,
      (∃ x next, st s.store = .ok (x, next) ∧
        (run operation st s).2 = { s with server := server, store := next }) ∨
      (∃ start d, s.transaction = some (.running start d) ∧ Action.Refused (run operation st s).1 ∧
        (run operation st s).2 = s.abort start) ∨
      (run operation st s).2 = { s with server := server } := by
  obtain ⟨server, store, transaction, supply, order⟩ := s
  rcases transaction with _ | ⟨start, d⟩ | _ | _
  · refine ⟨server.asked, ?_⟩
    cases hrefusal : server.refusal with
    | none =>
      rw [run_of_given hrefusal rfl]
      cases hst : st store with
      | ok answer => exact .inl ⟨answer.1, answer.2, rfl, rfl⟩
      | error r => exact .inr (.inr rfl)
    | some reason =>
      rw [run_of_refusal hrefusal rfl]
      exact .inr (.inr rfl)
  · have hrun := run_enter ⟨server, store, none, supply, order⟩ start d operation st
    rw [enter] at hrun
    rw [hrun]
    cases hst : st store with
    | ok answer => exact ⟨server, .inl ⟨answer.1, answer.2, rfl, rfl⟩⟩
    | error r => exact ⟨server, .inr (.inl ⟨start, d, rfl, ⟨operation, r, rfl⟩, rfl⟩)⟩
  · rw [run_aborted rfl]
    exact ⟨server, .inr (.inr rfl)⟩
  · rw [run_ended rfl]
    cases hst : st store with
    | ok answer => exact ⟨server, .inl ⟨answer.1, answer.2, rfl, rfl⟩⟩
    | error r => exact ⟨server, .inr (.inr rfl)⟩

theorem run_order (operation : String) (st : Statement α) (s : Session) :
    (run operation st s).2.order = s.order := by
  obtain ⟨server, ⟨x, next, -, hrun⟩ | ⟨start, d, -, -, hrun⟩ | hrun⟩ := run_cases operation st s <;>
    rw [hrun]
  rfl

end Session

namespace Action.Sends

variable {P : StatementClass} {α : Type} {a : Action α}

/-- The store goes on ordering texts as it does. -/
theorem keeps_order (h : a.Sends P) (s : Session) : (a s).2.order = s.order :=
  h.preserves (I := fun t => t.order = s.order) (fun _ _ ht => ht)
    (fun _ operation st t _ ht => (Session.run_order operation st t).trans ht) rfl

/-- Without a transaction an action leaves it so. -/
theorem stays_alone (h : a.Sends P) {s : Session} (hs : s.transaction = none) :
    (a s).2.transaction = none := by
  refine h.preserves (I := fun t => t.transaction = none) (fun _ _ ht => ht) ?_ hs
  intro β operation st t _ ht
  cases hrefusal : t.server.refusal with
  | none =>
    rw [Session.run_of_given hrefusal ht]
    cases st t.store with
    | ok answer => exact ht
    | error r => exact ht
  | some reason =>
    rw [Session.run_of_refusal hrefusal ht]
    exact ht

/-- On a server that can be reached an action leaves it so too. -/
theorem stays_live (h : a.Sends P) {s : Session} (hlive : s.server = .live)
    (hs : s.transaction = none) : (a s).2.server = .live ∧ (a s).2.transaction = none := by
  refine h.preserves (I := fun t => t.server = .live ∧ t.transaction = none)
    (fun _ _ ht => ht) ?_ ⟨hlive, hs⟩
  intro β operation st t _ ht
  rw [Session.run_alone ht.1 ht.2]
  cases st t.store with
  | ok answer => exact ht
  | error r => exact ht

/-- What every statement of an action keeps true of the store, the action keeps true of it without a
transaction, however it ends. -/
theorem keeps (h : a.Sends P) {J : Store → Prop}
    (hJ : ∀ β (st : Statement β) store x next, P β st → J store → st store = .ok (x, next) → J next)
    {s : Session} (hs : s.transaction = none) (hstore : J s.store) : J (a s).2.store := by
  refine (h.preserves (I := fun t => t.transaction = none ∧ J t.store) (fun _ _ ht => ht) ?_
    ⟨hs, hstore⟩).2
  intro β operation st t hst ht
  cases hrefusal : t.server.refusal with
  | none =>
    rw [Session.run_of_given hrefusal ht.1]
    cases hanswer : st t.store with
    | ok answer => exact ⟨ht.1, hJ β st t.store answer.1 answer.2 hst ht.2 hanswer⟩
    | error r => exact ht
  | some reason =>
    rw [Session.run_of_refusal hrefusal ht.1]
    exact ht

/-- In an aborted transaction an action writes nothing, and the transaction stays aborted. -/
theorem stays_aborted (h : a.Sends P) {s : Session} (hs : s.transaction = some .aborted) :
    (a s).2.transaction = some .aborted ∧ (a s).2.store = s.store := by
  refine h.preserves (I := fun t => t.transaction = some .aborted ∧ t.store = s.store)
    (fun _ _ ht => ht) ?_ ⟨hs, rfl⟩
  intro β operation st t _ ht
  rw [Session.run_aborted ht.1]
  exact ht

/-- In a transaction that runs, an action ends as it does without one and writes the same; only when
a statement is turned down is the transaction aborted and the store back at its start. -/
theorem enter (h : a.Sends P) {s : Session} (hlive : s.server = .live)
    (hs : s.transaction = none) (start : Store) (d : Option String) :
    (¬ Refused (a s).1 ∧ a (s.enter start d) = ((a s).1, (a s).2.enter start d)) ∨
      (Refused (a s).1 ∧ a (s.enter start d) = ((a s).1, (a s).2.abort start)) := by
  induction h generalizing s with
  | pure a => exact .inl ⟨nofun, rfl⟩
  | throw e he => exact .inl ⟨he, rfl⟩
  | now => exact .inl ⟨nofun, rfl⟩
  | freshId => exact .inl ⟨nofun, rfl⟩
  | run operation st _ =>
    rw [Session.run_alone hlive hs, Session.run_enter]
    cases st s.store with
    | ok answer => exact .inl ⟨nofun, rfl⟩
    | error r => exact .inr ⟨⟨operation, r, rfl⟩, rfl⟩
  | withOrder _ ih => exact ih s.order hlive hs
  | @bind _ _ a f ha _ iha ihf =>
    have halone := ha.stays_live hlive hs
    rcases iha hlive hs with ⟨hno, hstep⟩ | ⟨hrefused, hstep⟩
    · rw [bind_apply, bind_apply, hstep]
      rcases has : a s with ⟨halt | x, t⟩
      · rw [has] at hno
        exact .inl ⟨fun hrefused => hno hrefused.error, rfl⟩
      · rw [has] at halone
        exact ihf x halone.1 halone.2
    · rw [bind_apply, bind_apply, hstep]
      rcases has : a s with ⟨halt | x, t⟩
      · rw [has] at hrefused
        exact .inr ⟨hrefused.error, rfl⟩
      · rw [has] at hrefused
        exact absurd hrefused (not_refused_ok x)

end Action.Sends

end PriceArchive
