import PriceArchive.Proofs.Work.Exchange

namespace PriceArchive

namespace Session

/-- The session that has begun a unit of work. -/
def begun (s : Session) : Session := s.asked.enter s.store none

/-- The session without its transaction. -/
def alone (s : Session) : Session := { s with transaction := none }

/-- The session back at a store and without a transaction. -/
def restored (s : Session) (start : Store) : Session :=
  { s with store := start, transaction := none }

/-- The session is in the unit of work that began with `start`: its transaction runs, or was aborted
and the store is back at the start. -/
def InUnit (start : Store) (s : Session) : Prop :=
  (∃ d, s.transaction = some (.running start d)) ∨
    (s.transaction = some .aborted ∧ s.store = start)

theorem begun_inUnit (s : Session) : InUnit s.store s.begun := .inl ⟨none, rfl⟩

theorem eq_enter_of_running {s : Session} {start : Store} {d : Option String}
    (hs : s.transaction = some (.running start d)) : s = s.alone.enter start d := by
  obtain ⟨server, store, transaction, supply, order⟩ := s
  cases hs
  rfl

theorem alone_enter {s : Session} (hs : s.transaction = none) (start : Store)
    (d : Option String) : (s.enter start d).alone = s := by
  obtain ⟨server, store, transaction, supply, order⟩ := s
  cases hs
  rfl

theorem eq_mk_of_alone {s : Session} (hlive : s.server = .live) (hs : s.transaction = none) :
    s = ⟨.live, s.store, none, s.supply, s.order⟩ := by
  obtain ⟨server, store, transaction, supply, order⟩ := s
  cases hlive
  cases hs
  rfl

theorem InUnit.run {α : Type} {start : Store} {s : Session} (hs : InUnit start s)
    (operation : String) (st : Statement α) : InUnit start (run operation st s).2 := by
  rcases hs with ⟨d, hs⟩ | hs
  · rw [eq_enter_of_running hs, run_enter]
    cases st s.alone.store with
    | ok answer => exact .inl ⟨d, rfl⟩
    | error r => exact .inr ⟨rfl, rfl⟩
  · rw [run_aborted hs.1]
    exact .inr hs

theorem InUnit.inTransaction {start : Store} {s : Session} (hs : InUnit start s) :
    s.inTransaction = true := by
  rcases hs with ⟨d, hs⟩ | hs
  · simp [Session.inTransaction, hs]
  · simp [Session.inTransaction, hs.1]

theorem InUnit.rolledBack {start : Store} {s : Session} (hs : InUnit start s) :
    rolledBack s = s.restored start := by
  obtain ⟨server, store, transaction, supply, order⟩ := s
  rcases hs with ⟨d, hs⟩ | ⟨hs, rfl⟩
  · cases hs
    rfl
  · cases hs
    rfl

/-- Units of work do not nest: in a transaction, however it stands, no action is run as a unit. -/
theorem asUnit_of_inTransaction {ε α : Type} (action : Action (Except ε α)) {s : Session}
    (hs : s.inTransaction = true) :
    asUnit action s = (.ok (.notBegun .nestedUnit), s) := by
  obtain ⟨server, store, transaction, supply, order⟩ := s
  cases transaction with
  | none => cases hs
  | some tx => rfl

theorem asUnit_of_refusal {ε α : Type} (action : Action (Except ε α)) {s : Session}
    {reason : String} (hrefusal : s.server.refusal = some reason) (hs : s.transaction = none) :
    asUnit action s = (.ok (.notBegun (.poolUnavailable reason)), s.asked) := by
  have hbegin : Action.attempt beginUnit s = (.ok (.error (.poolUnavailable reason)), s.asked) :=
    Action.attempt_of_error (by rw [beginUnit_apply hs, hrefusal])
  rw [asUnit, Action.bind_of_ok hbegin]
  rfl

/-- A unit that can begin runs its action in a transaction and then commits or rolls back. -/
theorem asUnit_of_given {ε α : Type} (action : Action (Except ε α)) {s : Session}
    (hgiven : s.server.refusal = none) (hs : s.transaction = none) :
    asUnit action s =
      match action s.begun with
      | (.ok (.ok a), t) =>
        match Action.attempt commit t with
        | (.ok (.ok ()), u) => (.ok (.committed a), u)
        | (.ok (.error e), u) => (.ok (.uncommitted a e), u)
        | (.error h, u) => (.error h, u)
      | (.ok (.error e), t) => (.ok (.failed e), rolledBack t)
      | (.error h, t) => (.error h, rolledBack t) := by
  have hbegin : Action.attempt beginUnit s = (.ok (.ok ()), s.begun) :=
    Action.attempt_of_ok (by rw [beginUnit_apply hs, hgiven]; rfl)
  rw [asUnit]
  exact Action.bind_of_ok hbegin

theorem commit_settled (s : Session) : (commit s).2.transaction = none := by
  obtain ⟨server, store, transaction, supply, order⟩ := s
  rcases transaction with _ | ⟨start, _ | constraint⟩ | _ | _ <;> rfl

theorem rolledBack_settled (s : Session) : (rolledBack s).transaction = none := by
  obtain ⟨server, store, transaction, supply, order⟩ := s
  rcases transaction with _ | ⟨start, d⟩ | _ | _ <;> rfl

/-- A unit leaves no transaction behind. -/
theorem asUnit_settled {ε α : Type} (action : Action (Except ε α)) {s : Session}
    (hs : s.transaction = none) : (asUnit action s).2.transaction = none := by
  cases hrefusal : s.server.refusal with
  | some reason =>
    rw [asUnit_of_refusal _ hrefusal hs]
    exact hs
  | none =>
    rw [asUnit_of_given _ hrefusal hs]
    rcases action s.begun with ⟨halt | e | a, t⟩
    · exact rolledBack_settled t
    · exact rolledBack_settled t
    · have hcommit := commit_settled t
      rw [← Work.attempt_snd] at hcommit
      dsimp only
      rcases hanswer : Action.attempt commit t with ⟨halt | e | _, u⟩ <;> rwa [hanswer] at hcommit

/-- In its unit a session can be committed unless a deferred constraint is broken; then it is back at
the start. -/
theorem InUnit.commit {start : Store} {s : Session} (hs : InUnit start s) :
    Action.attempt commit s = (.ok (.ok ()), s.alone) ∨
      ∃ constraint, s.transaction = some (.running start (some constraint)) ∧
        Action.attempt commit s =
          (.ok (.error (.commitFailed (.refused (.duplicateKey constraint)) none)),
            s.restored start) := by
  obtain ⟨server, store, transaction, supply, order⟩ := s
  rcases hs with ⟨d, hs⟩ | ⟨hs, _⟩
  · cases hs
    cases d with
    | none => exact .inl rfl
    | some constraint => exact .inr ⟨constraint, rfl, rfl⟩
  · cases hs
    exact .inl rfl

end Session

open Session

namespace Request

theorem nestedUnit_perform {s : Session} (hs : s.inTransaction = true) :
    nestedUnit.perform s = (.error (.error .nestedUnit), s) := by
  change (asUnit _ >>= _) s = _
  rw [Action.bind_of_ok (asUnit_of_inTransaction _ hs)]
  rfl

theorem attempt_nestedUnit {s : Session} (hs : s.inTransaction = true) :
    Action.attempt nestedUnit.perform s = (.ok (.error .nestedUnit), s) := by
  unfold Action.attempt
  rw [nestedUnit_perform hs]

theorem breakDeferred_perform_running (s : Session) (start : Store) (d : Option String) :
    breakDeferred.perform (s.enter start d) =
      (.ok (2 : Nat), s.enter start (some deferredConstraint)) := rfl

theorem breakDeferred_perform_aborted {s : Session} (hs : s.transaction = some .aborted) :
    breakDeferred.perform s =
      (.error (.error (.query "break a deferred constraint" (.refused .transactionAborted))), s) := by
  obtain ⟨server, store, transaction, supply, order⟩ := s
  cases hs
  rfl

theorem perform_inUnit {r : Request} (hr : r ≠ .rollBack) {start : Store} {s : Session}
    (hs : InUnit start s) : InUnit start (r.perform s).2 := by
  by_cases hop : r.isOperation = true
  · refine (perform_sends hop).preserves (fun t supply ht => ?_) (fun β operation st t _ ht => ?_) hs
    · exact ht
    · exact ht.run operation st
  cases r with
  | nestedUnit =>
    rw [nestedUnit_perform hs.inTransaction]
    exact hs
  | inTransaction => exact hs
  | rollBack => exact absurd rfl hr
  | breakDeferred =>
    rcases hs with ⟨d, hs⟩ | hs
    · rw [eq_enter_of_running hs, breakDeferred_perform_running]
      exact .inl ⟨_, rfl⟩
    · rw [breakDeferred_perform_aborted hs.1]
      exact .inr hs
  | _ => exact absurd rfl hop

end Request

namespace Work

variable {ε α : Type}

/-- A work that leaves the end of the transaction alone stays in its unit. -/
theorem perform_inUnit {w : Work ε α} (hw : w.NeverRollsBack) {start : Store} {s : Session}
    (hs : InUnit start s) : InUnit start (w.perform s).2 :=
  perform_preserves (fun _ _ hr ht => Request.perform_inUnit hr ht) hw hs

theorem Asks.call_bind {p : Request → Prop} {c : Call} {f : c.Reply → Work Error α}
    (hc : p (.call c)) (hf : ∀ x, (f x).Asks p) : (Work.call c >>= f).Asks p := by
  refine ⟨hc, fun reply => ?_⟩
  cases reply with
  | error e => trivial
  | ok x => exact hf x

theorem NeverRollsBack.call_bind {c : Call} {f : c.Reply → Work Error α}
    (hf : ∀ x, (f x).NeverRollsBack) : (Work.call c >>= f).NeverRollsBack :=
  Asks.call_bind nofun hf

/-- A unit that is not committed leaves the store as it was. -/
theorem performAsUnit_committed_or_restored {w : Work ε α} (hw : w.NeverRollsBack) {s : Session}
    (hs : s.transaction = none) :
    (∃ a, (w.performAsUnit s).1 = .ok (.committed a)) ∨
      (w.performAsUnit s).2.store = s.store ∧ (w.performAsUnit s).2.transaction = none := by
  have hin := perform_inUnit hw s.begun_inUnit
  unfold performAsUnit
  cases hrefusal : s.server.refusal with
  | some reason =>
    rw [asUnit_of_refusal _ hrefusal hs]
    exact .inr ⟨rfl, hs⟩
  | none =>
    rw [asUnit_of_given _ hrefusal hs]
    rcases hperform : w.perform s.begun with ⟨halt | (e | a), u⟩
    · rw [hperform] at hin
      exact .inr (by simp only [hin.rolledBack]; exact ⟨rfl, rfl⟩)
    · rw [hperform] at hin
      exact .inr (by simp only [hin.rolledBack]; exact ⟨rfl, rfl⟩)
    · rw [hperform] at hin
      rcases hin.commit with hcommit | ⟨constraint, -, hcommit⟩
      · exact .inl ⟨a, by simp only [hcommit]⟩
      · exact .inr (by simp only [hcommit]; exact ⟨rfl, rfl⟩)

theorem performAsUnit_of_runAsUnit {w : Work Error α} {s t : Session} {a : α}
    (h : w.runAsUnit s = (.ok a, t)) : w.performAsUnit s = (.ok (.committed a), t) := by
  rw [runAsUnit, Action.bind_eq_ok_iff] at h
  obtain ⟨outcome, u, hunit, hresult⟩ := h
  cases outcome with
  | committed b =>
    cases hresult
    exact hunit
  | _ => cases hresult

/-- A unit that is run for its value either gives it or leaves the store as it was. -/
theorem runAsUnit_ok_or_restored {w : Work Error α} (hw : w.NeverRollsBack) {s : Session}
    (hs : s.transaction = none) :
    (∃ a t, w.runAsUnit s = (.ok a, t)) ∨
      (w.runAsUnit s).2.store = s.store ∧ (w.runAsUnit s).2.transaction = none := by
  have hunit := performAsUnit_committed_or_restored hw hs
  unfold runAsUnit
  rw [Action.bind_apply]
  rcases hperform : w.performAsUnit s with ⟨halt | outcome, t⟩
  · rw [hperform] at hunit
    exact .inr (hunit.resolve_left nofun)
  · rw [hperform] at hunit
    cases outcome with
    | committed a => exact .inl ⟨a, t, rfl⟩
    | notBegun e => exact .inr (hunit.resolve_left nofun)
    | failed e => exact .inr (hunit.resolve_left nofun)
    | uncommitted a e => exact .inr (hunit.resolve_left nofun)

end Work

end PriceArchive
