import PriceArchive.Proofs.Session.Solo
import PriceArchive.Proofs.Work.Served

namespace PriceArchive

open Session

namespace Request

/-- In a transaction that runs, an operation has the answer that it has without one, unless a
statement is turned down; then the transaction is aborted. -/
theorem attempt_enter {r : Request} (hop : r.isOperation = true) {s t : Session}
    (hlive : s.server = .live) (hs : s.transaction = none) {start : Store} {d : Option String}
    {answer : Except Error r.Reply}
    (h : Action.attempt r.perform (s.enter start d) = (.ok answer, t)) :
    (¬ Exchange.Refused ⟨r, s.supply, answer⟩ ∧
      ∃ u, Action.attempt r.perform s = (.ok answer, u) ∧ t = u.enter start d ∧
        u.server = .live ∧ u.transaction = none) ∨
    (Exchange.Refused ⟨r, s.supply, answer⟩ ∧ t.transaction = some .aborted ∧ t.store = start) := by
  have halone := (perform_sends hop).stays_live hlive hs
  rcases (perform_sends hop).enter hlive hs start d with ⟨hno, hstep⟩ | ⟨hrefused, hstep⟩
  · left
    rcases Action.attempt_eq_ok h with ⟨x, hx, rfl⟩ | ⟨e, he, rfl⟩
    · rw [hstep, Prod.mk.injEq] at hx
      have hvalue : r.perform s = (.ok x, (r.perform s).2) := Prod.ext hx.1 rfl
      exact ⟨nofun, _, Action.attempt_of_ok hvalue, hx.2.symm, halone.1, halone.2⟩
    · rw [hstep, Prod.mk.injEq] at he
      have herror : r.perform s = (.error (.error e), (r.perform s).2) := Prod.ext he.1 rfl
      rw [he.1, ← Exchange.refused_error_iff] at hno
      exact ⟨hno, _, Action.attempt_of_error herror, he.2.symm, halone.1, halone.2⟩
  · right
    rcases Action.attempt_eq_ok h with ⟨x, hx, rfl⟩ | ⟨e, he, rfl⟩
    · rw [hstep, Prod.mk.injEq] at hx
      rw [hx.1] at hrefused
      exact absurd hrefused (Action.not_refused_ok x)
    · rw [hstep, Prod.mk.injEq] at he
      obtain ⟨he, rfl⟩ := he
      rw [he, ← Exchange.refused_error_iff] at hrefused
      exact ⟨hrefused, rfl, rfl⟩

end Request

namespace Work

variable {ε α : Type}

/-- Once the transaction is aborted nothing is written before the unit ends. -/
theorem perform_aborted {w : Work ε α} (hw : w.NeverRollsBack) {s : Session}
    (hs : s.transaction = some .aborted) :
    (w.perform s).2.transaction = some .aborted ∧ (w.perform s).2.store = s.store := by
  refine perform_preserves (I := fun t => t.transaction = some .aborted ∧ t.store = s.store)
    (fun r t hr ht => ?_) hw ⟨hs, rfl⟩
  by_cases hop : r.isOperation = true
  · have hstays := (Request.perform_sends hop).stays_aborted ht.1
    exact ⟨hstays.1, hstays.2.trans ht.2⟩
  have hin : t.inTransaction = true := by simp [Session.inTransaction, ht.1]
  cases r with
  | nestedUnit =>
    rw [Request.nestedUnit_perform hin]
    exact ht
  | inTransaction => exact ht
  | rollBack => exact absurd rfl hr
  | breakDeferred =>
    rw [Request.breakDeferred_perform_aborted ht.1]
    exact ht
  | _ => exact absurd rfl hop

/-- A work run in a transaction either meets no refusal, and its operations made one after another
without a transaction have the same answers and write the same, or it meets one and the store is
back at the start. -/
theorem perform_enter {w : Work ε α} (hw : w.NeverRollsBack) {s t : Session}
    (hlive : s.server = .live) (hs : s.transaction = none) {start : Store} {d : Option String}
    {result : Except ε α} (h : w.perform (s.enter start d) = (.ok result, t)) :
    ((∀ x ∈ w.exchanges (s.enter start d), ¬ x.Refused) ∧
      ∃ u d', Redone s (w.exchanges (s.enter start d)) u ∧ t = u.enter start d' ∧
        u.transaction = none) ∨
    ((∃ x ∈ w.exchanges (s.enter start d), x.Refused) ∧
      t.transaction = some .aborted ∧ t.store = start) := by
  induction w generalizing s d with
  | done r =>
    cases h
    exact .inl ⟨by simp [exchanges], s, d, .nil s, rfl, hs⟩
  | ask r next ih =>
    rw [perform_ask] at h
    rcases hanswer : Action.attempt r.perform (s.enter start d) with ⟨halt | answer, v⟩
    · rw [hanswer] at h
      cases h
    rw [hanswer] at h
    dsimp only at h
    rw [exchanges_ask_of_ok hanswer, enter_supply]
    simp only [List.mem_cons, forall_eq_or_imp, exists_eq_or_imp]
    -- A request that leaves the session as it is, or only the deferred constraint, goes by.
    have passes (hop : r.isOperation = false) (d' : Option String) (hv : v = s.enter start d')
        (hno : ¬ Exchange.Refused ⟨r, s.supply, answer⟩) :
        ((¬ Exchange.Refused ⟨r, s.supply, answer⟩ ∧
            ∀ x ∈ (next answer).exchanges v, ¬ x.Refused) ∧
          ∃ u d', Redone s (⟨r, s.supply, answer⟩ :: (next answer).exchanges v) u ∧
            t = u.enter start d' ∧ u.transaction = none) ∨
        ((Exchange.Refused ⟨r, s.supply, answer⟩ ∨ ∃ x ∈ (next answer).exchanges v, x.Refused) ∧
          t.transaction = some .aborted ∧ t.store = start) := by
      subst hv
      rcases ih answer (hw.2 answer) hlive hs h with ⟨hall, u, d'', hredone, ht, hu⟩ | ⟨hex, ht⟩
      · exact .inl ⟨⟨hno, hall⟩, u, d'', .other hop hredone, ht, hu⟩
      · exact .inr ⟨.inr hex, ht⟩
    by_cases hop : r.isOperation = true
    · rcases Request.attempt_enter hop hlive hs hanswer with
        ⟨hno, q, hq, rfl, hqlive, hqnone⟩ | ⟨hrefused, hv⟩
      · rcases ih answer (hw.2 answer) hqlive hqnone h with
          ⟨hall, u, d', hredone, ht, hu⟩ | ⟨hex, ht⟩
        · exact .inl ⟨⟨hno, hall⟩, u, d', .operation hop rfl hq hredone, ht, hu⟩
        · exact .inr ⟨.inr hex, ht⟩
      · have hstays := perform_aborted (hw.2 answer) hv.1
        rw [h] at hstays
        exact .inr ⟨.inl hrefused, hstays.1, hstays.2.trans hv.2⟩
    cases r with
    | nestedUnit =>
      rw [Request.attempt_nestedUnit rfl] at hanswer
      cases hanswer
      exact passes rfl d rfl (by rintro ⟨operation, refusal, heq⟩; cases heq)
    | inTransaction =>
      cases hanswer
      exact passes rfl d rfl (by rintro ⟨operation, refusal, heq⟩; cases heq)
    | rollBack => exact absurd rfl hw.1
    | breakDeferred =>
      cases hanswer
      exact passes rfl (some deferredConstraint) rfl
        (by rintro ⟨operation, refusal, heq⟩; cases heq)
    | _ => exact absurd rfl hop

/-- A unit that is committed got a connection and ran its work to a value in a transaction of its own. -/
theorem perform_of_committed {w : Work ε α} (hw : w.NeverRollsBack) {s t : Session}
    (hs : s.transaction = none) {a : α} (h : w.performAsUnit s = (.ok (.committed a), t)) :
    s.server.refusal = none ∧ ∃ u, w.perform s.begun = (.ok (.ok a), u) ∧ t = u.alone := by
  have hin := perform_inUnit hw s.begun_inUnit
  cases hrefusal : s.server.refusal with
  | some reason =>
    rw [performAsUnit, asUnit_of_refusal _ hrefusal hs] at h
    cases h
  | none =>
    rw [performAsUnit, asUnit_of_given _ hrefusal hs] at h
    rcases hperform : w.perform s.begun with ⟨halt | (e | b), u⟩
    · rw [hperform] at h
      cases h
    · rw [hperform] at h
      cases h
    · rw [hperform] at h hin
      dsimp only at h hin
      rcases hin.commit with hcommit | ⟨constraint, -, hcommit⟩
      · rw [hcommit] at h
        cases h
        exact ⟨rfl, u, rfl, rfl⟩
      · rw [hcommit] at h
        cases h

/-- What a unit does it does on every server that gives it its connection. -/
theorem perform_solo_begun {w : Work ε α} {s u : Session} {result : Except ε α}
    (h : w.perform s.begun = (.ok result, u)) :
    w.perform (s.solo.enter s.store none) = (.ok result, u.served .live) := by
  have hserved := (w.perform_unserved (s := s.begun) rfl).2 .live
  rw [h] at hserved
  exact hserved

theorem exchanges_solo_begun (w : Work ε α) (s : Session) :
    w.exchanges (s.solo.enter s.store none) = w.exchanges s.begun :=
  w.exchanges_served (s := s.begun) rfl .live

/-- An operation inside a unit that ends with a value has ended with one itself, and outside the unit
it does the same. -/
theorem perform_call_bind {c : Call} {f : c.Reply → Work Error α} {s u : Session}
    (hlive : s.server = .live) (hs : s.transaction = none) {start : Store} {d : Option String}
    {a : α} (h : (Work.call c >>= f).perform (s.enter start d) = (.ok (.ok a), u)) :
    ∃ x t, c.perform s = (.ok x, t) ∧ t.server = .live ∧ t.transaction = none ∧
      (f x).perform (t.enter start d) = (.ok (.ok a), u) := by
  change (ask (.call c) fun reply => (done reply).andThen f).perform (s.enter start d) = _ at h
  rw [perform_ask] at h
  rcases hanswer : Action.attempt (Request.call c).perform (s.enter start d) with ⟨halt | answer, v⟩
  · rw [hanswer] at h
    cases h
  rw [hanswer] at h
  dsimp only at h
  cases answer with
  | error e => cases h
  | ok x =>
    rcases Request.attempt_enter rfl hlive hs hanswer with
      ⟨-, t, ht, rfl, htlive, htnone⟩ | ⟨⟨operation, r, hrefused⟩, -⟩
    · refine ⟨x, t, ?_, htlive, htnone, h⟩
      rcases Action.attempt_eq_ok ht with ⟨y, hy, heq⟩ | ⟨e, -, heq⟩
      · cases heq
        exact hy
      · cases heq
    · cases hrefused

/-- An operation that ends with a value without a transaction does the same inside a unit. -/
theorem perform_call_bind_of_ok {c : Call} {s t : Session} (hlive : s.server = .live)
    (hs : s.transaction = none) {x : c.Reply} (h : c.perform s = (.ok x, t)) (start : Store)
    (d : Option String) :
    t.server = .live ∧ t.transaction = none ∧ ∀ {α : Type} (f : c.Reply → Work Error α),
      (Work.call c >>= f).perform (s.enter start d) = (f x).perform (t.enter start d) := by
  have halone := c.perform_sends.stays_live hlive hs
  rw [h] at halone
  refine ⟨halone.1, halone.2, fun {α} f => ?_⟩
  change (ask (.call c) fun reply => (done reply).andThen f).perform (s.enter start d) = _
  rcases c.perform_sends.enter hlive hs start d with ⟨-, hstep⟩ | ⟨hrefused, -⟩
  · rw [h] at hstep
    have hanswer : Action.attempt (Request.call c).perform (s.enter start d) =
        (.ok (.ok x), t.enter start d) := Action.attempt_of_ok hstep
    exact perform_ask_of_ok hanswer
  · rw [h] at hrefused
    exact absurd hrefused (Action.not_refused_ok x)

/-- A work that ends with its value in a transaction of its own, in which no deferred constraint is
broken, ends with it as a unit. -/
theorem runAsUnit_of_perform {w : Work Error α} {s t : Session} {a : α}
    (hgiven : s.server.refusal = none) (hs : s.transaction = none) (ht : t.transaction = none)
    (h : w.perform s.begun = (.ok (.ok a), t.enter s.store none)) : w.runAsUnit s = (.ok a, t) := by
  have hin : InUnit s.store (t.enter s.store none) := .inl ⟨none, rfl⟩
  have hcommit : Action.attempt commit (t.enter s.store none) = (.ok (.ok ()), t) := by
    rcases hin.commit with hcommit | ⟨constraint, hbroken, -⟩
    · rwa [alone_enter ht] at hcommit
    · cases hbroken
  have hunit : w.performAsUnit s = (.ok (.committed a), t) := by
    rw [performAsUnit, asUnit_of_given _ hgiven hs, h]
    simp only [hcommit]
  rw [runAsUnit, Action.bind_of_ok hunit]
  rfl

/-- A unit of work is kept as a whole or not at all. Without a connection the work is not run. A work
that ends with an error, or breaks off, leaves the store as it was. One that ends with a value is kept
unless a deferred constraint is broken, and as long as the store turned no statement of it down, its
operations have the answers that they have when they are made one after another without a transaction
on a server that can be reached, and lead to the same session. A unit inside another is not run and
changes nothing. -/
theorem performAsUnit_all_or_nothing (w : Work ε α) (hw : w.NeverRollsBack) (s : Session)
    (hs : s.transaction = none) :
    (∀ reason, s.server.refusal = some reason →
      w.performAsUnit s = (.ok (.notBegun (.poolUnavailable reason)), s.asked)) ∧
    (s.server.refusal = none →
      (∀ e t, w.perform s.begun = (.ok (.error e), t) →
        w.performAsUnit s = (.ok (.failed e), t.restored s.store)) ∧
      (∀ halt t, w.perform s.begun = (.error halt, t) →
        w.performAsUnit s = (.error halt, t.restored s.store)) ∧
      (∀ a t, w.perform s.begun = (.ok (.ok a), t) →
        (∃ constraint, t.transaction = some (.running s.store (some constraint)) ∧
          w.performAsUnit s =
            (.ok (.uncommitted a (.commitFailed (.refused (.duplicateKey constraint)) none)),
              t.restored s.store)) ∨
        (w.performAsUnit s = (.ok (.committed a), t.alone) ∧
          ((∀ x ∈ w.exchanges s.begun, ¬ x.Refused) →
            let operations := (w.exchanges s.begun).filter fun x => x.request.isOperation
            let again : Work ε Unit := inOrder (operations.map Exchange.request)
            again.exchanges (s.served .live) = operations ∧
              again.perform (s.served .live) = (.ok (.ok ()), t.alone.served .live))))) ∧
    (∀ t : Session, t.inTransaction = true →
      (∀ (δ β : Type) (inner : Work δ β),
        inner.performAsUnit t = (.ok (.notBegun .nestedUnit), t)) ∧
      (∀ next : Except Error Unit → Work ε α,
        (ask .nestedUnit next).perform t = (next (.error .nestedUnit)).perform t)) := by
  have hin := perform_inUnit hw s.begun_inUnit
  refine ⟨fun reason hrefusal => asUnit_of_refusal _ hrefusal hs, fun hgiven => ⟨?_, ?_, ?_⟩, ?_⟩
  · intro e t h
    rw [h] at hin
    rw [performAsUnit, asUnit_of_given _ hgiven hs, h]
    simp only [hin.rolledBack]
  · intro halt t h
    rw [h] at hin
    rw [performAsUnit, asUnit_of_given _ hgiven hs, h]
    simp only [hin.rolledBack]
  · intro a t h
    rw [h] at hin
    rw [performAsUnit, asUnit_of_given _ hgiven hs, h]
    rcases hin.commit with hcommit | ⟨constraint, hbroken, hcommit⟩
    · refine .inr ⟨by simp only [hcommit], fun hkept => ?_⟩
      have hserved : s.served .live = s.solo := congrArg (Session.mk .live s.store · s.supply s.order) hs
      rw [hserved, ← exchanges_solo_begun]
      rw [← exchanges_solo_begun] at hkept
      rcases perform_enter hw rfl rfl (perform_solo_begun h) with
        ⟨_, u, d, hredone, ht, hu⟩ | ⟨⟨x, hx, hrefused⟩, _⟩
      · rw [show t.alone.served .live = (t.served .live).alone from rfl, ht, alone_enter hu]
        exact hredone.exchanges_inOrder
      · exact absurd hrefused (hkept x hx)
    · exact .inl ⟨constraint, hbroken, by simp only [hcommit]⟩
  · intro t ht
    exact ⟨fun δ β inner => asUnit_of_inTransaction inner.perform ht,
      fun next => perform_ask_of_ok (Request.attempt_nestedUnit ht)⟩

/-- A work that reports a brand, asks for a unit of its own and gives up. -/
def reportAndGiveUp : Work Error Nat :=
  ask (.call (.upsertBrands [⟨"b1", "1001", "N", .empty, .empty, .empty, .epoch⟩])) fun _ =>
    ask .nestedUnit fun _ => fail (.notFound "x")

/-- The brand that the work writes on an empty store is gone when the unit has ended. -/
theorem performAsUnit_reportAndGiveUp :
    let s := Session.start .live (fun _ => .epoch) toString
    reportAndGiveUp.NeverRollsBack ∧ s.transaction = none ∧
      (reportAndGiveUp.perform s.begun).2.store.brands.length = 1 ∧ s.store.brands.length = 0 ∧
      reportAndGiveUp.performAsUnit s =
        (.ok (.failed (.notFound "x")), (reportAndGiveUp.perform s.begun).2.restored s.store) := by
  intro s
  have hasks : reportAndGiveUp.NeverRollsBack := ⟨nofun, fun _ => ⟨nofun, fun _ => trivial⟩⟩
  have hfails : reportAndGiveUp.perform s.begun =
      (.ok (.error (.notFound "x")), (reportAndGiveUp.perform s.begun).2) :=
    Prod.ext (by with_unfolding_all rfl) rfl
  have hunit := performAsUnit_all_or_nothing reportAndGiveUp hasks s rfl
  exact ⟨hasks, rfl, by with_unfolding_all rfl, rfl, (hunit.2.1 rfl).1 _ _ hfails⟩

end Work

end PriceArchive
