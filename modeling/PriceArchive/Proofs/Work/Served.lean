import PriceArchive.Proofs.Work.Unit

namespace PriceArchive

open Session

/-- The session on another server. -/
def Session.served (s : Session) (server : Server) : Session := { s with server := server }

@[simp] theorem Session.served_supply (s : Session) (server : Server) :
    (s.served server).supply = s.supply := rfl

/-- The server has no part in the action: it runs alike on every server and stays in its transaction. -/
def Action.Unserved {α : Type} (a : Action α) (s : Session) : Prop :=
  (a s).2.inTransaction = true ∧ ∀ server, a (s.served server) = ((a s).1, (a s).2.served server)

namespace Action.Unserved

variable {α β : Type} {s : Session}

theorem bind {a : Action α} {f : α → Action β} (ha : a.Unserved s)
    (hf : ∀ x t, a s = (.ok x, t) → t.inTransaction = true → (f x).Unserved t) :
    (a >>= f).Unserved s := by
  obtain ⟨hin, hserved⟩ := ha
  unfold Unserved
  simp only [bind_apply, hserved]
  rcases has : a s with ⟨halt | x, t⟩
  · rw [has] at hin
    exact ⟨hin, fun _ => rfl⟩
  · rw [has] at hin
    exact hf x t has hin

theorem attempt {a : Action α} (ha : a.Unserved s) : (attempt a).Unserved s := by
  obtain ⟨hin, hserved⟩ := ha
  unfold Unserved Action.attempt
  simp only [hserved]
  rcases has : a s with ⟨(e | o) | x, t⟩ <;> rw [has] at hin <;> exact ⟨hin, fun _ => rfl⟩

end Action.Unserved

open PriceArchive.Action

/-- In a transaction a statement is sent on the connection that the transaction has. -/
theorem Session.run_unserved {α : Type} {s : Session} (hs : s.inTransaction = true)
    (operation : String) (st : Statement α) : (run operation st).Unserved s := by
  obtain ⟨server, store, transaction, supply, order⟩ := s
  rcases transaction with _ | ⟨start, d⟩ | _ | _
  · cases hs
  · have hrun : ∀ server, run operation st ⟨server, store, some (.running start d), supply, order⟩ = _ :=
      fun server => run_enter ⟨server, store, none, supply, order⟩ start d operation st
    refine ⟨?_, fun server' => ?_⟩
    · rw [hrun]
      cases st store <;> rfl
    · rw [served, hrun, hrun]
      cases st store <;> rfl
  · exact ⟨rfl, fun _ => rfl⟩
  · refine ⟨?_, fun server' => ?_⟩
    · rw [run_ended rfl]
      cases st store <;> rfl
    · rw [served, run_ended rfl, run_ended rfl]
      cases st store <;> rfl

theorem Action.Sends.unserved {P : StatementClass} {α : Type} {a : Action α} (h : a.Sends P)
    {s : Session} (hs : s.inTransaction = true) : a.Unserved s := by
  induction h generalizing s with
  | pure a => exact ⟨hs, fun _ => rfl⟩
  | throw e he => exact ⟨hs, fun _ => rfl⟩
  | now => exact ⟨hs, fun _ => rfl⟩
  | freshId => exact ⟨hs, fun _ => rfl⟩
  | run operation st _ => exact run_unserved hs operation st
  | withOrder _ ih => exact ih s.order hs
  | bind _ _ iha ihf => exact (iha hs).bind fun x t _ ht => ihf x ht

theorem Request.perform_unserved (r : Request) {s : Session} (hs : s.inTransaction = true) :
    r.perform.Unserved s := by
  by_cases hop : r.isOperation = true
  · exact (perform_sends hop).unserved hs
  obtain ⟨server, store, transaction, supply, order⟩ := s
  cases r with
  | nestedUnit =>
    refine ⟨?_, fun server' => ?_⟩
    · rw [nestedUnit_perform hs]
      exact hs
    · rw [nestedUnit_perform hs, nestedUnit_perform (by exact hs)]
  | inTransaction => exact ⟨hs, fun _ => rfl⟩
  | rollBack =>
    rcases transaction with _ | ⟨start, d⟩ | _ | _
    · cases hs
    all_goals exact ⟨rfl, fun _ => rfl⟩
  | breakDeferred =>
    rcases transaction with _ | ⟨start, d⟩ | _ | _
    · cases hs
    all_goals exact ⟨rfl, fun _ => rfl⟩
  | _ => exact absurd rfl hop

namespace Work

variable {ε α : Type}

theorem perform_unserved (w : Work ε α) {s : Session} (hs : s.inTransaction = true) :
    w.perform.Unserved s := by
  induction w generalizing s with
  | done result => exact ⟨hs, fun _ => rfl⟩
  | ask r next ih => exact (r.perform_unserved hs).attempt.bind fun answer t _ ht => ih answer ht

/-- In a transaction a work asks for no connection. -/
theorem server_of_perform {w : Work ε α} {s t : Session} (hs : s.inTransaction = true)
    {result : Except Halt (Except ε α)} (h : w.perform s = (result, t)) : t.server = s.server := by
  have hserved := (w.perform_unserved hs).2 s.server
  rw [show s.served s.server = s from rfl, h] at hserved
  exact congrArg (fun ended => ended.2.server) hserved

/-- In a transaction the requests of a work go alike on every server. -/
theorem exchanges_served (w : Work ε α) {s : Session} (hs : s.inTransaction = true)
    (server : Server) : w.exchanges (s.served server) = w.exchanges s := by
  induction w generalizing s with
  | done result => rfl
  | ask r next ih =>
    obtain ⟨hin, hserved⟩ := (r.perform_unserved hs).attempt
    rw [exchanges, exchanges, hserved]
    rcases hanswer : Action.attempt r.perform s with ⟨halt | answer, t⟩
    · rfl
    · rw [hanswer] at hin
      dsimp only
      rw [ih answer hin, served_supply]

end Work

end PriceArchive
