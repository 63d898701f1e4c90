import PriceArchive.Proofs.Action.Calls
import PriceArchive.Proofs.Session.Transaction

namespace PriceArchive

namespace Request

/-- Whether the request is an operation, done in the same way with and without a transaction. -/
def isOperation : Request → Bool
  | call _ | now | seed _ | countRows | dumpBrands => true
  | nestedUnit | inTransaction | rollBack | breakDeferred => false

/-- Whether the request is an operation that writes. -/
def writes : Request → Bool
  | call c => !c.readsOnly
  | seed _ => true
  | _ => false

theorem isOperation_of_writes {r : Request} (h : r.writes = true) : r.isOperation = true := by
  cases r with
  | call c => rfl
  | seed row => rfl
  | _ => cases h

theorem seed_sends (row : SeedRow) : (Maintenance.seed row).Sends fun _ _ => True := by
  cases row with
  | _ => exact .run _ _ trivial

theorem perform_sends {r : Request} (hr : r.isOperation = true) :
    r.perform.Sends fun _ _ => True := by
  cases r with
  | call c => exact c.perform_sends
  | now => exact .now
  | seed row => exact seed_sends row
  | countRows => exact .run _ _ trivial
  | dumpBrands => exact Brands.dump_sends.mono fun _ _ _ => trivial
  | _ => cases hr

theorem perform_sends_reads {r : Request} (hr : r.isOperation = true) (hw : r.writes = false) :
    r.perform.Sends Statement.Reads := by
  cases r with
  | call c => exact Call.perform_sends_reads (by simpa [writes] using hw)
  | now => exact .now
  | seed row => cases hw
  | countRows => exact .run _ _ (.read _)
  | dumpBrands => exact Brands.dump_sends
  | _ => cases hr

end Request

/-- One request of a work as it went: what was asked for, what the supply then held, and the
answer. -/
structure Exchange where
  request : Request
  supply : Supply
  answer : Except Error request.Reply

namespace Exchange

/-- Whether the request was answered with a value. -/
def succeeded (x : Exchange) : Bool :=
  match x.answer with
  | .ok _ => true
  | .error _ => false

/-- The store turned a statement of the request down. -/
def Refused (x : Exchange) : Prop :=
  ∃ operation r, x.answer = .error (.query operation (.refused r))

theorem refused_error_iff {r : Request} {supply : Supply} {e : Error} :
    Refused ⟨r, supply, .error e⟩ ↔ Action.Refused (.error (.error e) : Except Halt r.Reply) := by
  unfold Refused Action.Refused
  simp

/-- Whether the request is a write that was answered with a value. -/
def wrote (x : Exchange) : Bool := x.request.writes && x.succeeded

/-- The store after the request alone, made without a transaction on a store that can be reached,
with the clock readings and ids that it had. -/
def apply (order : TextOrder) (x : Exchange) (store : Store) : Store :=
  (x.request.perform ⟨.live, store, none, x.supply, order⟩).2.store

end Exchange

/-- The store after some requests, in order. -/
def applyAll (order : TextOrder) (xs : List Exchange) (store : Store) : Store :=
  xs.foldl (fun store x => x.apply order store) store

namespace Work

variable {ε α : Type}

/-- The requests that the work makes in a session, with their answers, in order. -/
def exchanges : Work ε α → Session → List Exchange
  | done _, _ => []
  | ask r next, s =>
    match Action.attempt r.perform s with
    | (.ok answer, t) => ⟨r, s.supply, answer⟩ :: (next answer).exchanges t
    | (.error _, _) => []

/-- Some requests in a fixed order, whatever the answers. -/
def inOrder : List Request → Work ε Unit
  | [] => value ()
  | r :: rest => ask r fun _ => inOrder rest

/-- All requests that the work can make satisfy a condition. -/
def Asks (p : Request → Prop) : Work ε α → Prop
  | done _ => True
  | ask r next => p r ∧ ∀ reply, (next reply).Asks p

/-- The work leaves the end of the transaction to the unit. -/
def NeverRollsBack (w : Work ε α) : Prop := w.Asks (· ≠ .rollBack)

theorem perform_ask (r : Request) (next : Except Error r.Reply → Work ε α) (s : Session) :
    (ask r next).perform s =
      match Action.attempt r.perform s with
      | (.ok answer, t) => (next answer).perform t
      | (.error h, t) => (.error h, t) := by
  rw [perform, Action.bind_apply]
  rcases Action.attempt r.perform s with ⟨h | answer, t⟩ <;> rfl

theorem perform_ask_of_ok {r : Request} {next : Except Error r.Reply → Work ε α} {s t : Session}
    {answer : Except Error r.Reply} (h : Action.attempt r.perform s = (.ok answer, t)) :
    (ask r next).perform s = (next answer).perform t := by
  rw [perform_ask, h]

theorem exchanges_ask_of_ok {r : Request} {next : Except Error r.Reply → Work ε α} {s t : Session}
    {answer : Except Error r.Reply} (h : Action.attempt r.perform s = (.ok answer, t)) :
    (ask r next).exchanges s = ⟨r, s.supply, answer⟩ :: (next answer).exchanges t := by
  rw [exchanges, h]

/-- Taking an error as a value changes nothing about the session. -/
theorem attempt_snd (a : Action α) (s : Session) : (Action.attempt a s).2 = (a s).2 := by
  unfold Action.attempt
  rcases a s with ⟨(e | o) | x, t⟩ <;> rfl

/-- A condition on sessions that survives every request of a work survives the work. -/
theorem perform_preserves {p : Request → Prop} {I : Session → Prop}
    (hrequest : ∀ r s, p r → I s → I (r.perform s).2) {w : Work ε α} (hw : w.Asks p) {s : Session}
    (hs : I s) : I (w.perform s).2 := by
  induction w generalizing s with
  | done result => exact hs
  | ask r next ih =>
    have ht := hrequest r s hw.1 hs
    rw [← attempt_snd] at ht
    rw [perform_ask]
    rcases hstep : Action.attempt r.perform s with ⟨h | answer, t⟩
    · rwa [hstep] at ht
    · rw [hstep] at ht
      exact ih answer (hw.2 answer) ht

end Work

/-- The operations among some exchanges, made one after another without a transaction from one
session, get the same answers and lead to another session. -/
inductive Redone : Session → List Exchange → Session → Prop where
  | nil (s : Session) : Redone s [] s
  | operation {s t u : Session} {x : Exchange} {rest : List Exchange}
    (hop : x.request.isOperation = true) (hsupply : x.supply = s.supply)
    (hanswer : Action.attempt x.request.perform s = (.ok x.answer, t)) (hrest : Redone t rest u) :
    Redone s (x :: rest) u
  | other {s u : Session} {x : Exchange} {rest : List Exchange}
    (hop : x.request.isOperation = false) (hrest : Redone s rest u) : Redone s (x :: rest) u

namespace Redone

variable {s t : Session} {xs : List Exchange}

/-- What was redone is the course of the operations taken in order. -/
theorem exchanges_inOrder {ε : Type} (h : Redone s xs t) :
    let ops := xs.filter fun x => x.request.isOperation
    (Work.inOrder (ε := ε) (ops.map Exchange.request)).exchanges s = ops ∧
      (Work.inOrder (ε := ε) (ops.map Exchange.request)).perform s = (.ok (.ok ()), t) := by
  induction h with
  | nil s => exact ⟨rfl, rfl⟩
  | @operation s t u x rest hop hsupply hanswer _ ih =>
    simp only [List.filter_cons, hop, if_true, List.map_cons, Work.inOrder]
    rw [Work.exchanges_ask_of_ok hanswer, Work.perform_ask_of_ok hanswer, ih.1, ← hsupply]
    exact ⟨rfl, ih.2⟩
  | other hop _ ih => simpa only [List.filter_cons, hop, Bool.false_eq_true, if_false] using ih

end Redone

end PriceArchive
