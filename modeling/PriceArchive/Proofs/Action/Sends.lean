import PriceArchive.Store.Session

namespace PriceArchive

/-- A binary relation of types and statements, for predicates on statements of every answer type. -/
abbrev StatementClass := (β : Type) → Statement β → Prop

/-- The statements that only read. -/
inductive Statement.Reads : StatementClass where
  | read {β : Type} (f : Store → Except Refusal β) : Reads β (.read f)

/-- A read that is answered leaves the store alone. -/
theorem Statement.read_eq_ok {β : Type} {f : Store → Except Refusal β} {s t : Store} {x : β}
    (h : Statement.read f s = .ok (x, t)) : f s = .ok x ∧ t = s := by
  unfold Statement.read at h
  cases hf : f s with
  | error r =>
    rw [hf] at h
    cases h
  | ok y =>
    rw [hf] at h
    cases h
    exact ⟨rfl, rfl⟩

/-- The statements that relate the stores before and after them when they are accepted. -/
def Statement.Relates (R : Store → Store → Prop) : StatementClass :=
  fun _ st => ∀ s x t, st s = .ok (x, t) → R s t

theorem Statement.Reads.relates {R : Store → Store → Prop} (hrefl : ∀ s, R s s) {β : Type}
    {st : Statement β} (h : Statement.Reads β st) : Statement.Relates R β st := by
  cases h with
  | read f => exact fun s x t hst => (Statement.read_eq_ok hst).2 ▸ hrefl s

namespace Action

variable {α β : Type}

theorem pure_apply (a : α) (s : Session) : (pure a : Action α) s = (.ok a, s) := rfl

theorem bind_apply (a : Action α) (f : α → Action β) (s : Session) :
    (a >>= f) s =
      match a s with
      | (.ok x, t) => f x t
      | (.error h, t) => (.error h, t) := by
  change (match a s with | (r, t) => ExceptT.bindCont f r t : Except Halt β × Session) = _
  rcases a s with ⟨_ | x, t⟩ <;> rfl

/-- Reading the session hands it to the rest. -/
theorem get_bind_apply (f : Session → Action β) (s : Session) : (get >>= f) s = f s s := rfl

theorem bind_of_ok {a : Action α} {f : α → Action β} {s t : Session} {x : α}
    (h : a s = (.ok x, t)) : (a >>= f) s = f x t := by
  rw [bind_apply, h]

/-- A sequence ends with a value exactly when both of its parts do. -/
theorem bind_eq_ok_iff {a : Action α} {f : α → Action β} {s u : Session} {y : β} :
    (a >>= f) s = (.ok y, u) ↔ ∃ x t, a s = (.ok x, t) ∧ f x t = (.ok y, u) := by
  constructor
  · intro h
    rw [bind_apply] at h
    rcases ha : a s with ⟨halt | x, t⟩
    · rw [ha] at h
      cases h
    · rw [ha] at h
      exact ⟨x, t, rfl, h⟩
  · rintro ⟨x, t, ha, hf⟩
    rw [bind_of_ok ha, hf]

/-- A sequence ends alike in two sessions if its first part does and, after the same value, its second. -/
theorem bind_fst_congr {a : Action α} {f : α → Action β} {s s' : Session} (ha : (a s').1 = (a s).1)
    (hf : ∀ x t t', a s = (.ok x, t) → a s' = (.ok x, t') → (f x t').1 = (f x t).1) :
    ((a >>= f) s').1 = ((a >>= f) s).1 := by
  rw [bind_apply, bind_apply]
  rcases hs : a s with ⟨halt | x, t⟩ <;> rcases hs' : a s' with ⟨halt' | x', t'⟩ <;>
    rw [hs, hs'] at ha <;> cases ha
  · rfl
  · exact hf x t t' hs hs'

/-- An action whose error is taken as a value ended with a value or with an error, not early. -/
theorem attempt_eq_ok {a : Action α} {s t : Session} {answer : Except Error α}
    (h : attempt a s = (.ok answer, t)) :
    (∃ x, a s = (.ok x, t) ∧ answer = .ok x) ∨
      ∃ e, a s = (.error (.error e), t) ∧ answer = .error e := by
  unfold attempt at h
  rcases ha : a s with ⟨(e | o) | x, u⟩
  · rw [ha] at h
    cases h
    exact .inr ⟨e, rfl, rfl⟩
  · rw [ha] at h
    cases h
  · rw [ha] at h
    cases h
    exact .inl ⟨x, rfl, rfl⟩

theorem attempt_of_ok {a : Action α} {s t : Session} {x : α} (h : a s = (.ok x, t)) :
    attempt a s = (.ok (.ok x), t) := by
  rw [attempt, h]

theorem attempt_of_error {a : Action α} {s t : Session} {e : Error}
    (h : a s = (.error (.error e), t)) : attempt a s = (.ok (.error e), t) := by
  rw [attempt, h]

/-- The result of an action whose last statement was turned down. -/
def Refused (result : Except Halt α) : Prop :=
  ∃ operation r, result = .error (.error (.query operation (.refused r)))

theorem not_refused_ok (x : α) : ¬ Refused (.ok x : Except Halt α) := nofun

/-- A refusal is one whatever the action would have given. -/
theorem Refused.error {halt : Halt} (h : Refused (.error halt : Except Halt α)) :
    Refused (.error halt : Except Halt β) := by
  obtain ⟨operation, r, heq⟩ := h
  cases heq
  exact ⟨operation, r, rfl⟩

/-- The result of an action that got no connection. -/
def Unconnected (result : Except Halt α) : Prop :=
  ∃ reason, result = .error (.error (.poolUnavailable reason))

/-- An action whose steps are draws, statements of a class and early ends, where an early end is no
refusal of the store; they may depend on the store's order of texts. -/
inductive Sends (P : StatementClass) : {α : Type} → Action α → Prop where
  | pure {α : Type} (a : α) : Sends P (pure a : Action α)
  | throw {α : Type} (h : Halt) (hh : ¬ Refused (.error h : Except Halt α)) :
    Sends P (throw h : Action α)
  | now : Sends P now
  | freshId : Sends P freshId
  | run {α : Type} (operation : String) (statement : Statement α) (h : P α statement) :
    Sends P (Session.run operation statement)
  | withOrder {α : Type} {f : TextOrder → Action α} (hf : ∀ order, Sends P (f order)) :
    Sends P (Session.withOrder f)
  | bind {α β : Type} {a : Action α} {f : α → Action β} (ha : Sends P a)
    (hf : ∀ x, Sends P (f x)) : Sends P (a >>= f)

namespace Sends

variable {P Q : StatementClass}

theorem mono {a : Action α} (h : a.Sends P) (hPQ : ∀ β (st : Statement β), P β st → Q β st) :
    a.Sends Q := by
  induction h with
  | pure a => exact .pure a
  | throw e he => exact .throw e he
  | now => exact .now
  | freshId => exact .freshId
  | run operation statement h => exact .run operation statement (hPQ _ _ h)
  | withOrder _ ih => exact .withOrder ih
  | bind _ _ iha ihf => exact .bind iha ihf

theorem fail (e : Error) (he : ∀ operation fault, e ≠ .query operation fault) :
    (Action.fail e : Action α).Sends P := by
  refine .throw _ ?_
  rintro ⟨operation, r, h⟩
  cases h
  exact he operation (.refused r) rfl

theorem ofConversion (r : Except ConversionError α) : (Action.ofConversion r).Sends P := by
  cases r with
  | ok a => exact .pure a
  | error e => exact .fail _ nofun

theorem ofTime (r : Except TimeOverflow α) : (Action.ofTime r).Sends P := by
  cases r with
  | ok a => exact .pure a
  | error o =>
    refine .throw _ ?_
    rintro ⟨operation, r, h⟩
    cases h

theorem ite {c : Prop} [Decidable c] {a b : Action α} (ha : a.Sends P) (hb : b.Sends P) :
    (if c then a else b).Sends P := by
  split
  · exact ha
  · exact hb

theorem runAll (operation : String) (statements : List (Statement Nat))
    (h : ∀ st ∈ statements, P Nat st) : (Session.runAll operation statements).Sends P := by
  induction statements with
  | nil => exact .pure 0
  | cons st rest ih =>
    refine .bind (.run operation st (h st (by simp))) fun n => .bind (ih ?_) fun m => .pure (n + m)
    intro st' hst'
    exact h st' (by simp [hst'])

/-- A condition on sessions that survives every draw and every statement survives the action. -/
theorem preserves {a : Action α} (h : a.Sends P) {I : Session → Prop}
    (hsupply : ∀ s supply, I s → I { s with supply := supply })
    (hrun : ∀ β operation (st : Statement β) s, P β st → I s → I (Session.run operation st s).2)
    {s : Session} (hs : I s) : I (a s).2 := by
  induction h generalizing s with
  | pure a => exact hs
  | throw e he => exact hs
  | now => exact hsupply _ _ hs
  | freshId => exact hsupply _ _ hs
  | run operation st h => exact hrun _ operation st s h hs
  | withOrder _ ih => exact ih s.order hs
  | @bind _ _ a f _ _ iha ihf =>
    have ha := iha hs
    rw [bind_apply]
    rcases has : a s with ⟨halt | x, t⟩
    · rwa [has] at ha
    · rw [has] at ha
      exact ihf x ha

end Sends

end Action

end PriceArchive
