import PriceArchive.Proofs.Session.Transaction

namespace PriceArchive

/-- The number of rows that some statements write, each kept at once, or the first refusal; and the
store after them. -/
def Statement.keepEach : List (Statement Nat) → Store → Except Refusal Nat × Store
  | [], store => (.ok 0, store)
  | st :: rest, store =>
    match st store with
    | .ok (n, next) => ((keepEach rest next).1.map (n + ·), (keepEach rest next).2)
    | .error r => (.error r, store)

open Statement

namespace Session

/-- The result of a batch as that of an action. -/
def ofRefusal (operation : String) : Except Refusal Nat → Except Halt Nat
  | .ok n => .ok n
  | .error r => .error (.error (.query operation (.refused r)))

theorem keepEach_of_ofRefusal {operation : String} {statements : List (Statement Nat)}
    {store : Store} {n : Nat} (h : ofRefusal operation (keepEach statements store).1 = .ok n) :
    keepEach statements store = (.ok n, (keepEach statements store).2) := by
  rcases hkept : keepEach statements store with ⟨r | m, left⟩
  · rw [hkept] at h
    cases h
  · rw [hkept] at h
    cases h
    rfl

theorem refused_of_ofRefusal {operation : String} {result : Except Refusal Nat} {halt : Halt}
    (h : ofRefusal operation result = .error halt) :
    Action.Refused (.error halt : Except Halt Nat) := by
  cases result with
  | ok n => cases h
  | error r =>
    cases h
    exact ⟨operation, r, rfl⟩

theorem runAll_alone {s : Session} (hlive : s.server = .live) (hs : s.transaction = none)
    (operation : String) (statements : List (Statement Nat)) :
    runAll operation statements s =
      (ofRefusal operation (keepEach statements s.store).1,
        { s with store := (keepEach statements s.store).2 }) := by
  induction statements generalizing s with
  | nil => rfl
  | cons st rest ih =>
    rw [runAll, Action.bind_apply, run_alone hlive hs, keepEach]
    cases st s.store with
    | error r => rfl
    | ok answer =>
      obtain ⟨n, next⟩ := answer
      dsimp only
      rw [Action.bind_apply, ih (s := { s with store := next }) hlive hs]
      dsimp only
      cases (keepEach rest next).1 with
      | ok m => rfl
      | error r => rfl

/-- A statement that fails without a transaction changes nothing in the store: it was turned down, or
there was no connection for it. -/
theorem run_eq_error {α : Type} {s t : Session} (hs : s.transaction = none) {operation : String}
    {st : Statement α} {halt : Halt} (h : run operation st s = (.error halt, t)) :
    t.store = s.store ∧ (Action.Refused (.error halt : Except Halt α) ∨
      Action.Unconnected (.error halt : Except Halt α)) := by
  cases hrefusal : s.server.refusal with
  | none =>
    rw [run_of_given hrefusal hs] at h
    cases hst : st s.store with
    | ok answer =>
      rw [hst] at h
      cases h
    | error r =>
      rw [hst] at h
      cases h
      exact ⟨rfl, .inl ⟨operation, r, rfl⟩⟩
  | some reason =>
    rw [run_of_refusal hrefusal hs] at h
    cases h
    exact ⟨rfl, .inr ⟨reason, rfl⟩⟩

/-- A batch that fails without a transaction has kept the statements before the one that failed, which
was turned down or for which there was no connection. -/
theorem runAll_eq_error {s t : Session} (hs : s.transaction = none) {operation : String}
    {statements : List (Statement Nat)} {halt : Halt}
    (h : runAll operation statements s = (.error halt, t)) :
    ∃ k, k < statements.length ∧
      (∃ n u, runAll operation (statements.take k) s = (.ok n, u) ∧ t.store = u.store) ∧
      (∃ u, runAll operation (statements.take (k + 1)) s = (.error halt, u)) ∧
      (Action.Refused (.error halt : Except Halt Nat) ∨
        Action.Unconnected (.error halt : Except Halt Nat)) := by
  induction statements generalizing s with
  | nil => cases h
  | cons st rest ih =>
    have halone := (Action.Sends.run operation st (P := fun _ _ => True) trivial).stays_alone hs
    rw [runAll, Action.bind_apply] at h
    rcases hrun : run operation st s with ⟨halt' | n, v⟩
    · rw [hrun] at h
      cases h
      obtain ⟨hstore, hcause⟩ := run_eq_error hs hrun
      refine ⟨0, by simp, ⟨0, s, rfl, hstore⟩, ⟨t, ?_⟩, hcause⟩
      rw [List.take_succ_cons, List.take_zero, runAll, Action.bind_apply, hrun]
    · rw [hrun] at h halone
      dsimp only at h
      rw [Action.bind_apply] at h
      rcases hrest : runAll operation rest v with ⟨halt' | m, w⟩
      · rw [hrest] at h
        cases h
        obtain ⟨k, hk, ⟨m, u, hkept, hstore⟩, ⟨x, hfailed⟩, hcause⟩ := ih halone hrest
        refine ⟨k + 1, by simpa using hk, ⟨n + m, u, ?_, hstore⟩, ⟨x, ?_⟩, hcause⟩
        · rw [List.take_succ_cons, runAll, Action.bind_of_ok hrun, Action.bind_of_ok hkept]
          rfl
        · rw [List.take_succ_cons, runAll, Action.bind_of_ok hrun, Action.bind_apply, hfailed]
      · rw [hrest] at h
        cases h

/-- The statements of a batch do not look at the supply. -/
theorem runAll_supply (operation : String) (statements : List (Statement Nat)) (s : Session)
    (hs : s.transaction = none) (supply : Supply) :
    runAll operation statements { s with supply := supply } =
      ((runAll operation statements s).1,
        { (runAll operation statements s).2 with supply := supply }) := by
  induction statements generalizing s with
  | nil => rfl
  | cons st rest ih =>
    have hrun : run operation st { s with supply := supply } =
        ((run operation st s).1, { (run operation st s).2 with supply := supply }) := by
      cases hrefusal : s.server.refusal with
      | none =>
        rw [run_of_given hrefusal hs, run_of_given (s := { s with supply := supply }) hrefusal hs]
        cases st s.store <;> rfl
      | some reason =>
        rw [run_of_refusal hrefusal hs,
          run_of_refusal (s := { s with supply := supply }) hrefusal hs]
        rfl
    have halone := (Action.Sends.run operation st (P := fun _ _ => True) trivial).stays_alone hs
    rw [runAll, Action.bind_apply, Action.bind_apply, hrun]
    rcases hst : run operation st s with ⟨halt | n, t⟩
    · rfl
    · rw [hst] at halone
      dsimp only
      rw [Action.bind_apply, Action.bind_apply, ih t halone]
      rcases runAll operation rest t with ⟨halt | m, u⟩ <;> rfl

end Session

namespace Statement

theorem keepEach_cons_of_ok {st : Statement Nat} {rest : List (Statement Nat)}
    {store next : Store} {n : Nat} (h : st store = .ok (n, next)) :
    keepEach (st :: rest) store =
      ((keepEach rest next).1.map (n + ·), (keepEach rest next).2) := by
  rw [keepEach, h]

theorem keepEach_cons_of_error {st : Statement Nat} (rest : List (Statement Nat)) {store : Store}
    {r : Refusal} (h : st store = .error r) : keepEach (st :: rest) store = (.error r, store) := by
  rw [keepEach, h]

end Statement

end PriceArchive
