import PriceArchive.Proofs.Session.Transaction

namespace PriceArchive

/-- The server answers everyone alike. -/
def Server.Steady : Server → Prop
  | .live | .down _ => True
  | .next .. => False

theorem Server.Steady.asked {server : Server} (h : server.Steady) : server.asked = server := by
  cases server with
  | next refusal later => exact h.elim
  | _ => rfl

namespace Session

/-- The session can run statements, as many as there may be. -/
def Open (s : Session) : Prop :=
  match s.transaction with
  | none => s.server = .live
  | some (.running ..) | some .ended => True
  | some .aborted => False

/-- The session can run a statement. -/
def Ready (s : Session) : Prop :=
  match s.transaction with
  | none => s.server.refusal = none
  | some (.running ..) | some .ended => True
  | some .aborted => False

/-- The session after a statement that changed nothing. -/
def checkedOut (s : Session) : Session :=
  match s.transaction with
  | none => s.asked
  | some _ => s

/-- The session without a transaction, on a server that can be reached. -/
def solo (s : Session) : Session := { s with server := .live, transaction := none }

/-- The two sessions are in one transaction, and on one server if it is steady. -/
structure SamePlace (s t : Session) : Prop where
  transaction : t.transaction = s.transaction
  server : s.server.Steady → t.server = s.server

@[simp] theorem solo_store (s : Session) : s.solo.store = s.store := rfl

@[simp] theorem solo_supply (s : Session) : s.solo.supply = s.supply := rfl

section CheckedOut

variable (s : Session)

@[simp] theorem checkedOut_store : s.checkedOut.store = s.store := by
  unfold checkedOut
  split <;> rfl

@[simp] theorem checkedOut_supply : s.checkedOut.supply = s.supply := by
  unfold checkedOut
  split <;> rfl

@[simp] theorem checkedOut_transaction : s.checkedOut.transaction = s.transaction := by
  unfold checkedOut
  split <;> rfl

@[simp] theorem checkedOut_order : s.checkedOut.order = s.order := by
  unfold checkedOut
  split <;> rfl

theorem checkedOut_with_store (store : Store) :
    ({ s with store := store } : Session).checkedOut = { s.checkedOut with store := store } := by
  obtain ⟨server, current, transaction, supply, order⟩ := s
  cases transaction <;> rfl

theorem checkedOut_of_steady {s : Session} (hs : s.server.Steady) : s.checkedOut = s := by
  obtain ⟨server, store, transaction, supply, order⟩ := s
  cases transaction with
  | none => exact congrArg (Session.mk · store none supply order) hs.asked
  | some tx => rfl

/-- In an open session a statement that changes nothing leaves everything as it is. -/
theorem Open.checkedOut {s : Session} (hs : s.Open) : s.checkedOut = s := by
  obtain ⟨server, store, transaction, supply, order⟩ := s
  cases transaction with
  | none =>
    cases hs
    rfl
  | some tx => rfl

theorem SamePlace.checkedOut (store : Store) : s.SamePlace { s.checkedOut with store := store } :=
  ⟨checkedOut_transaction s, fun hs => by
    change s.checkedOut.server = s.server
    rw [checkedOut_of_steady hs]⟩

theorem solo_checkedOut (store : Store) :
    ({ s.checkedOut with store := store } : Session).solo = { s.solo with store := store } :=
  congr (congrArg (Session.mk .live store none) (checkedOut_supply s)) (checkedOut_order s)

end CheckedOut

theorem SamePlace.refl (s : Session) : s.SamePlace s := ⟨rfl, fun _ => rfl⟩

theorem SamePlace.trans {s t u : Session} (hst : s.SamePlace t) (htu : t.SamePlace u) :
    s.SamePlace u where
  transaction := htu.transaction.trans hst.transaction
  server hs := (htu.server (hst.server hs ▸ hs)).trans (hst.server hs)

theorem SamePlace.isOpen {s t : Session} (h : s.SamePlace t) (hs : s.Open) : t.Open := by
  unfold Open at hs ⊢
  rw [h.transaction]
  split at hs
  · rw [h.server (hs ▸ trivial)]
    exact hs
  · trivial
  · trivial
  · exact hs

theorem open_of_live {s : Session} (hlive : s.server = .live) (hs : s.transaction = none) : s.Open := by
  rw [Open, hs]
  exact hlive

theorem Open.ready {s : Session} (hs : s.Open) : s.Ready := by
  unfold Open at hs
  unfold Ready
  split at hs
  · rw [hs]
    rfl
  · trivial
  · trivial
  · exact hs

/-- A server that answers everyone alike and gives one connection gives all of them. -/
theorem Ready.isOpen {s : Session} (hs : s.Ready) (hsteady : s.server.Steady) : s.Open := by
  unfold Ready at hs
  unfold Open
  split at hs
  · cases hserver : s.server with
    | live => rfl
    | down reason =>
      rw [hserver] at hs
      cases hs
    | next refusal later =>
      rw [hserver] at hsteady
      exact hsteady.elim
  · trivial
  · trivial
  · exact hs

/-- What was connected on the way from one session to the other can be connected again. -/
def StaysConnected (s t : Session) : Prop := s.server.Steady ∨ t.Open

theorem SamePlace.open_of_ready {s t : Session} (h : s.SamePlace t) (hs : s.Ready)
    (hserver : s.StaysConnected t) : t.Open :=
  hserver.elim (fun hsteady => h.isOpen (hs.isOpen hsteady)) id

/-- What a statement ends with in a session that is not ready. -/
def Shut : Error → Prop
  | .poolUnavailable _ => True
  | .query _ (.refused .transactionAborted) => True
  | _ => False

theorem run_of_not_ready {α : Type} {s : Session} (hs : ¬ s.Ready) (operation : String)
    (st : Statement α) : ∃ e, Shut e ∧ run operation st s = (.error (.error e), s.checkedOut) := by
  obtain ⟨server, store, transaction, supply, order⟩ := s
  cases transaction with
  | none =>
    cases hrefusal : server.refusal with
    | none => exact absurd hrefusal hs
    | some reason =>
      exact ⟨.poolUnavailable reason, trivial, run_of_refusal hrefusal rfl operation st⟩
  | some tx =>
    cases tx with
    | aborted => exact ⟨.query operation (.refused .transactionAborted), trivial,
        run_aborted rfl operation st⟩
    | _ => exact absurd trivial hs

/-- In a session that is ready a statement has the answer that it has alone. Unless it is turned down
the session stays in its place with what the statement wrote. -/
theorem run_of_ready {α : Type} {s : Session} (hs : s.Ready) (operation : String) (st : Statement α) :
    (∃ a store, st s.store = .ok (a, store) ∧
      run operation st s = (.ok a, { s.checkedOut with store := store })) ∨
    ∃ r t, st s.store = .error r ∧
      run operation st s = (.error (.error (.query operation (.refused r))), t) := by
  obtain ⟨server, store, transaction, supply, order⟩ := s
  cases transaction with
  | none =>
    rw [run_of_given hs rfl]
    cases hst : st store with
    | ok answer => exact .inl ⟨answer.1, answer.2, rfl, rfl⟩
    | error r => exact .inr ⟨r, _, rfl, rfl⟩
  | some tx =>
    cases tx with
    | running start d =>
      change (∃ a next, st store = .ok (a, next) ∧
        run operation st (Session.enter ⟨server, store, none, supply, order⟩ start d) = _) ∨
        ∃ r t, st store = .error r ∧
          run operation st (Session.enter ⟨server, store, none, supply, order⟩ start d) = _
      rw [run_enter]
      cases hst : st store with
      | ok answer => exact .inl ⟨answer.1, answer.2, rfl, rfl⟩
      | error r => exact .inr ⟨r, _, rfl, rfl⟩
    | ended =>
      rw [run_ended rfl]
      cases hst : st store with
      | ok answer => exact .inl ⟨answer.1, answer.2, rfl, rfl⟩
      | error r => exact .inr ⟨r, _, rfl, rfl⟩
    | aborted => cases hs

theorem ready_of_run_eq_ok {α : Type} {s t : Session} {operation : String} {st : Statement α} {x : α}
    (h : run operation st s = (.ok x, t)) : s.Ready := by
  apply Classical.byContradiction
  intro hshut
  obtain ⟨e, -, hrun⟩ := run_of_not_ready hshut operation st
  rw [h] at hrun
  cases hrun

theorem ready_of_runAll_eq_ok {s t : Session} {operation : String} {statements : List (Statement Nat)}
    {n : Nat} (hne : statements ≠ []) (h : runAll operation statements s = (.ok n, t)) : s.Ready := by
  obtain ⟨st, rest, rfl⟩ := List.exists_cons_of_ne_nil hne
  obtain ⟨m, u, hrun, -⟩ := Action.bind_eq_ok_iff.mp h
  exact ready_of_run_eq_ok hrun

/-- A read that is answered has changed nothing in the store. -/
theorem run_read_of_ready {α : Type} {s : Session} (hs : s.Ready) (operation : String)
    {f : Store → Except Refusal α} {x : α} (h : f s.store = .ok x) :
    run operation (.read f) s = (.ok x, s.checkedOut) := by
  rcases run_of_ready hs operation (.read f) with ⟨y, store, hst, hrun⟩ | ⟨r, t, hst, hrun⟩
  · rw [Statement.read, h] at hst
    cases hst
    rw [hrun, ← checkedOut_store s]
  · rw [Statement.read, h] at hst
    cases hst

/-- A read in an open session changes nothing. -/
theorem run_read_of_open {α : Type} {s : Session} (hs : s.Open) (operation : String)
    {f : Store → Except Refusal α} {x : α} (h : f s.store = .ok x) :
    run operation (.read f) s = (.ok x, s) := by
  rw [run_read_of_ready hs.ready operation h, hs.checkedOut]

theorem run_read_eq_ok {α : Type} {s t : Session} {operation : String} {f : Store → Except Refusal α}
    {x : α} (h : run operation (.read f) s = (.ok x, t)) : f s.store = .ok x ∧ t = s.checkedOut := by
  rcases run_of_ready (ready_of_run_eq_ok h) operation (.read f) with
    ⟨y, store, hst, hrun⟩ | ⟨r, u, -, hrun⟩
  · rw [h] at hrun
    cases hrun
    obtain ⟨hf, rfl⟩ := Statement.read_eq_ok hst
    rw [← checkedOut_store s]
    exact ⟨by rwa [checkedOut_store], rfl⟩
  · rw [h] at hrun
    cases hrun

/-- What a statement ends with depends on the store only by what it answers. -/
theorem run_fst_congr {α : Type} {s : Session} {store : Store} (operation : String) {st : Statement α}
    (h : (st store).map Prod.fst = (st s.store).map Prod.fst) :
    (run operation st { s with store := store }).1 = (run operation st s).1 := by
  obtain ⟨server, current, transaction, supply, order⟩ := s
  have halone : ∀ t u : Session, t.store = store → u.store = current →
      (runAlone operation st t).1 = (runAlone operation st u).1 := by
    rintro t u rfl rfl
    rw [runAlone_apply, runAlone_apply]
    cases ht : st t.store <;> cases hu : st u.store <;> simp_all [Except.map]
  rcases transaction with _ | ⟨start, d⟩ | _ | _
  · cases hrefusal : server.refusal with
    | none =>
      rw [run_of_given hrefusal rfl, run_of_given hrefusal rfl]
      cases ht : st store <;> cases hu : st current <;> simp_all [Except.map]
    | some reason => rw [run_of_refusal hrefusal rfl, run_of_refusal hrefusal rfl]
  · change (runInside start operation st _).1 = (runInside start operation st _).1
    simp only [runInside, Action.get_bind_apply]
    cases ht : st store <;> cases hu : st current <;> simp_all [Except.map] <;> rfl
  · rfl
  · exact halone _ _ rfl rfl

theorem run_read_fst_congr {α : Type} {s : Session} {store : Store} (operation : String)
    {f : Store → Except Refusal α} (h : f store = f s.store) :
    (run operation (.read f) { s with store := store }).1 = (run operation (.read f) s).1 := by
  apply run_fst_congr
  rw [Statement.read, Statement.read, h]
  cases f s.store <;> rfl

/-- A statement that is run has been accepted by the store or was turned down. -/
theorem run_solo {α : Type} (s : Session) (operation : String) (st : Statement α) :
    run operation st s.solo =
      match st s.store with
      | .ok (a, store) => (.ok a, { s.solo with store := store })
      | .error r => (.error (.error (.query operation (.refused r))), s.solo) :=
  run_alone rfl rfl operation st

end Session

open Session

namespace Action.Sends

variable {P : StatementClass} {α : Type} {a : Action α}

/-- An action does in every session what it does on its own, up to the first statement that is
turned down or that the session is not ready for; in an open session it is ready for all of them. -/
theorem solo_cases (h : a.Sends P) (s : Session) :
    (s.SamePlace (a s).2 ∧ a s.solo = ((a s).1, (a s).2.solo)) ∨
      (Refused (a s).1 ∧ (a s.solo).1 = (a s).1) ∨
      (¬ s.Open ∧ ∃ e, Shut e ∧ (a s).1 = .error (.error e)) := by
  induction h generalizing s with
  | pure a => exact .inl ⟨.refl s, rfl⟩
  | throw e he => exact .inl ⟨.refl s, rfl⟩
  | now => exact .inl ⟨⟨rfl, fun _ => rfl⟩, rfl⟩
  | freshId => exact .inl ⟨⟨rfl, fun _ => rfl⟩, rfl⟩
  | run operation st _ =>
    by_cases hs : s.Ready
    · rcases run_of_ready hs operation st with ⟨x, store, hst, hrun⟩ | ⟨r, t, hst, hrun⟩
      · rw [run_solo, hst, hrun]
        exact .inl ⟨.checkedOut s store, by rw [solo_checkedOut]⟩
      · rw [run_solo, hst, hrun]
        exact .inr (.inl ⟨⟨operation, r, rfl⟩, rfl⟩)
    · obtain ⟨e, he, hrun⟩ := run_of_not_ready hs operation st
      exact .inr (.inr ⟨fun hopen => hs hopen.ready, e, he, by rw [hrun]⟩)
  | withOrder _ ih => exact ih s.order s
  | @bind _ _ a f _ _ iha ihf =>
    rw [bind_apply, bind_apply]
    rcases iha s with ⟨hplace, hsolo⟩ | ⟨hrefused, hsolo⟩ | ⟨hshut, e, he, hresult⟩
    · rw [hsolo]
      rcases has : a s with ⟨halt | x, t⟩
      · rw [has] at hplace
        exact .inl ⟨hplace, rfl⟩
      · rw [has] at hplace
        rcases ihf x t with ⟨hplace', hsolo'⟩ | hrest | ⟨hshut, hrest⟩
        · exact .inl ⟨hplace.trans hplace', hsolo'⟩
        · exact .inr (.inl hrest)
        · exact .inr (.inr ⟨fun hopen => hshut (hplace.isOpen hopen), hrest⟩)
    · obtain ⟨operation, r, heq⟩ := hrefused
      rcases has : a s with ⟨halt | x, t⟩
      · rcases has' : a s.solo with ⟨halt' | x', t'⟩
        · rw [has, has'] at hsolo
          rw [has] at heq
          cases heq
          cases hsolo
          exact .inr (.inl ⟨⟨operation, r, rfl⟩, rfl⟩)
        · rw [has, has'] at hsolo
          cases hsolo
      · rw [has] at heq
        cases heq
    · rcases has : a s with ⟨halt | x, t⟩
      · rw [has] at hresult
        cases hresult
        exact .inr (.inr ⟨hshut, e, he, rfl⟩)
      · rw [has] at hresult
        cases hresult

/-- An action that ends with a value does so on its own too, and leaves the session in its place. -/
theorem solo_of_ok (h : a.Sends P) {s t : Session} {x : α} (hok : a s = (.ok x, t)) :
    s.SamePlace t ∧ a s.solo = (.ok x, t.solo) := by
  rcases h.solo_cases s with hsolo | ⟨hrefused, _⟩ | ⟨_, e, _, herror⟩
  · rwa [hok] at hsolo
  · rw [hok] at hrefused
    exact absurd hrefused (not_refused_ok x)
  · rw [hok] at herror
    cases herror

/-- In an open session an action ends as it does on its own. -/
theorem result_of_open (h : a.Sends P) {s : Session} (hs : s.Open) : (a s).1 = (a s.solo).1 := by
  rcases h.solo_cases s with ⟨_, hsolo⟩ | ⟨_, hsolo⟩ | ⟨hshut, _⟩
  · rw [hsolo]
  · exact hsolo.symm
  · exact absurd hs hshut

/-- A refusal that is not that of an aborted transaction is one that the action meets on its own. -/
theorem solo_of_refused (h : a.Sends P) {s t : Session} {operation : String} {r : Refusal}
    (hr : r ≠ .transactionAborted)
    (hrefused : a s = (.error (.error (.query operation (.refused r))), t)) :
    (a s.solo).1 = .error (.error (.query operation (.refused r))) := by
  rcases h.solo_cases s with ⟨_, hsolo⟩ | ⟨_, hsolo⟩ | ⟨_, e, he, herror⟩
  · rw [hsolo, hrefused]
  · rw [hsolo, hrefused]
  · rw [hrefused] at herror
    cases herror
    cases r with
    | transactionAborted => exact absurd rfl hr
    | _ => cases he

end Action.Sends

end PriceArchive
