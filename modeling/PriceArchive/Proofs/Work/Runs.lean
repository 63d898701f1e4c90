import PriceArchive.Proofs.Session.Beside
import PriceArchive.Proofs.Work.Unit

namespace PriceArchive

open PriceArchive.Action Session

/-- Taking the value or the error out of an answer changes nothing in the session. -/
theorem Action.bind_ofResult_snd {α β : Type} (a : Action α) (f : α → Except Error β) (s : Session) :
    ((a >>= fun x => ofResult (f x)) s).2 = (a s).2 := by
  rw [bind_apply]
  rcases a s with ⟨halt | x, t⟩
  · rfl
  · change (ofResult (f x) t).2 = t
    cases f x <;> rfl

theorem Work.asks_of_forall {ε α : Type} {p : Request → Prop} (hp : ∀ r, p r) (w : Work ε α) :
    w.Asks p := by
  induction w with
  | done result => trivial
  | ask r next ih => exact ⟨hp r, ih⟩

/-- A cleanup as of the clock is one as of some time, after a clock reading. -/
theorem Cleanup.runNow_snd (days : Int64) (s : Session) :
    (runNow days s).2 =
      (run days (s.supply.clock s.supply.ticks)
        { s with supply := { s.supply with ticks := s.supply.ticks + 1 } }).2 := by
  rw [runNow, bind_of_ok (show Action.now s = (.ok (s.supply.clock s.supply.ticks),
    { s with supply := { s.supply with ticks := s.supply.ticks + 1 } }) from rfl)]
  dsimp only
  rcases run days (s.supply.clock s.supply.ticks)
    { s with supply := { s.supply with ticks := s.supply.ticks + 1 } } with ⟨(e | o) | report, t⟩
  · rfl
  · rfl
  · rfl

theorem Work.runAsUnit_settled {α : Type} (w : Work Error α) {s : Session} (hs : s.transaction = none) :
    (w.runAsUnit s).2.transaction = none := by
  rw [runAsUnit, bind_ofResult_snd]
  exact asUnit_settled w.perform hs

/-- A job leaves no transaction behind. -/
theorem Job.perform_settled (j : Job) {s : Session} (hs : s.transaction = none) :
    (j.perform s).2.transaction = none := by
  have hcleanup : ∀ days now (s : Session), s.transaction = none →
      (Cleanup.run days now s).2.transaction = none := by
    intro days now s hs
    rw [Cleanup.run, bind_apply]
    cases Cleanup.threshold days now with
    | error o => exact hs
    | ok limit => exact Work.runAsUnit_settled (Cleanup.work limit) hs
  cases j with
  | ingest batch =>
    change (Ingest.run batch s).2.transaction = none
    rw [Ingest.run]
    split
    · exact hs
    · exact Work.runAsUnit_settled (Ingest.work batch) hs
  | cleanup days now => exact hcleanup days now s hs
  | cleanupNow days =>
    change (Cleanup.runNow days s).2.transaction = none
    rw [Cleanup.runNow_snd]
    exact hcleanup days _ _ hs

/-- Every request of a job has a property. -/
def Job.Asks (p : Request → Prop) : Job → Prop
  | ingest batch =>
    p (.call (.upsertDaily batch)) ∧ p (.call (.upsertForAnalysis (batch.map NewQuote.forAnalysis))) ∧
      p (.call (.upsertSnapshots (Ingest.latestCloses batch)))
  | cleanup .. | cleanupNow _ =>
    (∀ threshold, p (.call (.findStaleBrands threshold))) ∧ (∀ ids, p (.call (.deleteBrands ids))) ∧
      (∀ ids, p (.call (.deleteDailyOfBrands ids))) ∧
      (∀ symbols, p (.call (.deleteForAnalysisOfSymbols symbols))) ∧
      ∀ ids, p (.call (.deleteSnapshots ids))

theorem Job.asks_of_forall {p : Request → Prop} (hp : ∀ r, p r) (j : Job) : j.Asks p := by
  cases j <;> simp [Asks, hp]

/-- The begin and the end of a unit of work keep a property of sessions. -/
structure Session.KeptByUnits (I : Session → Prop) : Prop where
  beginUnit : ∀ s, I s → I (beginUnit s).2
  commit : ∀ s, I s → I (commit s).2
  rolledBack : ∀ s, I s → I (rolledBack s)

namespace Session.KeptByUnits

variable {I : Session → Prop} {ε α : Type} {s : Session}

/-- An action that keeps it keeps it when it is run as a unit. -/
theorem asUnit (hI : KeptByUnits I) {action : Action (Except ε α)}
    (haction : ∀ t, I t → I (action t).2) (hs : I s) : I (asUnit action s).2 := by
  have hbegun := hI.beginUnit s hs
  rw [← Work.attempt_snd] at hbegun
  rw [Session.asUnit, bind_apply]
  rcases hbegin : attempt Session.beginUnit s with ⟨halt | answer, t⟩
  · rwa [hbegin] at hbegun
  rw [hbegin] at hbegun
  cases answer with
  | error e => exact hbegun
  | ok _ =>
    have hdone := haction t hbegun
    dsimp only
    rcases haction : action t with ⟨halt | e | a, u⟩
    · rw [haction] at hdone
      exact hI.rolledBack u hdone
    · rw [haction] at hdone
      exact hI.rolledBack u hdone
    · rw [haction] at hdone
      have hkept := hI.commit u hdone
      rw [← Work.attempt_snd] at hkept
      dsimp only
      rcases hcommit : attempt Session.commit u with ⟨halt | e | _, v⟩
      · rwa [hcommit] at hkept
      · rwa [hcommit] at hkept
      · rwa [hcommit] at hkept

/-- A unit inside another keeps it. -/
theorem nestedUnit (hI : KeptByUnits I) (hs : I s) : I (Request.nestedUnit.perform s).2 := by
  change I ((Session.asUnit (pure (.ok ())) >>= fun outcome =>
    ofResult (Outcome.result id outcome)) s).2
  rw [bind_ofResult_snd]
  exact hI.asUnit (fun _ ht => ht) hs

variable {p : Request → Prop}

/-- What the requests of a work keep, the work keeps as a unit. -/
theorem performAsUnit (hI : KeptByUnits I) (hrequest : ∀ r s, p r → I s → I (r.perform s).2)
    {w : Work ε α} (hw : w.Asks p) (hs : I s) : I (w.performAsUnit s).2 :=
  hI.asUnit (fun _ ht => Work.perform_preserves hrequest hw ht) hs

theorem runAsUnit (hI : KeptByUnits I) (hrequest : ∀ r s, p r → I s → I (r.perform s).2)
    {w : Work Error α} (hw : w.Asks p) (hs : I s) : I (w.runAsUnit s).2 := by
  rw [Work.runAsUnit, bind_ofResult_snd]
  exact hI.performAsUnit hrequest hw hs

theorem ingest (hI : KeptByUnits I) (hrequest : ∀ r s, p r → I s → I (r.perform s).2)
    {batch : List (NewQuote Instrument)} (hp : (Job.ingest batch).Asks p) (hs : I s) :
    I (Ingest.run batch s).2 := by
  obtain ⟨hdaily, hanalysis, hsnapshots⟩ := hp
  rw [Ingest.run]
  split
  · exact hs
  · exact hI.runAsUnit hrequest (.call_bind hdaily fun _ => .call_bind hanalysis fun _ =>
      .call_bind hsnapshots fun _ => trivial) hs

theorem cleanup (hI : KeptByUnits I) (hrequest : ∀ r s, p r → I s → I (r.perform s).2) {days : Int64}
    {now : Instant} (hp : (Job.cleanup days now).Asks p) (hs : I s) : I (Cleanup.run days now s).2 := by
  obtain ⟨hstale, hbrands, hdaily, hanalysis, hsnapshots⟩ := hp
  rw [Cleanup.run, bind_apply]
  cases Cleanup.threshold days now with
  | error o => exact hs
  | ok limit =>
    refine hI.runAsUnit (w := Cleanup.work limit) hrequest (.call_bind (hstale _) fun ids => ?_) hs
    split
    · trivial
    · exact .call_bind (hbrands _) fun _ => .call_bind (hdaily _) fun _ =>
        .call_bind (hanalysis _) fun _ => .call_bind (hsnapshots _) fun _ => trivial

/-- What the requests of a job keep, the job keeps; a clock reading may not matter. -/
theorem job (hI : KeptByUnits I) (hdraw : ∀ s supply, I s → I { s with supply := supply })
    (hrequest : ∀ r s, p r → I s → I (r.perform s).2) {j : Job} (hp : j.Asks p) (hs : I s) :
    I (j.perform s).2 := by
  cases j with
  | ingest batch => exact hI.ingest hrequest hp hs
  | cleanup days now => exact hI.cleanup hrequest hp hs
  | cleanupNow days =>
    change I (Cleanup.runNow days s).2
    rw [Cleanup.runNow_snd]
    have hasks : (Job.cleanup days (s.supply.clock s.supply.ticks)).Asks p := hp
    exact hI.cleanup hrequest hasks (hdraw s _ hs)

end Session.KeptByUnits

theorem Session.keptByUnits_keeps (J : Store → Prop) : KeptByUnits (Keeps J) :=
  ⟨fun _ h => h.beginUnit, fun _ h => h.commit, fun _ h => h.rolledBack⟩

/-- What calls and rows written as they are keep, every request keeps. -/
theorem Request.perform_keeps {J : Store → Prop} {s : Session}
    (hcall : ∀ (c : Call) (s : Session), s.Keeps J → (c.perform s).2.Keeps J)
    (hseed : ∀ (row : SeedRow) (s : Session), s.Keeps J → (Maintenance.seed row s).2.Keeps J)
    (r : Request) (hs : s.Keeps J) : (r.perform s).2.Keeps J := by
  cases r with
  | call c => exact hcall c s hs
  | nestedUnit => exact (keptByUnits_keeps J).nestedUnit hs
  | inTransaction => exact hs
  | now => exact ⟨hs.store, hs.start⟩
  | seed row => exact hseed row s hs
  | countRows => exact hs.run _ fun _ _ hst => (Statement.read_eq_ok hst).2 ▸ hs.store
  | dumpBrands => exact hs.run _ fun _ _ hst => (Statement.read_eq_ok hst).2 ▸ hs.store
  | rollBack => exact hs.rollBackByHand
  | breakDeferred => exact hs.breakDeferred

namespace Session

/-- The sessions to which programs lead from a session: they make requests, one at a time, begin and end
units of work, and inside units of work or not they run jobs and make calls on a connection of their own.
Clock readings, fresh ids and the server are as they may be. -/
inductive LeadsTo (s : Session) : Session → Prop where
  | refl : LeadsTo s s
  | request {t : Session} (h : LeadsTo s t) (r : Request) : LeadsTo s (r.perform t).2
  | beginUnit {t : Session} (h : LeadsTo s t) : LeadsTo s (beginUnit t).2
  | commit {t : Session} (h : LeadsTo s t) : LeadsTo s (commit t).2
  | rolledBack {t : Session} (h : LeadsTo s t) : LeadsTo s (rolledBack t)
  | job {t u : Session} (h : LeadsTo s t) (j : Job) {answer : Except Halt j.Reply}
    (hrun : j.run t = some (answer, u)) : LeadsTo s u
  | callBeside {t u : Session} (h : LeadsTo s t) (c : Call) {answer : Except Halt c.Reply}
    (hrun : t.beside c.perform = some (answer, u)) : LeadsTo s u
  | draw {t : Session} (h : LeadsTo s t) (supply : Supply) : LeadsTo s { t with supply := supply }
  | serve {t : Session} (h : LeadsTo s t) (server : Server) : LeadsTo s { t with server := server }

/-- The session is in a run that began with a store without rows. -/
def InRun (s : Session) : Prop := ∃ server clock ids order,
  ((start server clock ids).orderedBy order).LeadsTo s

namespace LeadsTo

variable {s t : Session}

theorem keptByUnits : KeptByUnits (LeadsTo s) where
  beginUnit _ h := h.beginUnit
  commit _ h := h.commit
  rolledBack _ h := h.rolledBack

/-- Every unit of work is a run. -/
theorem performAsUnit {ε α : Type} (h : s.LeadsTo t) (w : Work ε α) :
    s.LeadsTo (w.performAsUnit t).2 :=
  keptByUnits.performAsUnit (fun r _ _ ht => ht.request r) (w.asks_of_forall fun _ => trivial) h

/-- Every job in a session without a transaction is a run. -/
theorem performJob (h : s.LeadsTo t) (ht : t.transaction = none) (j : Job) :
    s.LeadsTo (j.perform t).2 :=
  h.job j (beside_of_settled ht)

/-- What calls, rows written as they are and overlays keep, a run keeps. -/
theorem keeps {J : Store → Prop}
    (hcall : ∀ (c : Call) (s : Session), s.Keeps J → (c.perform s).2.Keeps J)
    (hseed : ∀ (row : SeedRow) (s : Session), s.Keeps J → (Maintenance.seed row s).2.Keeps J)
    (hoverlay : KeptByOverlays J) (h : s.LeadsTo t) (hs : s.Keeps J) : t.Keeps J := by
  induction h with
  | refl => exact hs
  | request _ r ih => exact r.perform_keeps hcall hseed ih
  | beginUnit _ ih => exact ih.beginUnit
  | commit _ ih => exact ih.commit
  | rolledBack _ ih => exact ih.rolledBack
  | job _ j hrun ih =>
    refine ih.beside hoverlay (fun u hu => ?_) hrun
    exact (keptByUnits_keeps J).job (p := fun _ => True) (fun _ _ hu => ⟨hu.store, hu.start⟩)
      (fun r _ _ hu => r.perform_keeps hcall hseed hu) (j.asks_of_forall fun _ => trivial) hu
  | callBeside _ c hrun ih => exact ih.beside hoverlay (hcall c) hrun
  | draw _ supply ih => exact ⟨ih.store, ih.start⟩
  | serve _ server ih => exact ⟨ih.store, ih.start⟩

theorem trans {u : Session} (h : s.LeadsTo t) (h' : t.LeadsTo u) : s.LeadsTo u := by
  induction h' with
  | refl => exact h
  | request _ r ih => exact ih.request r
  | beginUnit _ ih => exact ih.beginUnit
  | commit _ ih => exact ih.commit
  | rolledBack _ ih => exact ih.rolledBack
  | job _ j hrun ih => exact ih.job j hrun
  | callBeside _ c hrun ih => exact ih.callBeside c hrun
  | draw _ supply ih => exact ih.draw supply
  | serve _ server ih => exact ih.serve server

end LeadsTo

end Session

end PriceArchive
