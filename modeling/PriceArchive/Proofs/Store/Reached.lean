import PriceArchive.Proofs.Cleanup.Effect
import PriceArchive.Proofs.Ingest.Run
import PriceArchive.Proofs.Price.Bars
import PriceArchive.Proofs.Work.Runs

namespace PriceArchive

open PriceArchive.Action Statement

/-- The bar is what is stored for one whose prices have a property. -/
def StoredBar.From (P : Decimal → Prop) (stored : StoredBar) : Prop :=
  ∃ bar : Bar, bar.toStored = .ok stored ∧ ∀ p ∈ bar.prices, P p

/-- The double is what is stored for a price with a property. -/
def Price.StoredFrom (P : Decimal → Prop) (x : Binary64) : Prop := ∃ d, P d ∧ x = Price.toStored d

/-- The statements that the operations of the archive send when the prices that they are handed have a
property. -/
inductive Statement.Sent (P : Decimal → Prop) : StatementClass where
  | read {β : Type} (f : Store → Except Refusal β) : Sent P β (.read f)
  | upsertBrands (now : Instant) (batch : List NewBrand) :
    Sent P Nat (Brands.upsertStatement now batch)
  | deleteBrands (ids : List String) : Sent P Unit (Brands.deleteStatement ids)
  | softDeleteBrands (now refreshedAt : Instant) :
    Sent P Nat (Brands.softDeleteStatement now refreshedAt)
  | upsertDaily (batch : List (QuoteOf Instrument Instant StoredBar))
    (hbars : ∀ q ∈ batch, q.bar.From P) : Sent P Nat (Quotes.upsertStatement Series.daily batch)
  | deleteDaily (texts : List String) (doomed : QuoteRow Instrument → Bool) :
    Sent P Nat (Quotes.deleteStatement Series.daily texts doomed)
  | upsertForAnalysis (batch : List (QuoteOf Ticker Instant StoredBar))
    (hbars : ∀ q ∈ batch, q.bar.From P) :
    Sent P Nat (Quotes.upsertStatement Series.forAnalysis batch)
  | deleteForAnalysis (texts : List String) (doomed : QuoteRow Ticker → Bool) :
    Sent P Nat (Quotes.deleteStatement Series.forAnalysis texts doomed)
  | upsertIndex (index : MarketIndex) (batch : List (QuoteOf Unit Instant StoredBar))
    (hbars : ∀ q ∈ batch, q.bar.From P) :
    Sent P Nat (Quotes.upsertStatement (Series.ofIndex index) batch)
  | upsertSnapshots (batch : List (SnapshotOf Instant Binary64))
    (hprices : ∀ h ∈ batch, Price.StoredFrom P h.tradePrice ∧ Price.StoredFrom P h.currentPrice) :
    Sent P Nat (Snapshots.upsertStatement batch)
  | deleteSnapshots (brandIds : List String) : Sent P Nat (Snapshots.deleteStatement brandIds)

theorem Statement.Reads.sent {P : Decimal → Prop} {β : Type} {st : Statement β}
    (h : Statement.Reads β st) : Statement.Sent P β st := by
  cases h with
  | read f => exact .read f

/-- The prices that an operation is handed to write have a property. -/
def Call.Prices (P : Decimal → Prop) : Call → Prop
  | .upsertDaily batch => ∀ q ∈ batch, ∀ p ∈ q.bar.prices, P p
  | .upsertForAnalysis batch => ∀ q ∈ batch, ∀ p ∈ q.bar.prices, P p
  | .upsertIndex _ batch => ∀ q ∈ batch, ∀ p ∈ q.bar.prices, P p
  | .upsertSnapshots batch => ∀ h ∈ batch, P h.tradePrice ∧ P h.currentPrice
  | _ => True

/-- A request of a program: not a row written past the operations, and no prices but some. -/
def Request.Prices (P : Decimal → Prop) : Request → Prop
  | .call c => c.Prices P
  | .seed _ => False
  | _ => True

/-- The prices that a job is handed to write have a property. -/
def Job.Prices (P : Decimal → Prop) : Job → Prop
  | .ingest batch => ∀ q ∈ batch, ∀ p ∈ q.bar.prices, P p
  | .cleanup .. | .cleanupNow _ => True

namespace Session

/-- The sessions to which the archive leads from a store without rows, when the prices that it is handed
have a property. The server may come and go, and inside units of work or not jobs run and calls are made on
a connection of their own. -/
inductive Reached (P : Decimal → Prop) : Session → Prop where
  | start (server : Server) (clock : Nat → Instant) (ids : Nat → String) (order : TextOrder) :
    Reached P ((start server clock ids).orderedBy order)
  | draw {s : Session} (h : Reached P s) (supply : Supply) : Reached P { s with supply := supply }
  | serve {s : Session} (h : Reached P s) (server : Server) : Reached P { s with server := server }
  | run {s : Session} (h : Reached P s) {α : Type} (operation : String) {st : Statement α}
    (hst : Sent P α st) : Reached P (run operation st s).2
  | beginUnit {s : Session} (h : Reached P s) : Reached P (beginUnit s).2
  | commit {s : Session} (h : Reached P s) : Reached P (commit s).2
  | rolledBack {s : Session} (h : Reached P s) : Reached P (rolledBack s)
  | rollBackByHand {s : Session} (h : Reached P s) : Reached P (rollBackByHand s).2
  | breakDeferred {s : Session} (h : Reached P s) : Reached P (breakDeferred s).2
  | job {s t : Session} (h : Reached P s) {j : Job} (hj : j.Prices P) {answer : Except Halt j.Reply}
    (hrun : j.run s = some (answer, t)) : Reached P t
  | callBeside {s t : Session} (h : Reached P s) {c : Call} (hc : c.Prices P)
    {answer : Except Halt c.Reply} (hrun : s.beside c.perform = some (answer, t)) : Reached P t

/-- What is drawn from the supply and the statements of the archive keep a property of sessions. -/
structure KeptByStatements (P : Decimal → Prop) (I : Session → Prop) : Prop where
  draw : ∀ s supply, I s → I { s with supply := supply }
  run : ∀ {α : Type} (s : Session) (operation : String) (st : Statement α), Sent P α st → I s →
    I (run operation st s).2

end Session

open Session

variable {P : Decimal → Prop} {I : Session → Prop} {s : Session}

theorem Action.Sends.preserves_sent {α : Type} {a : Action α} (ha : a.Sends (Sent P))
    (hI : KeptByStatements P I) (h : I s) : I (a s).2 :=
  ha.preserves hI.draw (fun _ operation st t hst ht => hI.run t operation st hst ht) h

section Calls

theorem Quotes.upsert_preserves {σ : Type} [Subject σ] (series : Series σ)
    (hsent : ∀ rows, (∀ q ∈ rows, StoredBar.From P q.bar) → Sent P Nat (upsertStatement series rows))
    {batch : List (NewQuote σ)} (hbatch : ∀ q ∈ batch, ∀ p ∈ q.bar.prices, P p)
    (hI : KeptByStatements P I) (h : I s) : I (upsert series batch s).2 := by
  by_cases hempty : batch = []
  · subst hempty
    exact h
  rw [upsert_apply series hempty]
  cases hbars : storedBars (lastPerKey NewQuote.key batch) with
  | error e => exact hI.draw _ _ h
  | ok bars =>
    refine (Sends.runAll _ _ fun st hst => ?_).preserves_sent hI (hI.draw _ _ h)
    obtain ⟨rows, hrows, rfl⟩ := List.mem_map.mp hst
    refine hsent rows fun q hq => ?_
    obtain ⟨b, hb, m, -, rfl⟩ := mem_stamped ((sublist_of_mem_chunks hrows).mem hq)
    obtain ⟨x, hx, -, -, hbar⟩ := mem_storedBars hbars hb
    exact ⟨x.bar, hbar, hbatch x (mem_of_mem_lastPerKey hx)⟩

theorem Snapshots.upsert_preserves {batch : List NewSnapshot}
    (hbatch : ∀ x ∈ batch, P x.tradePrice ∧ P x.currentPrice) (hI : KeptByStatements P I)
    (h : I s) : I (upsert batch s).2 := by
  by_cases hempty : batch = []
  · subst hempty
    exact h
  rw [upsert_apply hempty]
  refine (Sends.runAll _ _ fun st hst => ?_).preserves_sent hI (hI.draw _ _ h)
  obtain ⟨rows, hrows, rfl⟩ := List.mem_map.mp hst
  refine .upsertSnapshots rows fun x hx => ?_
  obtain ⟨y, hy, heq⟩ :=
    exists_mem_of_map_eq (map_stamped ..) ((sublist_of_mem_chunks hrows).mem hx)
  simp only [NewSnapshot.storedColumns, Prod.mk.injEq] at heq
  obtain ⟨htrade, hcurrent⟩ := hbatch y (mem_of_mem_lastPerKey hy)
  exact ⟨⟨_, htrade, heq.2.1.1.symm⟩, ⟨_, hcurrent, heq.2.2.symm⟩⟩

/-- What the statements of the archive keep, every operation keeps that is handed such prices. -/
theorem Call.perform_keeps {c : Call} (hc : c.Prices P) (hI : KeptByStatements P I) (h : I s) :
    I (c.perform s).2 := by
  by_cases hreads : c.readsOnly = true
  · exact ((perform_sends_reads hreads).mono fun _ _ hread => hread.sent).preserves_sent hI h
  cases c with
  | upsertBrands batch =>
    exact (Brands.upsert_sends batch (fun _ _ hread => hread.sent) .upsertBrands).preserves_sent hI h
  | deleteBrands ids =>
    exact (Brands.delete_sends ids (fun _ _ hread => hread.sent) .deleteBrands).preserves_sent hI h
  | softDeleteBrands refreshedAt =>
    exact (Brands.softDeleteStale_sends refreshedAt .softDeleteBrands).preserves_sent hI h
  | upsertDaily batch => exact Quotes.upsert_preserves _ .upsertDaily hc hI h
  | deleteDailyOfBrands ids => exact (Quotes.deleteByBrands_sends ids .deleteDaily).preserves_sent hI h
  | deleteDailyOfSymbols symbols =>
    exact (Quotes.deleteBySymbols_sends _ _ symbols .deleteDaily).preserves_sent hI h
  | upsertForAnalysis batch => exact Quotes.upsert_preserves _ .upsertForAnalysis hc hI h
  | deleteForAnalysisOfSymbols symbols =>
    exact (Quotes.deleteBySymbols_sends _ _ symbols .deleteForAnalysis).preserves_sent hI h
  | upsertSnapshots batch => exact Snapshots.upsert_preserves hc hI h
  | deleteSnapshots brandIds => exact (Snapshots.delete_sends brandIds .deleteSnapshots).preserves_sent hI h
  | upsertIndex index batch => exact Quotes.upsert_preserves _ (.upsertIndex index) hc hI h
  | _ => exact absurd rfl hreads

end Calls

section Units

variable {ε α : Type}

theorem Session.reached_keptByUnits : KeptByUnits (Reached P) where
  beginUnit _ h := h.beginUnit
  commit _ h := h.commit
  rolledBack _ h := h.rolledBack

theorem Session.reached_keptByStatements : KeptByStatements P (Reached P) where
  draw _ supply h := h.draw supply
  run _ operation _ hst h := h.run operation hst

/-- Every operation leads from such a session to such a session. -/
theorem Call.perform_reached {c : Call} (hc : c.Prices P) (h : Reached P s) : Reached P (c.perform s).2 :=
  c.perform_keeps hc reached_keptByStatements h

theorem Request.perform_reached {r : Request} (hr : r.Prices P) (h : Reached P s) :
    Reached P (r.perform s).2 := by
  cases r with
  | call c => exact c.perform_reached hr h
  | nestedUnit => exact reached_keptByUnits.nestedUnit h
  | inTransaction => exact h
  | now => exact h.draw _
  | seed row => exact hr.elim
  | countRows => exact h.run _ (.read _)
  | dumpBrands =>
    exact (Brands.dump_sends.mono fun _ _ hread => hread.sent).preserves_sent reached_keptByStatements h
  | rollBack => exact h.rollBackByHand
  | breakDeferred => exact h.breakDeferred

namespace Work

theorem perform_reached {w : Work ε α} (hw : w.Asks (Request.Prices P)) (h : Reached P s) :
    Reached P (w.perform s).2 :=
  perform_preserves (fun _ _ hr ht => Request.perform_reached hr ht) hw h

/-- Every unit of work leads from such a session to such a session. -/
theorem performAsUnit_reached {w : Work ε α} (hw : w.Asks (Request.Prices P)) (h : Reached P s) :
    Reached P (w.performAsUnit s).2 :=
  reached_keptByUnits.performAsUnit (fun _ _ hr ht => Request.perform_reached hr ht) hw h

end Work

end Units

section Jobs

/-- The snapshots of an ingest have closes of its quotes. -/
theorem Ingest.mem_latestCloses {batch : List (NewQuote Instrument)} {x : NewSnapshot}
    (hx : x ∈ latestCloses batch) :
    ∃ q ∈ batch, x = .ofPrice q.subject.brandId q.bar.closing := by
  have hfilter : x ∈ (latestCloses batch).filter fun y => decide (y.brandId = x.brandId) :=
    List.mem_filter.mpr ⟨hx, decide_eq_true rfl⟩
  rw [filter_latestCloses, Option.mem_toList, Option.map_eq_some_iff] at hfilter
  obtain ⟨q, hq, heq⟩ := hfilter
  exact ⟨q, (mem_quotesOf.mp (mem_of_newest hq)).1, heq.symm⟩

/-- A job makes calls, with prices that it is handed. -/
theorem Job.asks_calls {j : Job} (hj : j.Prices P) : j.Asks fun r => ∃ c, r = .call c ∧ c.Prices P := by
  cases j with
  | ingest batch =>
    refine ⟨⟨_, rfl, hj⟩, ⟨_, rfl, fun q hq => ?_⟩, ⟨_, rfl, fun x hx => ?_⟩⟩
    · obtain ⟨q', hq', rfl⟩ := List.mem_map.mp hq
      exact hj q' hq'
    · obtain ⟨q, hq, rfl⟩ := Ingest.mem_latestCloses hx
      have hclosing := hj q hq q.bar.closing (by simp [Bar.prices])
      exact ⟨hclosing, hclosing⟩
  | cleanup | cleanupNow =>
    exact ⟨fun _ => ⟨_, rfl, trivial⟩, fun _ => ⟨_, rfl, trivial⟩, fun _ => ⟨_, rfl, trivial⟩,
      fun _ => ⟨_, rfl, trivial⟩, fun _ => ⟨_, rfl, trivial⟩⟩

/-- What units of work and the statements of the archive keep, every job keeps that is handed such
prices. -/
theorem Job.perform_keeps {j : Job} (hj : j.Prices P) (hunits : KeptByUnits I)
    (hI : KeptByStatements P I) (h : I s) : I (j.perform s).2 := by
  refine hunits.job hI.draw (fun r s hr hs => ?_) (asks_calls hj) h
  obtain ⟨c, rfl, hc⟩ := hr
  exact c.perform_keeps hc hI hs

end Jobs

end PriceArchive
