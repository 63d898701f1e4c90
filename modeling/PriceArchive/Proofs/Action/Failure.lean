import PriceArchive.Proofs.Session.Batch
import PriceArchive.Proofs.Work.Exchange

namespace PriceArchive

open Session

namespace Action

variable {α β : Type}

/-- Without a transaction, and on a server that can be reached, a failure of the action that is no
refusal leaves the store as it is. -/
def FailsClean (a : Action α) : Prop :=
  ∀ s, s.server = .live → s.transaction = none → ∀ halt t, a s = (.error halt, t) →
    ¬ Refused (.error halt : Except Halt α) → t.store = s.store

/-- Without a transaction an action that only reads leaves the store as it is. -/
theorem Sends.store_of_reads {a : Action α} (h : a.Sends Statement.Reads) {s : Session}
    (hs : s.transaction = none) : (a s).2.store = s.store := by
  refine (h.preserves (I := fun t => t.transaction = none ∧ t.store = s.store)
    (fun _ _ ht => ht) ?_ ⟨hs, rfl⟩).2
  intro β operation st t hst ht
  cases hst with
  | read f =>
    cases hrefusal : t.server.refusal with
    | none =>
      rw [run_of_given hrefusal ht.1]
      unfold Statement.read
      cases f t.store with
      | ok x => exact ht
      | error r => exact ht
    | some reason =>
      rw [run_of_refusal hrefusal ht.1]
      exact ht

namespace FailsClean

theorem of_reads {a : Action α} (h : a.Sends Statement.Reads) : a.FailsClean := by
  intro s _ hs halt t ha _
  have hstore := h.store_of_reads hs
  rwa [ha] at hstore

theorem run (operation : String) (st : Statement α) : (Session.run operation st).FailsClean :=
  fun _ _ hs _ _ ha _ => (run_eq_error hs ha).1

theorem ite {c : Prop} [Decidable c] {a b : Action α} (ha : a.FailsClean) (hb : b.FailsClean) :
    (if c then a else b).FailsClean := by
  split
  · exact ha
  · exact hb

/-- What comes after reads fails cleanly if it does so on its own. -/
theorem bind_of_reads {a : Action α} {f : α → Action β} (ha : a.Sends Statement.Reads)
    (hf : ∀ x, (f x).FailsClean) : (a >>= f).FailsClean := by
  intro s hlive hs halt t h hno
  have hstore := ha.store_of_reads hs
  have halone := ha.stays_live hlive hs
  rw [bind_apply] at h
  rcases has : a s with ⟨e | x, u⟩
  · rw [has] at h hstore
    cases h
    exact hstore
  · rw [has] at h hstore halone
    exact (hf x u halone.1 halone.2 halt t h hno).trans hstore

/-- What is done with the value alone adds no failure. -/
theorem bind_pure {a : Action α} (ha : a.FailsClean) (f : α → β) :
    (a >>= fun x => (pure (f x) : Action β)).FailsClean := by
  intro s hlive hs halt t h hno
  rw [bind_apply] at h
  rcases has : a s with ⟨e | x, u⟩
  · rw [has] at h
    cases h
    exact ha s hlive hs halt t has fun hrefused => hno hrefused.error
  · rw [has] at h
    cases h

end FailsClean

/-- On a server that can be reached the statements of a batch only fail by a refusal. -/
theorem refused_of_runAll_error {operation : String} {statements : List (Statement Nat)}
    {s t : Session} {halt : Halt} (hlive : s.server = .live) (hs : s.transaction = none)
    (h : Session.runAll operation statements s = (.error halt, t)) :
    Refused (.error halt : Except Halt Nat) := by
  rw [runAll_alone hlive hs, Prod.mk.injEq] at h
  exact refused_of_ofRefusal h.1

theorem FailsClean.runAll (operation : String) (statements : List (Statement Nat)) :
    (Session.runAll operation statements).FailsClean :=
  fun _ hlive hs _ _ h hno => absurd (refused_of_runAll_error hlive hs h) hno

end Action

open PriceArchive.Action

theorem Quotes.upsert_failsClean {σ : Type} [Subject σ] (series : Series σ)
    (batch : List (NewQuote σ)) : (Quotes.upsert series batch).FailsClean :=
  .ite (.of_reads (.pure _)) (.bind_of_reads .now fun now => .bind_of_reads (.ofConversion _)
    fun bars => .bind_of_reads (withIds_sends now bars) fun _ => .runAll _ _)

theorem Call.perform_failsClean (c : Call) : c.perform.FailsClean := by
  by_cases hc : c.readsOnly = true
  · exact .of_reads (perform_sends_reads hc)
  cases c with
  | upsertBrands batch =>
    exact .ite (.of_reads (.pure _)) (.bind_of_reads (.run _ _ (.read _)) fun _ =>
      .bind_of_reads .now fun _ => .runAll _ _)
  | deleteBrands ids =>
    exact .ite (.of_reads (.pure _)) (.bind_of_reads (.withOrder fun _ => .run _ _ (.read _)) fun doomed =>
      .ite (.of_reads (.pure _)) (.bind_pure (.run _ _) fun _ => doomed))
  | softDeleteBrands refreshedAt => exact .bind_of_reads .now fun _ => .run _ _
  | upsertDaily batch => exact Quotes.upsert_failsClean _ batch
  | deleteDailyOfBrands ids => exact .ite (.of_reads (.pure _)) (.run _ _)
  | deleteDailyOfSymbols symbols => exact .ite (.of_reads (.pure _)) (.run _ _)
  | upsertForAnalysis batch => exact Quotes.upsert_failsClean _ batch
  | deleteForAnalysisOfSymbols symbols => exact .ite (.of_reads (.pure _)) (.run _ _)
  | upsertSnapshots batch =>
    exact .ite (.of_reads (.pure _)) (.bind_of_reads .now fun now =>
      .bind_of_reads (Snapshots.withIds_sends now _) fun _ => .runAll _ _)
  | deleteSnapshots brandIds => exact .ite (.of_reads (.pure _)) (.run _ _)
  | upsertIndex index batch => exact Quotes.upsert_failsClean _ batch
  | _ => exact absurd rfl hc

/-- An operation that fails without a refusal has written nothing. -/
theorem Request.perform_failsClean {r : Request} (hr : r.isOperation = true) :
    r.perform.FailsClean := by
  by_cases hw : r.writes = false
  · exact .of_reads (perform_sends_reads hr hw)
  cases r with
  | call c => exact c.perform_failsClean
  | seed row =>
    cases row with
    | _ => exact .run _ _
  | _ => exact absurd rfl hw

end PriceArchive
