import PriceArchive.Proofs.Cleanup.Leftover
import PriceArchive.Proofs.Store.Identity

namespace PriceArchive

open PriceArchive.Action Session

namespace Store

theorem respectsWrites_grows : RespectsWrites Grows where
  refl := Grows.refl
  brands s _ _ h := { Grows.refl s with brands := .upsert (fun _ _ => rfl) h }
  softDeletion s bound now := by
    refine { Grows.refl s with brands := .map fun b => ?_ }
    unfold Brands.softDeleteIfStale
    split <;> rfl
  daily s _ _ h := { Grows.refl s with daily := .upsert (fun _ _ => rfl) h }
  forAnalysis s _ _ h := { Grows.refl s with forAnalysis := .upsert (fun _ _ => rfl) h }
  snapshots s _ _ h := { Grows.refl s with snapshots := .upsert (fun _ _ => rfl) h }
  index index s _ _ h := by
    cases index with
    | nikkei => exact { Grows.refl s with nikkei := .upsert (fun _ _ => rfl) h }
    | topix => exact { Grows.refl s with topix := .upsert (fun _ _ => rfl) h }

theorem respectsDeletions_shrinks : RespectsDeletions Shrinks where
  refl := Shrinks.refl
  brands s _ := { Shrinks.refl s with brands := fun _ hr => List.mem_of_mem_filter hr }
  daily s _ := { Shrinks.refl s with daily := fun _ hr => List.mem_of_mem_filter hr }
  forAnalysis s _ := { Shrinks.refl s with forAnalysis := fun _ hr => List.mem_of_mem_filter hr }
  snapshots s _ := { Shrinks.refl s with snapshots := fun _ hr => List.mem_of_mem_filter hr }

end Store

namespace Session

variable {s t : Session}

/-- Rows keep their own columns, and none is lost unless by a deletion; as the session sees it and as it is
committed. -/
def Lasts (deletes : Bool) (s t : Session) : Prop :=
  Throughout Store.Agrees s t ∧ (deletes = false → Throughout Store.LosesNone s t)

/-- What does not delete makes the tables grow, what deletes makes them shrink. -/
theorem Lasts.of_transaction {deletes : Bool} (hs : s.Keeps Store.IdsOnce) (ht : t.Keeps Store.IdsOnce)
    (htransaction : t.transaction = s.transaction) (hgrows : deletes = false → s.store.Grows t.store)
    (hshrinks : deletes = true → s.store.Shrinks t.store) : s.Lasts deletes t := by
  obtain ⟨hagrees, hloses⟩ := Store.Grows.agrees hs.committed hs.committed (.refl s.committed)
  cases deletes with
  | false =>
    obtain ⟨hagrees', hloses'⟩ := Store.Grows.agrees hs.store ht.store (hgrows rfl)
    exact ⟨.of_transaction hagrees htransaction hagrees', fun _ =>
      .of_transaction hloses htransaction hloses'⟩
  | true =>
    have hagrees' := Store.Shrinks.agrees hs.store ht.store (hshrinks rfl)
    exact ⟨.of_transaction hagrees htransaction hagrees', nofun⟩

theorem Lasts.of_beside {α : Type} {action : Action α} {answer : Except Halt α} {deletes : Bool}
    (hs : s.Keeps Store.IdsOnce) (hu : s.outside.Lasts deletes (action s.outside).2)
    (hsettled : (action s.outside).2.transaction = none) (hrun : s.beside action = some (answer, t)) :
    s.Lasts deletes t := by
  obtain ⟨hagrees, hloses⟩ := hu
  exact ⟨.of_beside (.overlaid hs.store) hsettled hagrees.seen hrun,
    fun hdeletes => .of_beside (.overlaid hs.store) hsettled (hloses hdeletes).seen hrun⟩

namespace InRun

/-- A call leaves the rows their own columns, unless the store refuses it in a transaction that runs. -/
theorem lasts_or_undone (hs : s.Keeps Store.IdsOnce) (c : Call) :
    ((c.perform s).2.transaction = s.transaction ∧ s.Lasts c.deletes (c.perform s).2) ∨
      (Refused (c.perform s).1 ∧ s.Undone (c.perform s).2) := by
  have ht : (c.perform s).2.Keeps Store.IdsOnce := (LeadsTo.refl.request (.call c)).idsOnce hs
  cases hc : c.deletes with
  | false =>
    have hsends := Call.perform_sends_relates_of_writes Store.respectsWrites_grows hc
    exact (hsends.related Store.Grows.refl (fun _ _ _ => .trans) s).imp_left fun ⟨hsame, hgrows⟩ =>
      ⟨hsame, .of_transaction hs ht hsame (fun _ => hgrows) nofun⟩
  | true =>
    have hsends := Call.perform_sends_relates_of_deletions Store.respectsDeletions_shrinks hc
    exact (hsends.related Store.Shrinks.refl (fun _ _ _ => .trans) s).imp_left fun ⟨hsame, hshrinks⟩ =>
      ⟨hsame, .of_transaction hs ht hsame nofun fun _ => hshrinks⟩

/-- So does a job in a session without a transaction. -/
theorem lasts_job (hs : s.Keeps Store.IdsOnce) (hsettled : s.transaction = none) (j : Job) :
    s.Lasts j.deletes (j.perform s).2 := by
  have ht := (LeadsTo.refl.performJob hsettled j).idsOnce hs
  refine .of_transaction hs ht ((j.perform_settled hsettled).trans hsettled.symm) (fun hj => ?_) fun hj => ?_
  · exact Job.perform_related Store.Grows.refl (fun _ _ _ => .trans)
      (Job.asks_of_writes Store.respectsWrites_grows hj) hsettled
  · exact Job.perform_related Store.Shrinks.refl (fun _ _ _ => .trans)
      (Job.asks_of_deletions Store.respectsDeletions_shrinks hj) hsettled

/-- In every session to which a run leads from a store without rows: a call, however it ends, leaves rows
that are there before and after it under one id with the same columns of their own, and if it is not a
deletion it makes no row disappear; unless the store refuses it in a transaction that runs, for then the
transaction is aborted and the session is back at what is committed. A call on a connection of its own and
a job, also while a transaction runs and however they end, leave the rows their own columns, and they make
none disappear if the call is not a deletion and the job not a cleanup. -/
theorem rows_keep_own_columns (h : s.InRun) :
    (∀ c : Call, s.Lasts c.deletes (c.perform s).2 ∨
      (Refused (c.perform s).1 ∧ s.Undone (c.perform s).2)) ∧
    (∀ (c : Call) answer t, s.beside c.perform = some (answer, t) → s.Lasts c.deletes t) ∧
    ∀ (j : Job) answer t, j.run s = some (answer, t) → s.Lasts j.deletes t := by
  have hids := h.idsOnce
  refine ⟨fun c => (lasts_or_undone hids c).imp_left And.right, fun c answer t hrun => ?_,
    fun j answer t hrun => ?_⟩
  · -- Outside there is no transaction that a refusal could abort.
    rcases lasts_or_undone hids.outside c with ⟨hsettled, hlasts⟩ | ⟨-, start, d, hrunning, -⟩
    · exact hlasts.of_beside hids hsettled hrun
    · cases hrunning
  · exact (lasts_job hids.outside rfl j).of_beside hids (j.perform_settled rfl) hrun

end InRun

end Session

namespace Store

/-- A transaction in which a brand was reported. -/
def openReport : Session :=
  ((Call.upsertBrands [Cleanup.report1001 "b1"]).perform (beginUnit Work.quietStart).2).2

/-- A report on another brand with its ticker symbol. -/
def rivalReport : Call := .upsertBrands [Cleanup.report1001 "b2"]

theorem inRun_openReport : openReport.InRun := ⟨_, _, _, _, LeadsTo.refl.beginUnit.request (.call _)⟩

theorem ids_openReport : openReport.store.brands.map Brand.id = ["b1"] := by decide +kernel

theorem ids_rivalReport : (rivalReport.perform openReport).2.store.brands.map Brand.id = [] := by
  decide +kernel

theorem rivalReport_loses_row : ¬ openReport.store.LosesNone (rivalReport.perform openReport).2.store := by
  intro hloses
  obtain ⟨b, hb, -⟩ := List.mem_map.mp (ids_openReport ▸ List.mem_singleton_self "b1")
  obtain ⟨b', hb', -⟩ := hloses.brands b hb
  have hmem : b'.id ∈ ([] : List String) := ids_rivalReport ▸ List.mem_map_of_mem hb'
  cases hmem

/-- In the transaction the second report is refused, and the brand that the first one wrote is gone. -/
theorem refused_call_loses_row :
    ¬ ∀ (s : Session) (c : Call), s.InRun → c.deletes = false →
      s.store.LosesNone (c.perform s).2.store :=
  fun hloses => rivalReport_loses_row (hloses openReport rivalReport inRun_openReport rfl)

/-- An ingest of a day of that brand. -/
def ingestReported : Job := .ingest [Cleanup.quote1001 "b1" 100 (Nat.le_of_ble_eq_true rfl)]

/-- Beside the transaction the ingest is kept, while the brand is not. -/
theorem exists_ingestReported :
    ∃ answer t, ingestReported.run openReport = some (answer, t) ∧
      t.store.brands.map Brand.id = ["b1"] ∧ t.store.daily.length = 1 ∧
      t.committed.brands = [] ∧ t.committed.daily.length = 1 := by
  have hrun : (ingestReported.run openReport).map (fun outcome =>
      (outcome.2.store.brands.map Brand.id, outcome.2.store.daily.length, outcome.2.committed.brands,
        outcome.2.committed.daily.length)) = some (["b1"], 1, [], 1) := by decide +kernel
  obtain ⟨⟨answer, t⟩, hrun, hcontents⟩ := Option.map_eq_some_iff.mp hrun
  simp only [Prod.mk.injEq] at hcontents
  exact ⟨answer, t, hrun, hcontents⟩

theorem rows_keep_own_columns_openReport :
    openReport.InRun ∧ openReport.Undone (rivalReport.perform openReport).2 ∧
      openReport.Lasts false ((Call.softDeleteBrands .epoch).perform openReport).2 ∧
      ∃ answer t, ingestReported.run openReport = some (answer, t) ∧ t.committed.brands = [] ∧
        t.committed.daily.length = 1 ∧ openReport.Lasts false t := by
  obtain ⟨hcalls, -, hjobs⟩ := InRun.rows_keep_own_columns inRun_openReport
  refine ⟨inRun_openReport, ?_, ?_, ?_⟩
  · exact (hcalls rivalReport).elim (fun hkept => absurd (hkept.2 rfl).seen rivalReport_loses_row)
      And.right
  · refine (hcalls (.softDeleteBrands .epoch)).resolve_right ?_
    rintro ⟨-, start, d, -, haborted, -⟩
    have hopen : ((Call.softDeleteBrands .epoch).perform openReport).2.transaction ≠ some .aborted := by
      decide +kernel
    exact absurd haborted hopen
  · obtain ⟨answer, t, hrun, -, -, hbrands, hdaily⟩ := exists_ingestReported
    exact ⟨answer, t, hrun, hbrands, hdaily, hjobs ingestReported answer t hrun⟩

end Store

end PriceArchive
