import PriceArchive.Proofs.Action.Failure
import PriceArchive.Proofs.Work.Atomicity

namespace PriceArchive

open Session

namespace Exchange

/-- A request that wrote nothing leaves the store alone when it is made without a transaction on a
server that can be reached, unless the store turned it down. -/
theorem store_of_not_wrote {x : Exchange} (hop : x.request.isOperation = true) {s t : Session}
    (hlive : s.server = .live) (hs : s.transaction = none) (hanswer : Action.attempt x.request.perform s = (.ok x.answer, t))
    (hno : ¬ x.Refused) (hwrote : x.wrote = false) : t.store = s.store := by
  obtain ⟨r, supply, answer⟩ := x
  dsimp only at hop hanswer
  have hstep := Work.attempt_snd r.perform s
  rw [hanswer] at hstep
  by_cases hw : r.writes = true
  · rcases Action.attempt_eq_ok hanswer with ⟨y, -, rfl⟩ | ⟨e, he, rfl⟩
    · simp [wrote, succeeded, hw] at hwrote
    · rw [refused_error_iff] at hno
      exact Request.perform_failsClean hop s hlive hs _ t he hno
  · rw [show t = (r.perform s).2 from hstep]
    exact (Request.perform_sends_reads hop (by simpa using hw)).store_of_reads hs

end Exchange

/-- Operations made one after another without a refusal leave what those of them leave that wrote
and were answered with a value. -/
theorem Redone.store_eq_applyAll {s t : Session} {xs : List Exchange} (h : Redone s xs t)
    (hlive : s.server = .live) (hs : s.transaction = none) (hno : ∀ x ∈ xs, ¬ x.Refused) :
    t.store = applyAll s.order (xs.filter Exchange.wrote) s.store := by
  induction h with
  | nil s => rfl
  | @operation s t u x rest hop hsupply hanswer _ ih =>
    have hstep := Work.attempt_snd x.request.perform s
    rw [hanswer] at hstep
    have halone := (Request.perform_sends hop).stays_live hlive hs
    rw [← hstep] at halone
    have horder := (Request.perform_sends hop).keeps_order s
    rw [← hstep] at horder
    have hrest := ih halone.1 halone.2 fun y hy => hno y (List.mem_cons_of_mem x hy)
    rw [horder] at hrest
    by_cases hwrote : x.wrote = true
    · have happly : x.apply s.order s.store = t.store := by
        unfold Exchange.apply
        rw [hsupply, ← eq_mk_of_alone hlive hs]
        exact congrArg Session.store hstep.symm
      rw [hrest, List.filter_cons_of_pos hwrote, ← happly]
      rfl
    · have hstore := Exchange.store_of_not_wrote hop hlive hs hanswer (hno x (by simp)) (by simpa using hwrote)
      rw [hrest, List.filter_cons_of_neg hwrote, hstore]
  | @other s u x rest hop _ ih =>
    have hwrote : ¬ x.wrote = true := by
      intro hwrote
      have hw : x.request.writes = true := by simp_all [Exchange.wrote]
      rw [Request.isOperation_of_writes hw] at hop
      cases hop
    rw [List.filter_cons_of_neg hwrote]
    exact ih hlive hs fun y hy => hno y (List.mem_cons_of_mem x hy)

namespace Work

variable {ε α : Type}

/-- A unit that ends with its value has kept exactly its writes that were answered with a value if
and only if the store turned none of its statements down, or these writes change nothing anyway.
After a refusal that the work took as a value the store is as it was before the unit. -/
theorem performAsUnit_kept_iff (w : Work ε α) (hw : w.NeverRollsBack) (s : Session)
    (hs : s.transaction = none) {a : α} {t : Session}
    (h : w.performAsUnit s = (.ok (.committed a), t)) :
    let writes := (w.exchanges s.begun).filter Exchange.wrote
    (t.store = applyAll s.order writes s.store ↔
      (∀ x ∈ w.exchanges s.begun, ¬ x.Refused) ∨ applyAll s.order writes s.store = s.store) ∧
    ((∃ x ∈ w.exchanges s.begun, x.Refused) → t.store = s.store) := by
  intro writes
  obtain ⟨-, u, hu, rfl⟩ := perform_of_committed hw hs h
  have hunit := perform_enter hw (s := s.solo) rfl rfl (perform_solo_begun hu)
  rw [exchanges_solo_begun] at hunit
  rcases hunit with ⟨hno, v, d, hredone, hv, -⟩ | ⟨hrefused, -, hstore⟩
  · have hkept := hredone.store_eq_applyAll rfl rfl hno
    rw [← enter_store v s.store d, ← hv] at hkept
    refine ⟨iff_of_true hkept (.inl hno), fun ⟨x, hx, hrefused⟩ => ?_⟩
    exact absurd hrefused (hno x hx)
  · refine ⟨?_, fun _ => hstore⟩
    change (u.served .live).store = applyAll s.order writes s.store ↔ _
    rw [hstore]
    constructor
    · exact fun heq => .inr heq.symm
    · rintro (hno | heq)
      · obtain ⟨x, hx, hx'⟩ := hrefused
        exact absurd hx' (hno x hx)
      · exact heq.symm

/-- A work that reports two brands with one ticker symbol, one after the other, and takes no notice of
the answers. -/
def reportRivals : Work Error Nat :=
  ask (.call (.upsertBrands [⟨"b1", "1001", "N", .empty, .empty, .empty, .epoch⟩])) fun _ =>
    ask (.call (.upsertBrands [⟨"b2", "1001", "N", .empty, .empty, .empty, .epoch⟩])) fun _ =>
      value 1

theorem reportRivals_neverRollsBack : reportRivals.NeverRollsBack :=
  ⟨nofun, fun _ => ⟨nofun, fun _ => trivial⟩⟩

/-- The session in which the work is tried: an empty store that can be reached. -/
def quietStart : Session := .start .live (fun _ => .epoch) toString

theorem reportRivals_committed :
    reportRivals.performAsUnit quietStart =
      (.ok (.committed 1), (reportRivals.performAsUnit quietStart).2) :=
  Prod.ext (by with_unfolding_all rfl) rfl

theorem reportRivals_keeps_no_brand :
    (reportRivals.performAsUnit quietStart).2.store.brands.length = 0 := by
  with_unfolding_all rfl

theorem reportRivals_writes_one_brand :
    (applyAll quietStart.order ((reportRivals.exchanges quietStart.begun).filter Exchange.wrote)
      quietStart.store).brands.length = 1 := by decide +kernel

/-- The first brand was answered as written and the unit ends with its value, but the brand is not
there. -/
theorem committed_unit_can_lose_its_writes :
    ¬ ∀ (w : Work Error Nat) (s : Session), w.NeverRollsBack → s.transaction = none →
      ∀ a t, w.performAsUnit s = (.ok (.committed a), t) →
        t.store = applyAll s.order ((w.exchanges s.begun).filter Exchange.wrote) s.store := by
  intro hkept
  have hstore := hkept _ quietStart reportRivals_neverRollsBack rfl _ _ reportRivals_committed
  have hlost := reportRivals_keeps_no_brand
  rw [hstore, reportRivals_writes_one_brand] at hlost
  cases hlost

theorem performAsUnit_reportRivals :
    reportRivals.NeverRollsBack ∧ quietStart.transaction = none ∧
      reportRivals.performAsUnit quietStart =
        (.ok (.committed 1), (reportRivals.performAsUnit quietStart).2) ∧
      (reportRivals.performAsUnit quietStart).2.store ≠
        applyAll quietStart.order ((reportRivals.exchanges quietStart.begun).filter Exchange.wrote)
          quietStart.store ∧
      ∃ x ∈ reportRivals.exchanges quietStart.begun, x.Refused := by
  have hlost : (reportRivals.performAsUnit quietStart).2.store ≠
      applyAll quietStart.order ((reportRivals.exchanges quietStart.begun).filter Exchange.wrote)
        quietStart.store := by
    intro hstore
    have hempty := reportRivals_keeps_no_brand
    rw [hstore, reportRivals_writes_one_brand] at hempty
    cases hempty
  have hkept := (performAsUnit_kept_iff reportRivals reportRivals_neverRollsBack quietStart rfl
    reportRivals_committed).1
  refine ⟨reportRivals_neverRollsBack, rfl, reportRivals_committed, hlost, ?_⟩
  apply Classical.byContradiction
  intro hnone
  exact hlost (hkept.mpr (.inl fun x hx hrefused => hnone ⟨x, hx, hrefused⟩))

end Work

end PriceArchive
