import PriceArchive.Proofs.Calendar.StoredDay
import PriceArchive.Proofs.Session.Solo
import PriceArchive.Proofs.Table.Binding
import PriceArchive.Proofs.Table.Sort
import PriceArchive.Store.Quotes

namespace PriceArchive

namespace DateRange

/-- The date is in the range. -/
def Covers (range : DateRange) (date : Date) : Prop :=
  (∀ t ∈ range.first, t.date ≤ date) ∧ ∀ t ∈ range.last, date ≤ t.date

instance (range : DateRange) (date : Date) : Decidable (range.Covers date) :=
  inferInstanceAs (Decidable (_ ∧ _))

/-- Midnight after the last day exists, and the store accepts the bounds. -/
structure Accepted (range : DateRange) (lower upper : Option StoredTime) : Prop where
  lower : Binding.optionalTime range.lowerBound = .ok lower
  upper : ∃ bound, range.upperBound = .ok bound ∧ Binding.optionalTime bound = .ok upper

end DateRange

theorem Binding.optionalTime_some_eq_ok {t : Instant} {d : Option StoredTime}
    (h : optionalTime (some t) = .ok d) : ∃ m, StoredTime.ofInstant? t = some m ∧ d = some m := by
  change (time t).map some = .ok d at h
  cases htime : time t with
  | error r =>
    rw [htime] at h
    cases h
  | ok m =>
    rw [htime] at h
    cases h
    exact ⟨m, time_eq_ok_iff.mp htime, rfl⟩

namespace Quotes

/-- A stored date is within the bounds of a range exactly when its day is in the range. -/
theorem within_iff_covers {range : DateRange} {lower upper : Option StoredTime}
    (h : range.Accepted lower upper) (d : StoredTime) :
    within lower upper d = true ↔ range.Covers d.toInstant.date := by
  obtain ⟨first, last⟩ := range
  obtain ⟨hlower, bound, hbound, hupper⟩ := h
  unfold within
  rw [Bool.and_eq_true, DateRange.Covers]
  apply and_congr
  · cases first with
    | none =>
      cases hlower
      simp
    | some t =>
      obtain ⟨m, hm, rfl⟩ := Binding.optionalTime_some_eq_ok hlower
      have hle : m ≤ d ↔ t.date ≤ d.toInstant.date :=
        (StoredTime.le_iff_of_midnight rfl rfl hm).trans Date.ofDays_le_iff.symm
      simp [hle]
  · cases last with
    | none =>
      cases hbound
      cases hupper
      simp
    | some t =>
      rw [DateRange.upperBound] at hbound
      cases hend : t.endOfDay with
      | error o =>
        simp only [hend] at hbound
        cases hbound
      | ok u =>
        simp only [hend] at hbound
        cases hbound
        obtain ⟨hseconds, hnanos⟩ := Instant.endOfDay_eq_ok hend
        obtain ⟨m, hm, rfl⟩ := Binding.optionalTime_some_eq_ok hupper
        have hle := StoredTime.le_iff_of_midnight (d := d) hseconds hnanos hm
        have hlt : d < m ↔ d.toInstant.date ≤ t.date := by
          rw [Instant.date, Instant.date, Date.ofDays_le_iff, ← Int.lt_add_one_iff, ← Int.not_le,
            ← hle]
          exact Int.not_le.symm
        simp [hlt]

variable {σ : Type}

/-- Quotes that can all be read are read in order. -/
theorem ofRows_of_readable {rows : List (QuoteRow σ)} (h : ∀ r ∈ rows, ∃ x, ofRow r = .ok x) :
    ∃ xs, ofRows rows = .ok xs ∧ ∀ x, x ∈ xs ↔ ∃ r ∈ rows, ofRow r = .ok x := by
  induction rows with
  | nil => exact ⟨[], rfl, by simp⟩
  | cons row rest ih =>
    obtain ⟨x, hx⟩ := h row (by simp)
    obtain ⟨xs, hxs, hmem⟩ := ih fun r hr => h r (List.mem_cons_of_mem row hr)
    refine ⟨x :: xs, ?_, fun y => ?_⟩
    · rw [ofRows, hx, hxs]
      rfl
    · rw [List.mem_cons, hmem]
      simp [hx, eq_comm]

theorem date_of_ofRow {row : QuoteRow σ} {x : Quote σ} (h : ofRow row = .ok x) :
    x.date = row.date.toInstant := by
  unfold ofRow at h
  cases hbar : Bar.ofStored row.bar with
  | error e =>
    rw [hbar] at h
    cases h
  | ok bar =>
    rw [hbar] at h
    cases h
    rfl

variable [Subject σ]

/-- The rows of a subject within some bounds, by date. -/
def listed (subject : List String) (lower upper : Option StoredTime) (rows : List (QuoteRow σ)) :
    List (QuoteRow σ) :=
  sortBy byDate ((ofSubject subject rows).filter fun r => within lower upper r.date)

/-- A listing reads the rows of the subject within the bounds, if the session is ready for it. -/
theorem list_of_ready (series : Series σ) {subject : List String}
    (htexts : Binding.texts subject = .ok ()) {range : DateRange} {lower upper : Option StoredTime}
    (hrange : range.Accepted lower upper) {s : Session} (hs : s.Ready) :
    list series subject range s =
      Action.ofConversion (ofRows (listed subject lower upper (series.get s.store)))
        s.checkedOut := by
  obtain ⟨hlower, bound, hbound, hupper⟩ := hrange
  rw [list, hbound, Action.ofTime, Action.bind_of_ok (Action.pure_apply _ _),
    Action.bind_of_ok (Session.run_read_of_ready hs _ (x := listed subject lower upper
      (series.get s.store)) ?_)]
  rw [htexts, hlower, hupper]
  rfl

/-- Where all stored quotes can be read, a listing in an open session succeeds, and it returns just
those quotes of the subject whose days are in the range. -/
theorem list_of_readable (series : Series σ) {subject : List String}
    (htexts : Binding.texts subject = .ok ()) {range : DateRange} {lower upper : Option StoredTime}
    (hrange : range.Accepted lower upper) {s : Session} (hs : s.Open)
    (hreads : ∀ r ∈ series.get s.store, ∃ x, ofRow r = .ok x) :
    ∃ result, list series subject range s = (.ok result, s) ∧
      ∀ r ∈ series.get s.store, Subject.key r.subject = subject → ∀ x, ofRow r = .ok x →
        (x ∈ result ↔ range.Covers x.date.date) := by
  have hmem : ∀ r, r ∈ listed subject lower upper (series.get s.store) ↔
      (r ∈ series.get s.store ∧ Subject.key r.subject = subject) ∧
        range.Covers r.date.toInstant.date := by
    intro r
    rw [listed, mem_sortBy, List.mem_filter, ofSubject, List.mem_filter, decide_eq_true_eq,
      within_iff_covers hrange]
  obtain ⟨result, hresult, hread⟩ := ofRows_of_readable fun r hr => hreads r ((hmem r).mp hr).1.1
  refine ⟨result, ?_, ?_⟩
  · rw [list_of_ready series htexts hrange hs.ready, hresult, hs.checkedOut]
    rfl
  intro r hr hsubject x hx
  rw [hread]
  constructor
  · rintro ⟨r', hr', hx'⟩
    rw [date_of_ofRow hx']
    exact ((hmem r').mp hr').2
  · intro hcovers
    rw [date_of_ofRow hx] at hcovers
    exact ⟨r, (hmem r).mpr ⟨⟨hr, hsubject⟩, hcovers⟩, hx⟩

end Quotes

end PriceArchive
