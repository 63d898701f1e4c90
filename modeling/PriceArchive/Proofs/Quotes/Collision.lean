import PriceArchive.Proofs.Calendar.StoredTime
import PriceArchive.Proofs.Quotes.Welcome
import PriceArchive.Proofs.Work.Commit
import Mathlib.Data.List.Nodup

namespace PriceArchive

variable {σ : Type} [Subject σ]

/-- A quote and its row have the same stored key. -/
theorem QuoteRow.storedKey_eq {q : QuoteOf σ Instant StoredBar} {r : QuoteRow σ}
    (h : Binding.quote q = .ok r) :
    (Subject.key r.subject, r.date.micros) = (Subject.key q.subject, StoredTime.truncate q.date) := by
  obtain ⟨-, hdate, -, -, -, hsubject, -⟩ := Binding.quote_eq_ok_iff.mp h
  rw [hsubject, StoredTime.micros_of_ofInstant? (Binding.time_eq_ok_iff.mp hdate)]

theorem Binding.quote_ne_updatedTwice (q : QuoteOf σ Instant StoredBar) :
    quote q ≠ .error .updatedTwice := by
  intro h
  simp only [quote, bind_eq_error_iff] at h
  rcases h with h | ⟨_, _, h | ⟨_, _, h | ⟨_, _, h | ⟨_, _, h⟩⟩⟩⟩
  · cases texts_eq_error h
  · cases time_eq_error h
  · cases time_eq_error h
  · cases time_eq_error h
  · cases h

theorem QuoteRow.refusal_ne_updatedTwice (names : SeriesNames) (rows : List (QuoteRow σ))
    (row : QuoteRow σ) : refusal names rows row ≠ some .updatedTwice := by
  unfold refusal taken
  split <;> split <;> split <;> simp

namespace Quotes

/-- Two quotes of a batch that are both kept are written by one statement under one stored key. -/
def Collides (batch : List (NewQuote σ)) : Prop :=
  ∃ piece ∈ chunks rowsPerStatement (lastPerKey NewQuote.key batch),
    ∃ p ∈ piece, ∃ q ∈ piece, p.key ≠ q.key ∧ p.storedKey = q.storedKey

instance (batch : List (NewQuote σ)) : Decidable (Collides batch) :=
  inferInstanceAs (Decidable (∃ piece ∈ _, ∃ p ∈ piece, ∃ q ∈ piece, _ ∧ _))

theorem collides_iff {batch : List (NewQuote σ)} :
    Collides batch ↔ ∃ piece ∈ chunks rowsPerStatement (lastPerKey NewQuote.key batch),
      ¬ (piece.map NewQuote.storedKey).Nodup := by
  apply exists_congr
  intro piece
  apply and_congr_right
  intro hpiece
  have hkeys : (piece.map NewQuote.key).Nodup :=
    (nodup_keys_lastPerKey NewQuote.key batch).sublist ((sublist_of_mem_chunks hpiece).map _)
  rw [List.nodup_map_iff_inj_on hkeys.of_map]
  constructor
  · rintro ⟨p, hp, q, hq, hkey, hstored⟩ hinjective
    exact hkey (by rw [hinjective p hp q hq hstored])
  · intro hno
    push Not at hno
    obtain ⟨p, hp, q, hq, hstored, hne⟩ := hno
    exact ⟨p, hp, q, hq, fun hkey => hne (List.inj_on_of_nodup_map hkeys hp hq hkey), hstored⟩

/-- Quotes in whole microseconds and outside of leap seconds do not collide. -/
theorem not_collides_of_whole_micros {batch : List (NewQuote σ)}
    (h : ∀ q ∈ batch, q.date.nanos % 1000 = 0 ∧ q.date.inLeapSecond = false) :
    ¬ Collides batch := by
  rintro ⟨piece, hpiece, p, hp, q, hq, hkey, hstored⟩
  have hkept : piece ⊆ batch := fun x hx =>
    mem_of_mem_lastPerKey ((sublist_of_mem_chunks hpiece).subset hx)
  rw [NewQuote.storedKey, NewQuote.storedKey, Prod.mk.injEq] at hstored
  apply hkey
  rw [NewQuote.key, NewQuote.key, Prod.mk.injEq]
  exact ⟨hstored.1, Instant.eq_of_truncate_eq (h p (hkept hp)) (h q (hkept hq)) hstored.2⟩

/-- How the statement of a batch ends that would write one stored row twice. -/
def collision (series : Series σ) : Halt :=
  .error (.query series.names.upsertOperation (.refused .updatedTwice))

/-- The rows of a statement have the stored keys of the quotes that it writes. -/
theorem nodup_keys_iff {series : Series σ} {sent : List (QuoteOf σ Instant StoredBar)}
    {piece : List (NewQuote σ)} {rows : List (QuoteRow σ)}
    (hsent : sent.map (fun q => (q.subject, q.date)) = piece.map fun q => (q.subject, q.date))
    (hrows : Binding.all Binding.quote sent = .ok rows) :
    (rows.map series.table.rule.key).Nodup ↔ (piece.map NewQuote.storedKey).Nodup := by
  have hbound : sent.map (fun q => (Subject.key q.subject, StoredTime.truncate q.date)) =
      rows.map fun r => (Subject.key r.subject, r.date.micros) :=
    map_eq_map_of_imp (fun q r hr => (QuoteRow.storedKey_eq hr).symm)
      (Binding.all_eq_ok_iff.mp hrows)
  have hpiece : sent.map (fun q => (Subject.key q.subject, StoredTime.truncate q.date)) =
      piece.map NewQuote.storedKey :=
    map_eq_map_of_imp (fun q q' hq => by
      rw [Prod.mk.injEq] at hq
      rw [NewQuote.storedKey, hq.1, hq.2]) hsent
  have hinjective : Function.Injective fun k : List String × StoredTime => (k.1, k.2.micros) := by
    rintro ⟨k, d⟩ ⟨k', d'⟩ heq
    rw [Prod.mk.injEq] at heq
    exact Prod.ext heq.1 (StoredTime.eq_of_micros_eq heq.2)
  have hmicros : rows.map (fun r => (Subject.key r.subject, r.date.micros)) =
      (rows.map series.table.rule.key).map fun k => (k.1, k.2.micros) := by
    rw [List.map_map]
    rfl
  rw [← hpiece, hbound, hmicros, List.nodup_map_iff hinjective]

omit [Subject σ] in
/-- The quotes that are sent have the subjects and dates of those of the batch. -/
theorem subjects_stamped {batch : List (NewQuote σ)} {bars : List (NewQuote σ × StoredBar)}
    (h : storedBars batch = .ok bars) (now : Instant) (ids : Nat → String) (n : Nat) :
    (stamped now ids n bars).map (fun q => (q.subject, q.date)) =
      batch.map fun q => (q.subject, q.date) := by
  have hstamped := map_eq_map_of_imp
    (fun (q : QuoteOf σ Instant StoredBar) (b : NewQuote σ × StoredBar) heq =>
      congrArg (fun c => (c.1, c.2.1)) heq) (map_stamped now ids n bars)
  have htaken := map_eq_map_of_imp
    (fun (q : NewQuote σ) (b : NewQuote σ × StoredBar) heq =>
      congrArg (fun c => (c.1, c.2.1)) heq) (storedBars_eq_ok h)
  exact hstamped.trans htaken.symm

/-- How a bulk write of quotes ends on its own. -/
theorem upsert_solo_cases (series : Series σ) (batch : List (NewQuote σ)) (s : Session) :
    (¬ Collides batch ∧
        (upsert series batch s.solo).1 = .ok (lastPerKey NewQuote.key batch).length) ∨
      (Collides batch ∧ (upsert series batch s.solo).1 = .error (collision series)) ∨
      ¬ Welcome series batch s ∧
        ∃ halt, halt ≠ collision series ∧ (upsert series batch s.solo).1 = .error halt := by
  by_cases hbatch : batch = []
  · subst hbatch
    refine .inl ⟨?_, rfl⟩
    rintro ⟨piece, hpiece, -⟩
    simp [lastPerKey, chunks] at hpiece
  have halone := upsert_alone (s := s.solo) rfl rfl series hbatch
  rw [Session.solo_supply, Session.solo_store] at halone
  cases hbars : storedBars (lastPerKey NewQuote.key batch) with
  | error e =>
    rw [hbars] at halone
    refine .inr (.inr ⟨fun hwelcome => ?_, .error (.conversion e.message), ?_, by rw [halone]⟩)
    · obtain ⟨bars, hbars', -⟩ := hwelcome.welcomes
      rw [hbars'] at hbars
      cases hbars
    · intro heq
      cases heq
  | ok bars =>
    rw [hbars] at halone
    let sent := stamped (s.supply.clock s.supply.ticks) s.supply.ids s.supply.issued bars
    have hwrite : statements series s.supply bars =
        (chunks rowsPerStatement sent).map
          fun piece => series.table.write (Binding.all Binding.quote piece) :=
      statements_eq_writes series s.supply bars
    have hfst : (upsert series batch s.solo).1 =
        Session.ofRefusal series.names.upsertOperation
          (Statement.keepEach ((chunks rowsPerStatement sent).map
            fun piece => series.table.write (Binding.all Binding.quote piece)) s.store).1 := by
      rw [halone, ← hwrite]
    have hsent := subjects_stamped hbars (s.supply.clock s.supply.ticks) s.supply.ids s.supply.issued
    have hlength : sent.length = (lastPerKey NewQuote.key batch).length := by
      simpa using congrArg List.length hsent
    rcases Table.keepEach_write_cases series.table_keepsKey
        (QuoteRow.refusal_ne_updatedTwice series.names) Binding.quote_ne_updatedTwice
        (chunks rowsPerStatement sent) s.store with
      ⟨hnodup, hresult⟩ | ⟨⟨piece, hpiece, rows, hrows, htwice⟩, hresult⟩ |
        ⟨r, hr, hrefused, hresult⟩
    · refine .inl ⟨fun hcollides => ?_, ?_⟩
      · obtain ⟨piece, hpiece, htwice⟩ := collides_iff.mp hcollides
        obtain ⟨piece', hpiece', heq⟩ := exists_mem_chunks hsent.symm hpiece
        obtain ⟨rows, hrows, hrowsNodup⟩ := hnodup piece' hpiece'
        exact htwice ((nodup_keys_iff heq.symm hrows).mp hrowsNodup)
      · rw [hfst, hresult, flatten_chunks, hlength]
        rfl
    · obtain ⟨piece', hpiece', heq⟩ := exists_mem_chunks hsent hpiece
      refine .inr (.inl ⟨collides_iff.mpr ⟨piece', hpiece', fun hnodup => ?_⟩, ?_⟩)
      · exact htwice ((nodup_keys_iff heq hrows).mpr hnodup)
      · rw [hfst, hresult]
        rfl
    · refine .inr (.inr ⟨fun hwelcome => hrefused ?_,
        .error (.query series.names.upsertOperation (.refused r)), ?_, ?_⟩)
      · obtain ⟨bars', hbars', hwelcomes⟩ := hwelcome.welcomes
        rw [hbars] at hbars'
        cases hbars'
        rwa [flatten_chunks]
      · intro heq
        cases heq
        exact hr rfl
      · rw [hfst, hresult]
        rfl

/-- In every session a bulk write of quotes is turned down for writing one stored row twice only if two
quotes that it keeps apart have one stored key in one statement, and then it does not succeed. When
nothing else stands against the batch, that decides how the write ends. Quotes in whole microseconds and
outside of leap seconds are always told apart. -/
theorem upsert_collision_iff (series : Series σ) (batch : List (NewQuote σ)) (s : Session) :
    ((upsert series batch s).1 = .error (collision series) → Collides batch) ∧
      (∀ n, (upsert series batch s).1 = .ok n → ¬ Collides batch) ∧
      (Welcome series batch s → (upsert series batch s).1 =
        if Collides batch then .error (collision series)
        else .ok (lastPerKey NewQuote.key batch).length) ∧
      ((∀ q ∈ batch, q.date.nanos % 1000 = 0 ∧ q.date.inLeapSecond = false) →
        ¬ Collides batch) := by
  have hsends := upsert_sends_any series batch
  have hcases := upsert_solo_cases series batch s
  refine ⟨fun h => ?_, fun n h => ?_, fun hwelcome => ?_, not_collides_of_whole_micros⟩
  · have hsolo := hsends.solo_of_refused (r := .updatedTwice) nofun (Prod.ext h rfl)
    rcases hcases with ⟨-, hok⟩ | ⟨hcollides, -⟩ | ⟨-, halt, hne, herror⟩
    · rw [hok] at hsolo
      cases hsolo
    · exact hcollides
    · rw [herror] at hsolo
      cases hsolo
      exact absurd rfl hne
  · have hsolo := (hsends.solo_of_ok (Prod.ext h rfl)).2
    rcases hcases with ⟨hno, -⟩ | ⟨-, herror⟩ | ⟨-, halt, -, herror⟩
    · exact hno
    · rw [hsolo] at herror
      cases herror
    · rw [hsolo] at herror
      cases herror
  · rw [hsends.result_of_open hwelcome.isOpen]
    rcases hcases with ⟨hno, hok⟩ | ⟨hcollides, herror⟩ | ⟨hunwelcome, -⟩
    · rw [if_neg hno, hok]
    · rw [if_pos hcollides, herror]
    · exact absurd hwelcome hunwelcome

/-- A quote for the fifth of January 2024, so many nanoseconds after midnight, at 1. -/
def nanosAfterMidnight (nanos : Nat) (h : nanos < 1000000000) : NewQuote Instrument where
  subject := ⟨"1001", "b1"⟩
  date := ⟨1704412800, nanos, by decide, by decide, by rw [nanosPerSecond]; omega⟩
  bar := Bar.make default default default default 1

/-- Two quotes for one symbol, a tenth of a microsecond apart. -/
def twins : List (NewQuote Instrument) :=
  [nanosAfterMidnight 100 (by decide), nanosAfterMidnight 200 (by decide)]

theorem twins_collide : Collides twins := by decide +kernel

theorem upsert_twins :
    (upsert Series.daily twins Work.quietStart).1 = .error (collision Series.daily) := by
  decide +kernel

/-- Dates that the store accepts do not keep a batch from colliding with itself. -/
theorem batch_can_collide_with_itself :
    ¬ ∀ (batch : List (NewQuote Instrument)) (s : Session),
      (∀ q ∈ batch, StoredTime.ofInstant? q.date ≠ none) →
        (upsert Series.daily batch s).1 ≠ .error (collision Series.daily) := by
  intro hnever
  exact hnever twins Work.quietStart (by decide +kernel) upsert_twins

theorem welcome_twins : Welcome Series.daily twins Work.quietStart where
  isOpen := rfl
  volume := by decide +kernel
  texts := by decide +kernel
  date := by decide +kernel
  fresh :=
    { clock := by decide +kernel
      text := fun n _ => text_repr n
      distinct := fun m n _ hlt heq => by
        have hsame := repr_injective heq
        omega
      new := fun n _ => List.not_mem_nil }

/-- Nothing stands against the two quotes but each other. -/
theorem upsert_collision_twins :
    Welcome Series.daily twins Work.quietStart ∧ Collides twins ∧
      (upsert Series.daily twins Work.quietStart).1 = .error (collision Series.daily) := by
  obtain ⟨-, -, hends, -⟩ := upsert_collision_iff Series.daily twins Work.quietStart
  refine ⟨welcome_twins, twins_collide, ?_⟩
  rw [hends welcome_twins, if_pos twins_collide]

end Quotes

end PriceArchive
