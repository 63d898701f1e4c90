import PriceArchive.Proofs.Table.FirstPerKey
import PriceArchive.Proofs.Table.Written

namespace PriceArchive

open Statement

/-- What an action gives on its own it gives in every open session. -/
theorem Action.Sends.ok_of_solo {P : StatementClass} {α : Type} {a : Action α} (h : a.Sends P)
    {s v : Session} (hs : s.Open) {x : α} (hsolo : a s.solo = (.ok x, v)) :
    ∃ t, a s = (.ok x, t) ∧ t.solo = v := by
  rcases ha : a s with ⟨result, t⟩
  have hresult := h.result_of_open hs
  rw [hsolo, ha] at hresult
  subst hresult
  have hsolo' := (h.solo_of_ok ha).2
  rw [hsolo] at hsolo'
  cases hsolo'
  exact ⟨t, rfl, rfl⟩

/-- Statements that are all kept have written one row for each item. -/
theorem Table.length_of_keepEach_write {ρ κ α : Type} [DecidableEq κ] {table : Table ρ κ}
    {bind : α → Except Refusal ρ} {pieces : List (List α)} {s t : Store} {n : Nat}
    (h : keepEach (pieces.map fun piece => table.write (Binding.all bind piece)) s = (.ok n, t)) :
    n = pieces.flatten.length := by
  induction pieces generalizing s n with
  | nil =>
    cases h
    rfl
  | cons piece pieces ih =>
    rw [List.map_cons] at h
    cases hpiece : table.write (Binding.all bind piece) s with
    | error r =>
      rw [keepEach_cons_of_error _ hpiece] at h
      cases h
    | ok answer =>
      obtain ⟨m, next⟩ := answer
      rw [keepEach_cons_of_ok hpiece] at h
      rcases hrest : keepEach (pieces.map fun piece => table.write (Binding.all bind piece)) next with
        ⟨r | k, left⟩
      · rw [hrest] at h
        cases h
      · rw [hrest] at h
        cases h
        have hm : m = piece.length := by
          unfold write at hpiece
          split at hpiece
          · cases hpiece
          · rename_i rows hrows
            have hlength := congrArg List.length (Binding.all_eq_ok_iff.mp hrows)
            rw [List.length_map, List.length_map] at hlength
            split at hpiece
            · cases hpiece
            · cases hpiece
              exact hlength.symm
        rw [ih hrest, hm, List.flatten_cons, List.length_append]

namespace Quotes

variable {σ : Type} [Subject σ]

omit [Subject σ] in
theorem sent_ne_nil {quotes : List (NewQuote σ)} (hquotes : quotes ≠ [])
    {bars : List (NewQuote σ × StoredBar)} (hbars : storedBars quotes = .ok bars) (supply : Supply) :
    sent supply bars ≠ [] := by
  intro hnone
  have hcolumns := columns_of_stamped hbars (supply.clock supply.ticks) supply.ids supply.issued
  rw [sent] at hnone
  rw [hnone, List.map_nil, eq_comm, List.map_eq_nil_iff] at hcolumns
  exact hquotes hcolumns

/-- A write that succeeds, and had something to write, was made in a session that was ready for it. -/
theorem open_of_upsert {series : Series σ} {batch : List (NewQuote σ)} (hbatch : batch ≠ [])
    {s t : Session} {n : Nat} (h : upsert series batch s = (.ok n, t))
    (hserver : s.StaysConnected t) : t.Open := by
  refine ((upsert_sends_any series batch).solo_of_ok h).1.open_of_ready ?_ hserver
  obtain ⟨bars, hbars, -⟩ := keepEach_of_upsert hbatch h
  rw [upsert_apply series hbatch, hbars] at h
  have hsent := sent_ne_nil (lastPerKey_ne_nil NewQuote.key hbatch) hbars s.supply
  have hready : (s.drew 1 bars.length).Ready :=
    Session.ready_of_runAll_eq_ok (mt List.map_eq_nil_iff.mp (chunks_ne_nil _ hsent)) h
  exact hready

theorem upsert_of_keepEach {series : Series σ} {batch : List (NewQuote σ)} (hbatch : batch ≠ [])
    {s : Session} (hs : s.Open) {bars : List (NewQuote σ × StoredBar)}
    (hbars : storedBars (lastPerKey NewQuote.key batch) = .ok bars) {n : Nat} {store : Store}
    (hkept : keepEach (writes series s.supply bars) s.store = (.ok n, store)) :
    ∃ t, upsert series batch s = (.ok n, t) ∧ t.store = store := by
  have hsolo := upsert_alone (s := s.solo) rfl rfl series hbatch
  rw [hbars] at hsolo
  dsimp only at hsolo
  rw [statements_eq_writes, Session.solo_supply, Session.solo_store, hkept] at hsolo
  obtain ⟨t, ht, hstore⟩ := (upsert_sends_any series batch).ok_of_solo hs hsolo
  refine ⟨t, ht, ?_⟩
  rw [← Session.solo_store t, hstore]
  exact congrArg Prod.snd hkept

/-- A bulk write of quotes answers how many subjects and dates its batch has. -/
theorem count_of_upsert {series : Series σ} {batch : List (NewQuote σ)} {s t : Session} {n : Nat}
    (h : upsert series batch s = (.ok n, t)) : n = (batch.map NewQuote.key).dedup.length := by
  by_cases hbatch : batch = []
  · subst hbatch
    cases h
    rfl
  · obtain ⟨bars, hbars, hkept⟩ := keepEach_of_upsert hbatch h
    have hcolumns := congrArg List.length (columns_of_stamped hbars (s.supply.clock s.supply.ticks)
      s.supply.ids s.supply.issued)
    rw [List.length_map, List.length_map] at hcolumns
    rw [Table.length_of_keepEach_write hkept, flatten_chunks, sent, hcolumns, length_lastPerKey]

end Quotes

namespace Snapshots

theorem sent_ne_nil {batch : List NewSnapshot} (hbatch : batch ≠ []) (supply : Supply) :
    sent supply batch ≠ [] := by
  intro hnone
  have hcolumns := map_stamped (supply.clock supply.ticks) supply.ids supply.issued
    (lastPerKey NewSnapshot.brandId batch)
  rw [sent] at hnone
  rw [hnone, List.map_nil, eq_comm, List.map_eq_nil_iff] at hcolumns
  exact lastPerKey_ne_nil _ hbatch hcolumns

theorem open_of_upsert {batch : List NewSnapshot} (hbatch : batch ≠ []) {s t : Session} {n : Nat}
    (h : upsert batch s = (.ok n, t)) (hserver : s.StaysConnected t) : t.Open := by
  refine ((upsert_sends_any batch).solo_of_ok h).1.open_of_ready ?_ hserver
  rw [upsert_apply hbatch] at h
  have hready : (s.drew 1 (lastPerKey NewSnapshot.brandId batch).length).Ready :=
    Session.ready_of_runAll_eq_ok
      (mt List.map_eq_nil_iff.mp (chunks_ne_nil _ (sent_ne_nil hbatch s.supply))) h
  exact hready

theorem upsert_of_keepEach {batch : List NewSnapshot} (hbatch : batch ≠ []) {s : Session} (hs : s.Open)
    {n : Nat} {store : Store} (hkept : keepEach (writes s.supply batch) s.store = (.ok n, store)) :
    ∃ t, upsert batch s = (.ok n, t) ∧ t.store = store := by
  have hsolo := upsert_alone (s := s.solo) rfl rfl hbatch
  dsimp only at hsolo
  rw [statements_eq_writes, Session.solo_supply, Session.solo_store, hkept] at hsolo
  obtain ⟨t, ht, hstore⟩ := (upsert_sends_any batch).ok_of_solo hs hsolo
  refine ⟨t, ht, ?_⟩
  rw [← Session.solo_store t, hstore]
  exact congrArg Prod.snd hkept

/-- A bulk write of snapshots answers how many brands its batch has. -/
theorem count_of_upsert {batch : List NewSnapshot} {s t : Session} {n : Nat}
    (h : upsert batch s = (.ok n, t)) : n = (batch.map NewSnapshot.brandId).dedup.length := by
  by_cases hbatch : batch = []
  · subst hbatch
    cases h
    rfl
  · have hcolumns := congrArg List.length (map_stamped (s.supply.clock s.supply.ticks) s.supply.ids
      s.supply.issued (lastPerKey NewSnapshot.brandId batch))
    rw [List.length_map, List.length_map] at hcolumns
    rw [Table.length_of_keepEach_write (keepEach_of_upsert hbatch h), flatten_chunks, sent, hcolumns,
      length_lastPerKey]

end Snapshots

namespace Brands

theorem open_of_upsert {batch : List NewBrand} (hbatch : batch ≠ []) {s t : Session} {n : Nat}
    (h : upsert batch s = (.ok n, t)) (hserver : s.StaysConnected t) : t.Open := by
  refine ((upsert_sends_any batch).solo_of_ok h).1.open_of_ready ?_ hserver
  have hempty : ¬ batch.isEmpty = true := by simpa using hbatch
  rw [upsert, if_neg hempty] at h
  obtain ⟨_, u, hread, -⟩ := Action.bind_eq_ok_iff.mp h
  exact Session.ready_of_run_eq_ok hread

theorem upsert_of_keepEach {batch : List NewBrand} (hbatch : batch ≠ []) {s : Session} (hs : s.Open)
    (htexts : Binding.texts (batch.map NewBrand.id) = .ok ()) {createdAt : StoredTime}
    (hnow : Binding.time (s.supply.clock s.supply.ticks) = .ok createdAt) {n : Nat} {store : Store}
    (hkept : keepEach (writes createdAt (written batch s.store.brands)) s.store = (.ok n, store)) :
    ∃ t, upsert batch s = (.ok n, t) ∧ t.store = store := by
  have hsolo := upsert_alone (s := s.solo) rfl rfl hbatch
  rw [htexts] at hsolo
  dsimp only at hsolo
  rw [Session.solo_supply, Session.solo_store, statements_eq_writes hnow, hkept] at hsolo
  obtain ⟨t, ht, hstore⟩ := (upsert_sends_any batch).ok_of_solo hs hsolo
  refine ⟨t, ht, ?_⟩
  rw [← Session.solo_store t, hstore]
  exact congrArg Prod.snd hkept

/-- A bulk write of brands answers how many reports it has written. -/
theorem count_of_upsert {batch : List NewBrand} {s t : Session} {n : Nat}
    (h : upsert batch s = (.ok n, t)) : n = (written batch s.store.brands).length := by
  by_cases hbatch : batch = []
  · subst hbatch
    cases h
    rfl
  · obtain ⟨-, ⟨hnone, rfl, -⟩ | ⟨createdAt, hkept⟩⟩ := keepEach_of_upsert hbatch h
    · rw [hnone, List.length_nil]
    · rw [Table.length_of_keepEach_write hkept, flatten_chunks]

end Brands

end PriceArchive
