import PriceArchive.Proofs.Table.Written

namespace PriceArchive

open PriceArchive.Action Statement

/-- From a session on, in another with the same store, an action runs some statements one by one, and if
it is given the rows of the first of them only, it runs these. -/
structure SendsEach (s : Session) (operation : String) (statements : List (Statement Nat))
    (base : Session) (action : Action Nat) (first : Nat → Action Nat) (rows : Nat) : Prop where
  store : base.store = s.store
  alone : base.transaction = none
  whole : ∃ supply, action s = Session.runAll operation statements { base with supply := supply }
  first_some : ∀ k, 0 < k → statements ≠ [] → ∃ supply, first (rowsPerStatement * k) s =
    Session.runAll operation (statements.take k) { base with supply := supply }
  first_none : first 0 s = (.ok 0, s)
  lt_rows : ∀ k, k < statements.length → rowsPerStatement * k < rows

/-- What a bulk write that fails leaves is what the statements before the failed one leave. -/
def LeftByFirst (s t : Session) (halt : Halt) (first : Nat → Action Nat) (rows : Nat) : Prop :=
  ∃ k, (∃ n u, first (rowsPerStatement * k) s = (.ok n, u) ∧ t.store = u.store) ∧
    (k = 0 ∨ rowsPerStatement * k < rows ∧
      (Refused (.error halt : Except Halt Nat) ∨ Unconnected (.error halt : Except Halt Nat)) ∧
      ∃ v, first (rowsPerStatement * (k + 1)) s = (.error halt, v))

namespace SendsEach

variable {s t base : Session} {operation : String} {statements : List (Statement Nat)}
  {action : Action Nat} {first : Nat → Action Nat} {rows : Nat} {halt : Halt}

theorem left_of_error (hsends : SendsEach s operation statements base action first rows)
    (h : action s = (.error halt, t)) : LeftByFirst s t halt first rows := by
  obtain ⟨supply, hwhole⟩ := hsends.whole
  rw [h] at hwhole
  obtain ⟨k, hk, ⟨n, u, hkept, hstore⟩, ⟨v, hfailed⟩, hcause⟩ :=
    Session.runAll_eq_error (s := { base with supply := supply }) hsends.alone hwhole.symm
  have hne : statements ≠ [] := List.ne_nil_of_length_pos (by omega)
  -- The same statements end alike from any supply.
  have hfirst (m : Nat) (hm : 0 < m) {result : Except Halt Nat} {w : Session}
      (hrun : Session.runAll operation (statements.take m) { base with supply := supply } =
        (result, w)) :
      ∃ w', first (rowsPerStatement * m) s = (result, w') ∧ w'.store = w.store := by
    obtain ⟨supply', hsome⟩ := hsends.first_some m hm hne
    rw [Session.runAll_supply _ _ base hsends.alone] at hrun hsome
    cases hrun
    exact ⟨_, hsome, rfl⟩
  refine ⟨k, ?_, .inr ⟨hsends.lt_rows k hk, hcause, ?_⟩⟩
  · cases k with
    | zero =>
      cases hkept
      exact ⟨0, s, hsends.first_none, hstore.trans hsends.store⟩
    | succ k =>
      obtain ⟨w, hw, hwstore⟩ := hfirst (k + 1) (by omega) hkept
      exact ⟨n, w, hw, hstore.trans hwstore.symm⟩
  · obtain ⟨w, hw, -⟩ := hfirst (k + 1) (by omega) hfailed
    exact ⟨w, hw⟩

end SendsEach

theorem LeftByFirst.nothing {s t : Session} {halt : Halt} {first : Nat → Action Nat} {rows : Nat}
    (hfirst : first 0 s = (.ok 0, s)) (hstore : t.store = s.store) : LeftByFirst s t halt first rows :=
  ⟨0, ⟨0, s, hfirst, hstore⟩, .inl rfl⟩

namespace Quotes

variable {σ : Type}

theorem storedBars_take {batch : List (NewQuote σ)} {bars : List (NewQuote σ × StoredBar)}
    (h : storedBars batch = .ok bars) (m : Nat) : storedBars (batch.take m) = .ok (bars.take m) := by
  induction batch generalizing bars m with
  | nil =>
    cases h
    simp [storedBars]
  | cons q rest ih =>
    cases m with
    | zero => rfl
    | succ m =>
      unfold storedBars at h
      cases hbar : q.bar.toStored with
      | error e =>
        rw [hbar] at h
        cases h
      | ok bar =>
        cases hrest : storedBars rest with
        | error e =>
          rw [hbar, hrest] at h
          cases h
        | ok others =>
          rw [hbar, hrest] at h
          cases h
          rw [List.take_succ_cons, storedBars, hbar, ih hrest m, List.take_succ_cons]
          rfl

theorem length_storedBars {batch : List (NewQuote σ)} {bars : List (NewQuote σ × StoredBar)}
    (h : storedBars batch = .ok bars) : bars.length = batch.length := by
  have hlength := congrArg List.length (storedBars_eq_ok h)
  rw [List.length_map, List.length_map] at hlength
  exact hlength.symm

theorem length_stamped (now : Instant) (ids : Nat → String) (n : Nat)
    (bars : List (NewQuote σ × StoredBar)) : (stamped now ids n bars).length = bars.length := by
  have hlength := congrArg List.length (map_stamped now ids n bars)
  rwa [List.length_map, List.length_map] at hlength

variable [Subject σ]

theorem sendsEach {s : Session} (hs : s.transaction = none) (series : Series σ)
    {batch : List (NewQuote σ)} (hbatch : batch ≠ []) {bars : List (NewQuote σ × StoredBar)}
    (hbars : storedBars (lastPerKey NewQuote.key batch) = .ok bars) :
    SendsEach s series.names.upsertOperation (statements series s.supply bars) s
      (upsert series batch) (fun m => upsert series ((lastPerKey NewQuote.key batch).take m))
      (lastPerKey NewQuote.key batch).length where
  store := rfl
  alone := hs
  whole := by
    rw [upsert_apply series hbatch, hbars]
    exact ⟨_, rfl⟩
  first_some k hk _ := by
    have hfirst := take_lastPerKey_ne_nil NewQuote.key hbatch
      (Nat.mul_pos (show 0 < rowsPerStatement by decide) hk)
    have hsend : (statements series s.supply bars).take k =
        statements series s.supply (bars.take (rowsPerStatement * k)) := by
      rw [statements, statements, stamped_take, ← take_chunks (by decide), List.map_take]
    rw [upsert_apply series hfirst, lastPerKey_take_lastPerKey, storedBars_take hbars, hsend]
    exact ⟨_, rfl⟩
  first_none := rfl
  lt_rows k hk := by
    rw [statements, List.length_map] at hk
    have hlt := mul_lt_of_lt_length_chunks (by decide) hk
    rwa [length_stamped, length_storedBars hbars] at hlt

theorem left_of_error (series : Series σ) {batch : List (NewQuote σ)} {s t : Session}
    (hs : s.transaction = none) {halt : Halt} (h : upsert series batch s = (.error halt, t)) :
    LeftByFirst s t halt (fun m => upsert series ((lastPerKey NewQuote.key batch).take m))
      (lastPerKey NewQuote.key batch).length := by
  have hbatch : batch ≠ [] := by
    rintro rfl
    cases h
  cases hbars : storedBars (lastPerKey NewQuote.key batch) with
  | error e =>
    rw [upsert_apply series hbatch, hbars] at h
    cases h
    exact .nothing rfl rfl
  | ok bars => exact (sendsEach hs series hbatch hbars).left_of_error h

end Quotes

namespace Snapshots

theorem length_stamped (now : Instant) (ids : Nat → String) (n : Nat) (batch : List NewSnapshot) :
    (stamped now ids n batch).length = batch.length := by
  have hlength := congrArg List.length (map_stamped now ids n batch)
  rwa [List.length_map, List.length_map] at hlength

theorem sendsEach {s : Session} (hs : s.transaction = none) {batch : List NewSnapshot}
    (hbatch : batch ≠ []) :
    SendsEach s "upsert analyze current prices"
      (statements s.supply (lastPerKey NewSnapshot.brandId batch)) s (upsert batch)
      (fun m => upsert ((lastPerKey NewSnapshot.brandId batch).take m))
      (lastPerKey NewSnapshot.brandId batch).length where
  store := rfl
  alone := hs
  whole := by
    rw [upsert_apply hbatch]
    exact ⟨_, rfl⟩
  first_some k hk _ := by
    have hfirst := take_lastPerKey_ne_nil NewSnapshot.brandId hbatch
      (Nat.mul_pos (show 0 < rowsPerStatement by decide) hk)
    have hsend : (statements s.supply (lastPerKey NewSnapshot.brandId batch)).take k =
        statements s.supply
          ((lastPerKey NewSnapshot.brandId batch).take (rowsPerStatement * k)) := by
      rw [statements, statements, stamped_take, ← take_chunks (by decide), List.map_take]
    rw [upsert_apply hfirst, lastPerKey_take_lastPerKey, hsend]
    exact ⟨_, rfl⟩
  first_none := rfl
  lt_rows k hk := by
    rw [statements, List.length_map] at hk
    have hlt := mul_lt_of_lt_length_chunks (by decide) hk
    rwa [length_stamped] at hlt

theorem left_of_error {batch : List NewSnapshot} {s t : Session} (hs : s.transaction = none)
    {halt : Halt} (h : upsert batch s = (.error halt, t)) :
    LeftByFirst s t halt (fun m => upsert ((lastPerKey NewSnapshot.brandId batch).take m))
      (lastPerKey NewSnapshot.brandId batch).length := by
  have hbatch : batch ≠ [] := by
    rintro rfl
    cases h
  exact (sendsEach hs hbatch).left_of_error h

end Snapshots

namespace Brands

/-- The reports that are written, or the first of them, are all written when they come alone. -/
theorem written_take_written (batch : List NewBrand) (rows : List BrandRow) (m : Nat) :
    written ((written batch rows).take m) rows = (written batch rows).take m := by
  have hsub : ∀ b ∈ (written batch rows).take m, b ∈ written batch rows :=
    fun b hb => List.mem_of_mem_take hb
  have hsublist : ((written batch rows).take m).Sublist (lastPerKey NewBrand.id batch) :=
    (List.take_sublist m _).trans List.filter_sublist
  have hnodup : (((written batch rows).take m).map NewBrand.id).Nodup :=
    (nodup_keys_lastPerKey NewBrand.id batch).sublist (hsublist.map NewBrand.id)
  rw [written, lastPerKey_of_nodup hnodup, List.filter_eq_self]
  intro b hb
  have hkept := (List.mem_filter.mp (hsub b hb)).2
  rw [Bool.not_eq_true'] at hkept ⊢
  rw [← Bool.not_eq_true, List.contains_iff_mem] at hkept ⊢
  intro hdeleted
  apply hkept
  obtain ⟨row, hrow, hid⟩ := List.mem_map.mp hdeleted
  rw [List.mem_filter, Bool.and_eq_true] at hrow
  refine List.mem_map.mpr ⟨row, List.mem_filter.mpr ⟨hrow.1, ?_⟩, hid⟩
  rw [Bool.and_eq_true, hrow.2.1, List.contains_iff_mem, hid]
  refine ⟨rfl, List.mem_map_of_mem ?_⟩
  exact mem_of_mem_lastPerKey (List.mem_filter.mp (hsub b hb)).1

theorem sendsEach {s : Session} (hgiven : s.server.refusal = none) (hs : s.transaction = none)
    {batch : List NewBrand} (hbatch : batch ≠ [])
    (htexts : Binding.texts (batch.map NewBrand.id) = .ok ()) :
    SendsEach s "upsert stock brands" (statements s.supply (written batch s.store.brands)) s.asked
      (upsert batch) (fun m => upsert ((written batch s.store.brands).take m))
      (written batch s.store.brands).length where
  store := rfl
  alone := hs
  whole := by
    rw [upsert_apply hgiven hs hbatch, htexts]
    exact ⟨_, rfl⟩
  first_some k hk hne := by
    have hsend : (statements s.supply (written batch s.store.brands)).take k =
        statements s.supply ((written batch s.store.brands).take (rowsPerStatement * k)) := by
      rw [statements, statements, ← take_chunks (by decide), List.map_take]
    have hwritten : written batch s.store.brands ≠ [] := by
      intro hnil
      apply hne
      rw [hnil, statements, chunks, List.map_nil]
    have hfirst : (written batch s.store.brands).take (rowsPerStatement * k) ≠ [] := by
      rw [Ne, List.take_eq_nil_iff, not_or]
      exact ⟨Nat.ne_of_gt (Nat.mul_pos (by decide) hk), hwritten⟩
    have hfirstTexts : Binding.texts
        (((written batch s.store.brands).take (rowsPerStatement * k)).map NewBrand.id) =
          .ok () := by
      rw [Binding.texts_eq_ok_iff] at htexts ⊢
      intro x hx
      obtain ⟨b, hb, rfl⟩ := List.mem_map.mp hx
      have hwritten := (List.mem_filter.mp (List.mem_of_mem_take hb)).1
      exact htexts b.id (List.mem_map_of_mem (mem_of_mem_lastPerKey hwritten))
    rw [hsend, upsert_apply hgiven hs hfirst, hfirstTexts]
    dsimp only
    rw [written_take_written]
    exact ⟨_, rfl⟩
  first_none := rfl
  lt_rows k hk := by
    rw [statements, List.length_map] at hk
    exact mul_lt_of_lt_length_chunks (by decide) hk

theorem left_of_error {batch : List NewBrand} {s t : Session} (hs : s.transaction = none)
    {halt : Halt} (h : upsert batch s = (.error halt, t)) :
    LeftByFirst s t halt (fun m => upsert ((written batch s.store.brands).take m))
      (written batch s.store.brands).length := by
  have hbatch : batch ≠ [] := by
    rintro rfl
    cases h
  cases hrefusal : s.server.refusal with
  | some reason =>
    have hempty : ¬ batch.isEmpty = true := by simpa using hbatch
    rw [upsert, if_neg hempty, bind_apply, Session.run_of_refusal hrefusal hs] at h
    cases h
    exact .nothing rfl rfl
  | none =>
    cases htexts : Binding.texts (batch.map NewBrand.id) with
    | error r =>
      -- The ids are sent before the first statement that writes.
      rw [upsert_apply hrefusal hs hbatch, htexts] at h
      cases h
      exact .nothing rfl rfl
    | ok _ => exact (sendsEach hrefusal hs hbatch htexts).left_of_error h

end Brands

end PriceArchive
