import PriceArchive.Proofs.Table.Written

namespace PriceArchive

open Statement

namespace TableRule

variable {ρ κ : Type} [DecidableEq κ] {rule : TableRule ρ κ}

/-- The table has nothing against any row of a batch that is added when its turn comes. -/
def Accepts (rule : TableRule ρ κ) : List ρ → List ρ → Prop
  | _, [] => True
  | rows, row :: batch =>
    (rule.holds rows (rule.key row) = false → rule.refusal rows row = none) ∧
      Accepts rule (rule.put rows row) batch

/-- The rows of a batch have keys of their own, and none of those that were written before. -/
def KeysApart (rule : TableRule ρ κ) (written : List κ) (batch : List ρ) : Prop :=
  (batch.map rule.key).Nodup ∧ ∀ row ∈ batch, rule.key row ∉ written

theorem Accepts.append_iff {rows first second : List ρ} :
    rule.Accepts rows (first ++ second) ↔
      rule.Accepts rows first ∧ rule.Accepts (first.foldl rule.put rows) second := by
  induction first generalizing rows with
  | nil => simp [Accepts]
  | cons row first ih => simp only [List.cons_append, Accepts, ih, List.foldl_cons, and_assoc]

omit [DecidableEq κ] in
theorem keysApart_cons_iff {written : List κ} {row : ρ} {batch : List ρ} :
    rule.KeysApart written (row :: batch) ↔
      rule.key row ∉ written ∧ rule.KeysApart (rule.key row :: written) batch := by
  simp only [KeysApart, List.map_cons, List.nodup_cons, List.mem_map, List.mem_cons, not_or]
  constructor
  · rintro ⟨⟨hnew, hnodup⟩, hwritten⟩
    refine ⟨hwritten row (.inl rfl), hnodup, fun r hr => ⟨fun heq => ?_, hwritten r (.inr hr)⟩⟩
    exact hnew ⟨r, hr, heq⟩
  · rintro ⟨hrow, hnodup, hbatch⟩
    refine ⟨⟨fun ⟨r, hr, heq⟩ => (hbatch r hr).1 heq, hnodup⟩, ?_⟩
    rintro r (rfl | hr)
    · exact hrow
    · exact (hbatch r hr).2

theorem holds_put (hkey : rule.KeepsKey) {rows : List ρ} {row : ρ} {k : κ}
    (hk : k = rule.key row ∨ rule.holds rows k = true) : rule.holds (rule.put rows row) k = true := by
  unfold put
  split
  · rename_i hholds
    rw [holds_iff_mem_keys, keys_update hkey, ← holds_iff_mem_keys]
    rcases hk with rfl | hk
    · exact hholds
    · exact hk
  · rw [holds_iff_mem_keys, List.map_append, List.mem_append, ← holds_iff_mem_keys]
    rcases hk with rfl | hk
    · exact .inr (by simp)
    · exact .inl hk

/-- How one row of a statement fares, when the rows with the keys that were written before are
stored. -/
theorem upsertRow_cases {written : List κ} {rows : List ρ}
    (hwritten : ∀ k ∈ written, rule.holds rows k = true) (row : ρ) :
    (rule.key row ∉ written ∧ rule.upsertRow written rows row = .ok (rule.put rows row)) ∨
      (rule.key row ∈ written ∧ rule.upsertRow written rows row = .error .updatedTwice) ∨
      ∃ r, rule.refusal rows row = some r ∧ rule.holds rows (rule.key row) = false ∧
        rule.upsertRow written rows row = .error r := by
  unfold upsertRow put
  by_cases hholds : rule.holds rows (rule.key row) = true
  · rw [if_pos hholds]
    by_cases hrow : rule.key row ∈ written
    · exact .inr (.inl ⟨hrow, by rw [if_pos hrow]⟩)
    · exact .inl ⟨hrow, by rw [if_neg hrow, if_pos hholds]⟩
  · rw [if_neg hholds, insert]
    have hrow : rule.key row ∉ written := fun hrow => hholds (hwritten _ hrow)
    cases hrefusal : rule.refusal rows row with
    | none => exact .inl ⟨hrow, by rw [if_neg hholds]⟩
    | some r => exact .inr (.inr ⟨r, rfl, by simpa using hholds, rfl⟩)

/-- How the rows of a statement fare, when the rows with the keys that were written before are
stored. -/
theorem upsertFrom_cases (hkey : rule.KeepsKey)
    (hrefusal : ∀ rows row, rule.refusal rows row ≠ some .updatedTwice) {written : List κ}
    {rows : List ρ} (hwritten : ∀ k ∈ written, rule.holds rows k = true) (batch : List ρ) :
    (rule.KeysApart written batch ∧
        rule.upsertFrom written rows batch = .ok (batch.foldl rule.put rows)) ∨
      (¬ rule.KeysApart written batch ∧
        rule.upsertFrom written rows batch = .error .updatedTwice) ∨
      ∃ r, r ≠ .updatedTwice ∧ ¬ rule.Accepts rows batch ∧
        rule.upsertFrom written rows batch = .error r := by
  induction batch generalizing written rows with
  | nil => exact .inl ⟨⟨List.nodup_nil, by simp⟩, rfl⟩
  | cons row batch ih =>
    rw [keysApart_cons_iff, upsertFrom]
    rcases upsertRow_cases hwritten row with
      ⟨hnew, hrow⟩ | ⟨hold, hrow⟩ | ⟨r, hr, hholds, hrow⟩
    · have hwritten' : ∀ k ∈ rule.key row :: written,
          rule.holds (rule.put rows row) k = true := by
        intro k hk
        exact holds_put hkey ((List.mem_cons.mp hk).imp id (hwritten k))
      rw [hrow]
      rcases ih hwritten' with ⟨hapart, hrest⟩ | ⟨htwice, hrest⟩ | ⟨r, hr, hrefused, hrest⟩
      · exact .inl ⟨⟨hnew, hapart⟩, hrest⟩
      · exact .inr (.inl ⟨fun h => htwice h.2, hrest⟩)
      · exact .inr (.inr ⟨r, hr, fun h => hrefused h.2, hrest⟩)
    · rw [hrow]
      exact .inr (.inl ⟨fun h => h.1 hold, rfl⟩)
    · rw [hrow]
      refine .inr (.inr ⟨r, fun heq => hrefusal rows row (heq ▸ hr), fun h => ?_, rfl⟩)
      rw [h.1 hholds] at hr
      cases hr

end TableRule

namespace Table

variable {ρ κ α : Type} [DecidableEq κ] {table : Table ρ κ} {bind : α → Except Refusal ρ}

/-- The values of some items are accepted, and the table has nothing against their rows. -/
def Welcomes (table : Table ρ κ) (bind : α → Except Refusal ρ) (s : Store) (xs : List α) : Prop :=
  ∃ rows, Binding.all bind xs = .ok rows ∧ table.rule.Accepts (table.get s) rows

theorem Welcomes.append {s : Store} {xs ys : List α} {rows : List ρ}
    (h : table.Welcomes bind s (xs ++ ys)) (hrows : Binding.all bind xs = .ok rows) :
    table.rule.Accepts (table.get s) rows ∧ table.Welcomes bind (table.putAll s rows) ys := by
  obtain ⟨all, hall, haccepts⟩ := h
  rw [Binding.all_eq_ok_iff, List.map_append, Binding.all_eq_ok_iff.mp hrows] at hall
  obtain ⟨first, second, rfl, hfirst, hsecond⟩ := List.map_eq_append_iff.mp hall.symm
  have hsame : first = rows :=
    (List.map_inj_right fun _ _ heq => Except.ok.inj heq).mp hfirst
  subst hsame
  rw [TableRule.Accepts.append_iff] at haccepts
  refine ⟨haccepts.1, second, Binding.all_eq_ok_iff.mpr hsecond.symm, ?_⟩
  rw [putAll, table.get_set]
  exact haccepts.2

/-- How one statement fares. -/
theorem write_cases (hkey : table.rule.KeepsKey)
    (hrefusal : ∀ rows row, table.rule.refusal rows row ≠ some .updatedTwice)
    (hbind : ∀ x, bind x ≠ .error .updatedTwice) (piece : List α) (s : Store) :
    (∃ rows, Binding.all bind piece = .ok rows ∧ (rows.map table.rule.key).Nodup ∧
        table.write (Binding.all bind piece) s = .ok (piece.length, table.putAll s rows)) ∨
      (∃ rows, Binding.all bind piece = .ok rows ∧ ¬ (rows.map table.rule.key).Nodup ∧
        table.write (Binding.all bind piece) s = .error .updatedTwice) ∨
      ∃ r, r ≠ .updatedTwice ∧
        (∀ rows, Binding.all bind piece = .ok rows → ¬ table.rule.Accepts (table.get s) rows) ∧
        table.write (Binding.all bind piece) s = .error r := by
  unfold write
  cases hrows : Binding.all bind piece with
  | error r =>
    refine .inr (.inr ⟨r, ?_, nofun, rfl⟩)
    rintro rfl
    obtain ⟨x, -, hx⟩ := Binding.all_eq_error hrows
    exact hbind x hx
  | ok rows =>
    have hlength : piece.length = rows.length := by
      simpa using congrArg List.length (Binding.all_eq_ok_iff.mp hrows)
    dsimp only
    unfold TableRule.upsert
    have hnone : ∀ k ∈ ([] : List κ), table.rule.holds (table.get s) k = true := by simp
    rcases TableRule.upsertFrom_cases hkey hrefusal hnone rows with
      ⟨hapart, hupsert⟩ | ⟨htwice, hupsert⟩ | ⟨r, hr, hrefused, hupsert⟩
    · rw [hupsert, hlength]
      exact .inl ⟨rows, rfl, hapart.1, rfl⟩
    · rw [hupsert]
      exact .inr (.inl ⟨rows, rfl, fun hnodup => htwice ⟨hnodup, by simp⟩, rfl⟩)
    · rw [hupsert]
      exact .inr (.inr ⟨r, hr, by rintro _ ⟨⟩; exact hrefused, rfl⟩)

/-- How the statements of a batch fare that are kept one by one. -/
theorem keepEach_write_cases (hkey : table.rule.KeepsKey)
    (hrefusal : ∀ rows row, table.rule.refusal rows row ≠ some .updatedTwice)
    (hbind : ∀ x, bind x ≠ .error .updatedTwice) (pieces : List (List α)) (s : Store) :
    let result := (keepEach (pieces.map fun piece => table.write (Binding.all bind piece)) s).1
    ((∀ piece ∈ pieces, ∃ rows, Binding.all bind piece = .ok rows ∧
        (rows.map table.rule.key).Nodup) ∧ result = .ok pieces.flatten.length) ∨
      ((∃ piece ∈ pieces, ∃ rows, Binding.all bind piece = .ok rows ∧
        ¬ (rows.map table.rule.key).Nodup) ∧ result = .error .updatedTwice) ∨
      ∃ r, r ≠ .updatedTwice ∧ ¬ table.Welcomes bind s pieces.flatten ∧ result = .error r := by
  intro result
  induction pieces generalizing s with
  | nil => exact .inl ⟨by simp, rfl⟩
  | cons piece pieces ih =>
    have hresult : result = (keepEach (table.write (Binding.all bind piece) ::
      pieces.map fun piece => table.write (Binding.all bind piece)) s).1 := rfl
    rw [hresult]
    rcases write_cases hkey hrefusal hbind piece s with
      ⟨rows, hrows, hnodup, hwrite⟩ | ⟨rows, hrows, htwice, hwrite⟩ | ⟨r, hr, hrefused, hwrite⟩
    · rw [keepEach_cons_of_ok hwrite]
      rcases ih (table.putAll s rows) with
        ⟨hall, hrest⟩ | ⟨⟨piece', hpiece', htwice⟩, hrest⟩ | ⟨r, hr, hrefused, hrest⟩
      · refine .inl ⟨List.forall_mem_cons.mpr ⟨⟨rows, hrows, hnodup⟩, hall⟩, ?_⟩
        rw [hrest, List.flatten_cons, List.length_append]
        rfl
      · exact .inr (.inl ⟨⟨piece', List.mem_cons_of_mem piece hpiece', htwice⟩, by rw [hrest]; rfl⟩)
      · exact .inr (.inr ⟨r, hr, fun h => hrefused (h.append hrows).2, by rw [hrest]; rfl⟩)
    · rw [keepEach_cons_of_error _ hwrite]
      exact .inr (.inl ⟨⟨piece, by simp, rows, hrows, htwice⟩, rfl⟩)
    · rw [keepEach_cons_of_error _ hwrite]
      refine .inr (.inr ⟨r, hr, fun h => ?_, rfl⟩)
      cases hrows : Binding.all bind piece with
      | ok rows => exact hrefused rows hrows (h.append hrows).1
      | error refusal =>
        obtain ⟨all, hall, -⟩ := h
        rw [Binding.all_eq_ok_iff, List.flatten_cons, List.map_append] at hall
        obtain ⟨first, _, -, hfirst, -⟩ := List.map_eq_append_iff.mp hall.symm
        rw [Binding.all_eq_ok_iff.mpr hfirst.symm] at hrows
        cases hrows

end Table

end PriceArchive
