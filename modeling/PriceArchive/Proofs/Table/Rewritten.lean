import PriceArchive.Proofs.Table.Accepted
import PriceArchive.Proofs.Table.Batching

namespace PriceArchive

open Statement

namespace TableRule

variable {ρ κ : Type} [DecidableEq κ] {rule : TableRule ρ κ}

/-- A row of every key of a batch is stored. -/
def Holds (rule : TableRule ρ κ) (rows batch : List ρ) : Prop :=
  ∀ row ∈ batch, rule.holds rows (rule.key row) = true

theorem holds_foldl_put (hkey : rule.KeepsKey) {rows : List ρ} {k : κ}
    (hk : rule.holds rows k = true) (batch : List ρ) :
    rule.holds (batch.foldl rule.put rows) k = true := by
  induction batch generalizing rows with
  | nil => exact hk
  | cons row batch ih => exact ih (holds_put hkey (.inr hk))

theorem Holds.foldl_put (hkey : rule.KeepsKey) {rows batch : List ρ} (h : rule.Holds rows batch)
    (others : List ρ) : rule.Holds (others.foldl rule.put rows) batch :=
  fun row hrow => holds_foldl_put hkey (h row hrow) others

/-- A batch that was written is stored. -/
theorem holds_written (hkey : rule.KeepsKey) (rows batch : List ρ) :
    rule.Holds (batch.foldl rule.put rows) batch :=
  fun _ hrow => holds_iff.mpr (exists_mem_foldl_put hkey rows hrow)

/-- Rows that are stored already are written if they have keys of their own. -/
theorem upsertFrom_of_holds (hkey : rule.KeepsKey) {written : List κ} {rows batch : List ρ}
    (hheld : rule.Holds rows batch) (hapart : rule.KeysApart written batch) :
    rule.upsertFrom written rows batch = .ok (batch.foldl rule.put rows) := by
  induction batch generalizing written rows with
  | nil => rfl
  | cons row batch ih =>
    have hrow := hheld row (by simp)
    obtain ⟨hnew, hrest⟩ := keysApart_cons_iff.mp hapart
    have hheld' : rule.Holds (rule.put rows row) batch := by
      intro r hr
      exact holds_put hkey (.inr (hheld r (List.mem_cons_of_mem row hr)))
    have hput : rule.put rows row = rule.update rows row := by rw [put, if_pos hrow]
    rw [upsertFrom, upsertRow, if_pos hrow, if_neg hnew, ← hput]
    exact ih hheld' hrest

end TableRule

namespace Table

variable {ρ κ α : Type} [DecidableEq κ] {table : Table ρ κ} {bind : α → Except Refusal ρ}

/-- Statements whose rows are stored already are all kept. -/
theorem keepEach_write_of_holds (hkey : table.rule.KeepsKey) {pieces : List (List α)} {s : Store}
    (h : ∀ piece ∈ pieces, ∃ rows, Binding.all bind piece = .ok rows ∧
      (rows.map table.rule.key).Nodup ∧ table.rule.Holds (table.get s) rows) :
    ∃ rows, pieces.flatten.map bind = rows.map .ok ∧
      keepEach (pieces.map fun piece => table.write (Binding.all bind piece)) s =
        (.ok pieces.flatten.length, table.putAll s rows) := by
  induction pieces generalizing s with
  | nil => exact ⟨[], rfl, by rw [putAll_nil]; rfl⟩
  | cons piece pieces ih =>
    obtain ⟨⟨rows, hrows, hnodup, hheld⟩, hrest⟩ := List.forall_mem_cons.mp h
    have hlength : piece.length = rows.length := by
      simpa using congrArg List.length (Binding.all_eq_ok_iff.mp hrows)
    have hwrite : table.write (Binding.all bind piece) s =
        .ok (piece.length, table.putAll s rows) := by
      have hupsert : table.rule.upsert (table.get s) rows =
          .ok (rows.foldl table.rule.put (table.get s)) :=
        TableRule.upsertFrom_of_holds hkey hheld ⟨hnodup, by simp⟩
      unfold write
      rw [hrows]
      dsimp only
      rw [hupsert, hlength]
      rfl
    obtain ⟨rows', hrows', hkept⟩ := ih (s := table.putAll s rows) fun piece' hpiece' => by
      obtain ⟨rows', hrows', hnodup', hheld'⟩ := hrest piece' hpiece'
      refine ⟨rows', hrows', hnodup', ?_⟩
      rw [get_putAll]
      exact hheld'.foldl_put hkey rows
    refine ⟨rows ++ rows', ?_, ?_⟩
    · rw [List.flatten_cons, List.map_append, List.map_append, hrows',
        Binding.all_eq_ok_iff.mp hrows]
    · rw [List.map_cons, keepEach_cons_of_ok hwrite, hkept, List.flatten_cons, List.length_append,
        putAll_append]
      rfl

end Table

namespace TableRule.Columns

variable {ρ κ γ ν δ : Type} [DecidableEq κ] {rule : TableRule ρ κ} (c : rule.Columns γ ν δ)

include c in
/-- Rows that are stored already only change what is stored. -/
theorem foldl_put_of_holds {rows batch : List ρ} (h : rule.Holds rows batch) :
    batch.foldl rule.put rows = rows.map (rule.after batch) := by
  have hnone : firstPerKey rule.key (rows.map rule.key) batch = [] := by
    apply List.eq_nil_iff_forall_not_mem.mpr
    intro row hrow
    obtain ⟨hfind, hnew⟩ := find?_of_mem_firstPerKey hrow
    exact hnew (holds_iff_mem_keys.mp (h row (List.mem_of_find?_eq_some hfind)))
  rw [c.foldl_put_eq, hnone, List.append_nil]

/-- A table in which a batch was written keeps its values when rows with the batch's keys and values are
written after it. -/
theorem values_after_again {rows batch again : List ρ}
    (h : again.map (fun r => (rule.key r, c.values r)) =
      batch.map fun r => (rule.key r, c.values r)) :
    ∀ r ∈ batch.foldl rule.put rows, c.values (rule.after again r) = c.values r := by
  intro r hr
  rw [c.foldl_put_eq] at hr
  obtain ⟨r, -, rfl⟩ := List.mem_map.mp hr
  rw [c.values_after, c.key_after, c.values_after, lastUnder_of_map_eq h]
  cases lastUnder rule.key c.values batch (rule.key r) <;> rfl

include c in
/-- A column that every write replaces shows what all rows of a batch show under their keys, and what it
did under others. -/
theorem replaced_after {π : Type} {f : ρ → π} (hf : ∀ r row, f (rule.overwrite r row) = f row)
    {batch : List ρ} {x : π} (hbatch : ∀ row ∈ batch, f row = x) (r : ρ) :
    f (rule.after batch r) = if rule.key r ∈ batch.map rule.key then x else f r := by
  induction batch generalizing r with
  | nil => rfl
  | cons row batch ih =>
    obtain ⟨hrow, hrest⟩ := List.forall_mem_cons.mp hbatch
    by_cases heq : rule.key r = rule.key row
    · have hover : rule.key (rule.overwrite r row) = rule.key r := (c.keepsKey r row heq).trans heq.symm
      have hmem : rule.key r ∈ (row :: batch).map rule.key := by simp [heq]
      rw [after_cons_of_eq heq, ih hrest, hover, hf, hrow, if_pos hmem, ite_self]
    · simp only [after_cons_of_ne heq, ih hrest, List.map_cons, List.mem_cons, heq, false_or]

end TableRule.Columns

/-- When statements write rows that have the keys and values of rows which were put into the table last,
they are all kept if no two rows of one share a key, and they overwrite what is stored with the values
that it has. -/
theorem Table.keepEach_write_again {ρ κ α γ ν δ : Type} [DecidableEq κ] {table : Table ρ κ}
    (c : table.rule.Columns γ ν δ) {bind : α → Except Refusal ρ} {pieces : List (List α)}
    {stored written again : List ρ} {s : Store}
    (hs : table.get s = written.foldl table.rule.put stored)
    (hbind : pieces.flatten.map bind = again.map .ok)
    (hagain : again.map (fun r => (table.rule.key r, c.values r)) =
      written.map fun r => (table.rule.key r, c.values r))
    (hapart : ∀ piece ∈ pieces, ∀ rows, Binding.all bind piece = .ok rows →
      (rows.map table.rule.key).Nodup) :
    keepEach (pieces.map fun piece => table.write (Binding.all bind piece)) s =
        (.ok pieces.flatten.length, table.set s ((table.get s).map (table.rule.after again))) ∧
      ∀ r ∈ table.get s, c.values (table.rule.after again r) = c.values r := by
  have hheld : table.rule.Holds (table.get s) again := by
    intro row hrow
    obtain ⟨row', hrow', heq⟩ := exists_mem_of_map_eq hagain hrow
    rw [Prod.mk.injEq] at heq
    rw [hs, ← heq.1]
    exact TableRule.holds_written c.keepsKey stored written row' hrow'
  have hpieces : ∀ piece ∈ pieces, ∃ rows, Binding.all bind piece = .ok rows ∧
      (rows.map table.rule.key).Nodup ∧ table.rule.Holds (table.get s) rows := by
    intro piece hpiece
    have hbound : ∀ x ∈ piece, ∃ r ∈ again, bind x = .ok r := by
      intro x hx
      obtain ⟨r, hr, heq⟩ := exists_mem_of_map_eq hbind (List.mem_flatten_of_mem hpiece hx)
      exact ⟨r, hr, heq.symm⟩
    obtain ⟨rows, hrows⟩ := Binding.exists_all_eq_ok fun x hx => by
      obtain ⟨r, -, hr⟩ := hbound x hx
      exact ⟨r, hr⟩
    refine ⟨rows, hrows, hapart piece hpiece rows hrows, fun row hrow => ?_⟩
    obtain ⟨x, hx, hxrow⟩ := exists_mem_of_map_eq (Binding.all_eq_ok_iff.mp hrows).symm hrow
    obtain ⟨r, hr, hxr⟩ := hbound x hx
    rw [hxrow] at hxr
    cases hxr
    exact hheld row hr
  obtain ⟨rows, hrows, hkept⟩ := Table.keepEach_write_of_holds c.keepsKey hpieces
  have hsame : again = rows :=
    (List.map_inj_right fun _ _ heq => Except.ok.inj heq).mp (hbind.symm.trans hrows)
  subst hsame
  refine ⟨?_, ?_⟩
  · rw [hkept, putAll, c.foldl_put_of_holds hheld]
  · rw [hs]
    exact c.values_after_again hagain

end PriceArchive
