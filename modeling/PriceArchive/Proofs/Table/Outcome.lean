import PriceArchive.Proofs.Table.Accepted
import PriceArchive.Proofs.Table.Batching

namespace PriceArchive

open Statement

/-- Of items with keys of their own those are first for their key whose key was not seen. -/
theorem firstPerKey_of_nodup {α κ : Type} [DecidableEq κ] {key : α → κ} {seen : List κ} {xs : List α}
    (hxs : (xs.map key).Nodup) :
    firstPerKey key seen xs = xs.filter fun x => decide (key x ∉ seen) := by
  induction xs generalizing seen with
  | nil => rfl
  | cons x xs ih =>
    rw [List.map_cons, List.nodup_cons] at hxs
    by_cases hx : key x ∈ seen
    · rw [firstPerKey, if_pos hx, ih hxs.2, List.filter_cons_of_neg (by simpa using hx)]
    · rw [firstPerKey, if_neg hx, ih hxs.2, List.filter_cons_of_pos (by simpa using hx)]
      congr 1
      refine List.filter_congr fun y hy => decide_eq_decide.mpr ?_
      have hne : key y ≠ key x := fun heq => hxs.1 (heq ▸ List.mem_map_of_mem hy)
      rw [List.mem_cons, or_iff_right hne]

namespace TableRule

variable {ρ κ : Type} [DecidableEq κ] {rule : TableRule ρ κ}

/-- The table turns a row of a batch down that is to be added. -/
def Objects (rule : TableRule ρ κ) (batch : List ρ) (r : Refusal) : Prop :=
  ∃ rows, ∃ row ∈ batch, rule.holds rows (rule.key row) = false ∧ rule.refusal rows row = some r

theorem Objects.mono {batch batch' : List ρ} {r : Refusal} (h : rule.Objects batch r)
    (hsub : batch ⊆ batch') : rule.Objects batch' r := by
  obtain ⟨rows, row, hrow, hobjects⟩ := h
  exact ⟨rows, row, hsub hrow, hobjects⟩

/-- How the rows of a statement fare that have keys of their own. -/
theorem upsertFrom_of_keysApart {written : List κ} {batch : List ρ} (rows : List ρ)
    (hapart : rule.KeysApart written batch) :
    (rule.Accepts rows batch ∧
        rule.upsertFrom written rows batch = .ok (batch.foldl rule.put rows)) ∨
      (¬ rule.Accepts rows batch ∧
        ∃ r, rule.Objects batch r ∧ rule.upsertFrom written rows batch = .error r) := by
  induction batch generalizing written rows with
  | nil => exact .inl ⟨trivial, rfl⟩
  | cons row batch ih =>
    obtain ⟨hnew, hrest⟩ := keysApart_cons_iff.mp hapart
    -- The row itself is written, or the table objects to it.
    have hrow : ((rule.holds rows (rule.key row) = false → rule.refusal rows row = none) ∧
        rule.upsertRow written rows row = .ok (rule.put rows row)) ∨
        ∃ r, rule.holds rows (rule.key row) = false ∧ rule.refusal rows row = some r ∧
          rule.upsertRow written rows row = .error r := by
      unfold upsertRow put
      cases hholds : rule.holds rows (rule.key row) with
      | true => exact .inl ⟨nofun, by rw [if_pos rfl, if_neg hnew, if_pos rfl]⟩
      | false =>
        rw [if_neg Bool.false_ne_true, if_neg Bool.false_ne_true, insert]
        cases hrefusal : rule.refusal rows row with
        | none => exact .inl ⟨fun _ => rfl, rfl⟩
        | some r => exact .inr ⟨r, rfl, rfl, rfl⟩
    rw [upsertFrom]
    obtain ⟨haccepts, hok⟩ | ⟨r, hholds, hrefusal, herror⟩ := hrow
    · rw [hok]
      obtain ⟨hall, hwrite⟩ | ⟨hnot, r, hobjects, hwrite⟩ := ih (rule.put rows row) hrest
      · exact .inl ⟨⟨haccepts, hall⟩, hwrite⟩
      · exact .inr ⟨fun h => hnot h.2, r, hobjects.mono (List.subset_cons_self row batch), hwrite⟩
    · rw [herror]
      refine .inr ⟨fun h => ?_, r, ⟨rows, row, List.mem_cons_self, hholds, hrefusal⟩, rfl⟩
      rw [h.1 hholds] at hrefusal
      cases hrefusal

namespace Columns

variable {γ ν δ : Type} (c : rule.Columns γ ν δ) {rows batch : List ρ}

include c

/-- A row over which the rows of a batch are written is overwritten with the one that has its key. -/
theorem after_of_nodup (hbatch : (batch.map rule.key).Nodup) (r : ρ) :
    rule.after batch r = ((rule.lookup batch (rule.key r)).map (rule.overwrite r)).getD r := by
  induction batch generalizing r with
  | nil => rfl
  | cons row batch ih =>
    rw [List.map_cons, List.nodup_cons] at hbatch
    by_cases heq : rule.key r = rule.key row
    · have hover : rule.key (rule.overwrite r row) = rule.key row := c.keepsKey r row heq
      have hnone : rule.lookup batch (rule.key row) = none := by
        refine List.find?_eq_none.mpr fun x hx hkey => hbatch.1 ?_
        exact of_decide_eq_true hkey ▸ List.mem_map_of_mem hx
      rw [after_cons_of_eq heq, ih hbatch.2, hover, hnone, lookup,
        List.find?_cons_of_pos (by simpa using heq.symm)]
      rfl
    · rw [after_cons_of_ne heq, ih hbatch.2, lookup, lookup,
        List.find?_cons_of_neg (by simpa using Ne.symm heq)]

/-- What rows with keys of their own leave. -/
theorem foldl_put_of_nodup (hbatch : (batch.map rule.key).Nodup) :
    batch.foldl rule.put rows =
      (rows.map fun r => ((rule.lookup batch (rule.key r)).map (rule.overwrite r)).getD r) ++
        batch.filter fun row => decide (rule.key row ∉ rows.map rule.key) := by
  rw [c.foldl_put_eq, firstPerKey_of_nodup hbatch, List.map_append]
  congr 1
  · exact List.map_congr_left fun r _ => c.after_of_nodup hbatch r
  · conv_rhs => rw [← List.map_id (batch.filter _)]
    refine List.map_congr_left fun row hrow => ?_
    have hrow := List.mem_of_mem_filter hrow
    rw [c.after_of_nodup hbatch, lookup_of_mem hbatch hrow]
    exact c.overwrite_self row

end Columns

end TableRule

/-- How the statements of a batch fare whose rows have keys of their own. -/
theorem Table.keepEach_write_of_nodup {ρ κ α : Type} [DecidableEq κ] {table : Table ρ κ}
    {bind : α → Except Refusal ρ} {pieces : List (List α)} {rows : List ρ}
    (hrows : pieces.flatten.map bind = rows.map .ok) (hnodup : (rows.map table.rule.key).Nodup)
    (s : Store) :
    let result := keepEach (pieces.map fun piece => table.write (Binding.all bind piece)) s
    (table.rule.Accepts (table.get s) rows ∧ result = (.ok rows.length, table.putAll s rows)) ∨
      (¬ table.rule.Accepts (table.get s) rows ∧
        ∃ r left, table.rule.Objects rows r ∧ result = (.error r, left)) := by
  intro result
  induction pieces generalizing rows s with
  | nil =>
    obtain rfl : rows = [] := List.map_eq_nil_iff.mp hrows.symm
    exact .inl ⟨trivial, by rw [table.putAll_nil]; rfl⟩
  | cons piece pieces ih =>
    have hresult : result = keepEach (table.write (Binding.all bind piece) ::
      pieces.map fun piece => table.write (Binding.all bind piece)) s := rfl
    rw [List.flatten_cons, List.map_append] at hrows
    obtain ⟨first, rest, rfl, hfirst, hrest⟩ := List.map_eq_append_iff.mp hrows.symm
    rw [List.map_append] at hnodup
    have hbound : Binding.all bind piece = .ok first := Binding.all_eq_ok_iff.mpr hfirst.symm
    have hapart : table.rule.KeysApart [] first := ⟨hnodup.of_append_left, by simp⟩
    rw [hresult, TableRule.Accepts.append_iff]
    obtain ⟨haccepts, hupsert⟩ | ⟨hnot, r, hobjects, hupsert⟩ :=
      TableRule.upsertFrom_of_keysApart (table.get s) hapart
    · have hwrite : table.write (Binding.all bind piece) s =
          .ok (first.length, table.putAll s first) := by
        unfold write TableRule.upsert
        rw [hbound]
        dsimp only
        rw [hupsert]
        rfl
      rw [keepEach_cons_of_ok hwrite]
      have hget : table.get (table.putAll s first) = first.foldl table.rule.put (table.get s) :=
        table.get_putAll s first
      obtain ⟨hall, hkept⟩ | ⟨hnot, r, left, hobjects, hkept⟩ :=
        ih hrest.symm hnodup.of_append_right (table.putAll s first)
      · rw [hget] at hall
        refine .inl ⟨⟨haccepts, hall⟩, ?_⟩
        rw [hkept, List.length_append, table.putAll_append]
        rfl
      · rw [hget] at hnot
        refine .inr ⟨fun h => hnot h.2, r, left, hobjects.mono (List.subset_append_right first rest), ?_⟩
        rw [hkept]
        rfl
    · have hwrite : table.write (Binding.all bind piece) s = .error r := by
        unfold write TableRule.upsert
        rw [hbound]
        dsimp only
        rw [hupsert]
      rw [keepEach_cons_of_error _ hwrite]
      exact .inr ⟨fun h => hnot h.1, r, s, hobjects.mono (List.subset_append_left first rest), rfl⟩

end PriceArchive
