import PriceArchive.Store.Table
import Mathlib.Data.List.Induction

namespace PriceArchive

/-- A row with a value of its own keeps the values of a column apart. -/
theorem nodup_map_concat {α β : Type} {f : α → β} {xs : List α} {x : α} (hxs : (xs.map f).Nodup)
    (hx : f x ∉ xs.map f) : ((xs ++ [x]).map f).Nodup := by
  rw [List.map_append, List.nodup_append]
  refine ⟨hxs, by simp, ?_⟩
  rintro y hy _ hlast rfl
  rw [List.map_singleton, List.mem_singleton] at hlast
  exact hx (hlast ▸ hy)

namespace TableRule

variable {ρ κ : Type} [DecidableEq κ] {rule : TableRule ρ κ}

/-- The row stored under a key. -/
def lookup (rule : TableRule ρ κ) (rows : List ρ) (k : κ) : Option ρ :=
  rows.find? fun r => decide (rule.key r = k)

/-- The rows after one is written. -/
def put (rule : TableRule ρ κ) (rows : List ρ) (row : ρ) : List ρ :=
  if rule.holds rows (rule.key row) then rule.update rows row else rows ++ [row]

/-- A stored row that is overwritten stays under its key. -/
def KeepsKey (rule : TableRule ρ κ) : Prop :=
  ∀ stored proposed, rule.key stored = rule.key proposed →
    rule.key (rule.overwrite stored proposed) = rule.key proposed

theorem holds_iff {rows : List ρ} {k : κ} :
    rule.holds rows k = true ↔ ∃ r ∈ rows, rule.key r = k := by
  simp [holds]

theorem holds_iff_mem_keys {rows : List ρ} {k : κ} :
    rule.holds rows k = true ↔ k ∈ rows.map rule.key := by
  simp [holds]

omit [DecidableEq κ] in
theorem insert_eq_ok {rows rows' : List ρ} {row : ρ} (h : rule.insert rows row = .ok rows') :
    rule.refusal rows row = none ∧ rows' = rows ++ [row] := by
  unfold insert at h
  split at h
  · cases h
  · rename_i hfree
    cases h
    exact ⟨hfree, rfl⟩

theorem upsertRow_eq_put {written : List κ} {rows rows' : List ρ} {row : ρ}
    (h : rule.upsertRow written rows row = .ok rows') : rows' = rule.put rows row := by
  unfold upsertRow at h
  unfold put
  split at h
  · rename_i hholds
    rw [if_pos hholds]
    split at h
    · cases h
    · cases h
      rfl
  · rename_i hholds
    rw [if_neg hholds]
    exact (insert_eq_ok h).2

theorem upsertFrom_eq_foldl_put {written : List κ} {rows rows' batch : List ρ}
    (h : rule.upsertFrom written rows batch = .ok rows') : rows' = batch.foldl rule.put rows := by
  induction batch generalizing written rows with
  | nil =>
    cases h
    rfl
  | cons row batch ih =>
    unfold upsertFrom at h
    split at h
    · rename_i stored hrow
      rw [upsertRow_eq_put hrow] at h
      exact ih h
    · cases h

/-- What overwriting a row keeps true of a table, and adding a row that the table has nothing against,
an accepted statement keeps true. -/
theorem upsertFrom_preserves {I : List ρ → Prop}
    (hupdate : ∀ rows row, I rows → I (rule.update rows row))
    (hinsert : ∀ rows row, I rows → rule.key row ∉ rows.map rule.key →
      rule.refusal rows row = none → I (rows ++ [row]))
    {written : List κ} {rows rows' batch : List ρ} (hrows : I rows)
    (h : rule.upsertFrom written rows batch = .ok rows') : I rows' := by
  induction batch generalizing written rows with
  | nil =>
    cases h
    exact hrows
  | cons row batch ih =>
    unfold upsertFrom at h
    split at h
    · rename_i stored hrow
      refine ih ?_ h
      unfold upsertRow at hrow
      split at hrow
      · split at hrow
        · cases hrow
        · cases hrow
          exact hupdate rows row hrows
      · rename_i hholds
        rw [holds_iff_mem_keys] at hholds
        obtain ⟨hfree, rfl⟩ := insert_eq_ok hrow
        exact hinsert rows row hrows hholds hfree
    · cases h

/-- An accepted statement writes its rows one after the other. -/
theorem upsert_eq_foldl_put {rows rows' batch : List ρ} (h : rule.upsert rows batch = .ok rows') :
    rows' = batch.foldl rule.put rows :=
  upsertFrom_eq_foldl_put h

/-- Rows that stand apart, from one another and from the stored ones, are all added. -/
theorem upsertFrom_of_pairwise {R : ρ → ρ → Prop}
    (hR : ∀ rows row, (∀ r ∈ rows, R r row) →
      rule.key row ∉ rows.map rule.key ∧ rule.refusal rows row = none)
    {written : List κ} {rows batch : List ρ} (h : (rows ++ batch).Pairwise R) :
    rule.upsertFrom written rows batch = .ok (rows ++ batch) := by
  induction batch generalizing written rows with
  | nil => rw [upsertFrom, List.append_nil]
  | cons row batch ih =>
    have hrow := (List.pairwise_append.mp h).2.2
    obtain ⟨hkey, hfree⟩ := hR rows row fun r hr => hrow r hr row (by simp)
    rw [← holds_iff_mem_keys] at hkey
    have happend : rows ++ row :: batch = (rows ++ [row]) ++ batch := by simp
    rw [upsertFrom, upsertRow, if_neg hkey, insert, hfree, happend]
    exact ih (happend ▸ h)

/-- A column that overwriting leaves alone is as it was after an update. -/
theorem map_update {π : Type} {f : ρ → π} (hover : ∀ stored proposed,
    rule.key stored = rule.key proposed → f (rule.overwrite stored proposed) = f stored)
    (rows : List ρ) (row : ρ) : (rule.update rows row).map f = rows.map f := by
  unfold update
  rw [List.map_map]
  apply List.map_congr_left
  intro r _
  rw [Function.comp_apply]
  split
  · rename_i heq
    exact hover r row heq
  · rfl

theorem keys_update (hkey : rule.KeepsKey) (rows : List ρ) (row : ρ) :
    (rule.update rows row).map rule.key = rows.map rule.key :=
  map_update (fun stored proposed heq => (hkey stored proposed heq).trans heq.symm) rows row

/-- What is asked of every row holds of all stored ones when it holds of those that are written and
overwriting keeps it. -/
theorem forall_mem_put {P : ρ → Prop} {rows : List ρ} {row : ρ} (hrows : ∀ r ∈ rows, P r)
    (hrow : P row) (hover : ∀ r, P r → rule.key r = rule.key row → P (rule.overwrite r row)) :
    ∀ r ∈ rule.put rows row, P r := by
  intro r hr
  unfold put at hr
  split at hr
  · obtain ⟨stored, hstored, rfl⟩ := List.mem_map.mp hr
    split
    · rename_i heq
      exact hover stored (hrows stored hstored) heq
    · exact hrows stored hstored
  · rcases List.mem_append.mp hr with hr | hr
    · exact hrows r hr
    · rw [List.mem_singleton.mp hr]
      exact hrow

theorem forall_mem_foldl_put {P : ρ → Prop}
    (hover : ∀ r row, P r → P row → rule.key r = rule.key row → P (rule.overwrite r row))
    {rows batch : List ρ} (hrows : ∀ r ∈ rows, P r) (hbatch : ∀ row ∈ batch, P row) :
    ∀ r ∈ batch.foldl rule.put rows, P r := by
  induction batch generalizing rows with
  | nil => exact hrows
  | cons row batch ih =>
    have hrow := hbatch row (by simp)
    refine ih (forall_mem_put hrows hrow fun r hr => hover r row hr hrow) ?_
    intro row' hrow'
    exact hbatch row' (List.mem_cons_of_mem row hrow')

/-- A row stays as it is while only others are written. -/
theorem mem_put_of_ne {rows : List ρ} {row r : ρ} (hr : r ∈ rows) (hne : rule.key r ≠ rule.key row) :
    r ∈ rule.put rows row := by
  unfold put
  split
  · exact List.mem_map.mpr ⟨r, hr, if_neg hne⟩
  · exact List.mem_append_left _ hr

theorem mem_foldl_put_of_ne {rows batch : List ρ} {r : ρ} (hr : r ∈ rows)
    (hne : ∀ row ∈ batch, rule.key r ≠ rule.key row) : r ∈ batch.foldl rule.put rows := by
  induction batch generalizing rows with
  | nil => exact hr
  | cons row batch ih =>
    rw [List.forall_mem_cons] at hne
    exact ih (mem_put_of_ne hr hne.1) hne.2

theorem nodup_keys_put (hkey : rule.KeepsKey) {rows : List ρ} {row : ρ}
    (hrows : (rows.map rule.key).Nodup) : ((rule.put rows row).map rule.key).Nodup := by
  unfold put
  split
  · rwa [keys_update hkey]
  · rename_i hholds
    rw [holds_iff_mem_keys] at hholds
    exact nodup_map_concat hrows hholds

theorem nodup_keys_foldl_put (hkey : rule.KeepsKey) {rows : List ρ}
    (hrows : (rows.map rule.key).Nodup) (batch : List ρ) :
    ((batch.foldl rule.put rows).map rule.key).Nodup := by
  induction batch generalizing rows with
  | nil => exact hrows
  | cons row batch ih => exact ih (nodup_keys_put hkey hrows)

/-- Every key is there once, and every row has a property. -/
structure Keyed (rule : TableRule ρ κ) (P : ρ → Prop) (rows : List ρ) : Prop where
  keys : (rows.map rule.key).Nodup
  all : ∀ r ∈ rows, P r

namespace Keyed

variable {P : ρ → Prop} {rows : List ρ}

omit [DecidableEq κ] in
theorem nil : rule.Keyed P [] := ⟨List.nodup_nil, by simp⟩

omit [DecidableEq κ] in
theorem filter (h : rule.Keyed P rows) (kept : ρ → Bool) : rule.Keyed P (rows.filter kept) where
  keys := h.keys.sublist (List.filter_sublist.map _)
  all r hr := h.all r (List.mem_filter.mp hr).1

theorem upsert (h : rule.Keyed P rows) (hkey : rule.KeepsKey)
    (hover : ∀ r row, P r → P row → rule.key r = rule.key row → P (rule.overwrite r row))
    {batch rows' : List ρ} (hbatch : ∀ row ∈ batch, P row)
    (hupsert : rule.upsert rows batch = .ok rows') : rule.Keyed P rows' := by
  rw [upsert_eq_foldl_put hupsert]
  exact ⟨nodup_keys_foldl_put hkey h.keys batch, forall_mem_foldl_put hover h.all hbatch⟩

end Keyed

theorem key_of_lookup {rows : List ρ} {k : κ} {r : ρ} (h : rule.lookup rows k = some r) :
    rule.key r = k := by
  simpa using List.find?_some h

theorem mem_of_lookup {rows : List ρ} {k : κ} {r : ρ} (h : rule.lookup rows k = some r) :
    r ∈ rows :=
  List.mem_of_find?_eq_some h

/-- With no key stored twice, every row is the one stored under its key. -/
theorem lookup_of_mem {rows : List ρ} (hrows : (rows.map rule.key).Nodup) {r : ρ} (hr : r ∈ rows) :
    rule.lookup rows (rule.key r) = some r := by
  induction rows with
  | nil => cases hr
  | cons first rest ih =>
    rw [List.map_cons, List.nodup_cons] at hrows
    unfold lookup
    rcases List.mem_cons.mp hr with rfl | hr
    · exact List.find?_cons_of_pos (by simp)
    · have hne : rule.key first ≠ rule.key r := by
        intro heq
        exact hrows.1 (heq ▸ List.mem_map_of_mem hr)
      rw [List.find?_cons_of_neg (by simpa using hne)]
      exact ih hrows.2 hr

theorem lookup_update (hkey : rule.KeepsKey) (rows : List ρ) (row : ρ) (k : κ) :
    rule.lookup (rule.update rows row) k =
      (rule.lookup rows k).map fun r => if rule.key row = k then rule.overwrite r row else r := by
  induction rows with
  | nil => rfl
  | cons first rest ih =>
    unfold lookup update at ih ⊢
    rw [List.map_cons]
    have hfirst : rule.key (if rule.key first = rule.key row then rule.overwrite first row else first) =
        rule.key first := by
      split
      · rename_i heq
        exact (hkey first row heq).trans heq.symm
      · rfl
    by_cases hk : rule.key first = k
    · rw [List.find?_cons_of_pos (by simpa [hfirst] using hk),
        List.find?_cons_of_pos (by simpa using hk), Option.map_some, hk]
      simp only [eq_comm]
    · rw [List.find?_cons_of_neg (by simpa [hfirst] using hk),
        List.find?_cons_of_neg (by simpa using hk)]
      exact ih

/-- A row that is written shows what it replaces under its key; other keys are untouched. -/
theorem lookup_put {π : Type} (hkey : rule.KeepsKey) {f : ρ → π}
    (hf : ∀ stored proposed, f (rule.overwrite stored proposed) = f proposed) (rows : List ρ)
    (row : ρ) (k : κ) :
    (rule.lookup (rule.put rows row) k).map f =
      if rule.key row = k then some (f row) else (rule.lookup rows k).map f := by
  unfold put
  split
  · rename_i hholds
    rw [lookup_update hkey, Option.map_map]
    split
    · rename_i heq
      subst heq
      obtain ⟨r, hr, heq⟩ := holds_iff.mp hholds
      have hsome : (rule.lookup rows (rule.key row)).isSome = true :=
        List.find?_isSome.mpr ⟨r, hr, by simpa using heq⟩
      obtain ⟨stored, hstored⟩ := Option.isSome_iff_exists.mp hsome
      simp [hstored, hf]
    · rfl
  · rename_i hholds
    unfold lookup
    rw [List.find?_append]
    by_cases heq : rule.key row = k
    · have hnone : (rows.find? fun r => decide (rule.key r = k)) = none := by
        apply List.find?_eq_none.mpr
        intro r hr hk
        exact hholds (holds_iff.mpr ⟨r, hr, by simpa [heq] using hk⟩)
      simp [hnone, heq]
    · simp [heq]

/-- Of the rows that are written under a key, the last is the one that shows. -/
theorem lookup_foldl_put {π : Type} (hkey : rule.KeepsKey) {f : ρ → π}
    (hf : ∀ stored proposed, f (rule.overwrite stored proposed) = f proposed) (rows batch : List ρ)
    (k : κ) :
    (rule.lookup (batch.foldl rule.put rows) k).map f =
      ((batch.filter fun r => decide (rule.key r = k)).getLast?.map f).or
        ((rule.lookup rows k).map f) := by
  induction batch generalizing rows with
  | nil => rfl
  | cons row batch ih =>
    rw [List.foldl_cons, ih, lookup_put hkey hf]
    by_cases heq : rule.key row = k
    · rw [List.filter_cons_of_pos (by simpa using heq), if_pos heq, List.getLast?_cons]
      cases (batch.filter fun r => decide (rule.key r = k)).getLast? with
      | none => rfl
      | some last => rfl
    · rw [List.filter_cons_of_neg (by simpa using heq), if_neg heq]

/-- Under the key of a row that is written a row is stored. -/
theorem exists_mem_foldl_put (hkey : rule.KeepsKey) (rows : List ρ) {batch : List ρ} {row : ρ}
    (hrow : row ∈ batch) : ∃ r ∈ batch.foldl rule.put rows, rule.key r = rule.key row := by
  have hne : (batch.filter fun r => decide (rule.key r = rule.key row)) ≠ [] :=
    List.ne_nil_of_mem (List.mem_filter.mpr ⟨hrow, by simp⟩)
  obtain ⟨last, hlast⟩ := Option.isSome_iff_exists.mp (List.getLast?_isSome.mpr hne)
  have hlookup := lookup_foldl_put hkey (f := fun _ => ()) (fun _ _ => rfl) rows batch (rule.key row)
  rw [hlast] at hlookup
  cases hfound : rule.lookup (batch.foldl rule.put rows) (rule.key row) with
  | none =>
    rw [hfound] at hlookup
    cases hlookup
  | some r => exact ⟨r, mem_of_lookup hfound, key_of_lookup hfound⟩

/-- Writing rows leaves alone those under other keys. -/
theorem filter_put_of_key (hkey : rule.KeepsKey) {p : κ → Bool} {row : ρ}
    (hrow : p (rule.key row) = false) (rows : List ρ) :
    ((rule.put rows row).filter fun r => p (rule.key r)) = rows.filter fun r => p (rule.key r) := by
  have hupdate : ((rule.update rows row).filter fun r => p (rule.key r)) =
      rows.filter fun r => p (rule.key r) := by
    unfold update
    induction rows with
    | nil => rfl
    | cons r rows ih =>
      rw [List.map_cons]
      by_cases heq : rule.key r = rule.key row
      · rw [if_pos heq, List.filter_cons_of_neg (by simp [hkey r row heq, hrow]),
          List.filter_cons_of_neg (by simp [heq, hrow]), ih]
      · rw [if_neg heq, List.filter_cons, List.filter_cons, ih]
  unfold put
  split
  · exact hupdate
  · rw [List.filter_append, List.filter_cons_of_neg (by simp [hrow]), List.filter_nil,
      List.append_nil]

theorem filter_foldl_put_of_key (hkey : rule.KeepsKey) {p : κ → Bool} {batch : List ρ}
    (hbatch : ∀ row ∈ batch, p (rule.key row) = false) (rows : List ρ) :
    ((batch.foldl rule.put rows).filter fun r => p (rule.key r)) =
      rows.filter fun r => p (rule.key r) := by
  induction batch generalizing rows with
  | nil => rfl
  | cons row batch ih =>
    rw [List.forall_mem_cons] at hbatch
    rw [List.foldl_cons, ih hbatch.2, filter_put_of_key hkey hbatch.1]

section Shows

variable {π : Type} {f : ρ → π}

/-- A row that is stored under a key shows something. -/
def Shows (rule : TableRule ρ κ) (f : ρ → π) (rows : List ρ) (k : κ) (x : π) : Prop :=
  ∃ r ∈ rows, rule.key r = k ∧ f r = x

theorem shows_iff_mem {rows : List ρ} {k : κ} {x : π} :
    rule.Shows f rows k x ↔ x ∈ (rows.filter fun r => decide (rule.key r = k)).map f := by
  simp [Shows, and_assoc]

/-- Under the key of a row that is written the table shows what that row does and nothing else, and
under every other key what it did. -/
theorem shows_put_iff (hkey : rule.KeepsKey)
    (hf : ∀ stored proposed, f (rule.overwrite stored proposed) = f proposed) {rows : List ρ}
    {row : ρ} {k : κ} {x : π} :
    rule.Shows f (rule.put rows row) k x ↔
      if k = rule.key row then x = f row else rule.Shows f rows k x := by
  by_cases hk : k = rule.key row
  · rw [if_pos hk, hk]
    constructor
    · rintro ⟨r, hr, hrow, rfl⟩
      unfold put at hr
      split at hr
      · obtain ⟨stored, hstored, rfl⟩ := List.mem_map.mp hr
        by_cases heq : rule.key stored = rule.key row
        · rw [if_pos heq, hf]
        · rw [if_neg heq] at hrow
          exact absurd hrow heq
      · rename_i hholds
        rcases List.mem_append.mp hr with hr | hr
        · exact absurd (holds_iff.mpr ⟨r, hr, hrow⟩) hholds
        · rw [List.mem_singleton.mp hr]
    · rintro rfl
      unfold put
      split
      · rename_i hholds
        obtain ⟨stored, hstored, heq⟩ := holds_iff.mp hholds
        exact ⟨_, List.mem_map.mpr ⟨stored, hstored, if_pos heq⟩, hkey stored row heq, hf stored row⟩
      · exact ⟨row, by simp, rfl, rfl⟩
  · have hother : decide (rule.key row = k) = false := by simpa using Ne.symm hk
    rw [if_neg hk, shows_iff_mem, shows_iff_mem,
      filter_put_of_key hkey (p := fun k' => decide (k' = k)) hother]

/-- Under the key of a row that is written the table shows what that row does and nothing else, if the
other rows that are written under it show the same. -/
theorem shows_foldl_put_of_mem (hkey : rule.KeepsKey)
    (hf : ∀ stored proposed, f (rule.overwrite stored proposed) = f proposed) {rows batch : List ρ}
    {row : ρ} (hrow : row ∈ batch) (hsame : ∀ r ∈ batch, rule.key r = rule.key row → f r = f row)
    {x : π} : rule.Shows f (batch.foldl rule.put rows) (rule.key row) x ↔ x = f row := by
  induction batch using List.reverseRecOn with
  | nil => cases hrow
  | append_singleton batch last ih =>
    rw [List.foldl_append, List.foldl_cons, List.foldl_nil, shows_put_iff hkey hf]
    split
    · rename_i hlast
      rw [hsame last (by simp) hlast.symm]
    · rename_i hother
      refine ih ?_ fun r hr => hsame r (List.mem_append_left _ hr)
      rcases List.mem_append.mp hrow with hrow | hrow
      · exact hrow
      · rw [List.mem_singleton.mp hrow] at hother
        exact absurd rfl hother

/-- Two tables that show the same still do after rows with the same keys that show the same are written
to both. -/
theorem shows_foldl_put_iff {ρ' : Type} {rule' : TableRule ρ' κ} {f' : ρ' → π} (hkey : rule.KeepsKey)
    (hkey' : rule'.KeepsKey) (hf : ∀ stored proposed, f (rule.overwrite stored proposed) = f proposed)
    (hf' : ∀ stored proposed, f' (rule'.overwrite stored proposed) = f' proposed)
    {rows batch : List ρ} {rows' batch' : List ρ'}
    (hrows : ∀ k x, rule.Shows f rows k x ↔ rule'.Shows f' rows' k x)
    (hbatch : batch.map (fun r => (rule.key r, f r)) = batch'.map fun r => (rule'.key r, f' r)) :
    ∀ k x, rule.Shows f (batch.foldl rule.put rows) k x ↔
      rule'.Shows f' (batch'.foldl rule'.put rows') k x := by
  induction batch generalizing batch' rows rows' with
  | nil =>
    rw [List.map_nil, eq_comm, List.map_eq_nil_iff] at hbatch
    rwa [hbatch]
  | cons row batch ih =>
    cases batch' with
    | nil => cases hbatch
    | cons row' batch' =>
      rw [List.map_cons, List.map_cons, List.cons.injEq, Prod.mk.injEq] at hbatch
      obtain ⟨⟨hrow, hshown⟩, hrest⟩ := hbatch
      rw [List.foldl_cons, List.foldl_cons]
      refine ih (fun k x => ?_) hrest
      rw [shows_put_iff hkey hf, shows_put_iff hkey' hf', hrow, hshown, hrows]

end Shows

end TableRule

end PriceArchive
