import PriceArchive.Store.Table
import Mathlib.Data.List.Induction

namespace PriceArchive

variable {α κ : Type}

/-- Two lists of one length that agree in one view agree in every view that it decides. -/
theorem map_eq_map_of_imp {α β γ δ : Type} {f : α → γ} {g : β → γ} {f' : α → δ} {g' : β → δ}
    (himp : ∀ x y, f x = g y → f' x = g' y) {xs : List α} {ys : List β}
    (h : xs.map f = ys.map g) : xs.map f' = ys.map g' := by
  induction xs generalizing ys with
  | nil =>
    cases ys with
    | nil => rfl
    | cons y ys => cases h
  | cons x xs ih =>
    cases ys with
    | nil => cases h
    | cons y ys =>
      rw [List.map_cons, List.map_cons, List.cons.injEq] at h
      rw [List.map_cons, List.map_cons, himp x y h.1, ih h.2]

/-- Lists that agree in some view have an item of the one for each item of the other. -/
theorem exists_mem_of_map_eq {α β γ : Type} {f : α → γ} {g : β → γ} {xs : List α} {ys : List β}
    (h : xs.map f = ys.map g) {x : α} (hx : x ∈ xs) : ∃ y ∈ ys, g y = f x :=
  List.mem_map.mp (h ▸ List.mem_map_of_mem hx)

/-- What stands last among the items of a kind, the kind being decided by the view. -/
theorem getLast?_filter_of_map_eq {α β γ : Type} {f : α → γ} {g : β → γ} {xs : List α} {ys : List β}
    (h : xs.map f = ys.map g) (p : γ → Bool) :
    (xs.filter fun x => p (f x)).getLast?.map f = (ys.filter fun y => p (g y)).getLast?.map g := by
  have hxs : (xs.map f).filter p = (xs.filter fun x => p (f x)).map f := List.filter_map
  have hys : (ys.map g).filter p = (ys.filter fun y => p (g y)).map g := List.filter_map
  rw [← List.getLast?_map, ← List.getLast?_map, ← hxs, ← hys, h]

section LastPerKey

variable [DecidableEq κ] {key : α → κ}

theorem putByKey_of_not_mem {x : α} {xs : List α} (hx : key x ∉ xs.map key) :
    putByKey key x xs = xs ++ [x] := by
  induction xs with
  | nil => rfl
  | cons y rest ih =>
    rw [List.map_cons, List.mem_cons, not_or] at hx
    rw [putByKey, if_neg (Ne.symm hx.1), ih hx.2, List.cons_append]

theorem keys_putByKey_of_mem {x : α} {xs : List α} (hx : key x ∈ xs.map key) :
    (putByKey key x xs).map key = xs.map key := by
  induction xs with
  | nil => cases hx
  | cons y rest ih =>
    rw [putByKey]
    split
    · rename_i heq
      rw [List.map_cons, List.map_cons, heq]
    · rename_i hne
      rw [List.map_cons, List.mem_cons] at hx
      rw [List.map_cons, List.map_cons, ih (hx.resolve_left (Ne.symm hne))]

theorem nodup_keys_putByKey {x : α} {xs : List α} (hxs : (xs.map key).Nodup) :
    ((putByKey key x xs).map key).Nodup := by
  by_cases hx : key x ∈ xs.map key
  · rwa [keys_putByKey_of_mem hx]
  · rw [putByKey_of_not_mem hx, List.map_append, List.nodup_append]
    refine ⟨hxs, by simp, ?_⟩
    intro k hk k' hk' heq
    rw [List.map_singleton, List.mem_singleton] at hk'
    rw [heq, hk'] at hk
    exact hx hk

/-- After an item is put in place it is the only one with its key; the others are as before. -/
theorem filter_putByKey {x : α} {xs : List α} (hxs : (xs.map key).Nodup) (k : κ) :
    ((putByKey key x xs).filter fun y => decide (key y = k)) =
      if key x = k then [x] else xs.filter fun y => decide (key y = k) := by
  induction xs with
  | nil => by_cases hk : key x = k <;> simp [putByKey, hk]
  | cons y rest ih =>
    rw [List.map_cons, List.nodup_cons] at hxs
    rw [putByKey]
    split
    · rename_i heq
      by_cases hk : key x = k
      · have hrest : (rest.filter fun z => decide (key z = k)) = [] := by
          apply List.filter_eq_nil_iff.mpr
          intro z hz hzk
          have hkey : key z = key y := by rw [of_decide_eq_true hzk, heq, hk]
          exact hxs.1 (hkey ▸ List.mem_map_of_mem hz)
        rw [if_pos hk, List.filter_cons_of_pos (by simpa using hk), hrest]
      · have hy : ¬ key y = k := by rwa [heq]
        rw [if_neg hk, List.filter_cons_of_neg (by simpa using hk),
          List.filter_cons_of_neg (by simpa using hy)]
    · rename_i hne
      by_cases hy : key y = k
      · have hk : ¬ key x = k := by
          intro hk
          exact hne (hy.trans hk.symm)
        rw [List.filter_cons_of_pos (by simpa using hy), ih hxs.2, if_neg hk, if_neg hk,
          List.filter_cons_of_pos (by simpa using hy)]
      · rw [List.filter_cons_of_neg (by simpa using hy), ih hxs.2,
          List.filter_cons_of_neg (by simpa using hy)]

theorem lastPerKey_concat (xs : List α) (x : α) :
    lastPerKey key (xs ++ [x]) = putByKey key x (lastPerKey key xs) := by
  simp [lastPerKey]

theorem nodup_keys_lastPerKey (key : α → κ) (xs : List α) :
    ((lastPerKey key xs).map key).Nodup := by
  induction xs using List.reverseRecOn with
  | nil => exact List.nodup_nil
  | append_singleton xs x ih =>
    rw [lastPerKey_concat]
    exact nodup_keys_putByKey ih

/-- Of the items with a key the last is kept. -/
theorem filter_lastPerKey (key : α → κ) (xs : List α) (k : κ) :
    ((lastPerKey key xs).filter fun x => decide (key x = k)) =
      (xs.filter fun x => decide (key x = k)).getLast?.toList := by
  induction xs using List.reverseRecOn with
  | nil => rfl
  | append_singleton xs x ih =>
    rw [lastPerKey_concat, filter_putByKey (nodup_keys_lastPerKey key xs), List.filter_append]
    by_cases hk : key x = k
    · simp [hk]
    · simp [hk, ih]

theorem mem_lastPerKey_iff {xs : List α} {x : α} :
    x ∈ lastPerKey key xs ↔ (xs.filter fun y => decide (key y = key x)).getLast? = some x := by
  have hfilter := filter_lastPerKey key xs (key x)
  rw [← Option.mem_toList, ← hfilter, List.mem_filter]
  simp

/-- What is kept is what no later item has the key of. -/
theorem mem_lastPerKey_iff_append {xs : List α} {x : α} :
    x ∈ lastPerKey key xs ↔ ∃ before after, xs = before ++ x :: after ∧ ∀ y ∈ after, key y ≠ key x := by
  rw [mem_lastPerKey_iff, List.getLast?_eq_some_iff]
  constructor
  · rintro ⟨others, hlast⟩
    obtain ⟨before, rest, rfl, -, hrest⟩ := List.filter_eq_append_iff.mp hlast
    obtain ⟨between, after, rfl, -, -, hafter⟩ := List.filter_eq_cons_iff.mp hrest
    refine ⟨before ++ between, after, by simp, fun y hy hkey => ?_⟩
    exact List.filter_eq_nil_iff.mp hafter y hy (decide_eq_true hkey)
  · rintro ⟨before, after, rfl, hafter⟩
    refine ⟨before.filter fun y => decide (key y = key x), ?_⟩
    have hnone : (after.filter fun y => decide (key y = key x)) = [] :=
      List.filter_eq_nil_iff.mpr fun y hy hkey => hafter y hy (of_decide_eq_true hkey)
    rw [List.filter_append, List.filter_cons, if_pos (decide_eq_true rfl), hnone]

theorem mem_of_mem_lastPerKey {xs : List α} {x : α} (hx : x ∈ lastPerKey key xs) : x ∈ xs :=
  (List.mem_filter.mp (List.mem_of_getLast? (mem_lastPerKey_iff.mp hx))).1

/-- No key is lost when the items are collapsed. -/
theorem exists_mem_lastPerKey (key : α → κ) {xs : List α} {x : α} (hx : x ∈ xs) :
    ∃ y ∈ lastPerKey key xs, key y = key x := by
  have hne : (xs.filter fun y => decide (key y = key x)) ≠ [] :=
    List.ne_nil_of_mem (List.mem_filter.mpr ⟨hx, by simp⟩)
  obtain ⟨y, hy⟩ := Option.isSome_iff_exists.mp (List.getLast?_isSome.mpr hne)
  have hkey := (List.mem_filter.mp (List.mem_of_getLast? hy)).2
  rw [decide_eq_true_eq] at hkey
  refine ⟨y, ?_, hkey⟩
  rw [mem_lastPerKey_iff, hkey]
  exact hy

theorem lastPerKey_ne_nil (key : α → κ) {xs : List α} (hxs : xs ≠ []) : lastPerKey key xs ≠ [] := by
  obtain ⟨x, hx⟩ := List.exists_mem_of_ne_nil xs hxs
  obtain ⟨y, hy, -⟩ := exists_mem_lastPerKey key hx
  exact List.ne_nil_of_mem hy

theorem take_lastPerKey_ne_nil (key : α → κ) {xs : List α} (hxs : xs ≠ []) {m : Nat} (hm : 0 < m) :
    (lastPerKey key xs).take m ≠ [] := by
  rw [Ne, List.take_eq_nil_iff, not_or]
  exact ⟨by omega, lastPerKey_ne_nil key hxs⟩

theorem lastPerKey_of_nodup {xs : List α} (hxs : (xs.map key).Nodup) : lastPerKey key xs = xs := by
  induction xs using List.reverseRecOn with
  | nil => rfl
  | append_singleton xs x ih =>
    rw [List.map_append, List.nodup_append] at hxs
    rw [lastPerKey_concat, ih hxs.1]
    apply putByKey_of_not_mem
    intro hx
    exact hxs.2.2 _ hx (key x) (by simp) rfl

/-- The items that are kept are not collapsed any further. -/
theorem lastPerKey_lastPerKey (key : α → κ) (xs : List α) :
    lastPerKey key (lastPerKey key xs) = lastPerKey key xs :=
  lastPerKey_of_nodup (nodup_keys_lastPerKey key xs)

/-- Nor are the first of them. -/
theorem lastPerKey_take_lastPerKey (key : α → κ) (xs : List α) (m : Nat) :
    lastPerKey key ((lastPerKey key xs).take m) = (lastPerKey key xs).take m := by
  apply lastPerKey_of_nodup
  rw [List.map_take]
  exact (nodup_keys_lastPerKey key xs).sublist (List.take_sublist m _)

theorem lastPerKey_append (key : α → κ) (xs ys : List α) :
    lastPerKey key (xs ++ ys) = ys.foldl (fun kept x => putByKey key x kept) (lastPerKey key xs) := by
  rw [lastPerKey, List.foldl_append, ← lastPerKey]

/-- What was collapsed before the rest of a batch came is collapsed with it as if it had not been. -/
theorem lastPerKey_lastPerKey_append (key : α → κ) (xs ys : List α) :
    lastPerKey key (lastPerKey key xs ++ ys) = lastPerKey key (xs ++ ys) := by
  rw [lastPerKey_append, lastPerKey_append, lastPerKey_lastPerKey]

end LastPerKey

theorem chunks_cons (size : Nat) (x : α) (rest : List α) :
    chunks size (x :: rest) =
      (x :: rest.take (size - 1)) :: chunks size (rest.drop (size - 1)) := by
  rw [chunks]

theorem chunks_ne_nil (size : Nat) {xs : List α} (hxs : xs ≠ []) : chunks size xs ≠ [] := by
  obtain ⟨x, rest, rfl⟩ := List.exists_cons_of_ne_nil hxs
  rw [chunks_cons]
  exact List.cons_ne_nil _ _

theorem chunks_append {size : Nat} {xs : List α} (hxs : xs.length = size) (hsize : 0 < size)
    (ys : List α) : chunks size (xs ++ ys) = xs :: chunks size ys := by
  cases xs with
  | nil =>
    rw [List.length_nil] at hxs
    omega
  | cons x rest =>
    rw [List.length_cons] at hxs
    rw [List.cons_append, chunks_cons, List.take_append_of_le_length (by omega),
      List.take_of_length_le (by omega), List.drop_append_of_le_length (by omega),
      List.drop_of_length_le (by omega), List.nil_append]

/-- No item is lost or moved where a batch is cut. -/
theorem flatten_chunks (size : Nat) (xs : List α) : (chunks size xs).flatten = xs := by
  induction h : xs.length using Nat.strongRecOn generalizing xs with
  | ind n ih =>
    cases xs with
    | nil => simp [chunks]
    | cons x rest =>
      have hshort : (rest.drop (size - 1)).length < n := by
        rw [← h, List.length_drop, List.length_cons]
        omega
      rw [chunks_cons, List.flatten_cons, ih _ hshort _ rfl, List.cons_append, List.take_append_drop]

theorem chunks_map {β : Type} (f : α → β) (size : Nat) (xs : List α) :
    chunks size (xs.map f) = (chunks size xs).map (List.map f) := by
  induction h : xs.length using Nat.strongRecOn generalizing xs with
  | ind n ih =>
    cases xs with
    | nil => simp [chunks]
    | cons x rest =>
      have hshort : (rest.drop (size - 1)).length < n := by
        rw [← h, List.length_drop, List.length_cons]
        omega
      rw [List.map_cons, chunks_cons, chunks_cons, List.map_cons, List.map_cons, List.map_take,
        ← List.map_drop, ih _ hshort _ rfl]

theorem sublist_of_mem_chunks {size : Nat} {xs piece : List α} (h : piece ∈ chunks size xs) :
    piece.Sublist xs := by
  have hsublist := List.sublist_flatten_of_mem h
  rwa [flatten_chunks] at hsublist

/-- Two batches that agree in one view are cut into pieces that agree in it. -/
theorem exists_mem_chunks {β γ : Type} {f : α → γ} {g : β → γ} {size : Nat} {xs piece : List α}
    {ys : List β} (h : xs.map f = ys.map g) (hpiece : piece ∈ chunks size xs) :
    ∃ piece' ∈ chunks size ys, piece.map f = piece'.map g := by
  have hmem : piece.map f ∈ (chunks size ys).map (List.map g) := by
    rw [← chunks_map, ← h, chunks_map]
    exact List.mem_map_of_mem hpiece
  obtain ⟨piece', hpiece', heq⟩ := List.mem_map.mp hmem
  exact ⟨piece', hpiece', heq.symm⟩

/-- The first pieces are those of the beginning of the batch. -/
theorem take_chunks {size : Nat} (hsize : 0 < size) (k : Nat) (xs : List α) :
    (chunks size xs).take k = chunks size (xs.take (size * k)) := by
  induction k generalizing xs with
  | zero => simp [chunks]
  | succ k ih =>
    cases xs with
    | nil => simp [chunks]
    | cons x rest =>
      have hlength : size * (k + 1) = size - 1 + size * k + 1 := by
        rw [Nat.mul_succ]
        omega
      rw [chunks_cons, List.take_succ_cons, ih, hlength, List.take_succ_cons, chunks_cons,
        List.take_take, List.drop_take, Nat.min_eq_left (by omega), Nat.add_sub_cancel_left]

theorem mul_lt_of_lt_length_chunks {size k : Nat} (hsize : 0 < size) {xs : List α}
    (hk : k < (chunks size xs).length) : size * k < xs.length := by
  induction k generalizing xs with
  | zero =>
    cases xs with
    | nil => simp [chunks] at hk
    | cons x rest => simp
  | succ k ih =>
    cases xs with
    | nil => simp [chunks] at hk
    | cons x rest =>
      rw [chunks_cons, List.length_cons] at hk
      have hrest := ih (Nat.lt_of_succ_lt_succ hk)
      rw [List.length_drop] at hrest
      rw [List.length_cons, Nat.mul_succ]
      omega

section Newest

variable {le : α → α → Bool}

/-- The last of the items that none comes after. -/
def newest (le : α → α → Bool) (xs : List α) : Option α :=
  (xs.filter fun x => xs.all fun y => le y x).getLast?

theorem mem_of_newest {xs : List α} {x : α} (h : newest le xs = some x) : x ∈ xs :=
  (List.mem_filter.mp (List.mem_of_getLast? h)).1

theorem le_of_newest {xs : List α} {x : α} (h : newest le xs = some x) :
    ∀ y ∈ xs, le y x = true := by
  have hx := List.mem_filter.mp (List.mem_of_getLast? h)
  exact List.all_eq_true.mp hx.2

/-- Among some items there is one that none comes after. -/
theorem exists_newest (htrans : ∀ x y z, le x y = true → le y z = true → le x z = true)
    (htotal : ∀ x y, le x y = true ∨ le y x = true) {xs : List α} (hxs : xs ≠ []) :
    ∃ x, newest le xs = some x := by
  have hmax : ∃ x ∈ xs, ∀ y ∈ xs, le y x = true := by
    induction xs with
    | nil => exact absurd rfl hxs
    | cons x rest ih =>
      have hrefl : le x x = true := (htotal x x).elim id id
      by_cases hrest : rest = []
      · exact ⟨x, by simp, by simpa [hrest] using hrefl⟩
      · obtain ⟨z, hz, hle⟩ := ih hrest
        rcases htotal x z with hxz | hzx
        · refine ⟨z, List.mem_cons_of_mem x hz, ?_⟩
          intro y hy
          rcases List.mem_cons.mp hy with rfl | hy
          · exact hxz
          · exact hle y hy
        · refine ⟨x, by simp, ?_⟩
          intro y hy
          rcases List.mem_cons.mp hy with rfl | hy
          · exact hrefl
          · exact htrans y z x (hle y hy) hzx
  obtain ⟨x, hx, hle⟩ := hmax
  have hmem : x ∈ xs.filter fun x => xs.all fun y => le y x :=
    List.mem_filter.mpr ⟨hx, List.all_eq_true.mpr hle⟩
  exact Option.isSome_iff_exists.mp (List.getLast?_isSome.mpr (List.ne_nil_of_mem hmem))

/-- The newest item comes before none of the items ahead of it, and after all that follow. -/
theorem newest_eq_some_iff (htrans : ∀ x y z, le x y = true → le y z = true → le x z = true)
    (htotal : ∀ x y, le x y = true ∨ le y x = true) {xs : List α} {x : α} :
    newest le xs = some x ↔ ∃ before after, xs = before ++ x :: after ∧
      (∀ y ∈ before, le y x = true) ∧ ∀ y ∈ after, ¬ le x y = true := by
  rw [newest, List.getLast?_eq_some_iff]
  constructor
  · rintro ⟨others, hlast⟩
    obtain ⟨before, rest, rfl, -, hrest⟩ := List.filter_eq_append_iff.mp hlast
    obtain ⟨between, after, rfl, -, hx, hafter⟩ := List.filter_eq_cons_iff.mp hrest
    rw [List.all_eq_true] at hx
    refine ⟨before ++ between, after, by simp, fun y hy => hx y ?_, fun y hy hle => ?_⟩
    · rcases List.mem_append.mp hy with hy | hy <;> simp [hy]
    · refine List.filter_eq_nil_iff.mp hafter y hy (List.all_eq_true.mpr fun z hz => ?_)
      exact htrans z x y (hx z hz) hle
  · rintro ⟨before, after, rfl, hbefore, hafter⟩
    have hx : ((before ++ x :: after).all fun y => le y x) = true := by
      rw [List.all_eq_true]
      intro y hy
      rcases List.mem_append.mp hy with hy | hy
      · exact hbefore y hy
      · rcases List.mem_cons.mp hy with rfl | hy
        · exact (htotal y y).elim id id
        · exact (htotal y x).resolve_right (hafter y hy)
    have hnone : (after.filter fun z => (before ++ x :: after).all fun y => le y z) = [] :=
      List.filter_eq_nil_iff.mpr fun z hz hall =>
        hafter z hz (List.all_eq_true.mp hall x (by simp))
    refine ⟨before.filter fun z => (before ++ x :: after).all fun y => le y z, ?_⟩
    rw [List.filter_append, List.filter_cons, if_pos hx, hnone]

/-- An item that no other comes after is the newest when it comes last. -/
theorem newest_concat_of_all {xs : List α} {x : α} (hrefl : le x x = true)
    (hall : ∀ y ∈ xs, le y x = true) : newest le (xs ++ [x]) = some x := by
  have hlast : ((xs ++ [x]).all fun z => le z x) = true := by
    rw [List.all_append, Bool.and_eq_true, List.all_eq_true]
    exact ⟨hall, by simpa using hrefl⟩
  have hkept : ([x].filter fun z => (xs ++ [x]).all fun w => le w z) = [x] :=
    List.filter_eq_self.mpr fun z hz => by rwa [List.mem_singleton.mp hz]
  rw [newest, List.filter_append, hkept, List.getLast?_concat]

/-- An item that comes before the newest one is passed over. -/
theorem newest_concat_of_not_le (htrans : ∀ x y z, le x y = true → le y z = true → le x z = true)
    {xs : List α} {x y : α} (hnewest : newest le xs = some y) (hxy : le x y = true)
    (hyx : ¬ le y x = true) : newest le (xs ++ [x]) = some y := by
  have hy := mem_of_newest hnewest
  have hout : ¬ ((xs ++ [x]).all fun z => le z x) = true := by
    intro hall
    exact hyx (List.all_eq_true.mp hall y (List.mem_append_left [x] hy))
  have hsame : (xs.filter fun z => (xs ++ [x]).all fun w => le w z) =
      xs.filter fun z => xs.all fun w => le w z := by
    apply List.filter_congr
    intro z _
    rw [List.all_append, List.all_cons, List.all_nil, Bool.and_true]
    cases hz : (xs.all fun w => le w z) with
    | false => rfl
    | true => rw [htrans x y z hxy (List.all_eq_true.mp hz y hy), Bool.and_true]
  have hdropped : ([x].filter fun z => (xs ++ [x]).all fun w => le w z) = [] :=
    List.filter_eq_nil_iff.mpr fun z hz => by rwa [List.mem_singleton.mp hz]
  rw [newest, List.filter_append, hdropped, List.append_nil, hsame]
  exact hnewest

/-- One more item is the newest unless it comes before the one that was. -/
theorem newest_concat (htrans : ∀ x y z, le x y = true → le y z = true → le x z = true)
    (htotal : ∀ x y, le x y = true ∨ le y x = true) (xs : List α) (x : α) :
    newest le (xs ++ [x]) =
      match newest le xs with
      | none => some x
      | some y => if le y x then some x else some y := by
  have hrefl : le x x = true := (htotal x x).elim id id
  cases hnewest : newest le xs with
  | none =>
    have hxs : xs = [] := by
      apply Classical.byContradiction
      intro hne
      obtain ⟨y, hy⟩ := exists_newest htrans htotal hne
      rw [hnewest] at hy
      cases hy
    rw [hxs]
    exact newest_concat_of_all hrefl (by simp)
  | some y =>
    dsimp only
    split
    · rename_i hyx
      exact newest_concat_of_all hrefl fun z hz => htrans z y x (le_of_newest hnewest z hz) hyx
    · rename_i hyx
      exact newest_concat_of_not_le htrans hnewest ((htotal y x).resolve_left hyx) hyx

end Newest

end PriceArchive
