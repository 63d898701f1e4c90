import PriceArchive.Proofs.Table.Batch
import Mathlib.Data.List.Dedup

namespace PriceArchive

variable {α β κ : Type} [DecidableEq κ] {key : α → κ}

/-- The first item of every key that is not among those that were seen, in order. -/
def firstPerKey (key : α → κ) : List κ → List α → List α
  | _, [] => []
  | seen, x :: xs =>
    if key x ∈ seen then firstPerKey key seen xs else x :: firstPerKey key (key x :: seen) xs

theorem firstPerKey_congr {seen seen' : List κ} (h : ∀ k, k ∈ seen ↔ k ∈ seen') (xs : List α) :
    firstPerKey key seen xs = firstPerKey key seen' xs := by
  induction xs generalizing seen seen' with
  | nil => rfl
  | cons x xs ih =>
    simp only [firstPerKey, h]
    split
    · exact ih h
    · have hcons : ∀ k, k ∈ key x :: seen ↔ k ∈ key x :: seen' := by simp [h]
      rw [ih hcons]

theorem firstPerKey_map (key : β → κ) (f : α → β) (seen : List κ) (xs : List α) :
    (firstPerKey (fun x => key (f x)) seen xs).map f = firstPerKey key seen (xs.map f) := by
  induction xs generalizing seen with
  | nil => rfl
  | cons x xs ih =>
    simp only [firstPerKey, List.map_cons]
    split
    · exact ih seen
    · rw [List.map_cons, ih]

/-- The keys of the items that are kept are decided by the keys of all. -/
theorem keys_firstPerKey (key : α → κ) (seen : List κ) (xs : List α) :
    (firstPerKey key seen xs).map key = firstPerKey id seen (xs.map key) :=
  firstPerKey_map id key seen xs

theorem firstPerKey_concat (seen : List κ) (xs : List α) (x : α) :
    firstPerKey key seen (xs ++ [x]) =
      firstPerKey key seen xs ++ if key x ∈ seen ∨ key x ∈ xs.map key then [] else [x] := by
  induction xs generalizing seen with
  | nil =>
    by_cases hx : key x ∈ seen <;> simp [firstPerKey, hx]
  | cons y ys ih =>
    simp only [List.cons_append, firstPerKey, ih, List.map_cons, List.mem_cons]
    by_cases hy : key y ∈ seen
    · have hsame : (key x ∈ seen ∨ key x = key y ∨ key x ∈ ys.map key) ↔
          key x ∈ seen ∨ key x ∈ ys.map key := by
        constructor
        · rintro (hx | hx | hx)
          · exact .inl hx
          · exact .inl (hx ▸ hy)
          · exact .inr hx
        · exact fun hx => hx.imp id .inr
      simp only [if_pos hy, hsame]
    · have hsame : ((key x = key y ∨ key x ∈ seen) ∨ key x ∈ ys.map key) ↔
          key x ∈ seen ∨ key x = key y ∨ key x ∈ ys.map key := by
        rw [or_comm (a := key x = key y), or_assoc]
      simp only [if_neg hy, hsame, List.cons_append]

theorem exists_mem_firstPerKey {seen : List κ} {xs : List α} {x : α} (hx : x ∈ xs)
    (hseen : key x ∉ seen) : ∃ y ∈ firstPerKey key seen xs, key y = key x := by
  induction xs generalizing seen with
  | nil => cases hx
  | cons z xs ih =>
    rw [firstPerKey]
    by_cases hz : key z ∈ seen
    · rw [if_pos hz]
      rcases List.mem_cons.mp hx with rfl | hx
      · exact absurd hz hseen
      · exact ih hx hseen
    · rw [if_neg hz]
      by_cases heq : key z = key x
      · exact ⟨z, by simp, heq⟩
      · have hx : x ∈ xs := by
          rcases List.mem_cons.mp hx with rfl | hx
          · exact absurd rfl heq
          · exact hx
        have hnew : key x ∉ key z :: seen := by simp [hseen, Ne.symm heq]
        obtain ⟨y, hy, hkey⟩ := ih hx hnew
        exact ⟨y, List.mem_cons_of_mem z hy, hkey⟩

theorem mem_keys_lastPerKey {xs : List α} {k : κ} :
    k ∈ (lastPerKey key xs).map key ↔ k ∈ xs.map key := by
  constructor
  · intro hk
    obtain ⟨y, hy, rfl⟩ := List.mem_map.mp hk
    exact List.mem_map_of_mem (mem_of_mem_lastPerKey hy)
  · intro hk
    obtain ⟨y, hy, rfl⟩ := List.mem_map.mp hk
    obtain ⟨z, hz, hzy⟩ := exists_mem_lastPerKey key hy
    exact hzy ▸ List.mem_map_of_mem hz

/-- As many items are kept as there are keys. -/
theorem length_lastPerKey (key : α → κ) (xs : List α) :
    (lastPerKey key xs).length = (xs.map key).dedup.length := by
  have hperm : ((lastPerKey key xs).map key).Perm (xs.map key).dedup := by
    rw [List.perm_ext_iff_of_nodup (nodup_keys_lastPerKey key xs) (List.nodup_dedup _)]
    intro k
    rw [List.mem_dedup, mem_keys_lastPerKey]
  simpa using hperm.length_eq

theorem keys_lastPerKey_concat (key : α → κ) (xs : List α) (x : α) :
    (lastPerKey key (xs ++ [x])).map key =
      (lastPerKey key xs).map key ++ if key x ∈ xs.map key then [] else [key x] := by
  rw [lastPerKey_concat]
  by_cases hx : key x ∈ xs.map key
  · rw [keys_putByKey_of_mem (mem_keys_lastPerKey.mpr hx), if_pos hx, List.append_nil]
  · rw [putByKey_of_not_mem (mt mem_keys_lastPerKey.mp hx), if_neg hx, List.map_append,
      List.map_singleton]

/-- Both ways to collapse a batch keep its keys in one order. -/
theorem keys_lastPerKey (key : α → κ) (xs : List α) :
    (lastPerKey key xs).map key = firstPerKey id [] (xs.map key) := by
  induction xs using List.reverseRecOn with
  | nil => rfl
  | append_singleton xs x ih =>
    rw [keys_lastPerKey_concat, ih, List.map_append, List.map_singleton, firstPerKey_concat]
    simp

/-- The keys of the items that are kept stand in the order in which they first occur. -/
theorem pairwise_keys_lastPerKey (key : α → κ) (xs : List α) :
    ((lastPerKey key xs).map key).Pairwise fun k k' =>
      (xs.map key).idxOf k < (xs.map key).idxOf k' := by
  induction xs using List.reverseRecOn with
  | nil => exact List.Pairwise.nil
  | append_singleton xs x ih =>
    rw [keys_lastPerKey_concat, List.map_append, List.map_singleton, List.pairwise_append]
    refine ⟨ih.imp_of_mem fun {k k'} hk hk' hlt => ?_, by split <;> simp, fun k hk k' hk' => ?_⟩
    · -- Keys that were met before first occur where they did.
      rw [mem_keys_lastPerKey] at hk hk'
      rwa [List.idxOf_append_of_mem hk, List.idxOf_append_of_mem hk']
    · rw [mem_keys_lastPerKey] at hk
      by_cases hx : key x ∈ xs.map key
      · rw [if_pos hx] at hk'
        cases hk'
      · rw [if_neg hx, List.mem_singleton] at hk'
        rw [hk', List.idxOf_append_of_mem hk, List.idxOf_append_of_notMem hx]
        exact Nat.lt_add_right _ (List.idxOf_lt_length_iff.mpr hk)

/-- Collapsing keys a second time changes nothing. -/
theorem firstPerKey_firstPerKey {seen seen' : List κ} (h : ∀ k ∈ seen', k ∈ seen) (ks : List κ) :
    firstPerKey id seen (firstPerKey id seen' ks) = firstPerKey id seen ks := by
  induction ks generalizing seen seen' with
  | nil => rfl
  | cons k ks ih =>
    simp only [firstPerKey, id]
    by_cases hk' : k ∈ seen'
    · rw [if_pos hk', if_pos (h k hk')]
      exact ih h
    · rw [if_neg hk']
      simp only [firstPerKey, id]
      by_cases hk : k ∈ seen
      · rw [if_pos hk, if_pos hk]
        apply ih
        intro k' hmem
        rcases List.mem_cons.mp hmem with rfl | hmem
        · exact hk
        · exact h k' hmem
      · rw [if_neg hk, if_neg hk, ih]
        intro k' hmem
        rcases List.mem_cons.mp hmem with rfl | hmem
        · exact List.mem_cons_self
        · exact List.mem_cons_of_mem _ (h k' hmem)

/-- An item that is kept is the first of its key, which had not been seen. -/
theorem find?_of_mem_firstPerKey {seen : List κ} {xs : List α} {x : α}
    (hx : x ∈ firstPerKey key seen xs) :
    (xs.find? fun y => decide (key y = key x)) = some x ∧ key x ∉ seen := by
  induction xs generalizing seen with
  | nil => cases hx
  | cons y ys ih =>
    rw [firstPerKey] at hx
    split at hx
    · rename_i hy
      obtain ⟨hfind, hseen⟩ := ih hx
      have hne : key y ≠ key x := fun heq => hseen (heq ▸ hy)
      rw [List.find?_cons_of_neg (by simpa using hne)]
      exact ⟨hfind, hseen⟩
    · rename_i hy
      rcases List.mem_cons.mp hx with rfl | hx
      · exact ⟨List.find?_cons_of_pos (by simp), hy⟩
      · obtain ⟨hfind, hseen⟩ := ih hx
        rw [List.mem_cons, not_or] at hseen
        rw [List.find?_cons_of_neg (by simpa using Ne.symm hseen.1)]
        exact ⟨hfind, hseen.2⟩

section Under

variable {γ : Type}

/-- What the first item of a key shows. -/
def firstUnder (key : α → κ) (f : α → γ) (xs : List α) (k : κ) : Option γ :=
  (xs.find? fun x => decide (key x = k)).map f

/-- What the last item of a key shows. -/
def lastUnder (key : α → κ) (f : α → γ) (xs : List α) (k : κ) : Option γ :=
  (xs.filter fun x => decide (key x = k)).getLast?.map f

theorem lastUnder_of_map_eq {key' : β → κ} {f : α → γ} {g : β → γ} {xs : List α} {ys : List β}
    (h : xs.map (fun x => (key x, f x)) = ys.map fun y => (key' y, g y)) (k : κ) :
    lastUnder key f xs k = lastUnder key' g ys k := by
  have hlast := congrArg (Option.map Prod.snd)
    (getLast?_filter_of_map_eq h fun c => decide (c.1 = k))
  rw [Option.map_map, Option.map_map] at hlast
  exact hlast

theorem firstUnder_of_map_eq {key' : β → κ} {f : α → γ} {g : β → γ} {xs : List α} {ys : List β}
    (h : xs.map (fun x => (key x, f x)) = ys.map fun y => (key' y, g y)) (k : κ) :
    firstUnder key f xs k = firstUnder key' g ys k := by
  have hxs : (xs.map fun x => (key x, f x)).find? (fun c => decide (c.1 = k)) =
      (xs.find? fun x => decide (key x = k)).map fun x => (key x, f x) := List.find?_map ..
  have hys : (ys.map fun y => (key' y, g y)).find? (fun c => decide (c.1 = k)) =
      (ys.find? fun y => decide (key' y = k)).map fun y => (key' y, g y) := List.find?_map ..
  have hfirst := congrArg (Option.map Prod.snd) (hxs.symm.trans ((congrArg _ h).trans hys))
  rw [Option.map_map, Option.map_map] at hfirst
  exact hfirst

theorem lastUnder_eq_none_iff {f : α → γ} {xs : List α} {k : κ} :
    lastUnder key f xs k = none ↔ k ∉ xs.map key := by
  rw [lastUnder, Option.map_eq_none_iff, List.getLast?_eq_none_iff, List.filter_eq_nil_iff]
  simp

theorem firstUnder_eq_none_iff {f : α → γ} {xs : List α} {k : κ} :
    firstUnder key f xs k = none ↔ k ∉ xs.map key := by
  rw [firstUnder, Option.map_eq_none_iff, List.find?_eq_none]
  simp

/-- A condition that lets all items of a key through does not matter for them. -/
theorem filter_filter_key {p : α → Bool} {xs : List α} {k : κ}
    (hp : ∀ x ∈ xs, key x = k → p x = true) :
    ((xs.filter p).filter fun x => decide (key x = k)) = xs.filter fun x => decide (key x = k) := by
  rw [List.filter_filter]
  apply List.filter_congr
  intro x hx
  by_cases hk : key x = k
  · simp [hk, hp x hx hk]
  · simp [hk]

theorem firstUnder_filter {f : α → γ} {p : α → Bool} {xs : List α} {k : κ}
    (hp : ∀ x ∈ xs, key x = k → p x = true) :
    firstUnder key f (xs.filter p) k = firstUnder key f xs k := by
  rw [firstUnder, ← List.head?_filter, filter_filter_key hp, List.head?_filter, firstUnder]

theorem lastUnder_filter {f : α → γ} {p : α → Bool} {xs : List α} {k : κ}
    (hp : ∀ x ∈ xs, key x = k → p x = true) :
    lastUnder key f (xs.filter p) k = lastUnder key f xs k := by
  rw [lastUnder, filter_filter_key hp, lastUnder]

/-- An item that is kept shows what the first item of its key shows. -/
theorem firstUnder_of_mem_firstPerKey {f : α → γ} {seen : List κ} {xs : List α} {x : α}
    (hx : x ∈ firstPerKey key seen xs) : firstUnder key f xs (key x) = some (f x) := by
  rw [firstUnder, (find?_of_mem_firstPerKey hx).1, Option.map_some]

/-- Collapsing a batch leaves what the last items show. -/
theorem lastUnder_lastPerKey {f : α → γ} (xs : List α) (k : κ) :
    lastUnder key f (lastPerKey key xs) k = lastUnder key f xs k := by
  rw [lastUnder, filter_lastPerKey, lastUnder]
  cases (xs.filter fun x => decide (key x = k)).getLast? with
  | none => rfl
  | some last => rfl

/-- Where no key occurs twice, an item is the last of its key. -/
theorem lastUnder_of_nodup {f : α → γ} {xs : List α} (hxs : (xs.map key).Nodup) {x : α}
    (hx : x ∈ xs) : lastUnder key f xs (key x) = some (f x) := by
  have hmem : x ∈ lastPerKey key xs := by rwa [lastPerKey_of_nodup hxs]
  rw [lastUnder, mem_lastPerKey_iff.mp hmem, Option.map_some]

end Under

section PutByKey

variable {x : α} {ys : List α}

theorem putByKey_congr {κ' : Type} [DecidableEq κ'] {key' : α → κ'}
    (h : ∀ y ∈ ys, key y = key x ↔ key' y = key' x) : putByKey key x ys = putByKey key' x ys := by
  induction ys with
  | nil => rfl
  | cons y ys ih =>
    simp only [putByKey, h y (by simp)]
    rw [ih fun z hz => h z (List.mem_cons_of_mem y hz)]

theorem putByKey_map (key : β → κ) (f : α → β) (x : α) (ys : List α) :
    (putByKey (fun x => key (f x)) x ys).map f = putByKey key (f x) (ys.map f) := by
  induction ys with
  | nil => rfl
  | cons y ys ih =>
    simp only [putByKey, List.map_cons]
    split
    · rfl
    · rw [List.map_cons, ih]

/-- Items that a condition on keys leaves out do not matter for where an item is put. -/
theorem filter_putByKey_of_key {p : α → Bool} (hp : ∀ y ∈ ys, key y = key x → p y = p x) :
    (putByKey key x ys).filter p =
      if p x then putByKey key x (ys.filter p) else ys.filter p := by
  induction ys with
  | nil => cases hpx : p x <;> simp [putByKey, hpx]
  | cons y ys ih =>
    have hrest := ih fun z hz => hp z (List.mem_cons_of_mem y hz)
    by_cases hkey : key y = key x
    · have hpy := hp y (by simp) hkey
      cases hpx : p x <;> simp [putByKey, hkey, hpy, hpx]
    · cases hpy : p y <;> cases hpx : p x <;> simp [putByKey, hkey, hpy, hpx] at hrest ⊢ <;>
        exact hrest

end PutByKey

/-- What is kept depends on the keys only as far as they tell the items apart. -/
theorem lastPerKey_congr {κ' : Type} [DecidableEq κ'] (key' : α → κ') {xs : List α}
    (h : ∀ x ∈ xs, ∀ y ∈ xs, key x = key y ↔ key' x = key' y) :
    lastPerKey key xs = lastPerKey key' xs := by
  induction xs using List.reverseRecOn with
  | nil => rfl
  | append_singleton xs x ih =>
    rw [lastPerKey_concat, lastPerKey_concat,
      ih fun y hy z hz => h y (List.mem_append_left _ hy) z (List.mem_append_left _ hz)]
    exact putByKey_congr fun y hy =>
      h y (List.mem_append_left _ (mem_of_mem_lastPerKey hy)) x (by simp)

theorem lastPerKey_map (key : β → κ) (f : α → β) (xs : List α) :
    (lastPerKey (fun x => key (f x)) xs).map f = lastPerKey key (xs.map f) := by
  induction xs using List.reverseRecOn with
  | nil => rfl
  | append_singleton xs x ih =>
    rw [lastPerKey_concat, List.map_append, List.map_singleton, lastPerKey_concat, putByKey_map, ih]

/-- Where the columns of some rows are those of the items of a batch, and the columns tell the items
apart as their keys do, collapsing the rows is collapsing the items. -/
theorem map_lastPerKey_of_map_eq {ρ ω κ' κ'' : Type} [DecidableEq κ'] [DecidableEq κ'']
    {rowKey : ρ → κ'} {k : ω → κ''} {item : α → ω} {row : ρ → ω} {batch : List α} {rows : List ρ}
    (hitem : ∀ x ∈ batch, ∀ y ∈ batch, key x = key y ↔ k (item x) = k (item y))
    (hrow : ∀ r r', rowKey r = rowKey r' ↔ k (row r) = k (row r'))
    (hrows : rows.map row = batch.map item) :
    (lastPerKey rowKey rows).map row = (lastPerKey key batch).map item := by
  rw [lastPerKey_congr (fun x => k (item x)) hitem, lastPerKey_map k item, ← hrows,
    ← lastPerKey_map k row,
    lastPerKey_congr (fun r => k (row r)) fun r _ r' _ => hrow r r']

/-- A condition on keys picks out the same before and after a batch is collapsed. -/
theorem filter_lastPerKey_of_key {p : α → Bool} {xs : List α}
    (hp : ∀ x ∈ xs, ∀ y ∈ xs, key x = key y → p x = p y) :
    (lastPerKey key xs).filter p = lastPerKey key (xs.filter p) := by
  induction xs using List.reverseRecOn with
  | nil => rfl
  | append_singleton xs x ih =>
    have hxs : ∀ y ∈ xs, ∀ z ∈ xs, key y = key z → p y = p z := fun y hy z hz =>
      hp y (List.mem_append_left _ hy) z (List.mem_append_left _ hz)
    have hlast : ∀ y ∈ lastPerKey key xs, key y = key x → p y = p x := fun y hy =>
      hp y (List.mem_append_left _ (mem_of_mem_lastPerKey hy)) x (by simp)
    rw [lastPerKey_concat, filter_putByKey_of_key hlast, ih hxs, List.filter_append]
    cases hpx : p x with
    | true => simp [hpx, lastPerKey_concat]
    | false => simp [hpx]

end PriceArchive
