import PriceArchive.Proofs.Table.FirstPerKey

namespace PriceArchive

theorem getElem?_concat_eq_some_iff {β : Type} {ks : List β} {k last : β} {i : Nat} :
    (ks ++ [last])[i]? = some k ↔ ks[i]? = some k ∨ i = ks.length ∧ last = k := by
  rcases Nat.lt_trichotomy i ks.length with hlt | rfl | hgt
  · simp [List.getElem?_append_left hlt, Nat.ne_of_lt hlt]
  · simp
  · have hall : (ks ++ [last]).length ≤ i := by rwa [List.length_append, List.length_singleton]
    simp [List.getElem?_eq_none hall, List.getElem?_eq_none (Nat.le_of_lt hgt), Nat.ne_of_gt hgt]

variable {α κ : Type} [DecidableEq κ] {key : α → κ} {x : α} {xs : List α}

/-- The items that are kept, and for every key that was met the slot of its item. -/
structure Slots (α κ : Type) [BEq κ] [Hashable κ] where
  slotOf : Std.HashMap κ Nat
  kept : Array α

/-- Where one slot alone has the key of an item, this is where the item is put. -/
theorem putByKey_eq_set {slot : Nat} (hslot : (xs.map key)[slot]? = some (key x))
    (honly : ∀ i, (xs.map key)[i]? = some (key x) → i = slot) :
    putByKey key x xs = xs.set slot x := by
  induction xs generalizing slot with
  | nil => cases hslot
  | cons y ys ih =>
    rw [putByKey]
    cases slot with
    | zero =>
      have hy : key y = key x := by simpa using hslot
      rw [if_pos hy, List.set_cons_zero]
    | succ slot =>
      have hy : key y ≠ key x := by
        intro hy
        have hzero := honly 0 (by simp [hy])
        cases hzero
      have honly' : ∀ i, (ys.map key)[i]? = some (key x) → i = slot := by
        intro i hi
        have hsucc := honly (i + 1) (by simpa using hi)
        omega
      rw [if_neg hy, List.set_cons_succ, ih (by simpa using hslot) honly']

namespace Slots

variable [Hashable κ] {s : Slots α κ}

def empty : Slots α κ := ⟨∅, #[]⟩

/-- Puts an item into a slot in place of the one that is kept there. There is no answer where none
is kept. -/
def overwrite? (s : Slots α κ) (slot : Nat) (x : α) : Option (Slots α κ) :=
  if h : slot < s.kept.size then some { s with kept := s.kept.set slot x h } else none

/-- Puts an item into the slot of its key, or into a new one behind all others. -/
def keep? (key : α → κ) (s : Slots α κ) (x : α) : Option (Slots α κ) :=
  match s.slotOf[key x]? with
  | some slot => s.overwrite? slot x
  | none => some ⟨s.slotOf.insert (key x) s.kept.size, s.kept.push x⟩

/-- Keeps the items of a batch one after the other, as long as every write hits a slot. -/
def keepAll? (key : α → κ) (s : Slots α κ) (xs : List α) : Option (Slots α κ) :=
  xs.foldlM (keep? key) s

/-- The map has a slot for a key exactly if the item in this slot has the key. -/
def InStep (key : α → κ) (s : Slots α κ) : Prop :=
  ∀ (k : κ) (slot : Nat), s.slotOf[k]? = some slot ↔ (s.kept.toList.map key)[slot]? = some k

theorem inStep_empty (key : α → κ) : (empty : Slots α κ).InStep key := by
  intro k slot
  simp [empty]

theorem InStep.lt_size (h : s.InStep key) {k : κ} {slot : Nat} (hslot : s.slotOf[k]? = some slot) :
    slot < s.kept.size := by
  obtain ⟨hlt, -⟩ := List.getElem?_eq_some_iff.mp ((h k slot).mp hslot)
  rwa [List.length_map, Array.length_toList] at hlt

theorem InStep.not_mem_keys (h : s.InStep key) {k : κ} (hnone : s.slotOf[k]? = none) :
    k ∉ s.kept.toList.map key := by
  intro hk
  obtain ⟨slot, hslot⟩ := List.getElem?_of_mem hk
  rw [← h k slot, hnone] at hslot
  cases hslot

/-- The slot of a key can be overwritten, and the item is then put in the place of the one with its
key. -/
theorem InStep.overwrite (h : s.InStep key) {slot : Nat} (hslot : s.slotOf[key x]? = some slot) :
    ∃ t, s.overwrite? slot x = some t ∧ t.InStep key ∧
      t.kept.toList = putByKey key x s.kept.toList := by
  have hlt := h.lt_size hslot
  have hkey := (h (key x) slot).mp hslot
  have honly : ∀ i, (s.kept.toList.map key)[i]? = some (key x) → i = slot := by
    intro i hi
    rw [← h (key x) i, hslot] at hi
    exact (Option.some.inj hi).symm
  have hput := putByKey_eq_set hkey honly
  refine ⟨_, dif_pos hlt, ?_, by rw [Array.toList_set, hput]⟩
  -- The new item has the key of the one that it takes the place of.
  intro k i
  rw [Array.toList_set, ← hput, keys_putByKey_of_mem (List.mem_of_getElem? hkey)]
  exact h k i

/-- A key that has no slot gets the one behind all others. -/
theorem InStep.push (h : s.InStep key) (hnone : s.slotOf[key x]? = none) :
    InStep key ⟨s.slotOf.insert (key x) s.kept.size, s.kept.push x⟩ := by
  intro k slot
  rw [Std.HashMap.getElem?_insert, Array.toList_push, List.map_append, List.map_singleton,
    getElem?_concat_eq_some_iff, ← h k slot, List.length_map, Array.length_toList]
  by_cases hk : key x = k
  · simp [← hk, hnone, eq_comm]
  · simp [hk]

/-- What one more item does: no write goes astray, the map stays in step with the items, and the item
is put in the place of the one with its key or at the end. -/
theorem InStep.keep (h : s.InStep key) (x : α) :
    ∃ t, s.keep? key x = some t ∧ t.InStep key ∧ t.kept.toList = putByKey key x s.kept.toList := by
  rw [keep?]
  cases hslot : s.slotOf[key x]? with
  | some slot => exact h.overwrite hslot
  | none =>
    refine ⟨_, rfl, h.push hslot, ?_⟩
    rw [Array.toList_push, putByKey_of_not_mem (h.not_mem_keys hslot)]

/-- What a whole batch does, from any state in step. -/
theorem InStep.keepAll (h : s.InStep key) (xs : List α) :
    ∃ t, s.keepAll? key xs = some t ∧ t.InStep key ∧
      t.kept.toList = xs.foldl (fun kept x => putByKey key x kept) s.kept.toList := by
  induction xs generalizing s with
  | nil => exact ⟨s, rfl, h, rfl⟩
  | cons x xs ih =>
    obtain ⟨t, hkeep, ht, hitems⟩ := h.keep x
    obtain ⟨u, hrest, hu, hall⟩ := ih ht
    refine ⟨u, ?_, hu, ?_⟩
    · rw [keepAll?, List.foldlM_cons, hkeep]
      exact hrest
    · rw [hall, hitems, List.foldl_cons]

end Slots

/-- The pass with slots goes through every batch, so that none of its writes is out of bounds, and
keeps what `lastPerKey` keeps. This is of every key that occurs exactly one item, the last one; the
keys stand in the order in which they first occur; and items that were collapsed before others come
behind them are collapsed with these as if they had not been. -/
theorem collapsing_keeps_last_per_key [Hashable κ] (key : α → κ) (xs ys : List α) :
    (∃ s : Slots α κ, Slots.empty.keepAll? key xs = some s ∧ s.kept.toList = lastPerKey key xs) ∧
      (∀ k, ((lastPerKey key xs).filter fun x => decide (key x = k)) =
        (xs.filter fun x => decide (key x = k)).getLast?.toList) ∧
      ((lastPerKey key xs).map key).Pairwise
        (fun k k' => (xs.map key).idxOf k < (xs.map key).idxOf k') ∧
      lastPerKey key (xs ++ ys) = lastPerKey key (lastPerKey key xs ++ ys) := by
  refine ⟨?_, filter_lastPerKey key xs, pairwise_keys_lastPerKey key xs,
    (lastPerKey_lastPerKey_append key xs ys).symm⟩
  obtain ⟨s, hkept, -, hitems⟩ := (Slots.inStep_empty key).keepAll xs
  exact ⟨s, hkept, hitems⟩

example : lastPerKey Prod.fst [(1, 10), (2, 20), (1, 30), (3, 40), (2, 50)] =
    [(1, 30), (2, 50), (3, 40)] := by
  decide

end PriceArchive
