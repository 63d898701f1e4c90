import PriceArchive.Store.Table
import PriceArchive.Store.TextOrder

namespace PriceArchive

variable {α : Type} {le : α → α → Bool}

theorem insertBy_perm (x : α) (xs : List α) : (insertBy le x xs).Perm (x :: xs) := by
  induction xs with
  | nil => exact .rfl
  | cons y rest ih =>
    rw [insertBy]
    split
    · exact .rfl
    · exact (ih.cons y).trans (.swap x y rest)

theorem sortBy_perm (xs : List α) : (sortBy le xs).Perm xs := by
  induction xs with
  | nil => exact .rfl
  | cons x rest ih => exact (insertBy_perm x (sortBy le rest)).trans (ih.cons x)

@[simp] theorem mem_sortBy {xs : List α} {x : α} : x ∈ sortBy le xs ↔ x ∈ xs :=
  (sortBy_perm xs).mem_iff

section Order

variable (htotal : ∀ x y, le x y = false → le y x = true)
  (htrans : ∀ x y z, le x y = true → le y z = true → le x z = true)

include htotal htrans in
theorem pairwise_insertBy {x : α} {xs : List α} (h : xs.Pairwise fun x y => le x y = true) :
    (insertBy le x xs).Pairwise fun x y => le x y = true := by
  induction xs with
  | nil => exact List.pairwise_singleton _ x
  | cons y rest ih =>
    obtain ⟨hy, hrest⟩ := List.pairwise_cons.mp h
    rw [insertBy]
    split
    · rename_i hxy
      refine List.pairwise_cons.mpr ⟨fun z hz => ?_, h⟩
      rcases List.mem_cons.mp hz with rfl | hz
      · exact hxy
      · exact htrans x y z hxy (hy z hz)
    · rename_i hxy
      refine List.pairwise_cons.mpr ⟨fun z hz => ?_, ih hrest⟩
      rcases List.mem_cons.mp ((insertBy_perm x rest).mem_iff.mp hz) with rfl | hz
      · exact htotal z y (Bool.not_eq_true _ ▸ hxy)
      · exact hy z hz

include htotal htrans in
theorem pairwise_sortBy (xs : List α) : (sortBy le xs).Pairwise fun x y => le x y = true := by
  induction xs with
  | nil => exact List.Pairwise.nil
  | cons x rest ih => exact pairwise_insertBy htotal htrans ih

include htotal htrans in
/-- Items with keys of their own keep these in the listing. -/
theorem pairwise_sortBy_of_nodup {κ : Type} {key : α → κ} {xs : List α} (h : (xs.map key).Nodup) :
    (sortBy le xs).Pairwise fun x y => le x y = true ∧ key x ≠ key y :=
  (pairwise_sortBy htotal htrans xs).and
    (List.pairwise_map.mp (((sortBy_perm xs).map key).nodup_iff.mpr h))

end Order

namespace TextOrder

variable {order : TextOrder} {x y z : String}

theorem le_iff : order.le x y = true ↔ ¬ order.lt y x := by
  rw [le, Bool.not_eq_true', decide_eq_false_iff_not]

theorem asymm (h : order.lt x y) : ¬ order.lt y x := fun h' => order.irrefl x (order.trans h h')

theorem lt_of_le_of_ne (h : order.le x y = true) (hne : x ≠ y) : order.lt x y :=
  (order.total hne).resolve_right (le_iff.mp h)

theorem le_of_not_le (h : order.le x y = false) : order.le y x = true := by
  rw [le_iff]
  rw [le, Bool.not_eq_false', decide_eq_true_eq] at h
  exact asymm h

theorem le_trans (hxy : order.le x y = true) (hyz : order.le y z = true) : order.le x z = true := by
  rw [le_iff] at hyz ⊢
  intro hzx
  by_cases hne : x = y
  · exact hyz (hne ▸ hzx)
  · exact hyz (order.trans hzx (lt_of_le_of_ne hxy hne))

end TextOrder

section Texts

variable {order : TextOrder} {text : α → String} {xs ys : List α}

/-- Items with texts of their own are listed in strictly ascending order of these. -/
theorem ascending_sortBy_text (h : (xs.map text).Nodup) :
    (sortBy (fun x y => order.le (text x) (text y)) xs).Pairwise fun x y =>
      order.lt (text x) (text y) := by
  have hsorted : (sortBy (fun x y => order.le (text x) (text y)) xs).Pairwise fun x y =>
      order.le (text x) (text y) = true ∧ text x ≠ text y := by
    refine pairwise_sortBy_of_nodup ?_ ?_ h
    · exact fun _ _ hxy => TextOrder.le_of_not_le hxy
    · exact fun _ _ _ hxy hyz => TextOrder.le_trans hxy hyz
  exact hsorted.imp fun ⟨hle, hne⟩ => TextOrder.lt_of_le_of_ne hle hne

/-- Strictly ascending listings of the same items are equal. -/
theorem eq_of_ascending (hxs : xs.Pairwise fun x y => order.lt (text x) (text y))
    (hys : ys.Pairwise fun x y => order.lt (text x) (text y)) (hmem : ∀ x, x ∈ xs ↔ x ∈ ys) :
    xs = ys := by
  have hnodup {zs : List α} (h : zs.Pairwise fun x y => order.lt (text x) (text y)) : zs.Nodup :=
    List.Pairwise.imp (S := (· ≠ ·)) (fun hlt heq => order.irrefl _ (heq ▸ hlt)) h
  refine List.Perm.eq_of_pairwise ?_ hxs hys
    ((List.perm_ext_iff_of_nodup (hnodup hxs) (hnodup hys)).mpr hmem)
  intro x y _ _ hxy hyx
  exact absurd hyx (TextOrder.asymm hxy)

/-- After the first items of a strictly ascending listing come those after the last of these. -/
theorem mem_drop_iff_of_ascending (h : xs.Pairwise fun x y => order.lt (text x) (text y)) {n : Nat}
    {first : List α} {last : α} (hfirst : xs.take n = first ++ [last]) (x : α) :
    x ∈ xs.drop n ↔ x ∈ xs ∧ order.lt (text last) (text x) := by
  have hsplit : xs = first ++ last :: xs.drop n := by
    calc
      xs = xs.take n ++ xs.drop n := (List.take_append_drop n xs).symm
      _ = first ++ last :: xs.drop n := by rw [hfirst, List.append_assoc, List.singleton_append]
  generalize xs.drop n = rest at hsplit ⊢
  subst hsplit
  obtain ⟨-, hafter, hbefore⟩ := List.pairwise_append.mp h
  obtain ⟨hlast, -⟩ := List.pairwise_cons.mp hafter
  constructor
  · intro hx
    exact ⟨by simp [hx], hlast x hx⟩
  · rintro ⟨hlisted, hlt⟩
    rcases List.mem_append.mp hlisted with hx | hx
    · exact absurd hlt (TextOrder.asymm (hbefore x hx last List.mem_cons_self))
    · rcases List.mem_cons.mp hx with rfl | hx
      · exact absurd hlt (order.irrefl _)
      · exact hx

end Texts

end PriceArchive
