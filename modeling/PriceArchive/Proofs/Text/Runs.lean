import Mathlib.Data.List.TakeWhile

namespace PriceArchive

section Runs

variable {α : Type} {p : α → Bool} {xs run rest : List α}

/-- No item with the property comes first. -/
def Stops (p : α → Bool) (xs : List α) : Prop := ∀ x ∈ xs.head?, p x = false

theorem stops_cons {x : α} (h : p x = false) (xs : List α) : Stops p (x :: xs) := by
  intro y hy
  cases hy
  exact h

theorem Stops.takeWhile_eq_nil (h : Stops p xs) : xs.takeWhile p = [] := by
  cases xs with
  | nil => rfl
  | cons x xs => exact List.takeWhile_cons_of_neg (by rw [h x rfl]; exact Bool.false_ne_true)

theorem Stops.dropWhile_eq_self (h : Stops p xs) : xs.dropWhile p = xs := by
  cases xs with
  | nil => rfl
  | cons x xs => exact List.dropWhile_cons_of_neg (by rw [h x rfl]; exact Bool.false_ne_true)

theorem stops_dropWhile (p : α → Bool) (xs : List α) : Stops p (xs.dropWhile p) := by
  intro x hx
  have hstop := List.head?_dropWhile_not p xs
  rw [hx] at hstop
  exact hstop

theorem takeWhile_run (hrun : ∀ x ∈ run, p x = true) (hstop : Stops p rest) :
    (run ++ rest).takeWhile p = run := by
  rw [List.takeWhile_append_of_pos hrun, hstop.takeWhile_eq_nil, List.append_nil]

theorem dropWhile_run (hrun : ∀ x ∈ run, p x = true) (hstop : Stops p rest) :
    (run ++ rest).dropWhile p = rest := by
  rw [List.dropWhile_append_of_pos hrun, hstop.dropWhile_eq_self]

/-- A list is the items with the property at its front and the rest. -/
theorem exists_run (p : α → Bool) (xs : List α) :
    ∃ run, (∀ x ∈ run, p x = true) ∧ xs = run ++ xs.dropWhile p :=
  ⟨xs.takeWhile p, fun _ => List.mem_takeWhile_imp, List.takeWhile_append_dropWhile.symm⟩

theorem drop_length_takeWhile (p : α → Bool) (xs : List α) :
    xs.drop (xs.takeWhile p).length = xs.dropWhile p := by
  induction xs with
  | nil => rfl
  | cons x xs ih =>
    by_cases hx : p x = true
    · rw [List.takeWhile_cons_of_pos hx, List.dropWhile_cons_of_pos hx]
      exact ih
    · rw [List.takeWhile_cons_of_neg hx, List.dropWhile_cons_of_neg hx]
      rfl

end Runs

end PriceArchive
