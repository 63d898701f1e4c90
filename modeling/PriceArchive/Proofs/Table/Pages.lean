import PriceArchive.Store.Table

namespace PriceArchive

variable {α : Type} {n : Nat}

/-- The pages of a size that are cut off some items, one after the other. They may stop before the end. -/
inductive Pages (n : Nat) : List α → List (List α) → Prop where
  | stop (xs : List α) : Pages n xs []
  | last : Pages n [] [[]]
  | next {xs : List α} {pages : List (List α)} (hpage : xs.take n ≠ [])
    (hrest : Pages n (xs.drop n) pages) : Pages n xs (xs.take n :: pages)

/-- One page more than for the rest of the items is enough for all of them. -/
theorem pages_succ_le {k : Nat} (hn : 0 < n) (hk : 0 < k) :
    (k - n + n - 1) / n + 2 ≤ (k + n - 1) / n + 1 := by
  have hstep : (k + n - 1) / n = (k - 1) / n + 1 := by
    rw [show k + n - 1 = k - 1 + n by omega, Nat.add_div_right _ hn]
  rw [hstep]
  rcases Nat.le_total k n with hle | hle
  · rw [Nat.div_eq_of_lt (by omega)]
    exact Nat.le_add_left 2 _
  · have hsame : k - n + n = k := by omega
    exact Nat.le_of_eq (by rw [hsame])

namespace Pages

variable {xs : List α} {pages : List (List α)}

theorem length_le (hn : 0 < n) (h : Pages n xs pages) :
    pages.length ≤ (xs.length + n - 1) / n + 1 := by
  induction h with
  | stop xs => exact Nat.zero_le _
  | last => exact Nat.le_add_left 1 _
  | @next xs pages hpage _ ih =>
    have hpos : 0 < xs.length := List.length_pos_iff.mpr fun h => hpage (by rw [h, List.take_nil])
    have hstep := pages_succ_le hn hpos
    rw [List.length_drop] at ih
    rw [List.length_cons]
    omega

/-- After a page with items the end is reached where the rest reaches it. -/
theorem getLast?_rest {page : List α} (hpage : page ≠ [])
    (hlast : (page :: pages).getLast? = some []) : pages.getLast? = some [] := by
  cases pages with
  | nil => exact absurd (Option.some.inj hlast) hpage
  | cons p pages => rwa [List.getLast?_cons_cons] at hlast

/-- Pages to the end make up the listing. -/
theorem flatten_eq (h : Pages n xs pages) (hlast : pages.getLast? = some []) : pages.flatten = xs := by
  induction h with
  | stop xs => cases hlast
  | last => rfl
  | next hpage _ ih =>
    rw [List.flatten_cons, ih (getLast?_rest hpage hlast), List.take_append_drop]

/-- Each page leaves fewer items, so pages can go to the end. -/
theorem exists_to_end (hn : 0 < n) (xs : List α) :
    ∃ pages : List (List α), Pages n xs pages ∧ pages.getLast? = some [] := by
  induction hk : xs.length using Nat.strongRecOn generalizing xs with
  | ind k ih =>
    cases xs with
    | nil => exact ⟨[[]], .last, rfl⟩
    | cons x rest =>
      have hnil : x :: rest ≠ [] := List.cons_ne_nil x rest
      generalize x :: rest = xs at hk hnil
      have hpos := List.length_pos_iff.mpr hnil
      obtain ⟨pages, hpages, hlast⟩ := ih (xs.drop n).length (by rw [List.length_drop]; omega) _ rfl
      have hpage : xs.take n ≠ [] := fun h => (List.take_eq_nil_iff.mp h).elim (by omega) hnil
      refine ⟨xs.take n :: pages, .next hpage hpages, ?_⟩
      cases pages with
      | nil => cases hlast
      | cons p pages => exact hlast

end Pages

end PriceArchive
