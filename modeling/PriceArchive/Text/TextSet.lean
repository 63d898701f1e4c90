namespace PriceArchive

/-- Puts a text into an ascending list, which then holds it once. -/
def insertText (s : String) : List String → List String
  | [] => [s]
  | t :: rest =>
    if s = t then t :: rest else if s < t then s :: t :: rest else t :: insertText s rest

theorem mem_insertText {s t : String} {xs : List String} (h : t ∈ insertText s xs) :
    t = s ∨ t ∈ xs := by
  induction xs with
  | nil => simpa [insertText] using h
  | cons x rest ih =>
    unfold insertText at h
    split at h
    · exact .inr h
    · split at h
      · simpa using h
      · rcases List.mem_cons.1 h with rfl | hrest
        · exact .inr List.mem_cons_self
        · exact (ih hrest).imp_right (List.mem_cons_of_mem _)

theorem pairwise_insertText {s : String} {xs : List String} (h : xs.Pairwise (· < ·)) :
    (insertText s xs).Pairwise (· < ·) := by
  induction xs with
  | nil => simp [insertText]
  | cons x rest ih =>
    obtain ⟨hx, hrest⟩ := List.pairwise_cons.1 h
    unfold insertText
    split
    · exact h
    · next hne =>
      split
      · next hlt =>
        refine List.pairwise_cons.2 ⟨fun t ht => ?_, h⟩
        rcases List.mem_cons.1 ht with rfl | ht
        · exact hlt
        · exact String.lt_trans hlt (hx t ht)
      · next hge =>
        refine List.pairwise_cons.2 ⟨fun t ht => ?_, ih hrest⟩
        rcases mem_insertText ht with rfl | ht
        · refine Decidable.byContradiction fun hnot => hne ?_
          exact String.le_antisymm (String.not_lt.1 hnot) (String.not_lt.1 hge)
        · exact hx t ht

/-- A text after all others comes last. -/
theorem insertText_of_forall_lt {s : String} {xs : List String} (h : ∀ x ∈ xs, x < s) :
    insertText s xs = xs ++ [s] := by
  induction xs with
  | nil => rfl
  | cons x rest ih =>
    have hx : x < s := h x List.mem_cons_self
    have hne : s ≠ x := by
      rintro rfl
      exact String.lt_irrefl s hx
    rw [insertText, if_neg hne, if_neg (String.lt_asymm hx),
      ih fun t ht => h t (List.mem_cons_of_mem x ht), List.cons_append]

/-- A finite set of texts. -/
structure TextSet where
  items : List String
  ascending : items.Pairwise (· < ·)
  deriving DecidableEq

namespace TextSet

/-- The set of no texts. -/
def empty : TextSet := ⟨[], .nil⟩

/-- The set with one more text. -/
def insert (s : String) (set : TextSet) : TextSet :=
  ⟨insertText s set.items, pairwise_insertText set.ascending⟩

/-- The set of the texts in a list. -/
def ofList (xs : List String) : TextSet := xs.foldl (fun set s => set.insert s) empty

theorem ext {a b : TextSet} (h : a.items = b.items) : a = b := by
  cases a
  cases b
  cases h
  rfl

/-- Texts that go on in ascending order after the items of a set are appended to them. -/
theorem items_foldl_insert (xs : List String) (set : TextSet)
    (h : (set.items ++ xs).Pairwise (· < ·)) :
    (xs.foldl (fun set s => set.insert s) set).items = set.items ++ xs := by
  induction xs generalizing set with
  | nil => exact (List.append_nil _).symm
  | cons x xs ih =>
    have hlast : (set.insert x).items = set.items ++ [x] :=
      insertText_of_forall_lt fun t ht => (List.pairwise_append.mp h).2.2 t ht x List.mem_cons_self
    rw [List.foldl_cons, ih (set.insert x) (by rwa [hlast, List.append_assoc, List.singleton_append]),
      hlast, List.append_assoc, List.singleton_append]

theorem ofList_items (set : TextSet) : ofList set.items = set :=
  ext (items_foldl_insert set.items empty set.ascending)

end TextSet

end PriceArchive
