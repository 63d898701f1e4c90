import PriceArchive.Log.Filter

namespace PriceArchive

namespace LogFilter

section Closest

variable {line : LogLine} {d : LogDirective} {ds : List LogDirective}

/-- The directive is about the line; earlier ones about it are no closer, and later ones less close. -/
def Closest (line : LogLine) (ds : List LogDirective) (d : LogDirective) : Prop :=
  ∃ before after, ds = before ++ d :: after ∧ d.isAbout line = true ∧
    (∀ e ∈ before, e.isAbout line = true → e.closeness ≤ d.closeness) ∧
    ∀ e ∈ after, e.isAbout line = true → e.closeness < d.closeness

theorem closest_eq_none_iff : closest line ds = none ↔ ∀ d ∈ ds, d.isAbout line = false := by
  induction ds with
  | nil => exact iff_of_true rfl (List.forall_mem_nil _)
  | cons e rest ih =>
    rw [closest, List.forall_mem_cons]
    cases hrest : closest line rest with
    | none =>
      rw [hrest] at ih
      by_cases he : e.isAbout line = true
      · simp [he]
      · simpa [he] using ih.mp rfl
    | some d =>
      rw [hrest] at ih
      refine iff_of_false ?_ fun hall => absurd (ih.mpr hall.2) nofun
      dsimp only
      split <;> nofun

theorem Closest.mem (h : Closest line ds d) : d ∈ ds := by
  obtain ⟨before, after, rfl, -⟩ := h
  simp

/-- Of the directives about a line none is closer. -/
theorem Closest.le (h : Closest line ds d) {e : LogDirective} (he : e ∈ ds) (habout : e.isAbout line = true) :
    e.closeness ≤ d.closeness := by
  obtain ⟨before, after, rfl, -, hbefore, hafter⟩ := h
  rcases List.mem_append.mp he with he | he
  · exact hbefore e he habout
  · rcases List.mem_cons.mp he with rfl | he
    · exact Nat.le_refl _
    · exact Nat.le_of_lt (hafter e he habout)

/-- The directive that counts is the last of those that are the closest. -/
theorem closest_eq_some_iff : closest line ds = some d ↔ Closest line ds d := by
  induction ds generalizing d with
  | nil =>
    refine iff_of_false nofun ?_
    rintro ⟨before, after, h, -⟩
    simp at h
  | cons e rest ih =>
    rw [closest]
    constructor
    · intro h
      cases hrest : closest line rest with
      | none =>
        rw [hrest] at h
        dsimp only at h
        split at h
        · rename_i he
          cases h
          refine ⟨[], rest, rfl, he, List.forall_mem_nil _, fun x hx habout => ?_⟩
          rw [closest_eq_none_iff.mp hrest x hx] at habout
          cases habout
        · cases h
      | some c =>
        have hc := ih.mp hrest
        rw [hrest] at h
        dsimp only at h
        split at h
        · rename_i he
          cases h
          exact ⟨[], rest, rfl, he.1, List.forall_mem_nil _, fun x hx habout =>
            Nat.lt_of_le_of_lt (hc.le hx habout) he.2⟩
        · rename_i he
          cases h
          obtain ⟨before, after, rfl, habout, hbefore, hafter⟩ := hc
          refine ⟨e :: before, after, rfl, habout, List.forall_mem_cons.mpr ⟨fun heabout => ?_, hbefore⟩,
            hafter⟩
          exact Nat.le_of_not_lt fun hlt => he ⟨heabout, hlt⟩
    · rintro ⟨before, after, hds, habout, hbefore, hafter⟩
      cases before with
      | nil =>
        cases hds
        cases hrest : closest line rest with
        | none => exact if_pos habout
        | some c =>
          obtain ⟨before', after', rfl, hcabout, -⟩ := ih.mp hrest
          exact if_pos ⟨habout, hafter c (by simp) hcabout⟩
      | cons b before =>
        cases hds
        obtain ⟨hb, hbefore⟩ := List.forall_mem_cons.mp hbefore
        rw [ih.mpr ⟨before, after, rfl, habout, hbefore, hafter⟩]
        exact if_neg fun ⟨hbabout, hlt⟩ => Nat.not_lt.mpr (hb hbabout) hlt

/-- A line is shown exactly if the closest directive lets its level through. -/
theorem shows_iff {f : LogFilter} :
    f.shows line = true ↔ ∃ d, Closest line f.directives d ∧ line.level.rank ≤ d.limit := by
  rw [shows]
  cases hclosest : closest line f.directives with
  | none =>
    refine iff_of_false nofun fun ⟨d, hd, _⟩ => ?_
    rw [closest_eq_some_iff.mpr hd] at hclosest
    cases hclosest
  | some d =>
    rw [decide_eq_true_iff]
    constructor
    · exact fun hle => ⟨d, closest_eq_some_iff.mp hclosest, hle⟩
    · rintro ⟨c, hc, hle⟩
      rw [closest_eq_some_iff.mpr hc] at hclosest
      cases hclosest
      exact hle

theorem closest_congr {other : LogLine} (h : other.target = line.target) (ds : List LogDirective) :
    closest other ds = closest line ds := by
  have habout (d : LogDirective) : d.isAbout other = d.isAbout line := by
    rw [LogDirective.isAbout, LogDirective.isAbout, h]
  induction ds with
  | nil => rfl
  | cons d rest ih => simp only [closest, ih, habout]

/-- Where a line is shown, the lines of its target are that matter as much or more. -/
theorem shows_of_rank_le {f : LogFilter} {other : LogLine} (h : f.shows line = true)
    (htarget : other.target = line.target) (hrank : other.level.rank ≤ line.level.rank) :
    f.shows other = true := by
  obtain ⟨d, hd, hle⟩ := shows_iff.mp h
  refine shows_iff.mpr ⟨d, closest_eq_some_iff.mp ?_, Nat.le_trans hrank hle⟩
  rw [closest_congr htarget]
  exact closest_eq_some_iff.mpr hd

end Closest

end LogFilter

end PriceArchive
