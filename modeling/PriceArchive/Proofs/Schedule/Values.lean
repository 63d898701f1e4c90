import Mathlib.Data.List.Basic
import PriceArchive.Schedule.Basic

namespace PriceArchive

/-- What a name stands for is a value of the unit. -/
theorem TimeUnit.contains_of_ofName? {u : TimeUnit} {name : String} {n : Nat} (h : u.ofName? name = some n) :
    u.Contains n := by
  have hnames : ∀ p ∈ u.names, u.Contains p.2 := by cases u <;> decide
  obtain ⟨before, after, heq, -⟩ := List.lookup_eq_some_iff.mp h
  exact hnames (name.toLower, n) (by rw [heq]; simp)

namespace Field

variable {u : TimeUnit}

/-- The first and the last value of a run. -/
def Run.ends? (u : TimeUnit) : Run → Option (Nat × Nat)
  | .all => some (u.first, u.last)
  | .single n => some (n, n)
  | .range first last => some (first, last)
  | .namedRange first last => do
    let a ← u.ofName? first
    let b ← u.ofName? last
    return (a, b)

/-- The first value of a run and the one to which steps may go: from a single value on, the last of the
unit. -/
def Run.steppedEnds? (u : TimeUnit) : Run → Option (Nat × Nat)
  | .single n => some (n, u.last)
  | r => r.ends? u

/-- Two values of the unit, the first not after the last. -/
structure Within (u : TimeUnit) (first last : Nat) : Prop where
  contains_first : u.Contains first
  contains_last : u.Contains last
  le : first ≤ last

/-- What an item lists: the values of a run, those of every so many steps from its first one on, or the one
with a name. -/
inductive Item.Lists (u : TimeUnit) : Item → List Nat → Prop where
  | run {r : Run} {first last : Nat} (hends : r.ends? u = some (first, last)) (h : Within u first last) :
    Lists u (.run r) (List.range' first (last - first + 1))
  | stepped {r : Run} {first last step : Nat} (hends : r.steppedEnds? u = some (first, last))
    (h : Within u first last) (hstep : 0 < step) :
    Lists u (.stepped r step) (List.range' first ((last - first) / step + 1) step)
  | name {s : String} {n : Nat} (h : u.ofName? s = some n) : Lists u (.name s) [n]

theorem between?_eq_some_iff {first last : Nat} {ns : List Nat} :
    between? u first last = some ns ↔ Within u first last ∧ ns = List.range' first (last - first + 1) := by
  unfold between?
  split
  · rename_i h
    rw [Option.some.injEq, List.range_eq_range', List.map_add_range', Nat.add_zero, eq_comm]
    exact (and_iff_right ⟨h.1, h.2.1, h.2.2⟩).symm
  · rename_i h
    exact iff_of_false nofun fun ⟨hwithin, _⟩ => 
      h ⟨hwithin.contains_first, hwithin.contains_last, hwithin.le⟩

theorem values_eq_between? : some u.values = between? u u.first u.last := by
  have hle := u.first_le_last
  rw [between?, if_pos ⟨⟨Nat.le_refl _, hle⟩, ⟨hle, Nat.le_refl _⟩, hle⟩]
  rfl

theorem single_eq_between? (n : Nat) : (if u.Contains n then some [n] else none) = between? u n n := by
  rw [between?]
  by_cases h : u.Contains n
  · rw [if_pos h, if_pos ⟨h, h, Nat.le_refl n⟩, Nat.sub_self]
    rfl
  · rw [if_neg h, if_neg fun hboth => h hboth.1]

/-- The values of a run are those between its ends. -/
theorem Run.values?_eq (r : Run) :
    r.values? u = (r.ends? u).bind fun (first, last) => between? u first last := by
  cases r with
  | all => exact values_eq_between?
  | single n => exact single_eq_between? n
  | range first last => rfl
  | namedRange first last =>
    change (u.ofName? first).bind _ = ((u.ofName? first).bind _).bind _
    cases u.ofName? first with
    | none => rfl
    | some a =>
      change (u.ofName? last).bind _ = ((u.ofName? last).bind _).bind _
      cases u.ofName? last <;> rfl

theorem Run.steppedValues?_eq (r : Run) :
    r.steppedValues? u = (r.steppedEnds? u).bind fun (first, last) => between? u first last := by
  cases r with
  | single n => rfl
  | all => exact Run.values?_eq .all
  | range first last => exact Run.values?_eq (.range first last)
  | namedRange first last => exact Run.values?_eq (.namedRange first last)

/-- Every so many of the numbers from `a` on. -/
theorem everyFrom_range' {step : Nat} (hstep : 0 < step) (skipped a n : Nat) :
    everyFrom step skipped (List.range' a n) =
      if n ≤ skipped then []
      else List.range' (a + skipped) ((n - skipped - 1) / step + 1) step := by
  induction n generalizing skipped a with
  | zero => rw [if_pos (Nat.zero_le _)]; rfl
  | succ n ih =>
    rw [List.range'_succ]
    cases skipped with
    | zero =>
      rw [everyFrom, ih, if_neg (Nat.not_succ_le_zero n)]
      change a :: _ = a :: List.range' (a + step) (n / step) step
      by_cases hlt : n ≤ step - 1
      · rw [if_pos hlt, Nat.div_eq_of_lt (by omega)]
        rfl
      · have hdiv : n / step = (n - step) / step + 1 := Nat.div_eq_sub_div hstep (by omega)
        rw [if_neg hlt, hdiv, show a + 1 + (step - 1) = a + step by omega,
          show n - (step - 1) - 1 = n - step by omega]
    | succ skipped =>
      rw [everyFrom, ih]
      simp only [Nat.add_le_add_iff_right, Nat.add_sub_add_right]
      rw [Nat.add_assoc a 1, Nat.add_comm 1 skipped]

/-- The values of an item are what it lists, and an item that lists nothing has none. -/
theorem Item.values?_eq_some_iff {i : Item} {ns : List Nat} : i.values? u = some ns ↔ i.Lists u ns := by
  cases i with
  | run r =>
    change r.values? u = some ns ↔ _
    rw [Run.values?_eq, Option.bind_eq_some_iff]
    constructor
    · rintro ⟨⟨first, last⟩, hends, hns⟩
      obtain ⟨hwithin, rfl⟩ := between?_eq_some_iff.mp hns
      exact .run hends hwithin
    · rintro (⟨hends, hwithin⟩ | _ | _)
      exact ⟨_, hends, between?_eq_some_iff.mpr ⟨hwithin, rfl⟩⟩
  | stepped r step =>
    change (if step = 0 then none else (r.steppedValues? u).map (everyFrom step 0)) = some ns ↔ _
    have hevery {first last : Nat} (hstep : 0 < step) :
        everyFrom step 0 (List.range' first (last - first + 1)) =
          List.range' first ((last - first) / step + 1) step := by
      rw [everyFrom_range' hstep, if_neg (by omega), Nat.add_zero, Nat.sub_zero, Nat.add_sub_cancel]
    by_cases hzero : step = 0
    · rw [if_pos hzero]
      refine iff_of_false nofun ?_
      rintro (_ | ⟨-, -, hstep⟩ | _)
      omega
    · have hstep : 0 < step := Nat.pos_of_ne_zero hzero
      rw [if_neg hzero, Run.steppedValues?_eq, Option.map_eq_some_iff]
      constructor
      · rintro ⟨ms, hms, rfl⟩
        obtain ⟨⟨first, last⟩, hends, hms⟩ := Option.bind_eq_some_iff.mp hms
        obtain ⟨hwithin, rfl⟩ := between?_eq_some_iff.mp hms
        rw [hevery hstep]
        exact .stepped hends hwithin hstep
      · rintro (_ | ⟨hends, hwithin, -⟩ | _)
        exact ⟨_, Option.bind_eq_some_iff.mpr ⟨_, hends, between?_eq_some_iff.mpr ⟨hwithin, rfl⟩⟩,
          hevery hstep⟩
  | name s =>
    change (u.ofName? s).map (fun n => [n]) = some ns ↔ _
    rw [Option.map_eq_some_iff]
    constructor
    · rintro ⟨n, hn, rfl⟩
      exact .name hn
    · rintro (_ | _ | hn)
      exact ⟨_, hn, rfl⟩

theorem Item.Lists.ne_nil {i : Item} {ns : List Nat} (h : i.Lists u ns) : ns ≠ [] := by
  cases h with
  | run => simp
  | stepped => simp
  | name => simp

/-- An item lists nothing but values of the unit. -/
theorem Item.Lists.contains {i : Item} {ns : List Nat} (h : i.Lists u ns) {n : Nat} (hn : n ∈ ns) :
    u.Contains n := by
  have hbetween {first last : Nat} (hwithin : Within u first last) (hfirst : first ≤ n)
      (hlast : n ≤ last) : u.Contains n :=
    ⟨Nat.le_trans hwithin.contains_first.1 hfirst, Nat.le_trans hlast hwithin.contains_last.2⟩
  cases h with
  | @run r first last hends hwithin =>
    obtain ⟨k, hk, rfl⟩ := List.mem_range'.mp hn
    have hle := hwithin.le
    exact hbetween hwithin (by omega) (by omega)
  | @stepped r first last step hends hwithin hstep =>
    obtain ⟨k, hk, rfl⟩ := List.mem_range'.mp hn
    have hle := hwithin.le
    have hsteps : step * k ≤ last - first :=
      Nat.le_trans (Nat.mul_le_mul_left step (Nat.le_of_lt_succ hk)) (Nat.mul_div_le _ _)
    exact hbetween hwithin (by omega) (by omega)
  | name h => exact List.mem_singleton.mp hn ▸ TimeUnit.contains_of_ofName? h

/-- The values that the items of a field list, one after the other. -/
theorem values?_eq_some_iff {items : List Item} {ns : List Nat} :
    values? u items = some ns ↔ ∃ parts, List.Forall₂ (Item.Lists u) items parts ∧ ns = parts.flatten := by
  induction items generalizing ns with
  | nil =>
    rw [values?, Option.some.injEq, eq_comm]
    constructor
    · rintro rfl
      exact ⟨[], .nil, rfl⟩
    · rintro ⟨_, ⟨⟩, rfl⟩
      rfl
  | cons i items ih =>
    change ((i.values? u).bind fun ns => (values? u items).bind fun more => some (ns ++ more)) = some ns ↔ _
    rw [Option.bind_eq_some_iff]
    constructor
    · rintro ⟨first, hfirst, hrest⟩
      obtain ⟨more, hmore, heq⟩ := Option.bind_eq_some_iff.mp hrest
      obtain ⟨parts, hparts, rfl⟩ := ih.mp hmore
      cases heq
      exact ⟨first :: parts, .cons (Item.values?_eq_some_iff.mp hfirst) hparts, rfl⟩
    · rintro ⟨parts, hparts, rfl⟩
      cases hparts with
      | cons hpart hparts =>
        refine ⟨_, Item.values?_eq_some_iff.mpr hpart, ?_⟩
        rw [ih.mpr ⟨_, hparts, rfl⟩]
        rfl

/-- A field lists nothing but values of its unit. -/
theorem contains_of_values? {items : List Item} {ns : List Nat} (h : values? u items = some ns) {n : Nat}
    (hn : n ∈ ns) : u.Contains n := by
  obtain ⟨parts, hparts, rfl⟩ := values?_eq_some_iff.mp h
  induction hparts with
  | nil => cases hn
  | cons hpart hparts ih =>
    rcases List.mem_append.mp hn with hn | hn
    · exact hpart.contains hn
    · exact ih (values?_eq_some_iff.mpr ⟨_, hparts, rfl⟩) hn

theorem values?_ne_nil {items : List Item} {ns : List Nat} (h : values? u items = some ns)
    (hitems : items ≠ []) : ns ≠ [] := by
  obtain ⟨parts, hparts, rfl⟩ := values?_eq_some_iff.mp h
  cases hparts with
  | nil => exact absurd rfl hitems
  | cons hpart _ => simp [hpart.ne_nil]

end Field

end PriceArchive
