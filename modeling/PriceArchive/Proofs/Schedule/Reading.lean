import PriceArchive.Proofs.Schedule.Fields

namespace PriceArchive

namespace Field

section Items

variable {u : TimeUnit} {cs text rest : List Char} {items : List Item}

/-- Reads items with commas between them. -/
def itemsFrom (u : TimeUnit) : Reader (List Item) := fun cs =>
  (item u cs).map fun (i, rest) => (i :: (moreItems u rest).1, (moreItems u rest).2)

theorem afterComma_eq_some_iff {α : Type} {reader : Reader α} {a : α} :
    afterComma reader cs = some (a, rest) ↔ ∃ ds, cs = ',' :: ds ∧ reader ds = some (a, rest) := by
  rw [afterComma, Option.bind_eq_bind, Option.bind_eq_some_iff]
  constructor
  · rintro ⟨⟨x, ds⟩, hmark, hread⟩
    exact ⟨ds, mark_eq_some_iff.mp hmark, hread⟩
  · rintro ⟨ds, rfl, hread⟩
    exact ⟨((), ds), mark_cons ',' ds, hread⟩

/-- What follows an item is nothing more, or a comma and items. -/
theorem moreItems_cases (u : TimeUnit) (cs : List Char) :
    moreItems u cs = ([], cs) ∨
      ∃ text, cs = ',' :: (text ++ (moreItems u cs).2) ∧ WritesItems u text (moreItems u cs).1 ∧
        text ≠ [] ∧ Apart text (moreItems u cs).2 := by
  fun_induction moreItems u cs with
  | case1 cs hnone => exact .inl rfl
  | case2 cs i rest hread hlt items left hmore ih =>
    obtain ⟨ds, rfl, hitem⟩ := afterComma_eq_some_iff.mp hread
    obtain ⟨text, rfl, hwritten, hne, hapart⟩ := item_reads u _ _ _ hitem
    rw [hmore] at ih
    right
    rcases ih with heq | ⟨text', heq, hwritten', hne', hapart'⟩
    · cases heq
      exact ⟨text, rfl, .one hwritten, hne, hapart⟩
    · refine ⟨text ++ ',' :: text', ?_, .more hwritten hwritten', by simp, (hapart'.cons ',' hne').append (by simp)⟩
      rw [heq, List.append_assoc, List.cons_append]
  | case3 cs i rest hread hnot =>
    obtain ⟨ds, rfl, hitem⟩ := afterComma_eq_some_iff.mp hread
    obtain ⟨text, rfl, -⟩ := item_reads u _ _ _ hitem
    rw [List.length_cons, List.length_append] at hnot
    omega

theorem itemsFrom_reads (u : TimeUnit) : Reads (itemsFrom u) (WritesItems u) := by
  intro cs items rest hread
  obtain ⟨⟨i, afterFirst⟩, hitem, heq⟩ := Option.map_eq_some_iff.mp hread
  cases heq
  obtain ⟨text, rfl, hwritten, hne, hapart⟩ := item_reads u _ _ _ hitem
  rcases moreItems_cases u afterFirst with heq | ⟨text', heq, hwritten', hne', hapart'⟩
  · rw [heq]
    exact ⟨text, rfl, .one hwritten, hne, hapart⟩
  · refine ⟨text ++ ',' :: text', ?_, .more hwritten hwritten', by simp, (hapart'.cons ',' hne').append (by simp)⟩
    rw [List.append_assoc, List.cons_append, ← heq]

theorem moreItems_comma (h : itemsFrom u cs = some (items, rest)) :
    moreItems u (',' :: cs) = (items, rest) := by
  obtain ⟨⟨i, left⟩, hitem, heq⟩ := Option.map_eq_some_iff.mp h
  cases heq
  have hlt : left.length < (',' :: cs).length := by
    obtain ⟨text, rfl, -⟩ := item_reads u _ _ _ hitem
    rw [List.length_cons, List.length_append]
    omega
  rw [moreItems, afterComma_eq_some_iff.mpr ⟨cs, rfl, hitem⟩]
  exact if_pos hlt

theorem WritesItems.ne_nil (h : WritesItems u text items) : text ≠ [] := by
  cases h with
  | one h => exact h.ne_nil
  | more _ _ => simp

theorem WritesItems.not_mark_head (h : WritesItems u text items) {c : Char}
    (hc : c ∈ (text ++ rest).head?) : c ∉ ['-', '/', ',', '@'] := by
  cases h with
  | one h => exact h.not_mark_head hc
  | more h _ =>
    rw [List.append_assoc] at hc
    exact h.not_mark_head hc

/-- Items are taken off from before what does not go on with them. -/
theorem WritesItems.takes (h : WritesItems u text items) (hends : Ends ['-', '/', ','] text rest) :
    Takes (itemsFrom u) text items rest := by
  have hcomma : IsMark ',' := isMark (by decide)
  induction h with
  | one h =>
    obtain ⟨left, hread, hleft⟩ := h.takes (hends.mono (by simp))
    refine ⟨left, ?_, hleft⟩
    have hnone : moreItems u left = ([], left) := by
      rw [moreItems, afterComma, hends.mark_eq_none (by simp) hcomma hleft]
      rfl
    rw [itemsFrom, hread]
    simp only [Option.map_some, hnone]
  | @more cs ds i items h _ ih =>
    obtain ⟨left, hmore, hleft⟩ := ih hends.right
    have hends' : Ends ['-', '/'] cs (',' :: (ds ++ rest)) := hcomma.ends (by simp)
    have hread := (h.takes hends').of_mark hcomma
    refine ⟨left, ?_, hleft⟩
    rw [List.append_assoc, List.cons_append, itemsFrom, hread]
    simp only [Option.map_some, moreItems_comma hmore]

end Items

section Fields

variable {u : TimeUnit} {cs text rest : List Char} {ns : List Nat}

theorem skipSpace_skipSpace (cs : List Char) : skipSpace (skipSpace cs) = skipSpace cs :=
  (stops_dropWhile Char.isWhitespace cs).dropWhile_eq_self

theorem read_eq (cs : List Char) :
    read u cs = (itemsFrom u (skipSpace cs)).map fun (items, rest) => (items, skipSpace rest) := by
  change (item u (skipSpace cs)).bind _ = ((item u (skipSpace cs)).map _).map _
  cases item u (skipSpace cs) <;> rfl

theorem readValues_skipSpace (cs : List Char) : readValues u (skipSpace cs) = readValues u cs := by
  rw [readValues, readValues, read, read, skipSpace_skipSpace]

theorem readValues_eq_some_iff :
    readValues u cs = some (ns, rest) ↔
      ∃ items left, itemsFrom u (skipSpace cs) = some (items, left) ∧ rest = skipSpace left ∧
        values? u items = some ns := by
  rw [readValues, Option.bind_eq_bind, Option.bind_eq_some_iff]
  constructor
  · rintro ⟨⟨items, left⟩, hread, hrest⟩
    obtain ⟨⟨items', left'⟩, hitems, heq⟩ := Option.map_eq_some_iff.mp ((read_eq cs).symm.trans hread)
    cases heq
    obtain ⟨ns', hvalues, heq⟩ := Option.bind_eq_some_iff.mp hrest
    cases heq
    exact ⟨items, left', hitems, rfl, hvalues⟩
  · rintro ⟨items, left, hitems, rfl, hvalues⟩
    refine ⟨(items, skipSpace left), ?_, ?_⟩
    · rw [read_eq, hitems]
      rfl
    · exact Option.bind_eq_some_iff.mpr ⟨ns, hvalues, rfl⟩

theorem readValues_reads (u : TimeUnit) : Reads (readValues u) (Writes u) := by
  intro cs ns rest hread
  obtain ⟨items, left, hitems, rfl, hvalues⟩ := readValues_eq_some_iff.mp hread
  obtain ⟨text, hcs, hwritten, hne, hapart⟩ := itemsFrom_reads u _ _ _ hitems
  obtain ⟨before, hbefore, hsplit⟩ := exists_run Char.isWhitespace cs
  obtain ⟨after, hafter, hleft⟩ := exists_run Char.isWhitespace left
  change cs = before ++ skipSpace cs at hsplit
  change left = after ++ skipSpace left at hleft
  have hhead : ∀ c ∈ text.head?, c.isWhitespace = false := by
    intro c hc
    refine stops_dropWhile Char.isWhitespace cs c ?_
    change c ∈ (skipSpace cs).head?
    rwa [hcs, List.head?_append_of_ne_nil _ hne]
  refine ⟨before ++ (text ++ after), ?_, ⟨hbefore, hafter, hhead, hwritten, hvalues⟩, by simp [hne], ?_⟩
  · rw [hsplit, hcs, List.append_assoc, List.append_assoc, ← hleft]
  · refine Apart.append ?_ (by simp [hne])
    by_cases hnone : after = []
    · subst hnone
      rw [List.nil_append] at hleft
      rwa [List.append_nil, ← hleft]
    · exact Spaces.apart hafter hnone

/-- After the white space of a field come its items. -/
theorem skipSpace_field {before after : List Char} (hbefore : Spaces before) (hne : cs ≠ [])
    (hhead : ∀ c ∈ cs.head?, c.isWhitespace = false) :
    skipSpace (before ++ (cs ++ after) ++ rest) = cs ++ (after ++ rest) := by
  rw [List.append_assoc, skipSpace_append hbefore, List.append_assoc]
  refine Stops.dropWhile_eq_self fun c hc => hhead c ?_
  rwa [List.head?_append_of_ne_nil _ hne] at hc

/-- A field is taken off from before what does not go on with it, with the white space after it. -/
theorem Writes.readValues_append (h : Writes u text ns) (hends : Ends ['-', '/', ','] text rest) :
    readValues u (text ++ rest) = some (ns, skipSpace rest) := by
  cases h with
  | @mk before cs after items ns hbefore hafter hhead hitems hvalues =>
    have hends' : Ends ['-', '/', ','] cs (after ++ rest) := by
      refine ⟨?_, by rw [skipSpace_append hafter]; exact hends.not_mark⟩
      by_cases hnone : after = []
      · subst hnone
        have hapart := hends.apart
        rw [List.append_nil] at hapart
        exact hapart.right
      · intro p hp c _ d hd _
        rw [List.head?_append_of_ne_nil _ hnone] at hd
        exact not_class_of_isWhitespace (hafter d (List.mem_of_head? hd)) p hp
    obtain ⟨left, hread, hleft⟩ := hitems.takes hends'
    refine readValues_eq_some_iff.mpr ⟨items, left, ?_, ?_, hvalues⟩
    · rw [skipSpace_field hbefore hitems.ne_nil hhead, hread]
    · rcases hleft with rfl | rfl
      · rw [skipSpace_append hafter]
      · rw [skipSpace_skipSpace, skipSpace_append hafter]

theorem Writes.not_mark_head (h : Writes u text ns) {c : Char} (hc : c ∈ (skipSpace (text ++ rest)).head?) :
    c ∉ ['-', '/', ',', '@'] := by
  obtain ⟨hbefore, hafter, hhead, hitems, -⟩ := h
  rw [skipSpace_field hbefore hitems.ne_nil hhead] at hc
  exact hitems.not_mark_head hc

end Fields

section Whole

/-- Reads fields, one for each unit. -/
def readAll : List TimeUnit → Reader (List (List Nat))
  | [], cs => some ([], cs)
  | u :: units, cs => (readValues u cs).bind fun (ns, rest) =>
    (readAll units rest).map fun (nss, rest) => (ns :: nss, rest)

/-- How fields are written: one after the other, and none runs into the next. -/
inductive WritesAll : List TimeUnit → List Char → List (List Nat) → Prop where
  | nil : WritesAll [] [] []
  | cons {u : TimeUnit} {units : List TimeUnit} {text rest : List Char} {ns : List Nat}
    {nss : List (List Nat)} (h : Writes u text ns) (hapart : Apart text rest)
    (hrest : WritesAll units rest nss) : WritesAll (u :: units) (text ++ rest) (ns :: nss)

variable {units : List TimeUnit} {cs : List Char} {nss : List (List Nat)}

theorem WritesAll.not_mark_head (h : WritesAll units cs nss) {c : Char} (hc : c ∈ (skipSpace cs).head?) :
    c ∉ ['-', '/', ',', '@'] := by
  cases h with
  | nil => cases hc
  | cons h _ _ => exact h.not_mark_head hc

theorem WritesAll.readAll_skipSpace (h : WritesAll units cs nss) :
    readAll units (skipSpace cs) = readAll units cs := by
  cases h with
  | nil => rfl
  | cons => rw [readAll, readAll, readValues_skipSpace]

theorem readAll_cons_eq_some_iff {u : TimeUnit} {ns : List Nat} {rest : List Char} :
    readAll (u :: units) cs = some (ns :: nss, rest) ↔
      ∃ left, readValues u cs = some (ns, left) ∧ readAll units left = some (nss, rest) := by
  rw [readAll, Option.bind_eq_some_iff]
  constructor
  · rintro ⟨⟨first, left⟩, hfirst, hrest⟩
    obtain ⟨_, hmore, heq⟩ := Option.map_eq_some_iff.mp hrest
    cases heq
    exact ⟨left, hfirst, hmore⟩
  · rintro ⟨left, hfirst, hmore⟩
    exact ⟨(ns, left), hfirst, Option.map_eq_some_iff.mpr ⟨_, hmore, rfl⟩⟩

/-- Fields are read to the end of a text exactly if the text writes them. -/
theorem readAll_eq_some_iff : readAll units cs = some (nss, []) ↔ WritesAll units cs nss := by
  constructor
  · intro h
    induction units generalizing cs nss with
    | nil =>
      cases h
      exact .nil
    | cons u units ih =>
      obtain ⟨⟨ns, rest⟩, hfirst, hrest⟩ := Option.bind_eq_some_iff.mp h
      obtain ⟨⟨more, left⟩, hmore, heq⟩ := Option.map_eq_some_iff.mp hrest
      cases heq
      obtain ⟨text, rfl, hwritten, -, hapart⟩ := readValues_reads u _ _ _ hfirst
      exact .cons hwritten hapart (ih hmore)
  · intro h
    induction h with
    | nil => rfl
    | cons h hapart hrest ih =>
      rw [readAll, h.readValues_append ⟨hapart, fun c hc hmark =>
        hrest.not_mark_head hc (List.mem_append_left ['@'] hmark)⟩]
      change (readAll _ (skipSpace _)).map _ = _
      rw [hrest.readAll_skipSpace, ih]
      rfl

/-- Fields list at least one value each, and none but values of their units. -/
theorem WritesAll.within (h : WritesAll units cs nss) :
    ∀ p ∈ units.zip nss, p.2 ≠ [] ∧ ∀ n ∈ p.2, p.1.Contains n := by
  induction h with
  | nil => exact List.forall_mem_nil _
  | cons h _ _ ih =>
    obtain ⟨-, -, -, hitems, hvalues⟩ := h
    refine List.forall_mem_cons.mpr ⟨⟨values?_ne_nil hvalues ?_, fun n => contains_of_values? hvalues⟩, ih⟩
    cases hitems <;> simp

end Whole

end Field

namespace Schedule

open PriceArchive.Field

variable {s : Schedule} {cs rest : List Char}

/-- The units that every schedule has. -/
def units : List TimeUnit := [.second, .minute, .hour, .dayOfMonth, .month, .dayOfWeek]

/-- What a schedule lists for these. -/
def lists (s : Schedule) : List (List Nat) :=
  [s.seconds, s.minutes, s.hours, s.daysOfMonth, s.months, s.daysOfWeek]

/-- How a schedule is written: by its name, with white space around it, or by six fields, or seven if certain
years count. -/
inductive Writes : List Char → Schedule → Prop where
  | named {name : String} {s : Schedule} {before after : List Char} (h : (name, s) ∈ named)
    (hbefore : Spaces before) (hafter : Spaces after) : Writes (before ++ (name.toList ++ after)) s
  | everyYear {cs : List Char} {s : Schedule} (hyears : s.years = none) (h : WritesAll units cs s.lists) :
    Writes cs s
  | inYears {cs : List Char} {s : Schedule} {years : List Nat} (hyears : s.years = some years)
    (h : WritesAll (units ++ [.year]) cs (s.lists ++ [years])) : Writes cs s

theorem readFields_eq_some_iff :
    readFields cs = some (s, rest) ↔
      ∃ left, readAll units cs = some (s.lists, left) ∧ readYears left = (s.years, rest) := by
  constructor
  · intro h
    obtain ⟨⟨seconds, cs₁⟩, h₁, h⟩ := Option.bind_eq_some_iff.mp h
    obtain ⟨⟨minutes, cs₂⟩, h₂, h⟩ := Option.bind_eq_some_iff.mp h
    obtain ⟨⟨hours, cs₃⟩, h₃, h⟩ := Option.bind_eq_some_iff.mp h
    obtain ⟨⟨daysOfMonth, cs₄⟩, h₄, h⟩ := Option.bind_eq_some_iff.mp h
    obtain ⟨⟨months, cs₅⟩, h₅, h⟩ := Option.bind_eq_some_iff.mp h
    obtain ⟨⟨daysOfWeek, cs₆⟩, h₆, h⟩ := Option.bind_eq_some_iff.mp h
    cases h
    refine ⟨cs₆, ?_, rfl⟩
    rw [units, lists]
    simp only [readAll_cons_eq_some_iff]
    exact ⟨cs₁, h₁, cs₂, h₂, cs₃, h₃, cs₄, h₄, cs₅, h₅, cs₆, h₆, rfl⟩
  · rintro ⟨left, hall, hyears⟩
    rw [units, lists] at hall
    simp only [readAll_cons_eq_some_iff] at hall
    obtain ⟨cs₁, h₁, cs₂, h₂, cs₃, h₃, cs₄, h₄, cs₅, h₅, cs₆, h₆, hnil⟩ := hall
    cases hnil
    have hdone : some ((⟨s.seconds, s.minutes, s.hours, s.daysOfMonth, s.months, s.daysOfWeek,
        (readYears left).1⟩ : Schedule), (readYears left).2) = some (s, rest) := by
      rw [hyears]
    exact Option.bind_eq_some_iff.mpr ⟨_, h₁, Option.bind_eq_some_iff.mpr ⟨_, h₂,
      Option.bind_eq_some_iff.mpr ⟨_, h₃, Option.bind_eq_some_iff.mpr ⟨_, h₄,
        Option.bind_eq_some_iff.mpr ⟨_, h₅, Option.bind_eq_some_iff.mpr ⟨_, h₆, hdone⟩⟩⟩⟩⟩⟩

theorem readAll_inYears_iff {years : List Nat} :
    readAll (units ++ [.year]) cs = some (s.lists ++ [years], rest) ↔
      ∃ left, readAll units cs = some (s.lists, left) ∧ readValues .year left = some (years, rest) := by
  simp only [units, lists, List.cons_append, List.nil_append, readAll_cons_eq_some_iff]
  constructor
  · rintro ⟨cs₁, h₁, cs₂, h₂, cs₃, h₃, cs₄, h₄, cs₅, h₅, cs₆, h₆, cs₇, h₇, hnil⟩
    cases hnil
    exact ⟨cs₆, ⟨cs₁, h₁, cs₂, h₂, cs₃, h₃, cs₄, h₄, cs₅, h₅, cs₆, h₆, rfl⟩, h₇⟩
  · rintro ⟨left, ⟨cs₁, h₁, cs₂, h₂, cs₃, h₃, cs₄, h₄, cs₅, h₅, cs₆, h₆, hnil⟩, h₇⟩
    cases hnil
    exact ⟨cs₁, h₁, cs₂, h₂, cs₃, h₃, cs₄, h₄, cs₅, h₅, left, h₆, rest, h₇, rfl⟩

/-- The fields are read to the end of a text exactly if it writes them. -/
theorem readFields_eq_some_nil_iff :
    readFields cs = some (s, []) ↔
      (s.years = none ∧ WritesAll units cs s.lists) ∨
        ∃ years, s.years = some years ∧ WritesAll (units ++ [.year]) cs (s.lists ++ [years]) := by
  simp only [← readAll_eq_some_iff, readAll_inYears_iff]
  rw [readFields_eq_some_iff]
  constructor
  · rintro ⟨left, hall, hyears⟩
    rw [readYears] at hyears
    split at hyears
    · rename_i years rest hread
      obtain ⟨hsame, rfl⟩ := Prod.mk.inj hyears
      exact .inr ⟨years, hsame.symm, left, hall, hread⟩
    · obtain ⟨hsame, rfl⟩ := Prod.mk.inj hyears
      exact .inl ⟨hsame.symm, hall⟩
  · rintro (⟨hyears, hall⟩ | ⟨years, hyears, left, hall, hread⟩)
    · refine ⟨[], hall, ?_⟩
      rw [hyears]
      rfl
    · refine ⟨left, hall, ?_⟩
      rw [readYears, hread, hyears]

theorem at_of_named {name : String} (h : (name, s) ∈ named) : ∃ letters, name.toList = '@' :: letters := by
  have hall : ∀ p ∈ named, p.1.toList = '@' :: p.1.toList.tail := by decide
  exact ⟨_, hall _ h⟩

/-- No name begins as another does. -/
theorem eq_of_named {name name' : String} {s' : Schedule} {after : List Char} (h : (name, s) ∈ named)
    (h' : (name', s') ∈ named) (hbegins : name'.toList <+: name.toList ++ after) :
    (name', s') = (name, s) := by
  have hlength : ∀ p ∈ named, 2 ≤ p.1.toList.length := by decide
  have hstarts : ∀ p ∈ named, ∀ q ∈ named, p.1.toList.take 2 = q.1.toList.take 2 → p = q := by decide
  refine hstarts _ h' _ h ?_
  obtain ⟨rest, hrest⟩ := hbegins
  have htake := congrArg (List.take 2) hrest
  rwa [List.take_append_of_le_length (hlength _ h'), List.take_append_of_le_length (hlength _ h)] at htake

theorem readNamed_eq_some_iff :
    readNamed cs = some (s, rest) ↔
      ∃ name after, (name, s) ∈ named ∧ skipSpace cs = name.toList ++ after ∧ rest = skipSpace after := by
  rw [readNamed]
  constructor
  · intro h
    obtain ⟨⟨name, s'⟩, hmem, hread⟩ := List.exists_of_findSome?_eq_some h
    dsimp only at hread
    split at hread
    · rename_i hbegins
      obtain ⟨rfl, hrest⟩ := Prod.mk.inj (Option.some.inj hread)
      obtain ⟨after, hafter⟩ := List.isPrefixOf_iff_prefix.mp hbegins
      rw [← hafter, ← String.length_toList, List.drop_left] at hrest
      exact ⟨name, after, hmem, hafter.symm, hrest.symm⟩
    · cases hread
  · rintro ⟨name, after, hmem, hcs, rfl⟩
    have hself : name.toList.isPrefixOf (name.toList ++ after) = true :=
      List.isPrefixOf_iff_prefix.mpr (List.prefix_append _ _)
    rw [hcs]
    have hsome : (named.findSome? fun p =>
        if p.1.toList.isPrefixOf (name.toList ++ after) = true then
          some (p.2, skipSpace ((name.toList ++ after).drop p.1.length))
        else none).isSome = true :=
      List.findSome?_isSome_iff.mpr ⟨(name, s), hmem, by rw [if_pos hself]; rfl⟩
    obtain ⟨found, hfound⟩ := Option.isSome_iff_exists.mp hsome
    refine hfound.trans ?_
    -- The name that is found is the one that is written.
    obtain ⟨⟨name', s'⟩, hmem', hread⟩ := List.exists_of_findSome?_eq_some hfound
    dsimp only at hread
    split at hread
    · rename_i hbegins
      obtain ⟨rfl, rfl⟩ := Prod.mk.inj (eq_of_named hmem hmem' (List.isPrefixOf_iff_prefix.mp hbegins))
      rw [← hread, ← String.length_toList, List.drop_left]
    · cases hread

theorem spaces_iff : Spaces cs ↔ skipSpace cs = [] := by
  constructor
  · intro h
    rw [← List.append_nil cs, skipSpace_append h]
    rfl
  · intro h
    obtain ⟨before, hbefore, hcs⟩ := exists_run Char.isWhitespace cs
    change cs = before ++ skipSpace cs at hcs
    rw [h, List.append_nil] at hcs
    rwa [hcs]

/-- Fields do not begin as names do. -/
theorem readNamed_eq_none {us : List TimeUnit} {nss : List (List Nat)} (h : WritesAll us cs nss) : readNamed cs = none := by
  cases hread : readNamed cs with
  | none => rfl
  | some p =>
    obtain ⟨name, after, hmem, hcs, -⟩ := readNamed_eq_some_iff.mp hread
    obtain ⟨letters, hname⟩ := at_of_named hmem
    have hnext : '@' ∈ (skipSpace cs).head? := by rw [hcs, hname]; rfl
    exact absurd (by simp) (h.not_mark_head hnext)

/-- What is read from a text is what it writes, and nothing from one that writes no schedule. -/
theorem read?_eq_some_iff {text : String} : read? text = some s ↔ Writes text.toList s := by
  rw [read?, Option.bind_eq_bind, Option.bind_eq_some_iff]
  generalize text.toList = cs
  constructor
  · rintro ⟨⟨s', rest⟩, hread, hdone⟩
    dsimp only at hdone
    split at hdone
    · rename_i hempty
      cases hdone
      obtain rfl := List.isEmpty_iff.mp hempty
      rcases Option.or_eq_some_iff.mp hread with hnamed | ⟨-, hfields⟩
      · obtain ⟨name, after, hmem, hcs, hafter⟩ := readNamed_eq_some_iff.mp hnamed
        obtain ⟨before, hbefore, hsplit⟩ := exists_run Char.isWhitespace cs
        change cs = before ++ skipSpace cs at hsplit
        rw [hsplit, hcs]
        exact .named hmem hbefore (spaces_iff.mpr hafter.symm)
      · rcases readFields_eq_some_nil_iff.mp hfields with ⟨hyears, hall⟩ | ⟨years, hyears, hall⟩
        · exact .everyYear hyears hall
        · exact .inYears hyears hall
    · cases hdone
  · intro h
    refine ⟨(s, []), ?_, rfl⟩
    cases h with
    | @named name _ before after h hbefore hafter =>
      obtain ⟨letters, hname⟩ := at_of_named h
      refine Option.or_eq_some_iff.mpr (.inl (readNamed_eq_some_iff.mpr
        ⟨name, after, h, ?_, (spaces_iff.mp hafter).symm⟩))
      rw [skipSpace_append hbefore, hname]
      exact (stops_cons (by decide) _).dropWhile_eq_self
    | everyYear hyears h =>
      rw [readNamed_eq_none h, Option.none_or]
      exact readFields_eq_some_nil_iff.mpr (.inl ⟨hyears, h⟩)
    | inYears hyears h =>
      rw [readNamed_eq_none h, Option.none_or]
      exact readFields_eq_some_nil_iff.mpr (.inr ⟨_, hyears, h⟩)

/-- A schedule that is read lists for each of its units at least one value, and only values of the unit. -/
theorem within_of_read? {text : String} (h : read? text = some s) :
    (∀ p ∈ units.zip s.lists, p.2 ≠ [] ∧ ∀ n ∈ p.2, p.1.Contains n) ∧
      ∀ years ∈ s.years, years ≠ [] ∧ ∀ n ∈ years, TimeUnit.year.Contains n := by
  have hwritten := read?_eq_some_iff.mp h
  generalize text.toList = cs at hwritten
  rcases hwritten with ⟨hmem, -, -⟩ | ⟨hyears, hall⟩ | ⟨hyears, hall⟩
  · have hnamed : ∀ p ∈ named, (∀ q ∈ units.zip p.2.lists, q.2 ≠ [] ∧ ∀ n ∈ q.2, q.1.Contains n) ∧
        p.2.years = none := by decide
    obtain ⟨hlists, hnone⟩ := hnamed _ hmem
    exact ⟨hlists, by rw [hnone]; nofun⟩
  · exact ⟨hall.within, by rw [hyears]; nofun⟩
  · rename_i years
    have hwithin := hall.within
    have hzip : (units ++ [TimeUnit.year]).zip (s.lists ++ [years]) =
        units.zip s.lists ++ [(TimeUnit.year, years)] := rfl
    rw [hzip] at hwithin
    refine ⟨fun p hp => hwithin p (List.mem_append_left _ hp), fun ys hys => ?_⟩
    rw [hyears] at hys
    cases hys
    exact hwithin (.year, years) (List.mem_append_right _ (by simp))

end Schedule

end PriceArchive
