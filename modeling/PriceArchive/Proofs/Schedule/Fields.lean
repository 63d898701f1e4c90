import PriceArchive.Proofs.Schedule.Values
import PriceArchive.Proofs.Text.Alphanumeric
import PriceArchive.Proofs.Text.Numeral
import PriceArchive.Proofs.Text.Runs

namespace PriceArchive

open Numeral

namespace Field

/-- White space. -/
def Spaces (cs : List Char) : Prop := ∀ c ∈ cs, c.isWhitespace = true

/-- The characters of which numbers and words are made. -/
inductive IsClass : (Char → Bool) → Prop where
  | digit : IsClass Char.isDigit
  | letter : IsClass Char.isAlpha

/-- Neither white space nor a character of numbers or words. -/
structure IsMark (c : Char) : Prop where
  not_space : c.isWhitespace = false
  not_class : ∀ p, IsClass p → p c = false

/-- A text does not end with a digit or letter with which another goes on. -/
def Apart (cs ds : List Char) : Prop :=
  ∀ p, IsClass p → ∀ c ∈ cs.getLast?, ∀ d ∈ ds.head?, p c = true → p d = false

/-- Characters of a class, at least one, with white space around them. -/
structure Padded (p : Char → Bool) (cs run : List Char) : Prop where
  ne_nil : run ≠ []
  all : ∀ c ∈ run, p c = true
  exists_spaces : ∃ before after, Spaces before ∧ Spaces after ∧ cs = before ++ (run ++ after)

/-- A number of at most 32 bits. -/
def WritesNumber (cs : List Char) (n : Nat) : Prop :=
  ∃ digits, Padded Char.isDigit cs digits ∧ IsRun digits n ∧ n < UInt32.size

/-- A word of letters. -/
def WritesWord (cs : List Char) (word : String) : Prop := Padded Char.isAlpha cs word.toList

/-- How a run of values is written. -/
inductive Run.Writes (u : TimeUnit) : List Char → Run → Prop where
  | all : Writes u ['*'] .all
  | question (h : u.allowsQuestionMark = true) : Writes u ['?'] .all
  | single {cs : List Char} {n : Nat} (h : WritesNumber cs n) : Writes u cs (.single n)
  | range {cs ds : List Char} {first last : Nat} (hfirst : WritesNumber cs first)
    (hlast : WritesNumber ds last) : Writes u (cs ++ '-' :: ds) (.range first last)
  | namedRange {cs ds : List Char} {first last : String} (hfirst : WritesWord cs first)
    (hlast : WritesWord ds last) : Writes u (cs ++ '-' :: ds) (.namedRange first last)

/-- How an item is written. -/
inductive Item.Writes (u : TimeUnit) : List Char → Item → Prop where
  | run {cs : List Char} {r : Run} (h : r.Writes u cs) : Writes u cs (.run r)
  | stepped {cs ds : List Char} {r : Run} {step : Nat} (h : r.Writes u cs)
    (hstep : WritesNumber ds step) : Writes u (cs ++ '/' :: ds) (.stepped r step)
  | name {cs : List Char} {s : String} (h : WritesWord cs s) : Writes u cs (.name s)

/-- How items are written: with commas between them. -/
inductive WritesItems (u : TimeUnit) : List Char → List Item → Prop where
  | one {cs : List Char} {i : Item} (h : i.Writes u cs) : WritesItems u cs [i]
  | more {cs ds : List Char} {i : Item} {items : List Item} (h : i.Writes u cs)
    (hmore : WritesItems u ds items) : WritesItems u (cs ++ ',' :: ds) (i :: items)

/-- How a field with certain values is written: as items that list them, with white space around. -/
inductive Writes (u : TimeUnit) : List Char → List Nat → Prop where
  | mk {before cs after : List Char} {items : List Item} {ns : List Nat} (hbefore : Spaces before)
    (hafter : Spaces after) (hhead : ∀ c ∈ cs.head?, c.isWhitespace = false)
    (hitems : WritesItems u cs items) (hvalues : values? u items = some ns) :
    Writes u (before ++ (cs ++ after)) ns

/-- The digits of a number are padded. -/
theorem WritesNumber.padded {cs : List Char} {n : Nat} (h : WritesNumber cs n) :
    Padded Char.isDigit cs h.choose := h.choose_spec.1

section Characters

variable {p : Char → Bool} {cs ds run rest : List Char}

theorem IsClass.not_isWhitespace (h : IsClass p) {c : Char} (hc : p c = true) : c.isWhitespace = false := by
  by_contra hspace
  obtain rfl | rfl | rfl | rfl := isWhitespace_cases (Bool.not_eq_false _ ▸ hspace) <;>
    cases h <;> revert hc <;> decide

theorem IsClass.eq_of_both (h : IsClass p) {q : Char → Bool} (hq : IsClass q) {c : Char} (hp : p c = true)
    (hqc : q c = true) : p = q := by
  have hnot : c.isDigit = true → c.isAlpha = true → False := fun hdigit halpha => by
    have := isDigit_range hdigit
    have := isAlpha_range halpha
    omega
  cases h <;> cases hq
  · rfl
  · exact (hnot hp hqc).elim
  · exact (hnot hqc hp).elim
  · rfl

theorem apart_of_last (h : ∀ c ∈ cs.getLast?, ∀ p, IsClass p → p c = false) : Apart cs ds := by
  intro p hp c hc d _ hpc
  rw [h c hc p hp] at hpc
  cases hpc

theorem Apart.right (h : Apart (cs ++ ds) rest) : Apart ds rest := by
  intro p hp c hc
  exact h p hp c (List.mem_getLast?_append_of_mem_getLast? hc)

theorem Apart.append (h : Apart ds rest) (hne : ds ≠ []) : Apart (cs ++ ds) rest := by
  intro p hp c hc
  rw [List.getLast?_append_of_ne_nil _ hne] at hc
  exact h p hp c hc

theorem Apart.cons (h : Apart ds rest) (c : Char) (hne : ds ≠ []) : Apart (c :: ds) rest := by
  rw [← List.singleton_append]
  exact h.append hne

theorem isMark {c : Char} (h : c ∈ ['*', '?', '-', '/', ',', '@']) : IsMark c := by
  have hall : (['*', '?', '-', '/', ',', '@'].all fun c =>
      !c.isWhitespace && !c.isDigit && !c.isAlpha) = true := by decide
  obtain ⟨⟨hspace, hdigit⟩, halpha⟩ :
      (c.isWhitespace = false ∧ c.isDigit = false) ∧ c.isAlpha = false := by
    simpa using List.all_eq_true.mp hall c h
  refine ⟨hspace, ?_⟩
  rintro p (_ | _)
  · exact hdigit
  · exact halpha

theorem IsMark.apart {c : Char} (h : IsMark c) : Apart cs (c :: rest) := by
  intro p hp b _ d hd _
  cases hd
  exact h.not_class p hp

theorem not_class_of_isWhitespace {c : Char} (h : c.isWhitespace = true) (p : Char → Bool)
    (hp : IsClass p) : p c = false := by
  by_contra hclass
  rw [hp.not_isWhitespace (Bool.not_eq_false _ ▸ hclass)] at h
  cases h

theorem skipSpace_append (h : Spaces cs) (ds : List Char) : skipSpace (cs ++ ds) = skipSpace ds :=
  List.dropWhile_append_of_pos h

/-- After white space at its end a text is apart from everything. -/
theorem Spaces.apart (h : Spaces ds) (hne : ds ≠ []) : Apart (cs ++ ds) rest := by
  refine Apart.append (apart_of_last fun c hc => ?_) hne
  exact not_class_of_isWhitespace (h c (List.mem_of_getLast? hc))

end Characters

section Tokens

variable {p : Char → Bool} {cs text run rest : List Char}

/-- Reads a run of characters, with the white space around it. -/
def token (p : Char → Bool) : Reader (List Char) := fun cs =>
  let run := (skipSpace cs).takeWhile p
  if run.isEmpty then none else some (run, skipSpace ((skipSpace cs).drop run.length))

theorem number_eq (cs : List Char) :
    number cs = (token Char.isDigit cs).bind fun (run, rest) =>
      if foldDigits 0 run < UInt32.size then some (foldDigits 0 run, rest) else none := by
  rw [number, takeAllDigits, takeDigits, List.take_length, token]
  dsimp only
  split <;> rfl

theorem word_eq (cs : List Char) :
    word cs = (token Char.isAlpha cs).map fun (run, rest) => (String.ofList run, rest) := by
  rw [word, token]
  dsimp only
  split <;> rfl

theorem token_eq (cs : List Char) :
    token p cs =
      if (skipSpace cs).takeWhile p = [] then none
      else some ((skipSpace cs).takeWhile p, skipSpace ((skipSpace cs).dropWhile p)) := by
  rw [token]
  simp only [drop_length_takeWhile, List.isEmpty_iff]

theorem token_reads (hp : IsClass p) (h : token p cs = some (run, rest)) :
    ∃ text, cs = text ++ rest ∧ Padded p text run ∧ text ≠ [] ∧ Apart text rest := by
  rw [token_eq] at h
  split at h
  · cases h
  rename_i hne
  obtain ⟨before, hbefore, hcs⟩ := exists_run Char.isWhitespace cs
  obtain ⟨run', hrun, hsplit⟩ := exists_run p (skipSpace cs)
  obtain ⟨after, hafter, hrest⟩ := exists_run Char.isWhitespace ((skipSpace cs).dropWhile p)
  have htake : (skipSpace cs).takeWhile p = run' := by
    rw [hsplit, takeWhile_run hrun (stops_dropWhile p _)]
  rw [htake] at h hne
  cases h
  refine ⟨before ++ (run ++ after), ?_, ⟨hne, hrun, before, after, hbefore, hafter, rfl⟩, by simp [hne], ?_⟩
  · rw [List.append_assoc, List.append_assoc]
    change _ = before ++ (run ++ (after ++ List.dropWhile Char.isWhitespace _))
    rw [← hrest, ← hsplit]
    exact hcs
  · refine Apart.append ?_ (by simp [hne])
    by_cases hnone : after = []
    · -- Nothing but the end of the run keeps the text from going on.
      subst hnone
      rw [List.append_nil]
      have hstop : Stops p (skipSpace ((skipSpace cs).dropWhile p)) := by
        rw [skipSpace, ← List.nil_append (List.dropWhile _ _), ← hrest]
        exact stops_dropWhile p _
      intro q hq c hc d hd hqc
      rw [← hp.eq_of_both hq (hrun c (List.mem_of_getLast? hc)) hqc]
      exact hstop d hd
    · exact Spaces.apart hafter hnone

/-- A padded run is taken off whole, and white space after it too. -/
theorem token_append (hp : IsClass p) (h : Padded p text run) (hapart : Apart text rest) :
    token p (text ++ rest) = some (run, skipSpace rest) := by
  obtain ⟨hne, hrun, before, after, hbefore, hafter, rfl⟩ := h
  have hstart : skipSpace (before ++ (run ++ after) ++ rest) = run ++ (after ++ rest) := by
    rw [List.append_assoc, skipSpace_append hbefore, List.append_assoc]
    refine Stops.dropWhile_eq_self fun c hc => ?_
    rw [List.head?_append_of_ne_nil _ hne] at hc
    exact hp.not_isWhitespace (hrun c (List.mem_of_head? hc))
  have hstop : Stops p (after ++ rest) := by
    intro c hc
    by_cases hnone : after = []
    · subst hnone
      rw [List.append_nil] at hapart
      obtain ⟨last, hlast⟩ := Option.isSome_iff_exists.mp (List.getLast?_isSome.mpr hne)
      exact hapart.right p hp last hlast c hc (hrun last (List.mem_of_getLast? hlast))
    · rw [List.head?_append_of_ne_nil _ hnone] at hc
      exact not_class_of_isWhitespace (hafter c (List.mem_of_head? hc)) p hp
  rw [token_eq, hstart, takeWhile_run hrun hstop, if_neg hne, dropWhile_run hrun hstop,
    skipSpace_append hafter]

theorem token_eq_none (h : Stops p (skipSpace cs)) : token p cs = none := by
  rw [token_eq, h.takeWhile_eq_nil, if_pos rfl]

theorem number_append {n : Nat} (h : WritesNumber text n) (hapart : Apart text rest) :
    number (text ++ rest) = some (n, skipSpace rest) := by
  obtain ⟨digits, hpadded, hrun, hlt⟩ := h
  have hvalue : foldDigits 0 digits = n := (foldDigits_eq_ofDigitChars 0 hrun.isDigit).trans hrun.value
  rw [number_eq, token_append .digit hpadded hapart]
  change (if _ then _ else _) = _
  rw [hvalue, if_pos hlt]

theorem word_append {w : String} (h : WritesWord text w) (hapart : Apart text rest) :
    word (text ++ rest) = some (w, skipSpace rest) := by
  rw [word_eq, token_append .letter h hapart]
  exact congrArg some (Prod.ext (String.ofList_toList) rfl)

theorem number_eq_none (h : Stops Char.isDigit (skipSpace cs)) : number cs = none := by
  rw [number_eq, token_eq_none h]
  rfl

end Tokens

/-- What a reader takes from a text is written there, and no run of digits or letters is cut. -/
def Reads {α : Type} (reader : Reader α) (Written : List Char → α → Prop) : Prop :=
  ∀ cs a rest, reader cs = some (a, rest) →
    ∃ text, cs = text ++ rest ∧ Written text a ∧ text ≠ [] ∧ Apart text rest

section Sound

variable {α β : Type} {reader other : Reader α} {Written Written' : List Char → α → Prop}

theorem Reads.imp (h : Reads reader Written) (himp : ∀ text a, Written text a → Written' text a) :
    Reads reader Written' := by
  intro cs a rest hread
  obtain ⟨text, hcs, hwritten, hne, hapart⟩ := h cs a rest hread
  exact ⟨text, hcs, himp text a hwritten, hne, hapart⟩

theorem Reads.either (h : Reads reader Written) (h' : Reads other Written) :
    Reads (either reader other) Written := by
  intro cs a rest hread
  rcases Option.or_eq_some_iff.mp hread with hread | ⟨-, hread⟩
  · exact h cs a rest hread
  · exact h' cs a rest hread

theorem Reads.mapped (h : Reads reader Written) (f : α → β) :
    Reads (mapped f reader) fun text b => ∃ a, Written text a ∧ f a = b := by
  intro cs b rest hread
  obtain ⟨⟨a, left⟩, hread, heq⟩ := Option.map_eq_some_iff.mp hread
  cases heq
  obtain ⟨text, hcs, hwritten, hne, hapart⟩ := h cs a rest hread
  exact ⟨text, hcs, ⟨a, hwritten, rfl⟩, hne, hapart⟩

theorem mark_eq_some_iff {c : Char} {cs rest : List Char} {x : Unit} :
    mark c cs = some (x, rest) ↔ cs = c :: rest := by
  cases cs with
  | nil => exact iff_of_false nofun nofun
  | cons d cs =>
    rw [mark]
    by_cases h : c = d
    · subst h
      simp
    · rw [if_neg h]
      exact iff_of_false nofun fun heq => h (List.cons.inj heq).1.symm

theorem mark_reads {c : Char} (hc : IsMark c) : Reads (mark c) fun text _ => text = [c] := by
  intro cs _ rest hread
  refine ⟨[c], mark_eq_some_iff.mp hread, rfl, List.cons_ne_nil _ _, apart_of_last fun d hd => ?_⟩
  cases hd
  exact hc.not_class

theorem Reads.separated {right : Reader β} {WrittenRight : List Char → β → Prop} (h : Reads reader Written)
    (c : Char) (hright : Reads right WrittenRight) :
    Reads (separated reader c right) fun text p =>
      ∃ cs ds, text = cs ++ c :: ds ∧ Written cs p.1 ∧ WrittenRight ds p.2 := by
  intro cs p rest hread
  obtain ⟨⟨a, afterLeft⟩, hleft, hread⟩ := Option.bind_eq_some_iff.mp hread
  obtain ⟨⟨x, afterMark⟩, hmark, hread⟩ := Option.bind_eq_some_iff.mp hread
  obtain ⟨⟨b, afterRight⟩, hb, hread⟩ := Option.bind_eq_some_iff.mp hread
  cases hread
  obtain ⟨text, hcs, hwritten, -, -⟩ := h _ _ _ hleft
  obtain ⟨text', hrest, hwritten', hne, hapart⟩ := hright _ _ _ hb
  refine ⟨text ++ c :: text', ?_, ⟨text, text', rfl, hwritten, hwritten'⟩, by simp, ?_⟩
  · rw [hcs, mark_eq_some_iff.mp hmark, hrest, List.append_assoc, List.cons_append]
  · exact (hapart.cons c hne).append (List.cons_ne_nil _ _)

theorem number_reads : Reads number WritesNumber := by
  intro cs n rest hread
  rw [number_eq] at hread
  obtain ⟨⟨run, left⟩, htoken, hread⟩ := Option.bind_eq_some_iff.mp hread
  obtain ⟨text, hcs, hpadded, hne, hapart⟩ := token_reads .digit htoken
  dsimp only at hread
  split at hread
  · rename_i hlt
    cases hread
    have hrun : IsRun run (foldDigits 0 run) :=
      ⟨hpadded.ne_nil, hpadded.all, (foldDigits_eq_ofDigitChars 0 hpadded.all).symm⟩
    exact ⟨text, hcs, ⟨run, hpadded, hrun, hlt⟩, hne, hapart⟩
  · cases hread

theorem word_reads : Reads word WritesWord := by
  intro cs w rest hread
  rw [word_eq] at hread
  obtain ⟨⟨run, left⟩, htoken, heq⟩ := Option.map_eq_some_iff.mp hread
  cases heq
  obtain ⟨text, hcs, hpadded, hne, hapart⟩ := token_reads .letter htoken
  exact ⟨text, hcs, by rwa [WritesWord, String.toList_ofList], hne, hapart⟩

theorem run_reads (u : TimeUnit) : Reads (run u) fun text r => r.Writes u text := by
  have hplain : Reads plainRun fun text r => Run.Writes u text r := by
    refine .either ?_ (.either ?_ (.either ?_ ?_))
    · refine ((mark_reads (isMark (by decide))).mapped _).imp ?_
      rintro text r ⟨-, rfl, rfl⟩
      exact .all
    · refine ((number_reads.separated '-' number_reads).mapped _).imp ?_
      rintro text r ⟨⟨first, last⟩, ⟨cs, ds, rfl, hfirst, hlast⟩, rfl⟩
      exact .range hfirst hlast
    · refine (number_reads.mapped _).imp ?_
      rintro text r ⟨n, hn, rfl⟩
      exact .single hn
    · refine ((word_reads.separated '-' word_reads).mapped _).imp ?_
      rintro text r ⟨⟨first, last⟩, ⟨cs, ds, rfl, hfirst, hlast⟩, rfl⟩
      exact .namedRange hfirst hlast
  rw [run]
  split
  · rename_i hallows
    refine .either (((mark_reads (isMark (by decide))).mapped _).imp ?_) hplain
    rintro text r ⟨-, rfl, rfl⟩
    exact .question hallows
  · exact hplain

theorem item_reads (u : TimeUnit) : Reads (item u) fun text i => i.Writes u text := by
  refine .either ?_ (.either ?_ ?_)
  · refine (((run_reads u).separated '/' number_reads).mapped _).imp ?_
    rintro text i ⟨⟨r, step⟩, ⟨cs, ds, rfl, hr, hstep⟩, rfl⟩
    exact .stepped hr hstep
  · refine ((run_reads u).mapped _).imp ?_
    rintro text i ⟨r, hr, rfl⟩
    exact .run hr
  · refine (word_reads.mapped _).imp ?_
    rintro text i ⟨s, hs, rfl⟩
    exact .name hs

end Sound

/-- What may follow a text: it is apart, and none of certain marks comes next, not even after white space. -/
structure Ends (marks text rest : List Char) : Prop where
  apart : Apart text rest
  not_mark : ∀ c ∈ (skipSpace rest).head?, c ∉ marks

/-- The reader takes the text off from before the rest, perhaps with white space after it. -/
def Takes {α : Type} (reader : Reader α) (text : List Char) (a : α) (rest : List Char) : Prop :=
  ∃ left, reader (text ++ rest) = some (a, left) ∧ (left = rest ∨ left = skipSpace rest)

section Complete

variable {α β : Type} {reader other : Reader α} {u : TimeUnit} {text cs ds rest left marks : List Char}

theorem Ends.mono {marks' : List Char} (h : Ends marks text rest) (hsub : marks' ⊆ marks) :
    Ends marks' text rest :=
  ⟨h.apart, fun c hc hmem => h.not_mark c hc (hsub hmem)⟩

theorem Ends.right {c : Char} (h : Ends marks (cs ++ c :: ds) rest) : Ends marks ds rest := by
  have hapart := h.apart
  rw [List.append_cons] at hapart
  exact ⟨hapart.right, h.not_mark⟩

/-- Another mark comes next. -/
theorem IsMark.ends {c : Char} (h : IsMark c) (hc : c ∉ marks) : Ends marks text (c :: rest) := by
  refine ⟨h.apart, fun d hd => ?_⟩
  rw [skipSpace, (stops_cons h.not_space rest).dropWhile_eq_self] at hd
  cases hd
  exact hc

theorem IsMark.skipSpace {c : Char} (h : IsMark c) : Field.skipSpace (c :: rest) = c :: rest :=
  (stops_cons h.not_space rest).dropWhile_eq_self

theorem either_of_eq_none {cs : List Char} (h : reader cs = none) : either reader other cs = other cs := by
  rw [either, h, Option.none_or]

theorem either_of_eq_some {cs : List Char} {a : α × List Char} (h : reader cs = some a) :
    either reader other cs = some a := by
  rw [either, h, Option.some_or]

theorem mapped_of_eq_some {cs : List Char} {a : α} {f : α → β} (h : reader cs = some (a, rest)) :
    mapped f reader cs = some (f a, rest) := by
  rw [mapped, h]
  rfl

theorem mapped_of_eq_none {cs : List Char} {f : α → β} (h : reader cs = none) : mapped f reader cs = none := by
  rw [mapped, h]
  rfl

theorem mark_cons (c : Char) (rest : List Char) : mark c (c :: rest) = some ((), rest) :=
  mark_eq_some_iff.mpr rfl

theorem mark_eq_none {c : Char} (h : c ∉ cs.head?) : mark c cs = none := by
  cases cs with
  | nil => rfl
  | cons d cs =>
    have hne : c ≠ d := fun heq => h (heq ▸ rfl)
    exact if_neg hne

section Separated

variable {right : Reader β} {c : Char} {a : α} {b : β}

theorem separated_of_eq_none (h : reader cs = none) : separated reader c right cs = none := by
  rw [separated, h]
  rfl

theorem separated_of_mark_eq_none (h : reader cs = some (a, rest)) (hmark : mark c rest = none) :
    separated reader c right cs = none := by
  rw [separated, h]
  change (mark c rest).bind _ = none
  rw [hmark]
  rfl

theorem separated_of_eq_some (h : reader cs = some (a, c :: ds)) (hright : right ds = some (b, rest)) :
    separated reader c right cs = some ((a, b), rest) := by
  rw [separated, h]
  change (mark c (c :: ds)).bind _ = _
  rw [mark_cons]
  change (right ds).bind _ = _
  rw [hright]
  rfl

end Separated

/-- A mark that is not next after white space is not next. -/
theorem Ends.mark_eq_none (h : Ends marks text rest) {c : Char} (hc : c ∈ marks) (hmark : IsMark c)
    (hleft : left = rest ∨ left = skipSpace rest) : mark c left = none := by
  refine Field.mark_eq_none fun hnext => ?_
  rcases hleft with rfl | rfl
  · obtain ⟨tail, rfl⟩ := List.head?_eq_some_iff.mp hnext
    exact h.not_mark c (by rw [hmark.skipSpace]; rfl) hc
  · exact h.not_mark c hnext hc

/-- In front of a mark that is not asked for nothing more is taken off. -/
theorem Takes.of_mark {a : α} {c : Char} (h : Takes reader text a (c :: rest)) (hc : IsMark c) :
    reader (text ++ c :: rest) = some (a, c :: rest) := by
  obtain ⟨left, hread, rfl | rfl⟩ := h
  · exact hread
  · rwa [hc.skipSpace] at hread

section Padded

variable {p : Char → Bool} {run : List Char}

theorem Padded.ne_nil_text (h : Padded p text run) : text ≠ [] := by
  obtain ⟨hne, -, before, after, -, -, rfl⟩ := h
  simp [hne]

/-- A padded run does not begin with a mark. -/
theorem Padded.not_isMark (hp : IsClass p) (h : Padded p text run) {c : Char}
    (hnext : c ∈ (text ++ rest).head?) : ¬ IsMark c := by
  intro hc
  rw [List.head?_append_of_ne_nil _ h.ne_nil_text] at hnext
  obtain ⟨hne, hrun, before, after, hbefore, hafter, rfl⟩ := h
  by_cases hnone : before = []
  · subst hnone
    rw [List.nil_append, List.head?_append_of_ne_nil _ hne] at hnext
    have hclass := hrun c (List.mem_of_head? hnext)
    rw [hc.not_class p hp] at hclass
    cases hclass
  · rw [List.head?_append_of_ne_nil _ hnone] at hnext
    have hspace := hbefore c (List.mem_of_head? hnext)
    rw [hc.not_space] at hspace
    cases hspace

theorem Padded.mark_eq_none (hp : IsClass p) (h : Padded p text run) {c : Char} (hc : IsMark c) :
    mark c (text ++ rest) = none :=
  Field.mark_eq_none fun hnext => h.not_isMark hp hnext hc

/-- After the white space comes the run. -/
theorem Padded.stops (hp : IsClass p) (h : Padded p text run) {q : Char → Bool} (hq : IsClass q)
    (hne : q ≠ p) : Stops q (skipSpace (text ++ rest)) := by
  obtain ⟨hrun, hall, before, after, hbefore, hafter, rfl⟩ := h
  obtain ⟨c, run, rfl⟩ := List.exists_cons_of_ne_nil hrun
  have hc := hall c List.mem_cons_self
  rw [List.append_assoc, skipSpace_append hbefore, List.append_assoc, List.cons_append, skipSpace,
    (stops_cons (hp.not_isWhitespace hc) _).dropWhile_eq_self]
  refine stops_cons ?_ _
  by_contra hqc
  exact hne (hq.eq_of_both hp (Bool.not_eq_false _ ▸ hqc) hc)

end Padded

theorem WritesNumber.before_mark {n : Nat} (h : WritesNumber text n) {c : Char} (hc : IsMark c)
    (rest : List Char) : number (text ++ c :: rest) = some (n, c :: rest) := by
  rw [number_append h hc.apart, hc.skipSpace]

theorem WritesWord.before_mark {w : String} (h : WritesWord text w) {c : Char} (hc : IsMark c)
    (rest : List Char) : word (text ++ c :: rest) = some (w, c :: rest) := by
  rw [word_append h hc.apart, hc.skipSpace]

theorem WritesWord.number_eq_none {w : String} (h : WritesWord text w) : number (text ++ rest) = none :=
  Field.number_eq_none (Padded.stops .letter h .digit (by
    intro heq
    exact absurd (congrFun heq '0') (by decide)))

/-- A run that does not begin with a mark is read as numbers or words. -/
theorem run_of_padded {p : Char → Bool} {run : List Char} (hp : IsClass p) (h : Padded p text run) :
    Field.run u (text ++ rest) =
      either (mapped (fun (a, b) => .range a b) (separated number '-' number))
        (either (mapped .single number)
          (mapped (fun (a, b) => .namedRange a b) (separated word '-' word))) (text ++ rest) := by
  have hplain : plainRun (text ++ rest) =
      either (mapped (fun (a, b) => .range a b) (separated number '-' number))
        (either (mapped .single number)
          (mapped (fun (a, b) => .namedRange a b) (separated word '-' word))) (text ++ rest) :=
    either_of_eq_none (mapped_of_eq_none (h.mark_eq_none hp (isMark (by decide))))
  rw [Field.run]
  split
  · exact (either_of_eq_none (mapped_of_eq_none (h.mark_eq_none hp (isMark (by decide))))).trans hplain
  · exact hplain

/-- A run is taken off from before what does not go on with it. -/
theorem Run.Writes.takes {r : Run} (h : r.Writes u text) (hends : Ends ['-'] text rest) :
    Takes (Field.run u) text r rest := by
  have hdash : IsMark '-' := isMark (by decide)
  cases h with
  | all =>
    have hplain : plainRun ('*' :: rest) = some (.all, rest) :=
      either_of_eq_some (mapped_of_eq_some (mark_cons '*' rest))
    refine ⟨rest, ?_, .inl rfl⟩
    rw [Field.run]
    split
    · exact (either_of_eq_none (mapped_of_eq_none (mark_eq_none (by simp)))).trans hplain
    · exact hplain
  | question hallows =>
    refine ⟨rest, ?_, .inl rfl⟩
    rw [Field.run, if_pos hallows]
    exact either_of_eq_some (mapped_of_eq_some (mark_cons '?' rest))
  | single h =>
    have hread := number_append h hends.apart
    refine ⟨_, ?_, .inr rfl⟩
    rw [run_of_padded .digit h.padded, either_of_eq_none, either_of_eq_some]
    · exact mapped_of_eq_some hread
    · exact mapped_of_eq_none
        (separated_of_mark_eq_none hread (hends.mark_eq_none (by simp) hdash (.inr rfl)))
  | @range cs ds first last hfirst hlast =>
    refine ⟨_, ?_, .inr rfl⟩
    rw [List.append_assoc, List.cons_append, run_of_padded .digit hfirst.padded]
    exact either_of_eq_some (mapped_of_eq_some (separated_of_eq_some (hfirst.before_mark hdash _)
      (number_append hlast hends.right.apart)))
  | @namedRange cs ds first last hfirst hlast =>
    refine ⟨_, ?_, .inr rfl⟩
    rw [List.append_assoc, List.cons_append, run_of_padded .letter hfirst, either_of_eq_none,
      either_of_eq_none]
    · exact mapped_of_eq_some (separated_of_eq_some (hfirst.before_mark hdash _)
        (word_append hlast hends.right.apart))
    · exact mapped_of_eq_none hfirst.number_eq_none
    · exact mapped_of_eq_none (separated_of_eq_none hfirst.number_eq_none)

/-- A word alone is no run. -/
theorem WritesWord.run_eq_none {w : String} (h : WritesWord text w) (hends : Ends ['-'] text rest) :
    Field.run u (text ++ rest) = none := by
  rw [run_of_padded .letter h, either_of_eq_none, either_of_eq_none]
  · exact mapped_of_eq_none (separated_of_mark_eq_none (word_append h hends.apart)
      (hends.mark_eq_none (by simp) (isMark (by decide)) (.inr rfl)))
  · exact mapped_of_eq_none h.number_eq_none
  · exact mapped_of_eq_none (separated_of_eq_none h.number_eq_none)

/-- An item is taken off from before what does not go on with it. -/
theorem Item.Writes.takes {i : Item} (h : i.Writes u text) (hends : Ends ['-', '/'] text rest) :
    Takes (item u) text i rest := by
  have hslash : IsMark '/' := isMark (by decide)
  cases h with
  | run h =>
    obtain ⟨left, hread, hleft⟩ := h.takes (hends.mono (by simp))
    refine ⟨left, ?_, hleft⟩
    rw [item, either_of_eq_none, either_of_eq_some]
    · exact mapped_of_eq_some hread
    · exact mapped_of_eq_none
        (separated_of_mark_eq_none hread (hends.mark_eq_none (by simp) hslash hleft))
  | @stepped cs ds r step h hstep =>
    have hends' : Ends ['-'] cs ('/' :: (ds ++ rest)) := hslash.ends (by simp)
    have hread := (h.takes hends').of_mark hslash
    refine ⟨_, ?_, .inr rfl⟩
    rw [List.append_assoc, List.cons_append]
    exact either_of_eq_some (mapped_of_eq_some (separated_of_eq_some hread
      (number_append hstep hends.right.apart)))
  | name h =>
    have hnone := h.run_eq_none (u := u) (hends.mono (by simp))
    refine ⟨_, ?_, .inr rfl⟩
    rw [item, either_of_eq_none, either_of_eq_none]
    · exact mapped_of_eq_some (word_append h hends.apart)
    · exact mapped_of_eq_none hnone
    · exact mapped_of_eq_none (separated_of_eq_none hnone)

theorem Run.Writes.ne_nil {r : Run} (h : r.Writes u text) : text ≠ [] := by
  cases h with
  | all => simp
  | question _ => simp
  | single h => exact h.padded.ne_nil_text
  | range _ _ => simp
  | namedRange _ _ => simp

theorem Item.Writes.ne_nil {i : Item} (h : i.Writes u text) : text ≠ [] := by
  cases h with
  | run h => exact h.ne_nil
  | stepped _ _ => simp
  | name h => exact Padded.ne_nil_text h

/-- A run of values begins with no mark but one that stands for all values. -/
theorem Run.Writes.not_mark_head {r : Run} (h : r.Writes u text) {c : Char} (hc : c ∈ (text ++ rest).head?) :
    c ∉ ['-', '/', ',', '@'] := by
  have hnot (hmark : ¬ IsMark c) : c ∉ ['-', '/', ',', '@'] := fun hmem =>
    hmark (isMark (List.mem_cons_of_mem _ (List.mem_cons_of_mem _ hmem)))
  cases h with
  | all => cases hc; decide
  | question _ => cases hc; decide
  | single h => exact hnot (h.padded.not_isMark .digit hc)
  | range hfirst _ =>
    rw [List.append_assoc] at hc
    exact hnot (hfirst.padded.not_isMark .digit hc)
  | namedRange hfirst _ =>
    rw [List.append_assoc] at hc
    exact hnot (Padded.not_isMark .letter hfirst hc)

theorem Item.Writes.not_mark_head {i : Item} (h : i.Writes u text) {c : Char}
    (hc : c ∈ (text ++ rest).head?) : c ∉ ['-', '/', ',', '@'] := by
  cases h with
  | run h => exact h.not_mark_head hc
  | stepped h _ =>
    rw [List.append_assoc] at hc
    exact h.not_mark_head hc
  | name h =>
    exact fun hmem => Padded.not_isMark .letter h hc
      (isMark (List.mem_cons_of_mem _ (List.mem_cons_of_mem _ hmem)))

end Complete

end Field

end PriceArchive
