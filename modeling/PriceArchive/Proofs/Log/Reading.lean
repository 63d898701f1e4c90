import Mathlib.Data.List.Forall2
import PriceArchive.Log.Filter
import PriceArchive.Proofs.Text.Alphanumeric
import PriceArchive.Proofs.Text.Numeral
import PriceArchive.Proofs.Text.Runs

namespace PriceArchive

open Numeral

/-- Among different keys a look-up finds the pairs that are there. -/
theorem lookup_eq_some_iff_mem {α β : Type} [BEq α] [LawfulBEq α] {pairs : List (α × β)} {key : α} {b : β}
    (h : (pairs.map Prod.fst).Nodup) : pairs.lookup key = some b ↔ (key, b) ∈ pairs := by
  rw [List.lookup_eq_some_iff]
  constructor
  · rintro ⟨before, after, rfl, -⟩
    simp
  · intro hmem
    obtain ⟨before, after, rfl⟩ := List.append_of_mem hmem
    refine ⟨before, after, rfl, fun p hp => ?_⟩
    rw [List.map_append, List.map_cons, List.nodup_append] at h
    have hne := h.2.2 p.1 (List.mem_map_of_mem hp) key (by simp)
    simpa using hne.symm

theorem mapM_eq_some_iff {α β : Type} {f : α → Option β} {xs : List α} {ys : List β} :
    xs.mapM f = some ys ↔ List.Forall₂ (fun x y => f x = some y) xs ys := by
  induction xs generalizing ys with
  | nil =>
    rw [List.mapM_nil]
    constructor
    · rintro ⟨⟩
      exact .nil
    · rintro ⟨⟩
      rfl
  | cons x xs ih =>
    rw [List.mapM_cons, Option.bind_eq_bind, Option.bind_eq_some_iff]
    constructor
    · rintro ⟨y, hy, hrest⟩
      obtain ⟨rest, hread, heq⟩ := Option.bind_eq_some_iff.mp hrest
      cases heq
      exact .cons hy (ih.mp hread)
    · intro h
      cases h with
      | cons hy hrest => exact ⟨_, hy, Option.bind_eq_some_iff.mpr ⟨_, ih.mpr hrest, rfl⟩⟩

namespace LogFilter

section Levels

variable {text : String} {limit : Nat}

/-- The names of the limits, in lower case. -/
def limitNames : List (String × Nat) :=
  [("off", 0), ("error", 1), ("warn", 2), ("info", 3), ("debug", 4), ("trace", 5)]

/-- How a limit is written: as a number, or by its name in upper or lower case. -/
def WritesLimit (text : String) (limit : Nat) : Prop :=
  WritesNatural text limit ∧ limit ≤ LogLevel.trace.rank ∨ (text.toLower, limit) ∈ limitNames

theorem toLower_of_isDigit {c : Char} (h : c.isDigit = true) : c.toLower = c := by
  have hrange := isDigit_range h
  unfold Char.toLower
  split
  · rename_i hupper
    have hle : 65 ≤ c.toNat := UInt32.le_iff_toNat_le.mp hupper.1
    omega
  · rfl

/-- No name of a limit begins with a digit or a sign. -/
theorem head?_limitNames {name : String} (h : (name, limit) ∈ limitNames) :
    ∀ c ∈ name.toList.head?, c.isDigit = false ∧ c ≠ '+' := by
  have hall : (limitNames.all fun p => p.1.toList.head?.all fun c => !c.isDigit && c != '+') = true := by decide
  intro c hc
  have hletter := List.all_eq_true.mp hall _ h
  rw [Option.mem_def.mp hc] at hletter
  simpa using hletter

/-- A sign and a digit are the same in lower case, and no name begins with one. -/
theorem not_name_of_writesNatural {n : Nat} (h : WritesNatural text n) :
    (text.toLower, limit) ∉ limitNames := by
  intro hmem
  have hletters := head?_limitNames hmem
  have hlower : text.toLower.toList = text.toList.map Char.toLower := String.toList_map
  obtain ⟨digits, hrun, htext | htext⟩ := h
  · obtain ⟨d, rest, rfl⟩ := List.exists_cons_of_ne_nil hrun.ne_nil
    have hd := hrun.isDigit d List.mem_cons_self
    have hhead : d ∈ text.toLower.toList.head? := by
      rw [hlower, htext, List.map_cons, toLower_of_isDigit hd]
      rfl
    rw [(hletters d hhead).1] at hd
    cases hd
  · have hhead : '+' ∈ text.toLower.toList.head? := by
      rw [hlower, htext]
      rfl
    exact (hletters '+' hhead).2 rfl

theorem limit?_eq_some_iff : limit? text = some limit ↔ WritesLimit text limit := by
  rw [limit?, WritesLimit]
  cases hread : natural? text with
  | some n =>
    have hwrites := natural?_eq_some_iff.mp hread
    rw [or_iff_left (not_name_of_writesNatural hwrites)]
    dsimp only
    by_cases hle : n ≤ LogLevel.trace.rank
    · rw [if_pos hle, Option.some.injEq]
      constructor
      · rintro rfl
        exact ⟨hwrites, hle⟩
      · rintro ⟨h, -⟩
        rw [natural?_eq_some_iff.mpr h] at hread
        exact (Option.some.inj hread).symm
    · rw [if_neg hle]
      refine iff_of_false nofun fun ⟨h, hlimit⟩ => ?_
      rw [natural?_eq_some_iff.mpr h] at hread
      cases hread
      exact hle hlimit
  | none =>
    have hnot : ¬ (WritesNatural text limit ∧ limit ≤ LogLevel.trace.rank) := fun ⟨h, _⟩ => by
      rw [natural?_eq_some_iff.mpr h] at hread
      cases hread
    rw [or_iff_right hnot]
    exact lookup_eq_some_iff_mem (by decide)

end Levels

section Directives

variable {cs : List Char} {limit : Nat}

/-- The limit after an equals sign: one that is written, or the greatest where there is nothing. -/
def WritesLimitAfterEquals (level : List Char) (limit : Nat) : Prop :=
  level = [] ∧ limit = LogLevel.trace.rank ∨ WritesLimit (String.ofList level) limit

/-- What may follow the bracket that ends a span. -/
def EndsSpan (cs : List Char) : Prop :=
  cs = [] ∨ ∃ level limit, cs = '=' :: level ∧ WritesLimitAfterEquals level limit

/-- How a span is written after its bracket: a name, perhaps with fields in braces. -/
inductive WritesSpan : List Char → Prop where
  | plain {name rest : List Char} (hname : ∀ c ∈ name, c ≠ ']' ∧ c ≠ '{') (hrest : EndsSpan rest) :
    WritesSpan (name ++ ']' :: rest)
  | fields {name fields rest : List Char} (hname : ∀ c ∈ name, c ≠ ']' ∧ c ≠ '{') (hne : fields ≠ [])
    (hfields : ∀ c ∈ fields, c ≠ '}') (hrest : EndsSpan rest) :
    WritesSpan (name ++ '{' :: (fields ++ '}' :: ']' :: rest))

/-- How a directive is written that begins with its target or its level; one about spans says nothing about
lines. -/
inductive WritesTrimmed : List Char → Option LogDirective → Prop where
  | span {name rest : List Char} (hname : ∀ c ∈ name, c ≠ '=' ∧ c ≠ '[') (h : WritesSpan rest) :
    WritesTrimmed (name ++ '[' :: rest) none
  | targetLimit {target level : List Char} {limit : Nat} (htarget : ∀ c ∈ target, c ≠ '=' ∧ c ≠ '[')
    (h : WritesLimitAfterEquals level limit) :
    WritesTrimmed (target ++ '=' :: level) (some ⟨some (String.ofList target), limit⟩)
  | limit {cs : List Char} {limit : Nat} (hcs : ∀ c ∈ cs, c ≠ '=' ∧ c ≠ '[')
    (h : WritesLimit (String.ofList cs) limit) : WritesTrimmed cs (some ⟨none, limit⟩)
  | target {cs : List Char} (hcs : ∀ c ∈ cs, c ≠ '=' ∧ c ≠ '[')
    (h : ∀ limit, ¬ WritesLimit (String.ofList cs) limit) :
    WritesTrimmed cs (some ⟨some (String.ofList cs), LogLevel.trace.rank⟩)

/-- How a directive is written. White space may stand before the bracket of a span; before a target it
belongs to it, and then no level may follow. -/
inductive WritesDirective : List Char → Option LogDirective → Prop where
  | trimmed {cs : List Char} {d : Option LogDirective} (hstart : ∃ c ∈ cs.head?, startsDirective c = true)
    (h : WritesTrimmed cs d) : WritesDirective cs d
  | span {blanks rest : List Char} {d : Option LogDirective} (hblanks : ∀ c ∈ blanks, isBlank c = true)
    (h : WritesTrimmed ('[' :: rest) d) : WritesDirective (blanks ++ '[' :: rest) d
  | blank {blanks cs : List Char} (hne : blanks ≠ []) (hblanks : ∀ c ∈ blanks, isBlank c = true)
    (hstart : ∃ c ∈ cs.head?, startsDirective c = true) (hno : '=' ∉ cs) :
    WritesDirective (blanks ++ cs) (some ⟨some (String.ofList (blanks ++ cs)), LogLevel.trace.rank⟩)

/-- How a filter is written: as directives with commas between them, where nothing may stand between two.
Without any directive it lets errors through. -/
inductive Writes : String → LogFilter → Prop where
  | empty : Writes "" errorsOnly
  | directives {text : String} {ds : List (Option LogDirective)} (hne : text ≠ "")
    (h : List.Forall₂ (fun part d => WritesDirective part.toList d)
      ((text.splitOn ",").filter fun part => !part.isEmpty) ds) :
    Writes text (if ds.isEmpty then errorsOnly else ⟨ds.filterMap id⟩)

/-- Nothing is no limit by itself. -/
theorem not_writesLimit_nil : ¬ WritesLimit (String.ofList []) limit := fun h => by
  have hnone : limit? (String.ofList []) = none := by decide +kernel
  rw [limit?_eq_some_iff.mpr h] at hnone
  cases hnone

theorem limitAfterEquals?_eq_some_iff :
    limitAfterEquals? cs = some limit ↔ WritesLimitAfterEquals cs limit := by
  rw [limitAfterEquals?, WritesLimitAfterEquals]
  cases cs with
  | nil =>
    rw [or_iff_left not_writesLimit_nil, and_iff_right rfl]
    exact Option.some_inj.trans eq_comm
  | cons c cs =>
    rw [or_iff_right fun h => List.cons_ne_nil c cs h.1]
    exact limit?_eq_some_iff

theorem readAfterSpan?_eq_some_iff {x : Unit} : readAfterSpan? cs = some x ↔ EndsSpan cs := by
  fun_cases readAfterSpan? cs with
  | case1 => exact iff_of_true rfl (.inl rfl)
  | case2 level =>
    rw [Option.map_eq_some_iff]
    constructor
    · rintro ⟨limit, hlimit, -⟩
      exact .inr ⟨level, limit, rfl, limitAfterEquals?_eq_some_iff.mp hlimit⟩
    · rintro (h | ⟨_, limit, h, hlimit⟩)
      · cases h
      · cases h
        exact ⟨limit, limitAfterEquals?_eq_some_iff.mpr hlimit, rfl⟩
  | case3 cs hnil hequals =>
    refine iff_of_false nofun ?_
    rintro (h | ⟨level, _, h, -⟩)
    · exact hnil h
    · exact hequals level h

/-- The name of a span is what comes before its bracket or brace. -/
theorem dropWhile_name {name rest : List Char} {c d e : Char} (hname : ∀ x ∈ name, x ≠ c ∧ x ≠ d)
    (he : e = c ∨ e = d) : (name ++ e :: rest).dropWhile (fun x => x != c && x != d) = e :: rest := by
  refine dropWhile_run (fun x hx => ?_) (stops_cons ?_ _)
  · obtain ⟨hc, hd⟩ := hname x hx
    simp [hc, hd]
  · rcases he with rfl | rfl <;> simp

/-- Two marks split a text at the first of them. -/
theorem exists_name (c d : Char) (cs : List Char) :
    ∃ name, (∀ x ∈ name, x ≠ c ∧ x ≠ d) ∧ cs = name ++ cs.dropWhile fun x => x != c && x != d := by
  obtain ⟨name, hname, hcs⟩ := exists_run (fun x => x != c && x != d) cs
  refine ⟨name, fun x hx => ?_, hcs⟩
  simpa using hname x hx

theorem writesSpan_of_readSpan? {x : Unit} (h : readSpan? cs = some x) : WritesSpan cs := by
  obtain ⟨name, hname, hcs⟩ := exists_name ']' '{' cs
  revert h
  fun_cases readSpan? cs with
  | case1 rest hrest =>
    intro h
    rw [hcs, hrest]
    exact .plain hname (readAfterSpan?_eq_some_iff.mp h)
  | case3 inner hinner hhead after hafter =>
    obtain ⟨fields, hfields, hsplit⟩ := exists_run (fun c => c != '}') inner
    fun_cases readAfterFields? after with
    | case1 rest =>
      intro h
      rw [hcs, hinner, hsplit, hafter]
      refine .fields hname ?_ (fun c hc => by simpa using hfields c hc) (readAfterSpan?_eq_some_iff.mp h)
      rintro rfl
      rw [hsplit, hafter] at hhead
      exact hhead rfl
    | case2 => nofun
  | case2 | case4 | case5 => nofun

theorem WritesSpan.readSpan? (h : WritesSpan cs) : readSpan? cs = some () := by
  cases h with
  | plain hname hrest =>
    rw [LogFilter.readSpan?, dropWhile_name hname (.inl rfl)]
    exact readAfterSpan?_eq_some_iff.mpr hrest
  | @fields name fields rest hname hne hfields hrest =>
    obtain ⟨c, more, rfl⟩ := List.exists_cons_of_ne_nil hne
    have hbrace : (c :: more ++ '}' :: ']' :: rest).dropWhile (fun c => c != '}') = '}' :: ']' :: rest :=
      dropWhile_run (fun x hx => by simpa using hfields x hx) (stops_cons (by simp) _)
    have hc : (c :: more ++ '}' :: ']' :: rest).head? ≠ some '}' := fun h =>
      hfields c List.mem_cons_self (Option.some.inj h)
    rw [LogFilter.readSpan?, dropWhile_name hname (.inr rfl)]
    change (if _ then none else _) = _
    rw [if_neg (by simpa using hc), hbrace]
    exact readAfterSpan?_eq_some_iff.mpr hrest

theorem readSpan?_eq_some_iff {x : Unit} : readSpan? cs = some x ↔ WritesSpan cs :=
  ⟨writesSpan_of_readSpan?, fun h => h.readSpan?⟩

/-- A text without two marks goes to its end before one of them. -/
theorem dropWhile_eq_nil {c d : Char} (h : ∀ x ∈ cs, x ≠ c ∧ x ≠ d) :
    cs.dropWhile (fun x => x != c && x != d) = [] := by
  rw [List.dropWhile_eq_nil_iff]
  intro x hx
  obtain ⟨hc, hd⟩ := h x hx
  simp [hc, hd]

theorem WritesTrimmed.readTrimmed? {d : Option LogDirective} (h : WritesTrimmed cs d) :
    readTrimmed? cs = some d := by
  rw [LogFilter.readTrimmed?]
  cases h with
  | span hname hspan =>
    rw [dropWhile_name hname (.inr rfl)]
    change Option.map _ (readSpan? _) = _
    rw [hspan.readSpan?]
    rfl
  | @targetLimit target level limit htarget hlimit =>
    have htake : (target ++ '=' :: level).takeWhile (fun c => c != '=') = target :=
      takeWhile_run (fun x hx => by simpa using (htarget x hx).1) (stops_cons (by simp) _)
    rw [dropWhile_name htarget (.inl rfl), htake]
    change Option.bind (limitAfterEquals? level) _ = _
    rw [limitAfterEquals?_eq_some_iff.mpr hlimit]
    rfl
  | limit hcs hlimit => rw [dropWhile_eq_nil hcs, limit?_eq_some_iff.mpr hlimit]
  | target hcs hnot =>
    rw [dropWhile_eq_nil hcs]
    cases hlimit : limit? (String.ofList cs) with
    | none => rfl
    | some limit => exact absurd (limit?_eq_some_iff.mp hlimit) (hnot limit)

/-- Without a mark in front the rest of a text is at its end. -/
theorem dropWhile_marks_eq_nil {c d : Char}
    (hc : ∀ rest, cs.dropWhile (fun x => x != c && x != d) = c :: rest → False)
    (hd : ∀ rest, cs.dropWhile (fun x => x != c && x != d) = d :: rest → False) :
    cs.dropWhile (fun x => x != c && x != d) = [] := by
  cases hdrop : cs.dropWhile (fun x => x != c && x != d) with
  | nil => rfl
  | cons x rest =>
    have hx := stops_dropWhile (fun x => x != c && x != d) cs x (by rw [hdrop]; rfl)
    rw [Bool.and_eq_false_iff, bne_eq_false_iff_eq, bne_eq_false_iff_eq] at hx
    rcases hx with rfl | rfl
    · exact (hc rest hdrop).elim
    · exact (hd rest hdrop).elim

theorem writesTrimmed_of_readTrimmed? {d : Option LogDirective} (h : readTrimmed? cs = some d) :
    WritesTrimmed cs d := by
  obtain ⟨name, hname, hcs⟩ := exists_name '=' '[' cs
  revert h
  fun_cases readTrimmed? cs with
  | case1 rest hrest =>
    intro h
    obtain ⟨x, hspan, rfl⟩ := Option.map_eq_some_iff.mp h
    rw [hcs, hrest]
    exact .span hname (readSpan?_eq_some_iff.mp hspan)
  | case2 level hrest =>
    intro h
    obtain ⟨limit, hlimit, heq⟩ := Option.bind_eq_some_iff.mp h
    cases heq
    have htarget : cs.takeWhile (fun c => c != '=') = name := by
      rw [hcs, hrest]
      exact takeWhile_run (fun x hx => by simpa using (hname x hx).1) (stops_cons (by simp) _)
    rw [htarget, hcs, hrest]
    exact .targetLimit hname (limitAfterEquals?_eq_some_iff.mp hlimit)
  | case3 limit hlimit hbracket hequals =>
    rintro ⟨⟩
    rw [dropWhile_marks_eq_nil hequals hbracket, List.append_nil] at hcs
    rw [← hcs] at hname
    exact .limit hname (limit?_eq_some_iff.mp hlimit)
  | case4 hnone hbracket hequals =>
    rintro ⟨⟩
    rw [dropWhile_marks_eq_nil hequals hbracket, List.append_nil] at hcs
    rw [← hcs] at hname
    refine .target hname fun limit hlimit => ?_
    rw [limit?_eq_some_iff.mpr hlimit] at hnone
    cases hnone

theorem readTrimmed?_eq_some_iff {d : Option LogDirective} : readTrimmed? cs = some d ↔ WritesTrimmed cs d :=
  ⟨writesTrimmed_of_readTrimmed?, fun h => h.readTrimmed?⟩

/-- What may begin a directive is not white space. -/
theorem not_isBlank_of_startsDirective {c : Char} (h : startsDirective c = true) : isBlank c = false := by
  cases hblank : isBlank c with
  | false => rfl
  | true =>
    have hnot := isAlphanumeric_of_isBlank hblank
    rw [startsDirective, hnot] at h
    simp at h
    rcases h with (rfl | rfl) | rfl <;> revert hblank <;> decide

theorem not_bracket_of_startsDirective {c : Char} (h : startsDirective c = true) : (c == '[') = false := by
  have hnot : startsDirective '[' = false := by decide +kernel
  rw [beq_eq_false_iff_ne]
  rintro rfl
  rw [hnot] at h
  cases h

theorem writesDirective_of_readDirective? {text : String} {d : Option LogDirective}
    (h : readDirective? text = some d) : WritesDirective text.toList d := by
  obtain ⟨blanks, hblanks, hcs⟩ := exists_run isBlank text.toList
  change text.toList = blanks ++ dropBlanks text.toList at hcs
  revert h
  fun_cases readDirective? text with
  | case2 _ _ c rest hinner hbracket =>
    intro h
    obtain rfl : c = '[' := by simpa using hbracket
    change readTrimmed? (dropBlanks text.toList) = some d at h
    change dropBlanks text.toList = '[' :: rest at hinner
    rw [hinner] at hcs h
    rw [hcs]
    exact .span hblanks (readTrimmed?_eq_some_iff.mp h)
  | case4 _ _ c rest hinner _ hstarts hlength =>
    intro h
    change dropBlanks text.toList = c :: rest at hinner
    change (dropBlanks text.toList).length = text.toList.length at hlength
    have hnil : blanks = [] := by
      have hsum := congrArg List.length hcs
      rw [List.length_append, hlength] at hsum
      exact List.length_eq_zero_iff.mp (by omega)
    have hhead : c ∈ text.toList.head? := by
      rw [hcs, hnil, hinner]
      rfl
    exact .trimmed ⟨c, hhead, by simpa using hstarts⟩ (readTrimmed?_eq_some_iff.mp h)
  | case6 _ _ c rest hinner _ hstarts hlength hno =>
    rintro ⟨⟩
    have hne : blanks ≠ [] := by
      rintro rfl
      exact hlength (congrArg List.length hcs).symm
    change dropBlanks text.toList = c :: rest at hinner
    change ¬ (dropBlanks text.toList).contains '=' = true at hno
    rw [hinner] at hcs hno
    have hequals : '=' ∉ c :: rest := fun hmem => hno (List.contains_iff_mem.mpr hmem)
    have hdirective := WritesDirective.blank hne hblanks ⟨c, rfl, by simpa using hstarts⟩ hequals
    rwa [← hcs, String.ofList_toList] at hdirective
  | case1 | case3 | case5 => nofun

theorem WritesDirective.readDirective? {text : String} {d : Option LogDirective}
    (h : WritesDirective text.toList d) : readDirective? text = some d := by
  unfold LogFilter.readDirective?
  generalize hcs : text.toList = cs at h
  cases h with
  | trimmed hstart h =>
    obtain ⟨c, hc, hstart⟩ := hstart
    obtain ⟨rest, rfl⟩ := List.head?_eq_some_iff.mp hc
    have hinner : dropBlanks (c :: rest) = c :: rest :=
      (stops_cons (not_isBlank_of_startsDirective hstart) rest).dropWhile_eq_self
    dsimp only
    rw [hinner]
    change (if _ then _ else _) = _
    rw [if_neg (by rw [not_bracket_of_startsDirective hstart]; nofun), if_neg (by rw [hstart]; nofun),
      if_pos rfl]
    exact h.readTrimmed?
  | @span blanks rest d hblanks h =>
    have hinner : dropBlanks (blanks ++ '[' :: rest) = '[' :: rest :=
      dropWhile_run hblanks (stops_cons (by decide) rest)
    dsimp only
    rw [hinner]
    exact h.readTrimmed?
  | @blank blanks cs hne hblanks hstart hno =>
    obtain ⟨c, hc, hstart⟩ := hstart
    obtain ⟨rest, rfl⟩ := List.head?_eq_some_iff.mp hc
    have hinner : dropBlanks (blanks ++ c :: rest) = c :: rest :=
      dropWhile_run hblanks (stops_cons (not_isBlank_of_startsDirective hstart) rest)
    have hlength : (c :: rest).length ≠ (blanks ++ c :: rest).length := by
      have hpos := List.length_pos_iff.mpr hne
      rw [List.length_append]
      omega
    dsimp only
    rw [hinner]
    change (if _ then _ else _) = _
    rw [if_neg (by rw [not_bracket_of_startsDirective hstart]; nofun), if_neg (by rw [hstart]; nofun),
      if_neg hlength, if_neg fun hmem => hno (List.contains_iff_mem.mp hmem), ← hcs, String.ofList_toList]

theorem readDirective?_eq_some_iff {text : String} {d : Option LogDirective} :
    readDirective? text = some d ↔ WritesDirective text.toList d :=
  ⟨writesDirective_of_readDirective?, fun h => h.readDirective?⟩

/-- A filter is read from a text exactly if every part of it between commas writes a directive. -/
theorem read?_eq_some_iff {text : String} {f : LogFilter} : read? text = some f ↔ Writes text f := by
  rw [read?]
  by_cases hempty : text.isEmpty = true
  · rw [if_pos hempty]
    obtain rfl := String.isEmpty_iff.mp hempty
    constructor
    · rintro ⟨⟩
      exact .empty
    · intro h
      cases h with
      | empty => rfl
      | directives hne _ => exact absurd rfl hne
  · rw [if_neg hempty]
    constructor
    · intro h
      obtain ⟨ds, hds, heq⟩ := Option.bind_eq_some_iff.mp h
      simp only [mapM_eq_some_iff, readDirective?_eq_some_iff] at hds
      cases heq
      exact .directives (fun hnil => hempty (String.isEmpty_iff.mpr hnil)) hds
    · intro h
      cases h with
      | empty => exact absurd rfl hempty
      | directives _ h =>
        simp only [← readDirective?_eq_some_iff, ← mapM_eq_some_iff] at h
        rw [h]
        rfl

end Directives

end LogFilter

end PriceArchive
