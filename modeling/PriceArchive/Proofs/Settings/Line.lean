import PriceArchive.Proofs.Settings.ValueText

namespace PriceArchive

namespace EnvironmentFile

/-- Nothing but white space. -/
def Blanks (cs : List Char) : Prop := ∀ c ∈ cs, isBlank c = true

/-- A character with which a name may go on. -/
def isNameChar (c : Char) : Bool := c.isAlphanum || c == '_' || c == '.'

/-- The name of a variable: letters, digits, underscores and dots after a letter or an underscore. -/
structure IsName (name : List Char) : Prop where
  starts : ∃ c ∈ name.head?, c.isAlpha = true ∨ c = '_'
  all : ∀ c ∈ name, isNameChar c = true

/-- How the name that a line sets is written, with what follows the equals sign. -/
inductive WritesTarget : List Char → List Char → List Char → Prop where
  | plain {name blanks value : List Char} (hname : IsName name) (hblanks : Blanks blanks) :
    WritesTarget (name ++ (blanks ++ '=' :: value)) name value
  | exported {space name blanks value : List Char} (hne : space ≠ []) (hspace : Blanks space)
    (hname : IsName name) (hblanks : Blanks blanks) :
    WritesTarget ("export".toList ++ (space ++ (name ++ (blanks ++ '=' :: value)))) name value

/-- How a line is written, without the white space around it. -/
inductive WritesTrimmed (env : Environment) : List Char → Line → Prop where
  | empty {cs : List Char} (h : isVoid cs = true) : WritesTrimmed env cs .empty
  | unset {cs name blanks rest : List Char} (h : WritesTarget cs name (blanks ++ rest))
    (hblanks : Blanks blanks) (hvoid : isVoid rest = true) :
    WritesTrimmed env cs (.assignment (String.ofList name) "")
  | assignment {cs name blanks rest value : List Char} (h : WritesTarget cs name (blanks ++ rest))
    (hblanks : Blanks blanks) (hhead : ∀ c ∈ rest.head?, isBlank c = false) (hvoid : isVoid rest = false)
    (hvalue : WritesValue env false rest value) :
    WritesTrimmed env cs (.assignment (String.ofList name) (String.ofList value))

/-- How a line is written. -/
inductive WritesLine (env : Environment) : List Char → Line → Prop where
  | mk {before cs after : List Char} {line : Line} (hbefore : Blanks before) (hafter : Blanks after)
    (hhead : ∀ c ∈ cs.head?, isBlank c = false) (hlast : ∀ c ∈ cs.getLast?, isBlank c = false)
    (h : WritesTrimmed env cs line) : WritesLine env (before ++ (cs ++ after)) line

section Names

variable {cs name rest value : List Char} {c : Char}

theorem toNat_of_isNameChar (h : isNameChar c = true) :
    c.toNat = 46 ∨ (48 ≤ c.toNat ∧ c.toNat ≤ 57) ∨ (65 ≤ c.toNat ∧ c.toNat ≤ 90) ∨ c.toNat = 95 ∨
      (97 ≤ c.toNat ∧ c.toNat ≤ 122) := by
  have hcases : (((c.isAlpha || c.isDigit) || c == '_') || c == '.') = true := h
  rw [Bool.or_eq_true, Bool.or_eq_true, Bool.or_eq_true, beq_iff_eq, beq_iff_eq] at hcases
  rcases hcases with ((halpha | hdigit) | rfl) | rfl
  · exact .inr (.inr ((isAlpha_range halpha).imp_right .inr))
  · exact .inr (.inl (isDigit_range hdigit))
  · exact .inr (.inr (.inr (.inl rfl)))
  · exact .inl rfl

theorem not_isNameChar_of_isBlank (h : isBlank c = true) : isNameChar c = false := by
  cases hname : isNameChar c with
  | false => rfl
  | true =>
    have hcode := toNat_of_isNameChar hname
    simp [isBlank] at h
    omega

theorem not_isBlank_of_isNameChar (h : isNameChar c = true) : isBlank c = false :=
  Bool.eq_false_iff.mpr fun hblank => by
    rw [not_isNameChar_of_isBlank hblank] at h
    cases h

theorem isNameChar_of_starts (h : c.isAlpha = true ∨ c = '_') : isNameChar c = true := by
  rcases h with h | rfl
  · change (((c.isAlpha || c.isDigit) || c == '_') || c == '.') = true
    rw [h]
    rfl
  · rfl

/-- Where white space and an equals sign follow, a name is at its end. -/
theorem stops_isNameChar {blanks : List Char} (hblanks : Blanks blanks) :
    Stops isNameChar (blanks ++ '=' :: value) := by
  cases blanks with
  | nil => exact stops_cons (by decide) _
  | cons c blanks => exact stops_cons (not_isNameChar_of_isBlank (hblanks c List.mem_cons_self)) _

theorem takeName?_eq_some_iff {s : String} :
    takeName? cs = some (s, rest) ↔
      ∃ name, IsName name ∧ s = String.ofList name ∧ cs = name ++ rest ∧ Stops isNameChar rest := by
  constructor
  · intro h
    cases cs with
    | nil => cases h
    | cons c tail =>
      rw [takeName?] at h
      by_cases hc : c.isAlpha = true ∨ c = '_'
      · rw [if_pos hc] at h
        cases h
        refine ⟨_, ⟨⟨c, ?_, hc⟩, fun d hd => List.mem_takeWhile_imp hd⟩, rfl,
          List.takeWhile_append_dropWhile.symm, stops_dropWhile isNameChar _⟩
        rw [List.takeWhile_cons_of_pos (isNameChar_of_starts hc)]
        rfl
      · rw [if_neg hc] at h
        cases h
  · rintro ⟨name, ⟨⟨c, hc, hstarts⟩, hall⟩, rfl, rfl, hstop⟩
    obtain ⟨tail, rfl⟩ := List.head?_eq_some_iff.mp hc
    have htake : (c :: tail ++ rest).takeWhile isNameChar = c :: tail := takeWhile_run hall hstop
    have hdrop : (c :: tail ++ rest).dropWhile isNameChar = rest := dropWhile_run hall hstop
    change (if _ then some (String.ofList (List.takeWhile isNameChar (c :: tail ++ rest)),
      List.dropWhile isNameChar (c :: tail ++ rest)) else none) = _
    rw [if_pos hstarts, htake, hdrop]

theorem afterEquals?_eq_some_iff : afterEquals? cs = some value ↔ cs = '=' :: value := by
  fun_cases afterEquals? cs with
  | case1 rest => rw [Option.some.injEq, List.cons.injEq, and_iff_right rfl]
  | case2 cs hnot => exact iff_of_false nofun (hnot value)

/-- White space ends before an equals sign. -/
theorem dropBlanks_equals {blanks : List Char} (hblanks : Blanks blanks) :
    dropBlanks (blanks ++ '=' :: value) = '=' :: value :=
  dropWhile_run hblanks (stops_cons (by decide) _)

theorem IsName.head?_not_isBlank (hname : IsName name) : ∀ c ∈ name.head?, isBlank c = false := by
  intro c hc
  obtain ⟨tail, rfl⟩ := List.head?_eq_some_iff.mp hc
  exact not_isBlank_of_isNameChar (hname.all c List.mem_cons_self)

/-- White space ends before a name. -/
theorem dropBlanks_name {space : List Char} (hspace : Blanks space) (hname : IsName name) :
    dropBlanks (space ++ (name ++ rest)) = name ++ rest := by
  obtain ⟨c, hc, -⟩ := hname.starts
  have hblank := hname.head?_not_isBlank c hc
  obtain ⟨tail, rfl⟩ := List.head?_eq_some_iff.mp hc
  exact dropWhile_run hspace (stops_cons hblank _)

theorem isName_export : IsName "export".toList :=
  ⟨⟨'e', rfl, .inl rfl⟩, List.all_eq_true.mp (by decide)⟩

theorem WritesTarget.readTarget? (h : WritesTarget cs name value) :
    readTarget? cs = some (String.ofList name, value) := by
  unfold EnvironmentFile.readTarget?
  cases h with
  | @plain name blanks value hname hblanks =>
    have htake : takeName? (name ++ (blanks ++ '=' :: value)) = some (String.ofList name, blanks ++ '=' :: value) :=
      takeName?_eq_some_iff.mpr ⟨name, hname, rfl, rfl, stops_isNameChar hblanks⟩
    simp only [htake, Option.bind_eq_bind, Option.bind_some, dropBlanks_equals hblanks]
    rfl
  | @exported space name blanks value hne hspace hname hblanks =>
    have hstop : Stops isNameChar (space ++ (name ++ (blanks ++ '=' :: value))) := by
      obtain ⟨c, more, rfl⟩ := List.exists_cons_of_ne_nil hne
      exact stops_cons (not_isNameChar_of_isBlank (hspace c List.mem_cons_self)) _
    have htake : takeName? (name ++ (blanks ++ '=' :: value)) = some (String.ofList name, blanks ++ '=' :: value) :=
      takeName?_eq_some_iff.mpr ⟨name, hname, rfl, rfl, stops_isNameChar hblanks⟩
    have hnone : afterEquals? (name ++ (blanks ++ '=' :: value)) = none := by
      obtain ⟨c, hc, hstarts⟩ := hname.starts
      obtain ⟨tail, rfl⟩ := List.head?_eq_some_iff.mp hc
      cases hequals : afterEquals? (c :: tail ++ (blanks ++ '=' :: value)) with
      | none => rfl
      | some rest =>
        cases afterEquals?_eq_some_iff.mp hequals
        simp at hstarts
    have hexport := takeName?_eq_some_iff.mpr ⟨_, isName_export, rfl, rfl, hstop⟩
    simp only [hexport, Option.bind_eq_bind, Option.bind_some, dropBlanks_name hspace hname, hnone,
      String.ofList_toList, if_pos, htake, dropBlanks_equals hblanks]
    rfl

/-- A text that begins with white space and an equals sign. -/
theorem exists_blanks_of_afterEquals? (h : afterEquals? (dropBlanks cs) = some value) :
    ∃ blanks, Blanks blanks ∧ cs = blanks ++ '=' :: value := by
  obtain ⟨blanks, hblanks, hcs⟩ := exists_run isBlank cs
  refine ⟨blanks, hblanks, hcs.trans ?_⟩
  rw [← afterEquals?_eq_some_iff.mp h]
  rfl

theorem readTarget?_eq_some_iff {s : String} :
    readTarget? cs = some (s, value) ↔ ∃ name, s = String.ofList name ∧ WritesTarget cs name value := by
  refine ⟨fun h => ?_, fun ⟨name, hs, h⟩ => hs ▸ h.readTarget?⟩
  obtain ⟨⟨word, rest⟩, htake, hafter⟩ := Option.bind_eq_some_iff.mp h
  obtain ⟨name, hname, rfl, rfl, hstop⟩ := takeName?_eq_some_iff.mp htake
  dsimp only at hafter
  cases hequals : afterEquals? (dropBlanks rest) with
  | some found =>
    rw [hequals] at hafter
    cases hafter
    obtain ⟨blanks, hblanks, rfl⟩ := exists_blanks_of_afterEquals? hequals
    exact ⟨name, rfl, .plain hname hblanks⟩
  | none =>
    rw [hequals] at hafter
    dsimp only at hafter
    by_cases hexport : String.ofList name = "export"
    · rw [if_pos hexport] at hafter
      have hword : name = "export".toList := by rw [← hexport, String.toList_ofList]
      obtain ⟨⟨word, more⟩, htake, hafter⟩ := Option.bind_eq_some_iff.mp hafter
      obtain ⟨target, htarget, rfl, hrest, -⟩ := takeName?_eq_some_iff.mp htake
      obtain ⟨found, hequals, heq⟩ := Option.bind_eq_some_iff.mp hafter
      cases heq
      obtain ⟨blanks, hblanks, rfl⟩ := exists_blanks_of_afterEquals? hequals
      obtain ⟨space, hspace, hsplit⟩ := exists_run isBlank rest
      change rest = space ++ dropBlanks rest at hsplit
      rw [hrest] at hsplit
      -- Without white space between them the two words would be one.
      have hne : space ≠ [] := by
        rintro rfl
        obtain ⟨c, hc, hstarts⟩ := htarget.starts
        obtain ⟨tail, rfl⟩ := List.head?_eq_some_iff.mp hc
        have hnot := hstop c (by rw [hsplit]; rfl)
        rw [isNameChar_of_starts hstarts] at hnot
        cases hnot
      rw [hsplit, hword]
      exact ⟨target, rfl, .exported hne hspace htarget hblanks⟩
    · rw [if_neg hexport] at hafter
      cases hafter

end Names

section Lines

variable {env : Environment} {cs : List Char} {line : Line}

/-- A text is its inner part with white space around it. -/
theorem exists_trimmed (cs : List Char) :
    ∃ before after, Blanks before ∧ Blanks after ∧ cs = before ++ (dropBlanks (dropBlanksAtEnd cs) ++ after) := by
  obtain ⟨after, hafter, hend⟩ := exists_run isBlank cs.reverse
  obtain ⟨before, hbefore, hstart⟩ := exists_run isBlank (dropBlanksAtEnd cs)
  refine ⟨before, after.reverse, hbefore, fun c hc => hafter c (List.mem_reverse.mp hc), ?_⟩
  have hcs : cs = dropBlanksAtEnd cs ++ after.reverse := by
    have hreverse := congrArg List.reverse hend
    rwa [List.reverse_reverse, List.reverse_append] at hreverse
  rw [← List.append_assoc]
  exact hcs.trans (congrArg (· ++ after.reverse) hstart)

theorem getLast?_dropBlanksAtEnd (cs : List Char) : ∀ c ∈ (dropBlanksAtEnd cs).getLast?, isBlank c = false := by
  intro c hc
  rw [dropBlanksAtEnd, List.getLast?_reverse] at hc
  exact stops_dropWhile isBlank _ c hc

theorem getLast?_trimmed (cs : List Char) :
    ∀ c ∈ (dropBlanks (dropBlanksAtEnd cs)).getLast?, isBlank c = false := by
  intro c hc
  refine getLast?_dropBlanksAtEnd cs c ?_
  obtain ⟨before, -, hstart⟩ := exists_run isBlank (dropBlanksAtEnd cs)
  change dropBlanksAtEnd cs = before ++ dropBlanks (dropBlanksAtEnd cs) at hstart
  rw [hstart, List.getLast?_append, hc]
  rfl

theorem dropBlanks_eq_nil (h : Blanks cs) : dropBlanks cs = [] := List.dropWhile_eq_nil_iff.mpr h

/-- The inner part of a text is what has no white space at its ends. -/
theorem trimmed_eq {before after : List Char} (hbefore : Blanks before) (hafter : Blanks after)
    (hhead : ∀ c ∈ cs.head?, isBlank c = false) (hlast : ∀ c ∈ cs.getLast?, isBlank c = false) :
    dropBlanks (dropBlanksAtEnd (before ++ (cs ++ after))) = cs := by
  have hreverse : Blanks after.reverse := fun c hc => hafter c (List.mem_reverse.mp hc)
  unfold dropBlanksAtEnd
  rw [List.reverse_append, List.reverse_append, List.append_assoc]
  cases cs with
  | nil =>
    have hall : Blanks (after.reverse ++ ([].reverse ++ before.reverse)) := fun c hc => by
      simp at hc
      rcases hc with hc | hc
      · exact hafter c hc
      · exact hbefore c hc
    rw [dropBlanks_eq_nil hall]
    rfl
  | cons c cs =>
    have hstop : Stops isBlank ((c :: cs).reverse ++ before.reverse) := fun d hd => by
      rw [List.head?_append, List.head?_reverse, List.getLast?_cons] at hd
      exact hlast d (by rw [List.getLast?_cons]; exact hd)
    have hend : dropBlanks (after.reverse ++ ((c :: cs).reverse ++ before.reverse)) =
        (c :: cs).reverse ++ before.reverse := dropWhile_run hreverse hstop
    rw [hend, List.reverse_append, List.reverse_reverse, List.reverse_reverse]
    exact dropWhile_run hbefore (stops_cons (hhead c rfl) cs)

/-- A line that sets a name is neither empty nor a comment. -/
theorem WritesTarget.isVoid_eq_false {name value : List Char} (h : WritesTarget cs name value) :
    isVoid cs = false := by
  have hvoid : ∀ name rest : List Char, IsName name → isVoid (name ++ rest) = false := by
    intro name rest hname
    obtain ⟨c, hc, hstarts⟩ := hname.starts
    obtain ⟨tail, rfl⟩ := List.head?_eq_some_iff.mp hc
    have hne : c ≠ '#' := by
      rintro rfl
      simp at hstarts
    simpa [isVoid] using hne
  cases h with
  | plain hname _ => exact hvoid _ _ hname
  | exported _ _ _ _ => exact hvoid _ _ isName_export

theorem stops_isBlank_of_isVoid (h : isVoid cs = true) : Stops isBlank cs := by
  cases cs with
  | nil => nofun
  | cons c cs =>
    obtain rfl : c = '#' := by simpa [isVoid] using h
    exact stops_cons (by decide) cs

theorem WritesTrimmed.read (h : WritesTrimmed env cs line) (before after : List Char)
    (htrim : dropBlanks (dropBlanksAtEnd (before ++ (cs ++ after))) = cs) :
    readLine env (before ++ (cs ++ after)) = some line := by
  unfold readLine
  dsimp only
  rw [htrim]
  cases h with
  | empty hvoid => rw [if_pos hvoid]; rfl
  | @unset name blanks rest htarget hblanks hvoid =>
    have hrest : dropBlanks (blanks ++ rest) = rest := dropWhile_run hblanks (stops_isBlank_of_isVoid hvoid)
    rw [if_neg (by rw [htarget.isVoid_eq_false]; nofun), htarget.readTarget?]
    change (if isVoid (dropBlanks (blanks ++ rest)) = true then _ else _) = _
    rw [hrest, if_pos hvoid]
    rfl
  | @assignment name blanks rest value htarget hblanks hhead hvoid hvalue =>
    have hrest : dropBlanks (blanks ++ rest) = rest := dropWhile_run hblanks hhead
    rw [if_neg (by rw [htarget.isVoid_eq_false]; nofun), htarget.readTarget?]
    change (if isVoid (dropBlanks (blanks ++ rest)) = true then _ else
      Option.bind (readValue env .bare (dropBlanks (blanks ++ rest))) _) = _
    rw [hrest, if_neg (by rw [hvoid]; nofun), readValue_eq_some_iff.mpr hvalue]
    rfl

/-- A line is read from a text exactly if it is written there. -/
theorem readLine_eq_some_iff : readLine env cs = some line ↔ WritesLine env cs line := by
  constructor
  · intro h
    obtain ⟨before, after, hbefore, hafter, hcs⟩ := exists_trimmed cs
    have hlast := getLast?_trimmed cs
    have hhead : ∀ c ∈ (dropBlanks (dropBlanksAtEnd cs)).head?, isBlank c = false :=
      stops_dropWhile isBlank _
    unfold readLine at h
    dsimp only at h
    generalize dropBlanks (dropBlanksAtEnd cs) = inner at h hcs hlast hhead
    rw [hcs]
    refine .mk hbefore hafter hhead hlast ?_
    by_cases hvoid : isVoid inner = true
    · rw [if_pos hvoid] at h
      cases h
      exact .empty hvoid
    · rw [if_neg hvoid] at h
      obtain ⟨⟨s, rest⟩, htarget, hafter⟩ := Option.bind_eq_some_iff.mp h
      obtain ⟨name, rfl, hwrites⟩ := readTarget?_eq_some_iff.mp htarget
      obtain ⟨blanks, hblanks, hrest⟩ := exists_run isBlank rest
      change rest = blanks ++ dropBlanks rest at hrest
      rw [hrest] at hwrites
      dsimp only at hafter
      by_cases hunset : isVoid (dropBlanks rest) = true
      · rw [if_pos hunset] at hafter
        cases hafter
        exact .unset hwrites hblanks hunset
      · rw [if_neg hunset] at hafter
        obtain ⟨value, hvalue, heq⟩ := Option.bind_eq_some_iff.mp hafter
        cases heq
        exact .assignment hwrites hblanks (stops_dropWhile isBlank rest) (Bool.eq_false_iff.mpr hunset)
          (readValue_eq_some_iff.mp hvalue)
  · rintro ⟨hbefore, hafter, hhead, hlast, h⟩
    exact h.read _ _ (trimmed_eq hbefore hafter hhead hlast)

end Lines

end EnvironmentFile

end PriceArchive
