import PriceArchive.Proofs.Settings.Line

namespace PriceArchive

namespace EnvironmentFile

/-- The name that a line sets, if it sets one. -/
def Line.name? : Line → Option String
  | .empty => none
  | .assignment name _ => some name

/-- The names that logical lines set: those before the first line that cannot be read. -/
def assignedNames : List (Option (List Char)) → List String
  | [] => []
  | none :: _ => []
  | some cs :: rest =>
    match readLine (fun _ => none) cs with
    | none => []
    | some line => line.name?.toList ++ assignedNames rest

section Substitution

variable {env : Environment} {quoted : Bool} {cs value : List Char} {line : Line}

/-- Other variables give another value, but none that cannot be read. -/
theorem WritesValue.substituted (h : WritesValue env quoted cs value) (env' : Environment) :
    ∃ value', WritesValue env' quoted cs value' := by
  induction h with
  | finish => exact ⟨_, .finish⟩
  | blank hc hblanks hrest => exact ⟨_, .blank hc hblanks hrest⟩
  | char hc _ ih => exact ih.imp' _ fun _ h => .char hc h
  | escape hc _ ih => exact ih.imp' _ fun _ h => .escape hc h
  | backslash => exact ⟨_, .backslash⟩
  | single htext _ ih => exact ih.imp' _ fun _ h => .single htext h
  | opened _ ih => exact ih.imp fun _ h => .opened h
  | closed _ ih => exact ih.imp fun _ h => .closed h
  | braced hname _ ih => exact ih.imp' _ fun _ h => .braced hname h
  | name hname hc hdollar hbrace _ ih => exact ih.imp' _ fun _ h => .name hname hc hdollar hbrace h
  | nameBefore hname _ ih => exact ih.imp' _ fun _ h => .nameBefore hname h
  | nameAtEnd hname => exact ⟨_, .nameAtEnd hname⟩

theorem WritesLine.substituted (h : WritesLine env cs line) (env' : Environment) :
    ∃ line', WritesLine env' cs line' ∧ line'.name? = line.name? := by
  obtain ⟨hbefore, hafter, hhead, hlast, h⟩ := h
  cases h with
  | empty hvoid => exact ⟨_, .mk hbefore hafter hhead hlast (.empty hvoid), rfl⟩
  | unset htarget hblanks hvoid =>
    exact ⟨_, .mk hbefore hafter hhead hlast (.unset htarget hblanks hvoid), rfl⟩
  | assignment htarget hblanks hrest hvoid hvalue =>
    obtain ⟨value', hvalue'⟩ := hvalue.substituted env'
    exact ⟨_, .mk hbefore hafter hhead hlast (.assignment htarget hblanks hrest hvoid hvalue'), rfl⟩

/-- Whether a line can be read, and which name it sets, does not depend on other variables. -/
theorem readLine_name (env env' : Environment) (cs : List Char) :
    (readLine env cs).map Line.name? = (readLine env' cs).map Line.name? := by
  cases h : readLine env cs with
  | some line =>
    obtain ⟨line', hwrites, hname⟩ := (readLine_eq_some_iff.mp h).substituted env'
    rw [readLine_eq_some_iff.mpr hwrites, Option.map_some, Option.map_some, hname]
  | none =>
    cases h' : readLine env' cs with
    | none => rfl
    | some line' =>
      obtain ⟨line, hwrites, -⟩ := (readLine_eq_some_iff.mp h').substituted env
      rw [readLine_eq_some_iff.mpr hwrites] at h
      cases h

end Substitution

section Loading

variable {env : Environment} {name : String} {lines : List (Option (List Char))}

/-- The environment with what a line sets. -/
def Line.set (env : Environment) : Line → Environment
  | .empty => env
  | .assignment name value => env.withDefault name value

theorem loadLines_cons (env : Environment) (cs : List Char) (lines : List (Option (List Char))) :
    loadLines env (some cs :: lines) = (readLine env cs).elim env fun line => loadLines (line.set env) lines := by
  rw [loadLines]
  rcases readLine env cs with _ | (_ | _) <;> rfl

theorem assignedNames_cons (env : Environment) (cs : List Char) (lines : List (Option (List Char))) :
    assignedNames (some cs :: lines) =
      (readLine env cs).elim [] fun line => line.name?.toList ++ assignedNames lines := by
  have hname := readLine_name (fun _ => none) env cs
  rw [assignedNames]
  cases hplain : readLine (fun _ => none) cs <;> cases hread : readLine env cs <;>
    simp [hplain, hread] at hname ⊢
  rw [hname]

/-- A line sets its name, if nothing did, and no other. -/
theorem Line.set_isSome (line : Line) (env : Environment) (name : String) :
    ((line.set env) name).isSome = true ↔ (env name).isSome = true ∨ name ∈ line.name?.toList := by
  cases line with
  | empty => simp [Line.set, Line.name?]
  | assignment other value =>
    by_cases heq : name = other
    · simp [Line.set, Line.name?, Environment.withDefault, heq]
    · simp [Line.set, Line.name?, Environment.withDefault, heq]

theorem Line.set_of_isSome (line : Line) (h : (env name).isSome = true) : line.set env name = env name := by
  cases line with
  | empty => rfl
  | assignment other value =>
    by_cases heq : name = other
    · rw [Line.set, Environment.withDefault_eq_of_isSome value (heq ▸ h)]
    · exact if_neg heq

/-- After the lines just the variables are set that were before or are named in a line that is read. -/
theorem loadLines_isSome :
    (loadLines env lines name).isSome = true ↔ (env name).isSome = true ∨ name ∈ assignedNames lines := by
  induction lines generalizing env with
  | nil => simp [loadLines, assignedNames]
  | cons cs lines ih =>
    cases cs with
    | none => simp [loadLines, assignedNames]
    | some cs =>
      rw [loadLines_cons, assignedNames_cons env]
      cases readLine env cs with
      | none => simp
      | some line =>
        change (loadLines (line.set env) lines name).isSome = true ↔ _ ∨ name ∈ _ ++ _
        rw [ih, line.set_isSome, List.mem_append, or_assoc]

/-- What is set before keeps its value. -/
theorem loadLines_of_isSome (h : (env name).isSome = true) : loadLines env lines name = env name := by
  induction lines generalizing env with
  | nil => rfl
  | cons cs lines ih =>
    cases cs with
    | none => rfl
    | some cs =>
      rw [loadLines_cons]
      cases readLine env cs with
      | none => rfl
      | some line =>
        have hset := line.set_of_isSome h
        exact (ih (by rw [hset]; exact h)).trans hset

/-- Lines that name only what is set change nothing. -/
theorem loadLines_eq_self (h : ∀ name ∈ assignedNames lines, (env name).isSome = true) :
    loadLines env lines = env := by
  induction lines with
  | nil => rfl
  | cons cs lines ih =>
    cases cs with
    | none => rfl
    | some cs =>
      rw [assignedNames_cons env] at h
      rw [loadLines_cons]
      cases hread : readLine env cs with
      | none => rfl
      | some line =>
        rw [hread] at h
        obtain ⟨hline, hlines⟩ := List.forall_mem_append.mp h
        have hset : line.set env = env := by
          cases line with
          | empty => rfl
          | assignment name value =>
            exact Environment.withDefault_eq_of_isSome value (hline name List.mem_cons_self)
        change loadLines (line.set env) lines = env
        rw [hset]
        exact ih hlines

/-- A variable of the environment keeps its value whatever a text says. -/
theorem load_of_isSome (text : String) (h : (env name).isSome = true) : load text env name = env name :=
  loadLines_of_isSome h

/-- A variable is set after a text was loaded exactly if it was before or a line that is read names it. -/
theorem load_isSome (text : String) (env : Environment) (name : String) :
    (load text env name).isSome = true ↔
      (env name).isSome = true ∨ name ∈ assignedNames (logicalLines text) :=
  loadLines_isSome

/-- Loading a text again changes nothing. -/
theorem load_load (text : String) (env : Environment) : load text (load text env) = load text env :=
  loadLines_eq_self fun _ hname => loadLines_isSome.mpr (.inr hname)

end Loading

section Quoting

variable {env : Environment} {s t u : Standing} {cs ds : List Char}

/-- How a character is written inside double quotes. -/
def quotedChar (c : Char) : List Char :=
  if c = '\n' then ['\\', 'n'] else if c = '\\' ∨ c = '"' ∨ c = '$' then ['\\', c] else [c]

/-- The line that sets a variable, before the line feed. -/
def bindingLine (binding : String × String) : List Char :=
  binding.1.toList ++ '=' :: '"' :: (binding.2.toList.flatMap quotedChar ++ ['"'])

/-- A text that sets variables. -/
def bindingText (bindings : List (String × String)) : String :=
  String.ofList (bindings.flatMap fun binding => bindingLine binding ++ ['\n'])

/-- A character that begins no comment stays in the line. -/
theorem Standing.follow_cons {c : Char} (hc : s.next c = t) (ht : t ≠ .comment) (hcs : t.follow cs = (ds, u)) :
    s.follow (c :: cs) = (c :: ds, u) := by
  rw [Standing.follow, hc]
  cases t with
  | comment => exact absurd rfl ht
  | _ => simp only [hcs]

/-- A text after which a line stands in a certain way, without a comment. -/
theorem Standing.follow_append (hcs : s.follow cs = (cs, t)) (ht : t ≠ .comment) (hds : t.follow ds = (ds, u)) :
    s.follow (cs ++ ds) = (cs ++ ds, u) := by
  induction cs generalizing s with
  | nil =>
    obtain rfl : s = t := congrArg Prod.snd hcs
    exact hds
  | cons c cs ih =>
    rw [Standing.follow] at hcs
    split at hcs
    · cases hcs
    · rename_i hnot
      obtain ⟨hkept, hfinal⟩ := Prod.mk.inj hcs
      exact Standing.follow_cons rfl hnot (ih (Prod.ext (List.cons.inj hkept).2 hfinal))

/-- A name leaves everything closed. -/
theorem Standing.next_closed {c : Char} (h : isNameChar c = true) : Standing.closed.next c = .closed := by
  have hcode := toNat_of_isNameChar h
  have hne : ∀ d : Char, d.toNat < 46 ∨ d.toNat = 92 → c ≠ d := by
    rintro d hd rfl
    omega
  have hblank : ¬ (isBlank c = true ∧ c ≠ '\n' ∧ c ≠ '\r') := by
    rw [not_isBlank_of_isNameChar h]
    nofun
  rw [Standing.next, if_neg hblank, Standing.opened, if_neg (hne _ (by decide)),
    if_neg (not_or.mpr ⟨hne _ (by decide), hne _ (by decide)⟩)]

theorem Standing.follow_name (h : ∀ c ∈ cs, isNameChar c = true) : Standing.closed.follow cs = (cs, .closed) := by
  induction cs with
  | nil => rfl
  | cons c cs ih =>
    obtain ⟨hc, hcs⟩ := List.forall_mem_cons.mp h
    exact Standing.follow_cons (Standing.next_closed hc) nofun (ih hcs)

/-- A character is written with a backslash or stands for itself, and never as a line feed. -/
theorem quotedChar_cases (c : Char) :
    (∃ d, d ≠ '\n' ∧ escaped? d = some c ∧ quotedChar c = ['\\', d]) ∨
      (c ≠ '\n' ∧ StandsForItself true c ∧ quotedChar c = [c]) := by
  by_cases hfeed : c = '\n'
  · exact .inl ⟨'n', by decide, hfeed ▸ rfl, if_pos hfeed⟩
  by_cases hspecial : c = '\\' ∨ c = '"' ∨ c = '$'
  · have hescaped : escaped? c = some c := by
      rcases hspecial with rfl | rfl | rfl <;> rfl
    exact .inl ⟨c, hfeed, hescaped, (if_neg hfeed).trans (if_pos hspecial)⟩
  · have hplain : c ≠ '\\' ∧ c ≠ '"' ∧ c ≠ '$' := by simpa using hspecial
    exact .inr ⟨hfeed, ⟨hplain.2.2, hplain.2.1, hplain.1, nofun⟩, (if_neg hfeed).trans (if_neg hspecial)⟩

/-- A quoted value does not end the quotation. -/
theorem Standing.follow_quotedChar (c : Char) :
    (Standing.quoted '"' false).follow (quotedChar c) = (quotedChar c, .quoted '"' false) := by
  obtain ⟨d, -, -, heq⟩ | ⟨-, ⟨-, hquote, hslash, -⟩, heq⟩ := quotedChar_cases c
  · rw [heq]
    rfl
  · have hnext : (Standing.quoted '"' false).next c = .quoted '"' false := by
      rw [Standing.next, if_neg hslash, if_neg hquote]
    rw [heq]
    exact Standing.follow_cons hnext nofun rfl

theorem Standing.follow_quotedChars (value : List Char) :
    (Standing.quoted '"' false).follow (value.flatMap quotedChar) =
      (value.flatMap quotedChar, .quoted '"' false) := by
  induction value with
  | nil => rfl
  | cons c value ih =>
    rw [List.flatMap_cons]
    exact Standing.follow_append (Standing.follow_quotedChar c) nofun ih

theorem Standing.follow_bindingLine {binding : String × String} (h : IsName binding.1.toList) :
    Standing.closed.follow (bindingLine binding ++ ['\n']) = (bindingLine binding ++ ['\n'], .closed) := by
  have hend : (Standing.quoted '"' false).follow ['"', '\n'] = (['"', '\n'], .closed) := rfl
  have hvalue := Standing.follow_append (Standing.follow_quotedChars binding.2.toList) nofun hend
  have hquote := Standing.follow_cons (s := .closed) (c := '"') rfl nofun hvalue
  have hequals := Standing.follow_cons (s := .closed) (c := '=') rfl nofun hquote
  have hline := Standing.follow_append (Standing.follow_name h.all) nofun hequals
  simpa [bindingLine] using hline

/-- In quotes a value is read back. -/
theorem writesValue_quoted (env : Environment) (value : List Char) :
    WritesValue env true (value.flatMap quotedChar ++ ['"']) value := by
  induction value with
  | nil => exact .closed .finish
  | cons c value ih =>
    rw [List.flatMap_cons, List.append_assoc]
    obtain ⟨d, -, hescaped, heq⟩ | ⟨-, hplain, heq⟩ := quotedChar_cases c
    · rw [heq]
      exact .escape hescaped ih
    · rw [heq]
      exact .char hplain ih

theorem exists_bindingLine_eq_cons {binding : String × String} (h : IsName binding.1.toList) :
    ∃ c rest, bindingLine binding = c :: rest ∧ isNameChar c = true := by
  obtain ⟨c, hc, -⟩ := h.starts
  obtain ⟨tail, htail⟩ := List.head?_eq_some_iff.mp hc
  refine ⟨c, _, by rw [bindingLine, htail]; rfl, h.all c ?_⟩
  rw [htail]
  exact List.mem_cons_self

theorem readLine_bindingLine {binding : String × String} (h : IsName binding.1.toList) :
    readLine env (bindingLine binding) = some (.assignment binding.1 binding.2) := by
  have htarget : WritesTarget (bindingLine binding) binding.1.toList
      ([] ++ '"' :: (binding.2.toList.flatMap quotedChar ++ ['"'])) :=
    @WritesTarget.plain binding.1.toList [] _ h nofun
  have hvalue := WritesValue.opened (writesValue_quoted env binding.2.toList)
  have hwrites := WritesTrimmed.assignment htarget nofun (stops_cons (by decide) _) rfl hvalue
  rw [String.ofList_toList, String.ofList_toList] at hwrites
  have hhead : ∀ c ∈ (bindingLine binding).head?, isBlank c = false := by
    obtain ⟨c, rest, hcons, hc⟩ := exists_bindingLine_eq_cons h
    rw [hcons]
    exact stops_cons (not_isBlank_of_isNameChar hc) rest
  have hlast : ∀ c ∈ (bindingLine binding).getLast?, isBlank c = false := by
    intro c hc
    obtain rfl : '"' = c := by simpa [bindingLine, List.getLast?_cons] using hc
    decide
  have hline := @WritesLine.mk env [] _ [] _ nofun nofun hhead hlast hwrites
  rw [List.append_nil, List.nil_append] at hline
  exact readLine_eq_some_iff.mpr hline

/-- A line ends with its line feed. -/
theorem lines_append (hcs : '\n' ∉ cs) (rest : List Char) :
    lines (cs ++ '\n' :: rest) = (cs ++ ['\n']) :: lines rest := by
  induction cs with
  | nil => exact if_pos rfl
  | cons c cs ih =>
    obtain ⟨hc, hcs⟩ := not_or.mp (List.mem_cons.not.mp hcs)
    rw [List.cons_append, lines, if_neg (Ne.symm hc), ih hcs]
    rfl

theorem not_mem_bindingLine {binding : String × String} (h : IsName binding.1.toList) :
    '\n' ∉ bindingLine binding := by
  have hname : '\n' ∉ binding.1.toList := fun hmem => absurd (h.all _ hmem) (by decide)
  have hvalue : '\n' ∉ binding.2.toList.flatMap quotedChar := by
    rw [List.mem_flatMap]
    rintro ⟨c, -, hc⟩
    obtain ⟨d, hd, -, heq⟩ | ⟨hfeed, -, heq⟩ := quotedChar_cases c
    · rw [heq] at hc
      simp [Ne.symm hd] at hc
    · rw [heq] at hc
      simp [Ne.symm hfeed] at hc
  simp [bindingLine, hname, hvalue]

theorem dropLineEnd_bindingLine (binding : String × String) :
    dropLineEnd (bindingLine binding ++ ['\n']) = bindingLine binding := by
  have hline : bindingLine binding =
      (binding.1.toList ++ '=' :: '"' :: binding.2.toList.flatMap quotedChar) ++ ['"'] := by
    simp [bindingLine]
  generalize binding.1.toList ++ '=' :: '"' :: binding.2.toList.flatMap quotedChar = front at hline
  rw [hline, dropLineEnd, List.append_assoc, List.reverse_append]
  change ('"' :: front.reverse).reverse = _
  rw [List.reverse_cons, List.reverse_reverse]

theorem isComment_bindingLine {binding : String × String} (h : IsName binding.1.toList) :
    isComment (bindingLine binding ++ ['\n']) = false := by
  obtain ⟨c, rest, hcons, hc⟩ := exists_bindingLine_eq_cons h
  have hinner : dropBlanks (c :: (rest ++ ['\n'])) = c :: (rest ++ ['\n']) :=
    (stops_cons (not_isBlank_of_isNameChar hc) _).dropWhile_eq_self
  have hne : c ≠ '#' := by
    rintro rfl
    exact absurd hc (by decide)
  rw [hcons, isComment, List.cons_append, hinner]
  simpa using hne

theorem lines_bindingText {bindings : List (String × String)} (h : ∀ b ∈ bindings, IsName b.1.toList) :
    lines (bindingText bindings).toList = bindings.map fun b => bindingLine b ++ ['\n'] := by
  rw [bindingText, String.toList_ofList]
  induction bindings with
  | nil => rfl
  | cons b bindings ih =>
    obtain ⟨hb, hrest⟩ := List.forall_mem_cons.mp h
    rw [List.flatMap_cons, List.append_assoc]
    exact (lines_append (not_mem_bindingLine hb) _).trans (congrArg _ (ih hrest))

theorem join_bindingLines {bindings : List (String × String)} (h : ∀ b ∈ bindings, IsName b.1.toList) :
    join [] .closed (bindings.map fun b => bindingLine b ++ ['\n']) =
      bindings.map fun b => some (bindingLine b) := by
  induction bindings with
  | nil => rfl
  | cons b bindings ih =>
    obtain ⟨hb, hrest⟩ := List.forall_mem_cons.mp h
    rw [List.map_cons, List.map_cons, join, List.nil_append, if_neg (by rw [isComment_bindingLine hb]; nofun),
      Standing.follow_bindingLine hb]
    change some (dropLineEnd _) :: join [] .closed _ = _
    rw [dropLineEnd_bindingLine, ih hrest]

/-- No mark of its byte order is before a name. -/
theorem dropByteOrderMark_bindingText {bindings : List (String × String)}
    (h : ∀ b ∈ bindings, IsName b.1.toList) :
    dropByteOrderMark (bindingText bindings).toList = (bindingText bindings).toList := by
  rw [bindingText, String.toList_ofList]
  cases bindings with
  | nil => rfl
  | cons b bindings =>
    obtain ⟨c, rest, hcons, hc⟩ := exists_bindingLine_eq_cons (h b List.mem_cons_self)
    rw [List.flatMap_cons, hcons]
    unfold dropByteOrderMark
    split
    · rename_i heq
      obtain rfl := (List.cons.inj heq).1
      exact absurd hc (by decide)
    · rfl

/-- Every value can be written: names with quoted values are loaded as the defaults that they are. -/
theorem load_bindingText {bindings : List (String × String)} (h : ∀ b ∈ bindings, IsName b.1.toList)
    (env : Environment) :
    load (bindingText bindings) env = bindings.foldl (fun env b => env.withDefault b.1 b.2) env := by
  rw [load, logicalLines, dropByteOrderMark_bindingText h, lines_bindingText h, join_bindingLines h]
  induction bindings generalizing env with
  | nil => rfl
  | cons b bindings ih =>
    obtain ⟨hb, hrest⟩ := List.forall_mem_cons.mp h
    rw [List.map_cons, loadLines_cons, readLine_bindingLine hb]
    exact ih hrest _

end Quoting

end EnvironmentFile

end PriceArchive
