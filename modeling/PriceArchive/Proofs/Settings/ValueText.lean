import PriceArchive.Proofs.Text.Alphanumeric
import PriceArchive.Proofs.Text.Runs
import PriceArchive.Settings.EnvironmentFile

namespace PriceArchive

namespace EnvironmentFile

/-- A character that stands for itself, inside double quotes or not. -/
def StandsForItself (quoted : Bool) (c : Char) : Prop :=
  c ≠ '$' ∧ c ≠ '"' ∧ c ≠ '\\' ∧ (quoted = false → c ≠ '\'' ∧ c ≠ ' ' ∧ c ≠ '\t')

/-- The value of the variable with this name, or nothing. -/
def valueOf (env : Environment) (name : List Char) : List Char := ((env (String.ofList name)).getD "").toList

/-- How a value is written from some place on, inside double quotes or not, up to the end. -/
inductive WritesValue (env : Environment) : Bool → List Char → List Char → Prop where
  | finish : WritesValue env false [] []
  /-- After white space only more of it may follow, and a comment. -/
  | blank {c : Char} {blanks rest : List Char} (hc : c = ' ' ∨ c = '\t')
    (hblanks : ∀ d ∈ blanks, d = ' ' ∨ d = '\t') (hrest : ∀ d ∈ rest.head?, d = '#') :
    WritesValue env false (c :: (blanks ++ rest)) []
  | char {quoted : Bool} {c : Char} {cs value : List Char} (hc : StandsForItself quoted c)
    (h : WritesValue env quoted cs value) : WritesValue env quoted (c :: cs) (c :: value)
  | escape {quoted : Bool} {c d : Char} {cs value : List Char} (hc : escaped? c = some d)
    (h : WritesValue env quoted cs value) : WritesValue env quoted ('\\' :: c :: cs) (d :: value)
  /-- A backslash at the end stands for nothing. -/
  | backslash : WritesValue env false ['\\'] []
  | single {text cs value : List Char} (htext : ∀ c ∈ text, c ≠ '\'')
    (h : WritesValue env false cs value) : WritesValue env false ('\'' :: (text ++ '\'' :: cs)) (text ++ value)
  | opened {cs value : List Char} (h : WritesValue env true cs value) : WritesValue env false ('"' :: cs) value
  | closed {cs value : List Char} (h : WritesValue env false cs value) : WritesValue env true ('"' :: cs) value
  | braced {quoted : Bool} {name cs value : List Char} (hname : ∀ c ∈ name, c ≠ '}')
    (h : WritesValue env quoted cs value) :
    WritesValue env quoted ('$' :: '{' :: (name ++ '}' :: cs)) (valueOf env name ++ value)
  /-- The character after a name stands for itself, whatever it is otherwise. -/
  | name {quoted : Bool} {name cs value : List Char} {c : Char} (hname : ∀ c ∈ name, isAlphanumeric c = true)
    (hc : isAlphanumeric c = false) (hdollar : c ≠ '$') (hbrace : name = [] → c ≠ '{')
    (h : WritesValue env quoted cs value) :
    WritesValue env quoted ('$' :: (name ++ c :: cs)) (valueOf env name ++ c :: value)
  | nameBefore {quoted : Bool} {name cs value : List Char} (hname : ∀ c ∈ name, isAlphanumeric c = true)
    (h : WritesValue env quoted ('$' :: cs) value) :
    WritesValue env quoted ('$' :: (name ++ '$' :: cs)) (valueOf env name ++ value)
  | nameAtEnd {name : List Char} (hname : ∀ c ∈ name, isAlphanumeric c = true) :
    WritesValue env false ('$' :: name) (valueOf env name)

namespace ValueMode

/-- Whether double quotes are open. -/
def isQuoted : ValueMode → Bool
  | bare | ended | strong => false
  | weak => true
  | escape quoted | name quoted _ | bracedName quoted _ => quoted

/-- What was read since the last place where anything might follow. -/
def opening : ValueMode → List Char
  | bare | weak => []
  | ended => [' ']
  | strong => ['\'']
  | escape _ => ['\\']
  | name _ reversed => '$' :: reversed.reverse
  | bracedName _ reversed => '$' :: '{' :: reversed.reverse

/-- The name so far can be one. -/
def Fits : ValueMode → Prop
  | name _ reversed => ∀ c ∈ reversed, isAlphanumeric c = true
  | bracedName _ reversed => ∀ c ∈ reversed, c ≠ '}'
  | _ => True

theorem plain_fits (quoted : Bool) : (plain quoted).Fits := by cases quoted <;> trivial

end ValueMode

variable {env : Environment} {quoted : Bool} {cs value : List Char}

theorem substitute_eq (env : Environment) (reversed : List Char) :
    substitute env reversed = valueOf env reversed.reverse := rfl

theorem not_alphanumeric_dollar : isAlphanumeric '$' = false := by decide +kernel

theorem not_alphanumeric_brace : isAlphanumeric '{' = false := by decide +kernel

/-- Where a value goes on nothing is open but perhaps the double quotes. -/
theorem WritesValue.of_plain
    (h : WritesValue env (ValueMode.plain quoted).isQuoted ((ValueMode.plain quoted).opening ++ cs) value) :
    WritesValue env quoted cs value := by
  cases quoted <;> exact h

theorem WritesValue.of_blank {c : Char} (hc : c = ' ' ∨ c = '\t') (h : WritesValue env false (c :: cs) value) :
    value = [] ∧ ∃ blanks rest, cs = blanks ++ rest ∧ (∀ d ∈ blanks, d = ' ' ∨ d = '\t') ∧
      ∀ d ∈ rest.head?, d = '#' := by
  generalize hall : c :: cs = all at h
  cases h with
  | blank hc hblanks hrest =>
    cases hall
    exact ⟨rfl, _, _, rfl, hblanks, hrest⟩
  | char hplain h =>
    cases hall
    obtain ⟨-, -, -, hbare⟩ := hplain
    obtain ⟨-, hspace, htab⟩ := hbare rfl
    exact absurd hc (not_or.mpr ⟨hspace, htab⟩)
  | _ => cases hall <;> simp at hc

theorem WritesValue.of_single (h : WritesValue env false ('\'' :: cs) value) :
    ∃ text rest more, cs = text ++ '\'' :: rest ∧ value = text ++ more ∧ (∀ c ∈ text, c ≠ '\'') ∧
      WritesValue env false rest more := by
  generalize hall : '\'' :: cs = all at h
  cases h with
  | single htext h =>
    cases hall
    exact ⟨_, _, _, rfl, rfl, htext, h⟩
  | blank hc _ _ =>
    cases hall
    simp at hc
  | char hplain h =>
    cases hall
    exact absurd rfl (hplain.2.2.2 rfl).1
  | _ => cases hall

/-- What is read in some mode is what is written from where the mode began. -/
theorem writesValue_of_readValue {mode : ValueMode} (hfits : mode.Fits)
    (h : readValue env mode cs = some value) : WritesValue env mode.isQuoted (mode.opening ++ cs) value := by
  fun_induction readValue env mode cs generalizing value with
  | case1 mode =>
    rw [List.append_nil]
    cases mode with
    | bare =>
      cases h
      exact .finish
    | ended =>
      cases h
      exact .blank (.inl rfl) (List.forall_mem_nil _) nofun
    | escape quoted =>
      cases quoted with
      | false =>
        cases h
        exact .backslash
      | true => cases h
    | name quoted reversed =>
      cases quoted with
      | false =>
        cases h
        exact .nameAtEnd fun c hc => hfits c (List.mem_reverse.mp hc)
      | true => cases h
    | strong | weak | bracedName _ _ => cases h
  | case2 c rest hc ih =>
    obtain ⟨rfl, blanks, rest, rfl, hblanks, hrest⟩ := (ih hfits h).of_blank (.inl rfl)
    exact @WritesValue.blank env ' ' (c :: blanks) rest (.inl rfl) (List.forall_mem_cons.mpr ⟨hc, hblanks⟩) hrest
  | case3 rest hnot =>
    cases h
    exact .blank (.inl rfl) (List.forall_mem_nil _) fun d hd => (Option.some.inj hd).symm
  | case4 c rest hnot hcomment => cases h
  | case5 quoted c rest ih =>
    obtain ⟨d, hd, h⟩ := Option.bind_eq_some_iff.mp h
    obtain ⟨more, hmore, heq⟩ := Option.bind_eq_some_iff.mp h
    cases heq
    exact .escape hd (ih (ValueMode.plain_fits quoted) hmore).of_plain
  | case6 rest ih => exact .single (List.forall_mem_nil _) (ih trivial h)
  | case7 c rest hc ih =>
    obtain ⟨more, hmore, rfl⟩ := Option.map_eq_some_iff.mp h
    obtain ⟨text, rest, more, rfl, rfl, htext, hrest⟩ := (ih trivial hmore).of_single
    exact .single (List.forall_mem_cons.mpr ⟨hc, htext⟩) hrest
  | case8 quoted reversed c rest hc ih =>
    have hrest := ih (List.forall_mem_cons.mpr ⟨hc, hfits⟩) h
    simpa [ValueMode.opening, ValueMode.isQuoted] using hrest
  | case9 quoted reversed c rest hc hbrace ih =>
    obtain ⟨rfl, rfl⟩ := hbrace
    exact ih (List.forall_mem_nil _) h
  | case10 quoted reversed rest hc hbrace ih =>
    obtain ⟨more, hmore, rfl⟩ := Option.map_eq_some_iff.mp h
    rw [substitute_eq]
    exact .nameBefore (fun c hc => hfits c (List.mem_reverse.mp hc)) (ih (List.forall_mem_nil _) hmore)
  | case11 quoted reversed c rest hc hbrace hdollar ih =>
    obtain ⟨more, hmore, rfl⟩ := Option.map_eq_some_iff.mp h
    have hrest := (ih (ValueMode.plain_fits quoted) hmore).of_plain
    exact .name (fun c hc => hfits c (List.mem_reverse.mp hc)) (Bool.eq_false_iff.mpr hc) hdollar
      (fun hnil hcbrace => hbrace ⟨hcbrace, List.reverse_eq_nil_iff.mp hnil⟩) hrest
  | case12 quoted reversed rest ih =>
    obtain ⟨more, hmore, rfl⟩ := Option.map_eq_some_iff.mp h
    have hrest := (ih (ValueMode.plain_fits quoted) hmore).of_plain
    exact .braced (fun c hc => hfits c (List.mem_reverse.mp hc)) hrest
  | case13 quoted reversed c rest hc ih =>
    have hrest := ih (List.forall_mem_cons.mpr ⟨hc, hfits⟩) h
    simpa [ValueMode.opening, ValueMode.isQuoted] using hrest
  | case14 rest ih => exact ih (List.forall_mem_nil _) h
  | case15 rest _ ih => exact .closed (ih trivial h)
  | case16 rest _ _ ih => exact ih trivial h
  | case17 c rest hdollar hquote hslash ih =>
    obtain ⟨more, hmore, rfl⟩ := Option.map_eq_some_iff.mp h
    exact .char ⟨hdollar, hquote, hslash, nofun⟩ (ih trivial hmore)
  | case18 rest ih => exact ih (List.forall_mem_nil _) h
  | case19 rest _ ih => exact ih trivial h
  | case20 rest _ _ ih => exact .opened (ih trivial h)
  | case21 rest _ _ _ ih => exact ih trivial h
  | case22 c rest _ _ _ _ hc ih =>
    obtain ⟨rfl, blanks, rest, rfl, hblanks, hrest⟩ := (ih trivial h).of_blank (.inl rfl)
    exact .blank hc hblanks hrest
  | case23 c rest hdollar hsingle hquote hslash hblank ih =>
    obtain ⟨more, hmore, rfl⟩ := Option.map_eq_some_iff.mp h
    exact .char ⟨hdollar, hquote, hslash, fun _ => ⟨hsingle, not_or.mp hblank⟩⟩ (ih trivial hmore)

/-- White space after a value is left out, and so is a comment. -/
theorem readValue_ended {blanks rest : List Char} (hblanks : ∀ d ∈ blanks, d = ' ' ∨ d = '\t')
    (hrest : ∀ d ∈ rest.head?, d = '#') : readValue env .ended (blanks ++ rest) = some [] := by
  induction blanks with
  | nil =>
    cases rest with
    | nil => rfl
    | cons d rest =>
      obtain rfl := hrest d rfl
      rfl
  | cons c blanks ih =>
    obtain ⟨hc, hblanks⟩ := List.forall_mem_cons.mp hblanks
    rw [List.cons_append, readValue, if_pos hc]
    exact ih hblanks

/-- A text in single quotes stands for itself. -/
theorem readValue_strong {text : List Char} (htext : ∀ c ∈ text, c ≠ '\'') :
    readValue env .strong (text ++ '\'' :: cs) = (readValue env .bare cs).map (text ++ ·) := by
  induction text with
  | nil =>
    rw [List.nil_append, readValue, if_pos rfl]
    exact (congrFun Option.map_id _).symm
  | cons c text ih =>
    obtain ⟨hc, htext⟩ := List.forall_mem_cons.mp htext
    rw [List.cons_append, readValue, if_neg hc, ih htext, Option.map_map]
    rfl

/-- A name in braces ends with the first closing one. -/
theorem readValue_bracedName {name reversed : List Char} (hname : ∀ c ∈ name, c ≠ '}') :
    readValue env (.bracedName quoted reversed) (name ++ '}' :: cs) =
      (readValue env (.plain quoted) cs).map (valueOf env (reversed.reverse ++ name) ++ ·) := by
  induction name generalizing reversed with
  | nil =>
    rw [List.nil_append, readValue, if_pos rfl, List.append_nil]
    rfl
  | cons c name ih =>
    obtain ⟨hc, hname⟩ := List.forall_mem_cons.mp hname
    rw [List.cons_append, readValue, if_neg hc, ih hname, List.reverse_cons, List.append_assoc]
    rfl

/-- A name goes on with letters and digits. -/
theorem readValue_name {name reversed : List Char} (hname : ∀ c ∈ name, isAlphanumeric c = true) :
    readValue env (.name quoted reversed) (name ++ cs) =
      readValue env (.name quoted (name.reverse ++ reversed)) cs := by
  induction name generalizing reversed with
  | nil => rfl
  | cons c name ih =>
    obtain ⟨hc, hname⟩ := List.forall_mem_cons.mp hname
    rw [List.cons_append, readValue, if_pos hc, ih hname, List.reverse_cons, List.append_assoc]
    rfl

/-- A dollar sign begins a name, inside double quotes too. -/
theorem readValue_dollar : readValue env (.plain quoted) ('$' :: cs) = readValue env (.name quoted []) cs := by
  cases quoted <;> rfl

/-- A backslash waits for the next character, inside double quotes too. -/
theorem readValue_backslash : readValue env (.plain quoted) ('\\' :: cs) = readValue env (.escape quoted) cs := by
  cases quoted <;> rfl

theorem readValue_char {c : Char} (hc : StandsForItself quoted c) :
    readValue env (.plain quoted) (c :: cs) = (readValue env (.plain quoted) cs).map (c :: ·) := by
  obtain ⟨hdollar, hquote, hslash, hbare⟩ := hc
  cases quoted with
  | true =>
    change readValue env .weak (c :: cs) = _
    rw [readValue, if_neg hdollar, if_neg hquote, if_neg hslash]
    rfl
  | false =>
    obtain ⟨hsingle, hspace, htab⟩ := hbare rfl
    change readValue env .bare (c :: cs) = _
    rw [readValue, if_neg hdollar, if_neg hsingle, if_neg hquote, if_neg hslash,
      if_neg (not_or.mpr ⟨hspace, htab⟩)]
    rfl

theorem WritesValue.readValue (h : WritesValue env quoted cs value) :
    readValue env (.plain quoted) cs = some value := by
  induction h with
  | finish => rfl
  | @blank c blanks rest hc hblanks hrest =>
    have hstart : EnvironmentFile.readValue env .bare (c :: (blanks ++ rest)) =
        EnvironmentFile.readValue env .ended (blanks ++ rest) := by
      rcases hc with rfl | rfl <;> rfl
    exact hstart.trans (readValue_ended hblanks hrest)
  | char hc _ ih =>
    rw [readValue_char hc, ih]
    rfl
  | @escape quoted c d cs value hc _ ih =>
    rw [readValue_backslash, EnvironmentFile.readValue, hc, ih]
    rfl
  | backslash => rfl
  | single htext _ ih =>
    refine (readValue_strong htext).trans ?_
    rw [show EnvironmentFile.readValue env .bare _ = _ from ih]
    rfl
  | opened _ ih => exact ih
  | closed _ ih => exact ih
  | braced hname _ ih =>
    rw [readValue_dollar, EnvironmentFile.readValue, if_neg (by rw [not_alphanumeric_brace]; nofun),
      if_pos ⟨rfl, rfl⟩, readValue_bracedName hname, ih]
    rfl
  | @name quoted name cs value c hname hc hdollar hbrace _ ih =>
    have hnot : ¬ (c = '{' ∧ name.reverse ++ [] = []) := fun ⟨hcbrace, hnil⟩ =>
      hbrace (by simpa using hnil) hcbrace
    rw [readValue_dollar, readValue_name hname, EnvironmentFile.readValue, if_neg (by rw [hc]; nofun),
      if_neg hnot, if_neg hdollar, ih, substitute_eq, List.append_nil, List.reverse_reverse]
    rfl
  | @nameBefore quoted name cs value hname _ ih =>
    rw [readValue_dollar] at ih
    have hnot : ¬ ('$' = '{' ∧ name.reverse ++ [] = []) := fun ⟨hcbrace, _⟩ => by cases hcbrace
    rw [readValue_dollar, readValue_name hname, EnvironmentFile.readValue,
      if_neg (by rw [not_alphanumeric_dollar]; nofun), if_neg hnot, if_pos rfl, ih, substitute_eq,
      List.append_nil, List.reverse_reverse]
    rfl
  | @nameAtEnd name hname =>
    have hend : EnvironmentFile.readValue env (.name false []) (name ++ []) =
        EnvironmentFile.readValue env (.name false (name.reverse ++ [])) [] := readValue_name hname
    rw [List.append_nil, List.append_nil] at hend
    rw [readValue_dollar, hend, EnvironmentFile.readValue, finishValue, substitute_eq, List.reverse_reverse]

/-- A value is read from a text exactly if it is written there. -/
theorem readValue_eq_some_iff : readValue env .bare cs = some value ↔ WritesValue env false cs value :=
  ⟨fun h => writesValue_of_readValue (ValueMode.plain_fits false) h, fun h => h.readValue⟩

end EnvironmentFile

end PriceArchive
