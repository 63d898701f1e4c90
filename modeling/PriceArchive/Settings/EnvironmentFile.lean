import PriceArchive.Settings.Environment
import PriceArchive.Text.Alphanumeric
import PriceArchive.Text.Blank

namespace PriceArchive

namespace EnvironmentFile

/-- How a line stands after some of its characters. -/
inductive Standing where
  /-- Nothing is open, and the last character was no white space. -/
  | closed
  /-- Nothing is open, and the last character was white space. -/
  | blank
  /-- A backslash waits for the next character. -/
  | escape
  /-- A quotation is open, perhaps with a backslash that waits. -/
  | quoted (mark : Char) (escape : Bool)
  /-- A comment has begun. -/
  | comment
  deriving DecidableEq

namespace Standing

/-- What a character opens where nothing is open. -/
def opened (c : Char) : Standing :=
  if c = '\\' then escape else if c = '"' ∨ c = '\'' then quoted c false else closed

/-- How a line stands after one more character. -/
def next : Standing → Char → Standing
  | closed, c => if isBlank c ∧ c ≠ '\n' ∧ c ≠ '\r' then blank else opened c
  | blank, c => if c = '#' then comment else opened c
  | escape, _ => closed
  | quoted mark true, _ => quoted mark false
  | quoted mark false, c =>
    if c = '\\' then quoted mark true else if c = mark then closed else quoted mark false
  | comment, _ => comment

/-- How a line stands after more characters, and which of them come before a comment. -/
def follow (s : Standing) : List Char → List Char × Standing
  | [] => ([], s)
  | c :: rest =>
    match s.next c with
    | comment => ([], comment)
    | s =>
      let (kept, final) := follow s rest
      (c :: kept, final)

end Standing

/-- The lines of a text, each with the line feed that ends it. -/
def lines : List Char → List (List Char)
  | [] => []
  | c :: rest =>
    if c = '\n' then [c] :: lines rest
    else
      match lines rest with
      | [] => [[c]]
      | line :: more => (c :: line) :: more

/-- A line without the line feed that ends it, and without a carriage return before that. -/
def dropLineEnd (line : List Char) : List Char :=
  match line.reverse with
  | '\n' :: '\r' :: rest => rest.reverse
  | '\n' :: rest => rest.reverse
  | _ => line

/-- Whether a line has nothing but a comment. -/
def isComment (line : List Char) : Bool := (dropBlanks line).head? == some '#'

/-- Joins lines until nothing is open. `pending` was read before and stands as `s` says. A line
that is still open at the end of the text is given as `none`. -/
def join (pending : List Char) (s : Standing) : List (List Char) → List (Option (List Char))
  | [] => if s = .closed then [] else [none]
  | line :: rest =>
    if isComment (pending ++ line) then join [] .closed rest
    else
      match s.follow line with
      | (_, .closed) => some (dropLineEnd (pending ++ line)) :: join [] .closed rest
      | (kept, .comment) => some (pending ++ kept) :: join [] .closed rest
      | (_, s) => join (pending ++ line) s rest

/-- The text without the mark of its byte order. -/
def dropByteOrderMark : List Char → List Char
  | '\uFEFF' :: rest => rest
  | cs => cs

def logicalLines (text : String) : List (Option (List Char)) :=
  join [] .closed (lines (dropByteOrderMark text.toList))

/-- How a value stands after some of its characters. -/
inductive ValueMode where
  | bare
  /-- White space ended the value. -/
  | ended
  | strong
  | weak
  /-- A backslash waits for the next character, inside double quotes or not. -/
  | escape (quoted : Bool)
  /-- The name after a dollar sign, backwards. -/
  | name (quoted : Bool) (reversed : List Char)
  /-- The name after a dollar sign and a brace, backwards. -/
  | bracedName (quoted : Bool) (reversed : List Char)

namespace ValueMode

/-- How a value goes on inside double quotes or not. -/
def plain (quoted : Bool) : ValueMode := if quoted then weak else bare

end ValueMode

/-- The value of the variable with this name, or nothing. -/
def substitute (env : Environment) (reversed : List Char) : List Char :=
  ((env (String.ofList reversed.reverse)).getD "").toList

/-- What a backslash and a character stand for. -/
def escaped? (c : Char) : Option Char :=
  if c = 'n' then some '\n'
  else if c = '\\' ∨ c = '\'' ∨ c = '"' ∨ c = '$' ∨ c = ' ' then some c
  else none

/-- What a value ends with, if it may end here. -/
def finishValue (env : Environment) : ValueMode → Option (List Char)
  | .bare | .ended | .escape false => some []
  | .name false reversed => some (substitute env reversed)
  | .strong | .weak | .escape true | .name true _ | .bracedName .. => none

/-- What a value reads as, from the given mode on. -/
def readValue (env : Environment) : ValueMode → List Char → Option (List Char)
  | mode, [] => finishValue env mode
  | .ended, c :: rest =>
    if c = ' ' ∨ c = '\t' then readValue env .ended rest
    else if c = '#' then some []
    else none
  | .escape quoted, c :: rest => do
    let c ← escaped? c
    let more ← readValue env (.plain quoted) rest
    return c :: more
  | .strong, c :: rest =>
    if c = '\'' then readValue env .bare rest else (readValue env .strong rest).map (c :: ·)
  | .name quoted reversed, c :: rest =>
    if isAlphanumeric c then readValue env (.name quoted (c :: reversed)) rest
    else if c = '{' ∧ reversed = [] then readValue env (.bracedName quoted []) rest
    else if c = '$' then
      (readValue env (.name quoted []) rest).map (substitute env reversed ++ ·)
    else
      (readValue env (.plain quoted) rest).map fun more => substitute env reversed ++ c :: more
  | .bracedName quoted reversed, c :: rest =>
    if c = '}' then
      (readValue env (.plain quoted) rest).map (substitute env reversed ++ ·)
    else readValue env (.bracedName quoted (c :: reversed)) rest
  | .weak, c :: rest =>
    if c = '$' then readValue env (.name true []) rest
    else if c = '"' then readValue env .bare rest
    else if c = '\\' then readValue env (.escape true) rest
    else (readValue env .weak rest).map (c :: ·)
  | .bare, c :: rest =>
    if c = '$' then readValue env (.name false []) rest
    else if c = '\'' then readValue env .strong rest
    else if c = '"' then readValue env .weak rest
    else if c = '\\' then readValue env (.escape false) rest
    else if c = ' ' ∨ c = '\t' then readValue env .ended rest
    else (readValue env .bare rest).map (c :: ·)

def takeName? (cs : List Char) : Option (String × List Char) :=
  match cs with
  | [] => none
  | c :: _ =>
    if c.isAlpha ∨ c = '_' then
      let inName := fun c : Char => c.isAlphanum || c == '_' || c == '.'
      some (String.ofList (cs.takeWhile inName), cs.dropWhile inName)
    else none

/-- What follows an equals sign at the front of a text. -/
def afterEquals? : List Char → Option (List Char)
  | '=' :: rest => some rest
  | _ => none

/-- The name that a line sets, and what follows the equals sign. The word `export` may stand before
the name; alone it is a name itself. -/
def readTarget? (cs : List Char) : Option (String × List Char) := do
  let (name, rest) ← takeName? cs
  match afterEquals? (dropBlanks rest) with
  | some value => return (name, value)
  | none =>
    if name = "export" then
      let (name, rest) ← takeName? (dropBlanks rest)
      return (name, ← afterEquals? (dropBlanks rest))
    else none

inductive Line where
  | empty
  /-- The value of a variable. -/
  | assignment (name value : String)
  deriving DecidableEq

/-- A text without the white space at its end. -/
def dropBlanksAtEnd (cs : List Char) : List Char := (dropBlanks cs.reverse).reverse

/-- Whether nothing or only a comment is left. -/
def isVoid (cs : List Char) : Bool := cs.isEmpty || cs.head? == some '#'

def readLine (env : Environment) (line : List Char) : Option Line := do
  let cs := dropBlanks (dropBlanksAtEnd line)
  if isVoid cs then return .empty
  let (name, rest) ← readTarget? cs
  let rest := dropBlanks rest
  if isVoid rest then return .assignment name ""
  let value ← readValue env .bare rest
  return .assignment name (String.ofList value)

/-- The environment with what logical lines set. -/
def loadLines (env : Environment) : List (Option (List Char)) → Environment
  | [] => env
  | none :: _ => env
  | some line :: rest =>
    match readLine env line with
    | none => env
    | some .empty => loadLines env rest
    | some (.assignment name value) => loadLines (env.withDefault name value) rest

/-- The environment with what a text sets. -/
def load (text : String) (env : Environment) : Environment := loadLines env (logicalLines text)

end EnvironmentFile

end PriceArchive
