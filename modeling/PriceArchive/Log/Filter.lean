import PriceArchive.Log.Basic
import PriceArchive.Settings.Environment
import PriceArchive.Text.Alphanumeric
import PriceArchive.Text.Blank
import PriceArchive.Text.Numeral

namespace PriceArchive

/-- What a filter says about the lines of some targets. -/
structure LogDirective where
  /-- The start of the targets, or none for all. -/
  target : Option String
  /-- The greatest rank of a level that is shown. -/
  limit : Nat
  deriving DecidableEq

namespace LogDirective

/-- Whether a directive is about a line. -/
def isAbout (d : LogDirective) (line : LogLine) : Bool :=
  match d.target with
  | none => true
  | some start => start.toList.isPrefixOf line.target.toList

/-- How closely a directive says what it is about. -/
def closeness (d : LogDirective) : Nat :=
  match d.target with
  | none => 0
  | some start => start.length + 1

end LogDirective

/-- Which log lines are shown. -/
structure LogFilter where
  directives : List LogDirective
  deriving DecidableEq

namespace LogFilter

/-- The directive about a line that counts: the closest, and of several the last. -/
def closest (line : LogLine) : List LogDirective → Option LogDirective
  | [] => none
  | d :: rest =>
    match closest line rest with
    | none => if d.isAbout line then some d else none
    | some e => if d.isAbout line ∧ e.closeness < d.closeness then some d else some e

/-- Whether a line is shown. -/
def shows (f : LogFilter) (line : LogLine) : Bool :=
  match closest line f.directives with
  | none => false
  | some d => decide (line.level.rank ≤ d.limit)

/-- The lines of the program itself, down to what it does. -/
def standard : LogFilter := ⟨[⟨some "market_data_store", LogLevel.info.rank⟩]⟩

/-- Errors alone. -/
def errorsOnly : LogFilter := ⟨[⟨none, LogLevel.error.rank⟩]⟩

/-- The greatest rank that a level by this name or number lets through. -/
def limit? (level : String) : Option Nat :=
  match Numeral.natural? level with
  | some n => if n ≤ LogLevel.trace.rank then some n else none
  | none =>
    [("off", 0), ("error", 1), ("warn", 2), ("info", 3), ("debug", 4), ("trace", 5)].lookup
      level.toLower

/-- The limit that what follows an equals sign sets; nothing lets everything through. -/
def limitAfterEquals? (level : List Char) : Option Nat :=
  if level.isEmpty then some LogLevel.trace.rank else limit? (String.ofList level)

/-- Whether a directive may begin with this character. -/
def startsDirective (c : Char) : Bool := isAlphanumeric c || c == '-' || c == ':' || c == '_'

/-- The text after a bracket of a span and what is in it: nothing, or an equals sign and a level. -/
def readAfterSpan? : List Char → Option Unit
  | [] => some ()
  | '=' :: level => (limitAfterEquals? level).map fun _ => ()
  | _ => none

/-- The text after the fields of a span: a bracket and what may follow it. -/
def readAfterFields? : List Char → Option Unit
  | ']' :: rest => readAfterSpan? rest
  | _ => none

/-- Reads a span from after its bracket: a name, perhaps with fields in braces. -/
def readSpan? (cs : List Char) : Option Unit :=
  match cs.dropWhile fun c => c != ']' && c != '{' with
  | ']' :: rest => readAfterSpan? rest
  | '{' :: rest =>
    if rest.head? == some '}' then none
    else
      match rest.dropWhile fun c => c != '}' with
      | '}' :: rest => readAfterFields? rest
      | _ => none
  | _ => none

/-- Reads a directive without white space at its start; one about spans says nothing about lines. -/
def readTrimmed? (cs : List Char) : Option (Option LogDirective) :=
  match cs.dropWhile fun c => c != '=' && c != '[' with
  | '[' :: rest => (readSpan? rest).map fun _ => none
  | '=' :: level => do
    let limit ← limitAfterEquals? level
    return some ⟨some (String.ofList (cs.takeWhile fun c => c != '=')), limit⟩
  | _ =>
    match limit? (String.ofList cs) with
    | some limit => some (some ⟨none, limit⟩)
    | none => some (some ⟨some (String.ofList cs), LogLevel.trace.rank⟩)

/-- Reads a directive. White space at its start belongs to the name of a target, which no line
has, and takes a level away from its place. -/
def readDirective? (text : String) : Option (Option LogDirective) :=
  let cs := text.toList
  let inner := dropBlanks cs
  match inner with
  | [] => none
  | c :: _ =>
    if c == '[' then readTrimmed? inner
    else if !startsDirective c then none
    else if inner.length = cs.length then readTrimmed? cs
    else if inner.contains '=' then none
    else some (some ⟨some text, LogLevel.trace.rank⟩)

/-- The filter that a text writes. -/
def read? (text : String) : Option LogFilter :=
  if text.isEmpty then some errorsOnly
  else do
    let directives ← ((text.splitOn ",").filter fun d => !d.isEmpty).mapM readDirective?
    return if directives.isEmpty then errorsOnly else ⟨directives.filterMap id⟩

/-- The filter that an environment asks for. -/
def ofEnvironment (env : Environment) : LogFilter :=
  match env "RUST_LOG" with
  | none => standard
  | some text => (read? text).getD standard

end LogFilter

end PriceArchive
