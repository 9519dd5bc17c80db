import FragmentedMp4.Bytes
import FragmentedMp4.Shell.Alphanumeric
import FragmentedMp4.Text.Blank

/-!
# Environment files

A simple reader of environment files, to try the commands with. Variables come from the
environment and from an environment file, which adds only those that the environment lacks.
A line of the file assigns a value to a name; values can be quoted, and outside single quotes
they can refer to variables. The first line that cannot be read ends the file. A name that is
assigned to is ASCII; a reference takes letters and digits of any script, and between braces
all characters.

Lines are read into templates first, so that reading does not depend on the variables.
-/

namespace FragmentedMp4.CommandLine

/-- Names and values; the first entry for a name counts. -/
abbrev Environment := List (String × String)

/-- A character of a value, or a variable whose value goes there. -/
inductive Piece where
  | char (c : Char)
  | variable (name : List Char)
deriving DecidableEq

/-- One line of an environment file. -/
structure Assignment where
  name : String
  value : List Piece

/-- The variables whose values matter for an assignment. -/
def Assignment.variables (assignment : Assignment) : List String :=
  assignment.name :: assignment.value.filterMap fun
    | .char _ => none
    | .variable name => some (String.ofList name)

/-- Where reading a value stands. `quoted` says whether a double quote is open. -/
inductive ValueMode where
  | plain (quoted : Bool)
  /-- Behind a backslash. -/
  | escaped (quoted : Bool)
  /-- Between single quotes. -/
  | literal
  /-- Behind a dollar sign, with the name read so far. -/
  | bareName (quoted : Bool) (name : List Char)
  /-- Behind a dollar sign and a brace. -/
  | bracedName (quoted : Bool) (name : List Char)
  /-- Behind the value, where only blanks and a comment may follow. -/
  | ended

namespace ValueMode

/-- What a character does outside of names, escapes and single quotes. -/
def plainStep (quoted : Bool) (c : Char) : List Piece × ValueMode :=
  if c = '$' then ([], bareName quoted [])
  else if quoted then
    if c = '"' then ([], plain false)
    else if c = '\\' then ([], escaped true)
    else ([.char c], plain true)
  else if c = '\'' then ([], literal)
  else if c = '"' then ([], plain true)
  else if c = '\\' then ([], escaped false)
  else if c = ' ' ∨ c = '\t' then ([], ended)
  else ([.char c], plain false)

/-- The character that an escape stands for. -/
def escape? (c : Char) : Option Char :=
  if c = 'n' then some '\n'
  else if c = '\\' ∨ c = '\'' ∨ c = '"' ∨ c = '$' ∨ c = ' ' then some c
  else none

/-- What a character means; none if it may not stand there. -/
def step : ValueMode → Char → Option (List Piece × ValueMode)
  | plain quoted, c => some (plainStep quoted c)
  | escaped quoted, c => (escape? c).map fun c => ([.char c], plain quoted)
  | literal, c => some (if c = '\'' then ([], plain false) else ([.char c], literal))
  | bareName quoted name, c =>
    if Text.isAlphanumeric c then some ([], bareName quoted (name ++ [c]))
    else if c = '\x7b' ∧ name = [] then some ([], bracedName quoted [])
    else if c = '$' then some ([.variable name], bareName quoted [])
    else some ([.variable name, .char c], plain quoted)
  | bracedName quoted name, c =>
    some (if c = '\x7d' then ([.variable name], plain quoted)
      else ([], bracedName quoted (name ++ [c])))
  | ended, c => if c = ' ' ∨ c = '\t' then some ([], ended) else none

/-- What the end of the line means; none if something is still open. -/
def finish? : ValueMode → Option (List Piece)
  | plain quoted => if quoted then none else some []
  | escaped quoted => if quoted then none else some []
  | literal => none
  | bareName quoted name => if quoted then none else some [.variable name]
  | bracedName _ _ => none
  | ended => some []

/-- Whether the rest of the line is a comment. -/
def beginsComment (mode : ValueMode) (c : Char) : Bool :=
  match mode with
  | ended => c == '#'
  | _ => false

end ValueMode

def valueFrom (mode : ValueMode) : List Char → Option (List Piece)
  | [] => mode.finish?
  | c :: text =>
    if mode.beginsComment c then some []
    else do
      let (pieces, mode) ← mode.step c
      return pieces ++ (← valueFrom mode text)

/-- Whether nothing but a comment is left. -/
def isBlankLine (text : List Char) : Bool :=
  text.isEmpty || text.head? == some '#'

/-- A name at the front of a line, and the rest of the line. -/
def nameAtFront? (text : List Char) : Option (List Char × List Char) :=
  match text with
  | [] => none
  | c :: _ =>
    if c.isAlpha || c == '_' then
      let inName (c : Char) := c.isAlphanum || c == '_' || c == '.'
      some (text.takeWhile inName, Text.trimLeft (text.dropWhile inName))
    else none

/-- The text behind an equals sign. -/
def behindEquals? : List Char → Option (List Char)
  | '=' :: text => some (Text.trimLeft text)
  | _ => none

/-- The name that a line assigns to, and the text of its value. A line may begin with the
word `export`, which is a name itself if an equals sign follows. -/
def targetOf? (text : List Char) : Option (List Char × List Char) := do
  let (name, rest) ← nameAtFront? text
  match behindEquals? rest with
  | some value => return (name, value)
  | none =>
    if name = "export".toList then
      let (name, rest) ← nameAtFront? rest
      return (name, ← behindEquals? rest)
    else none

/-- Reads a line: nothing if it is blank or a comment. The outer option is empty if the
line cannot be read. -/
def assignment? (line : List Char) : Option (Option Assignment) :=
  let text := Text.trimLeft (Text.trimRight line)
  if isBlankLine text then some none
  else do
    let (name, value) ← targetOf? text
    let pieces ← if isBlankLine value then some [] else valueFrom (.plain false) value
    return some ⟨String.ofList name, pieces⟩

/-- The lines of a file, as far as they are text. -/
def linesOf (content : Bytes) : List (Option (List Char)) :=
  (content.splitBy fun byte _ => byte != 10).map fun line =>
    (String.fromUTF8? ⟨line.toArray⟩).map String.toList

/-- The assignments of a file, up to the first line that cannot be read. -/
def assignmentsFrom : List (Option (List Char)) → List Assignment
  | [] => []
  | none :: _ => []
  | some line :: lines =>
    match assignment? line with
    | none => []
    | some none => assignmentsFrom lines
    | some (some assignment) => assignment :: assignmentsFrom lines

def assignmentsOf (content : Bytes) : List Assignment :=
  assignmentsFrom (linesOf content)

/-- What follows a name and an equals sign at the front of a text. -/
def valueAfter? : (name text : List Char) → Option (List Char)
  | [], '=' :: value => some value
  | c :: name, d :: text => if c = d then valueAfter? name text else none
  | _, _ => none

namespace Environment

/-- The value of a variable. An entry is a text `name=value` and may be cut at any equals
sign in it, so that with `a` set to `b=c` the name `a=b` has the value `c`. The empty name
has no value. -/
def value? (environment : Environment) (name : String) : Option String :=
  if name.isEmpty then none
  else
    environment.findSome? fun (other, value) =>
      (valueAfter? name.toList (other.toList ++ '=' :: value.toList)).map String.ofList

/-- The characters that a piece stands for; unknown variables stand for none. -/
def expand (environment : Environment) : Piece → List Char
  | .char c => [c]
  | .variable name => ((environment.value? (String.ofList name)).getD "").toList

/-- Adds a variable, unless there is one of that name. -/
def assign (environment : Environment) (assignment : Assignment) : Environment :=
  match environment.value? assignment.name with
  | some _ => environment
  | none =>
    environment ++
      [(assignment.name, String.ofList (assignment.value.flatMap environment.expand))]

def assignAll (environment : Environment) (assignments : List Assignment) : Environment :=
  assignments.foldl assign environment

end Environment
end FragmentedMp4.CommandLine
