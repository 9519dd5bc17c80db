import FragmentedMp4.Shell.Arguments

/-!
# A folder of files

A small system to try the commands in: the files below the folder that a program runs in, and
the folders in between. A path is followed name by name, and every name but the last one has to
lead to a folder. Of the places outside only those are known that every system has. Running a
program on a folder gives the outcome and the folder afterwards.
-/

namespace FragmentedMp4.CommandLine

/-- The names of the folders on the way to a file, and last the name of the file. -/
abbrev Place := List String

/-- Where a path has led to. -/
inductive Location where
  /-- The folder, or a place below it. -/
  | inside (place : Place)
  /-- One of the folders that the folder is in. -/
  | above
  /-- A place below one of those, where nothing is known to be. -/
  | elsewhere
  /-- A place that is given from the root of the system. -/
  | system (place : Place)
deriving DecidableEq

namespace Location

/-- The folder that a folder is in; the root is in itself. -/
def parent : Location → Location
  | inside [] => above
  | inside place => inside place.dropLast
  | above => above
  | elsewhere => above
  | system place => system place.dropLast

def child (name : String) : Location → Location
  | inside place => inside (place ++ [name])
  | above => elsewhere
  | elsewhere => elsewhere
  | system place => system (place ++ [name])

end Location

/-- A path, taken apart. -/
structure Path where
  start : Location
  names : List String
  endsInSlash : Bool

namespace Path

def nameLimit : Nat := 255

def sizeLimit : Nat := 4095

/-- The names in a text; several slashes are like one. -/
def namesIn (text : String) : List String :=
  ((Text.pieces '/' text.toList).map String.ofList).filter (· ≠ "")

/-- Takes a path apart. It begins at the root if its first character is a slash. -/
def parse (text : String) : Except FileProblem Path :=
  if text.isEmpty then .error .notFound
  else if sizeLimit < text.utf8ByteSize then .error .nameTooLong
  else
    .ok
      { start := if text.toList.head? = some '/' then .system [] else .inside []
        names := namesIn text
        endsInSlash := text.toList.getLast? == some '/' }

/-- Whether a name stands for a folder that has been reached already. -/
def isDots (name : String) : Bool :=
  name == "." || name == ".."

end Path

inductive Entry where
  | folder
  | file (content : Bytes)

/-- Files below a folder; the first entry of a place counts. -/
structure Folder where
  files : List (Place × Bytes)

namespace Folder

def ofFiles (files : List (String × Bytes)) : Folder :=
  ⟨files.map fun (name, content) => ((Path.namesIn name).filter (· ≠ "."), content)⟩

def file? (folder : Folder) (place : Place) : Option Bytes :=
  folder.files.lookup place

/-- Puts a file at a place, instead of one that is there already. -/
def store (folder : Folder) (place : Place) (content : Bytes) : Folder :=
  ⟨(place, content) :: folder.files⟩

def hasFolder (folder : Folder) (place : Place) : Bool :=
  place.isEmpty ||
    folder.files.any fun (other, _) => place.length < other.length && place.isPrefixOf other

/-- The folders that every system has. -/
def systemFolders : List Place :=
  [[], ["dev"], ["tmp"]]

/-- The file of every system that is always empty, whatever is written to it. -/
def nullDevice : Place :=
  ["dev", "null"]

def entry? (folder : Folder) : Location → Option Entry
  | .inside place =>
    if folder.hasFolder place then some .folder else (folder.file? place).map .file
  | .above => some .folder
  | .elsewhere => none
  | .system place =>
    if place ∈ systemFolders then some .folder
    else if place = nullDevice then some (.file [])
    else none

def requireFolder (folder : Folder) (location : Location) : Except FileProblem Unit :=
  match folder.entry? location with
  | some .folder => .ok ()
  | some (.file _) => .error .notAFolder
  | none => .error .notFound

/-- Follows one name. A single dot stays, two dots lead to the folder around. -/
def enter (folder : Folder) (location : Location) (name : String) :
    Except FileProblem Location := do
  folder.requireFolder location
  if name = "." then return location
  else if name = ".." then return location.parent
  else if Path.nameLimit < name.utf8ByteSize then .error .nameTooLong
  else return location.child name

def follow (folder : Folder) (location : Location) (names : List String) :
    Except FileProblem Location :=
  names.foldlM folder.enter location

/-- Reads a file. A slash at the end asks for a folder. -/
def read (folder : Folder) (text : String) : Except FileProblem Bytes := do
  let path ← Path.parse text
  let location ← folder.follow path.start path.names
  match folder.entry? location with
  | none => .error .notFound
  | some .folder => .error .isAFolder
  | some (.file content) => if path.endsInSlash then .error .notAFolder else return content

/-- Where a file is written to. The file need not exist, the folder has to. -/
def locationToWrite (folder : Folder) (path : Path) : Except FileProblem Location := do
  let parent ← folder.follow path.start path.names.dropLast
  folder.requireFolder parent
  match path.names.getLast? with
  | none => .error .isAFolder
  | some name =>
    if path.endsInSlash || Path.isDots name then .error .isAFolder
    else
      let location ← folder.enter parent name
      match folder.entry? location with
      | some .folder => .error .isAFolder
      | _ => return location

/-- Writes a file, in place of one that is there already. What is written outside of the
folder is lost. -/
def write (folder : Folder) (text : String) (content : Bytes) : Except FileProblem Folder := do
  match ← folder.locationToWrite (← Path.parse text) with
  | .inside place => return folder.store place content
  | _ => return folder

def assignments (folder : Folder) : List Assignment :=
  match folder.read ".env" with
  | .ok content => assignmentsOf content
  | .error _ => []

/-- A folder as the files around a program. -/
def system : System String Folder Environment where
  loadVariables folder environment := .ok (environment.assignAll folder.assignments)
  parseArguments environment arguments :=
    (Command.ofArguments environment arguments).mapError NoCommand.outcome
  read := Folder.read
  write folder path content :=
    match folder.write path content with
    | .error problem => (.error problem, folder)
    | .ok after => (.ok (), after)

end Folder

def Program.runOn (environment : Environment) (folder : Folder) (program : Program String) :
    Outcome × Folder :=
  program.runIn Folder.system environment folder

end FragmentedMp4.CommandLine
