import FragmentedMp4.CommandLine.Command
import FragmentedMp4.Segment.CommonDuration
import FragmentedMp4.Segment.Decoding
import FragmentedMp4.Segment.Encoding
import FragmentedMp4.Segment.Recut

/-!
# What the commands do

A `Program` asks for the variables of a process, for the command that its arguments stand for and
for whole files, and ends with an `Outcome`. It is a value: what it is answered is up to the
`System` that it runs in. How a system keeps files, loads variables and reads arguments is not
said here.

Failures are reported with their causes, each on a line of its own: the first line says
what was tried, and every wrapper around an error has the error inside it as a cause.
-/

namespace FragmentedMp4.CommandLine

/-- How a run ends. -/
structure Outcome where
  status : Nat
  stdout : Bytes
  stderr : String

/-- Why a file cannot be read or written, in the words of the system. -/
inductive FileProblem where
  | notFound
  | notAFolder
  | isAFolder
  | nameTooLong
  | other (reason : String)

def FileProblem.message : FileProblem → String
  | notFound => "No such file or directory (os error 2)"
  | notAFolder => "Not a directory (os error 20)"
  | isAFolder => "Is a directory (os error 21)"
  | nameTooLong => "File name too long (os error 36)"
  | other reason => reason

namespace Outcome

def success (stdout : Bytes) : Outcome :=
  ⟨0, stdout, ""⟩

/-- A text whose lines but the first are set in. -/
def setIn (indent : String) (text : String) : String :=
  String.ofList (text.toList.flatMap fun c => if c = '\n' then c :: indent.toList else [c])

/-- The line of one cause among several, counted from 0. -/
def numberedCause (i : Nat) (cause : String) : String :=
  String.ofList (List.leftpad 5 ' ' (toString i).toList) ++ ": " ++ setIn "       " cause ++ "\n"

/-- The lines for the causes: numbered if there are several. -/
def causeLines : List String → String
  | [] => ""
  | [cause] => "\nCaused by:\n    " ++ setIn "    " cause ++ "\n"
  | causes => "\nCaused by:\n" ++ String.join (causes.mapIdx numberedCause)

/-- A run that failed, for a chain of causes. -/
def failure (message : String) (causes : List String) : Outcome :=
  ⟨1, [], s!"Error: {message}\n{causeLines causes}"⟩

def ofError (error : Error) : Outcome :=
  failure error.message (error.causes.map Error.message)

/-- A run that an error ended, with a line that says what was tried. -/
def ofErrorIn (context : String) (error : Error) : Outcome :=
  failure context (error.message :: error.causes.map Error.message)

def abort (failure : Failure) : Outcome :=
  ⟨101, [], s!"{failure.message}\n"⟩

def ofFailure : Failure → Outcome
  | .error error => ofError error
  | failure => abort failure

def ofFailureIn (context : String) : Failure → Outcome
  | .error error => ofErrorIn context error
  | failure => abort failure

end Outcome

/-- Things to ask a system for, and what to do then. -/
inductive Program (SystemText : Type) where
  | finish (outcome : Outcome)
  /-- Adds the variables of an environment file, if there is one. -/
  | loadVariables (next : Program SystemText)
  | parseArguments (arguments : List SystemText) (next : Command SystemText → Program SystemText)
  | readFile (path : SystemText) (next : Except FileProblem Bytes → Program SystemText)
  | writeFile (path : SystemText) (content : Bytes)
      (next : Except FileProblem Unit → Program SystemText)

/-- What a program finds around it: files, and the variables of the process. Variables that cannot
be loaded and arguments that are no command end a run. -/
structure System (SystemText Files Variables : Type) where
  loadVariables : Files → Variables → Except Outcome Variables
  parseArguments : Variables → List SystemText → Except Outcome (Command SystemText)
  read : Files → SystemText → Except FileProblem Bytes
  write : Files → SystemText → Bytes → Except FileProblem Unit × Files

namespace Program

def runIn {SystemText Files Variables : Type} (system : System SystemText Files Variables)
    (environment : Variables) (files : Files) : Program SystemText → Outcome × Files
  | finish outcome => (outcome, files)
  | loadVariables next =>
    match system.loadVariables files environment with
    | .error outcome => (outcome, files)
    | .ok environment => next.runIn system environment files
  | parseArguments arguments next =>
    match system.parseArguments environment arguments with
    | .error outcome => (outcome, files)
    | .ok command => (next command).runIn system environment files
  | readFile path next => (next (system.read files path)).runIn system environment files
  | writeFile path content next =>
    let (result, files) := system.write files path content
    (next result).runIn system environment files

variable {SystemText : Type} [ToString SystemText]

def withSegment (path : SystemText) (next : Segment → Program SystemText) :
    Program SystemText :=
  readFile path fun
    | .error problem => finish (.failure s!"Failed to read {path}" [problem.message])
    | .ok content =>
      match Segment.decode content with
      | .error error => finish (.ofErrorIn s!"Failed to parse {path}" error)
      | .ok segment => next segment

/-- What an action leaves in an unbounded stream. -/
def printed (action : Writing BoundedStream Unit) : Outcome :=
  match action (.empty none) with
  | .ok _ stream => .success stream.bytes
  | .error failure _ => .ofFailure failure

def info (input : SystemText) (levels : String) : Program SystemText :=
  match DetailLevels.parse levels with
  | .error error => finish (.ofError error)
  | .ok levels =>
    withSegment input fun segment => finish (printed (segment.describe levels "" "  "))

def duration (input : SystemText) (settings : TrackSettings) : Program SystemText :=
  withSegment input fun segment =>
    finish <|
      match segment.commonDuration (some settings.defaults) with
      | .error error => .ofError error
      | .ok duration => .success (Text.utf8 s!"{duration.toNat}\n")

/-- The segment that is written for new fragments. It keeps the segment type of the old one,
unless it is to have none. -/
def assemble (source : Segment) (compact withoutType : Bool) (fragments : List Fragment) :
    Segment :=
  let segmentType :=
    if withoutType then none else some (source.segmentType.getD .cmaf)
  let empty :=
    { Segment.ofType segmentType with layout := if compact then .compact else .stored }
  fragments.foldl Segment.addFragment empty

/-- The bytes of a segment, written to a buffer of its size. -/
def encoded (segment : Segment) : Except Failure Bytes :=
  match segment.writeBuffer (.ofCapacity segment.size) with
  | .ok _ buffer => .ok buffer.bytes
  | .error failure _ => .error failure

/-- Cuts a segment anew and writes it to a file. -/
def refragment (input output : SystemText) (target : UInt32) (compact withoutType : Bool)
    (settings : TrackSettings) : Program SystemText :=
  withSegment input fun segment =>
    match segment.recut settings.defaults target.toNat with
    | .error failure => finish (.ofFailureIn "Failed to refragment" failure)
    | .ok fragments =>
      match encoded (assemble segment compact withoutType fragments) with
      | .error failure => finish (.ofFailure failure)
      | .ok content =>
        writeFile output content fun
          | .error problem => finish (.failure s!"Failed to write {output}" [problem.message])
          | .ok _ => finish (.success [])

def ofCommand : Command SystemText → Program SystemText
  | .info input levels => info input levels
  | .duration input settings => duration input settings
  | .refragment input output target compact withoutType settings =>
    refragment input output target compact withoutType settings

def start (arguments : List SystemText) : Program SystemText :=
  loadVariables (parseArguments arguments ofCommand)

end Program
end FragmentedMp4.CommandLine
