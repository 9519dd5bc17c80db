import FragmentedMp4.CommandLine.Program
import FragmentedMp4.Shell.Environment

/-!
# Arguments

A simple parser of arguments, to try the commands with. A command is followed by paths and
options in any order. An option stands before its value or is joined to it by an equals sign;
no option and no flag is given twice. All that follows `--` is a path. A few options can be
given by a variable instead, and the command line wins over it.
-/

namespace FragmentedMp4.CommandLine

/-- Why there is nothing to do. -/
inductive NoCommand where
  | refused
  | help
  | version
deriving DecidableEq

def NoCommand.outcome : NoCommand → Outcome
  | refused => ⟨2, [], ""⟩
  | help => .success (Text.utf8 "Usage: segtool <info|duration|refragment> ...\n")
  | version => .success (Text.utf8 "segtool 0.1.0\n")

/-- What an option is followed by. -/
inductive OptionKind where
  | flag
  | text
  | number
deriving DecidableEq

/-- The options and the number of paths of a command. -/
structure Usage where
  options : List (String × OptionKind)
  paths : Nat

namespace Usage

def defaultsOptions : List (String × OptionKind) :=
  [("track-id", .number), ("default-duration", .number), ("default-size", .number),
    ("default-flags", .number)]

def info : Usage :=
  ⟨[("levels", .text)], 1⟩

def duration : Usage :=
  ⟨defaultsOptions, 1⟩

def refragment : Usage :=
  ⟨[("target-duration", .number), ("optimize-trun", .flag), ("no-styp", .flag)] ++
    defaultsOptions, 2⟩

end Usage

/-- The arguments that have been read. A flag is an option with an empty value. -/
structure Given where
  options : List (String × String)
  paths : List String

/-- A number from 0 to `2 ^ 32 - 1`, with or without a sign. -/
def number? (text : String) : Option UInt32 :=
  match Text.signed? text.toList with
  | some value =>
    if 0 ≤ value ∧ value < 0x100000000 then some (UInt32.ofNat value.toNat) else none
  | none => none

namespace Given

def none : Given :=
  ⟨[], []⟩

/-- Adds a path; there may not be too many, and it may not be empty. -/
def addPath (usage : Usage) (given : Given) (path : String) : Except NoCommand Given :=
  if path.isEmpty ∨ usage.paths ≤ given.paths.length then .error .refused
  else .ok { given with paths := given.paths ++ [path] }

/-- Adds an option of a kind with its value. -/
def addOption (given : Given) (kind : OptionKind) (name value : String) :
    Except NoCommand Given :=
  if (given.options.lookup name).isSome then .error .refused
  else if kind = .number ∧ number? value = Option.none then .error .refused
  else .ok { given with options := (name, value) :: given.options }

end Given

/-- Whether an argument is an option rather than a path or a value. -/
def looksLikeOption (argument : List Char) : Bool :=
  match argument with
  | '-' :: _ :: _ => true
  | _ => false

/-- The name of a long option, and the value that is joined to it. -/
def splitOption (text : List Char) : String × Option String :=
  match Text.splitOnce '=' text with
  | some (name, value) => (String.ofList name, some (String.ofList value))
  | none => (String.ofList text, none)

def readArguments (usage : Usage) (given : Given) : List String → Except NoCommand Given
  | [] => .ok given
  | argument :: rest =>
    match argument.toList with
    | ['-', '-'] => rest.foldlM (Given.addPath usage) given
    | '-' :: '-' :: text =>
      let (name, joined) := splitOption text
      match usage.options.lookup name, joined with
      | none, none => .error (if name = "help" then .help else .refused)
      | none, some _ => .error .refused
      | some .flag, some _ => .error .refused
      | some .flag, none => do readArguments usage (← given.addOption .flag name "") rest
      | some kind, some value => do readArguments usage (← given.addOption kind name value) rest
      | some kind, none =>
        match rest with
        | [] => .error .refused
        | value :: rest =>
          if looksLikeOption value.toList then .error .refused
          else do readArguments usage (← given.addOption kind name value) rest
    | '-' :: 'h' :: _ => .error .help
    | '-' :: _ :: _ => .error .refused
    | _ => do readArguments usage (← given.addPath usage argument) rest

namespace Given

/-- The paths, if there are as many as there have to be. -/
def pathsFor (given : Given) (usage : Usage) : Except NoCommand (List String) :=
  if given.paths.length = usage.paths then .ok given.paths else .error .refused

/-- The value of a numeric option, else the default. -/
def numberOr (given : Given) (name : String) (default : UInt32) : UInt32 :=
  ((given.options.lookup name).bind number?).getD default

def settings (given : Given) : TrackSettings where
  trackId := given.numberOr "track-id" 1
  duration := given.numberOr "default-duration" 0
  size := given.numberOr "default-size" 0
  flags := given.numberOr "default-flags" 0

/-- The value of an option, else that of a variable. -/
def optionOrVariable (given : Given) (environment : Environment) (name variable_ : String) :
    Option String :=
  given.options.lookup name <|> environment.value? variable_

def has (given : Given) (name : String) : Bool :=
  (given.options.lookup name).isSome

end Given

/-- The variables that options can be given by. -/
def settingVariables : List String :=
  ["SEGTOOL_INFO_LEVELS", "SEGTOOL_TARGET_DURATION"]

namespace Command

def infoOf (environment : Environment) (arguments : List String) :
    Except NoCommand (Command String) := do
  let given ← readArguments .info .none arguments
  match ← given.pathsFor .info with
  | [input] =>
    let levels := given.optionOrVariable environment "levels" "SEGTOOL_INFO_LEVELS"
    return .info input (levels.getD "all:1")
  | _ => .error .refused

def durationOf (arguments : List String) : Except NoCommand (Command String) := do
  let given ← readArguments .duration .none arguments
  match ← given.pathsFor .duration with
  | [input] => return .duration input given.settings
  | _ => .error .refused

def refragmentOf (environment : Environment) (arguments : List String) :
    Except NoCommand (Command String) := do
  let given ← readArguments .refragment .none arguments
  let target := given.optionOrVariable environment "target-duration" "SEGTOOL_TARGET_DURATION"
  match ← given.pathsFor .refragment, target.bind number? with
  | [input, output], some target =>
    return .refragment input output target (given.has "optimize-trun") (given.has "no-styp")
      given.settings
  | _, _ => .error .refused

def names : List String :=
  ["info", "duration", "refragment", "help"]

def ofArguments (environment : Environment) : List String → Except NoCommand (Command String)
  | [] => .error .refused
  | "info" :: rest => infoOf environment rest
  | "duration" :: rest => durationOf rest
  | "refragment" :: rest => refragmentOf environment rest
  | ["help"] => .error .help
  | ["help", name] => .error (if name ∈ names then .help else .refused)
  | argument :: _ =>
    match argument.toList with
    | '-' :: 'h' :: _ => .error .help
    | '-' :: 'V' :: _ => .error .version
    | _ =>
      if argument = "--help" then .error .help
      else if argument = "--version" then .error .version
      else .error .refused

end Command
end FragmentedMp4.CommandLine
