import FragmentedMp4.Shell.Arguments

/-!
# Command line

Runs a program on real files, with the variables of the process.
-/

namespace FragmentedMp4.CommandLine

/-- Why the system could not read or write a file. -/
def FileProblem.ofError : IO.Error → FileProblem
  | .noFileOrDirectory _ _ _ => notFound
  | .inappropriateType _ code details => other s!"{details} (os error {code})"
  | .permissionDenied _ code details => other s!"{details} (os error {code})"
  | .resourceExhausted _ code details => other s!"{details} (os error {code})"
  | .invalidArgument _ code details => other s!"{details} (os error {code})"
  | .otherError code details => other s!"{details} (os error {code})"
  | error => other (toString error)

def readOnDisk (path : String) : IO (Except FileProblem Bytes) := do
  match ← (IO.FS.readBinFile path).toBaseIO with
  | .ok content => return .ok content.data.toList
  | .error error => return .error (.ofError error)

def writeOnDisk (path : String) (content : Bytes) : IO (Except FileProblem Unit) := do
  match ← (IO.FS.writeBinFile path ⟨content.toArray⟩).toBaseIO with
  | .ok _ => return .ok ()
  | .error error => return .error (.ofError error)

/-- The variables of the process that matter to the arguments and to some assignments. -/
def environmentFor (assignments : List Assignment) : IO Environment :=
  (settingVariables ++ assignments.flatMap Assignment.variables).filterMapM fun name => do
    return (← IO.getEnv name).map fun value => (name, value)

/-- Runs a program on real files. The assignments are those of the environment files that were
loaded. -/
def Program.run (assignments : List Assignment) : Program String → IO Outcome
  | finish outcome => pure outcome
  | loadVariables next => do
    match ← readOnDisk ".env" with
    | .ok content => next.run (assignments ++ assignmentsOf content)
    | .error _ => next.run assignments
  | parseArguments arguments next => do
    let environment ← environmentFor assignments
    match Command.ofArguments (environment.assignAll assignments) arguments with
    | .ok command => (next command).run assignments
    | .error reason => pure reason.outcome
  | readFile path next => do (next (← readOnDisk path)).run assignments
  | writeFile path content next => do (next (← writeOnDisk path content)).run assignments

end FragmentedMp4.CommandLine

open FragmentedMp4.CommandLine in
def main (arguments : List String) : IO UInt32 := do
  let outcome ← (Program.start arguments).run []
  let stdout ← IO.getStdout
  stdout.write ⟨outcome.stdout.toArray⟩
  stdout.flush
  IO.eprint outcome.stderr
  return UInt32.ofNat outcome.status
