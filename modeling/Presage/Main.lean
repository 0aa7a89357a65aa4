import Presage.CommandLine

/-!
The program itself: it reads the source file, does what the command line asks for, and writes the
result.
-/

set_option autoImplicit false
set_option relaxedAutoImplicit false

namespace Presage.CommandLine

/-- Runs a file operation and says why it failed if it did. -/
def attempt {α : Type} (operation : IO α) : IO (Except FileFailure α) := do
  try return .ok (← operation)
  catch failure =>
    match failure with
    | .inappropriateType .. => return .error .isDirectory
    | _ => return .error .notFound

def finish (outcome : Outcome) : IO UInt32 := do
  (← IO.getStdout).putStr outcome.output
  (← IO.getStderr).putStr outcome.errors
  return outcome.exitCode

end Presage.CommandLine

open Presage.CommandLine

/-- The exit code is zero unless the arguments, a file or the source are at fault. -/
def main (arguments : List String) : IO UInt32 := do
  match Options.ofArguments? arguments with
  | none => finish .misused
  | some options =>
    match options.respond (← attempt (IO.FS.readBinFile options.file)) with
    | .finish outcome => finish outcome
    | .write path text =>
      match ← attempt (IO.FS.writeFile path text) with
      | .ok _ => return 0
      | .error failure => finish (.failed failure.report)
