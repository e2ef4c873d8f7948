import SyndromeSchedule.CommandLine.Run

/-!
The command line. Everything it decides is decided by commands; here files are read and written and
texts are printed.
-/

namespace SyndromeSchedule

def usageText : String :=
  "Usage: qecc [--log-level LEVEL] compile JOB [-o FILE] [--json] [--report]\n" ++
  "       qecc [--log-level LEVEL] check FILE\n" ++
  "       qecc --version\n"

/-- Why a file cannot be used, by what the system says. Its code for a file in the place of a folder
comes with either sign. -/
def FileError.ofSystem : IO.Error → FileError
  | .noFileOrDirectory _ _ _ => .missing
  | .permissionDenied _ _ _ => .denied
  | .inappropriateType _ code _ => if code = 20 || -code = 20 then .notFolder else .isFolder
  | .invalidArgument _ _ _ => .tooLong
  | .userError _ => .notText
  | _ => .missing

/-- Writes the file of a command, if it has one. -/
def Effects.writeFile (e : Effects) : IO (Except FileError Unit) := do
  match e.file with
  | none => return .ok ()
  | some (path, contents) =>
      try
        IO.FS.writeFile path contents
        return .ok ()
      catch cause => return .error (.ofSystem cause)

def reportError (e : Error) : IO UInt32 := do
  (← IO.getStderr).putStr e.report
  return e.exitCode.toUInt32

/-- Carries a command out. -/
def Command.perform (c : Command) : IO UInt32 := do
  let contents ←
    try
      let text ← IO.FS.readFile c.source
      pure (Except.ok text)
    catch cause => pure (Except.error (FileError.ofSystem cause))
  match c.run contents with
  | .error (.fault cause) => reportError cause
  | .error .overflow => return 101
  | .ok effects =>
      match ← effects.writeFile with
      | .error cause => reportError (.file cause)
      | .ok () =>
          IO.print effects.stdout
          (← IO.getStderr).putStr effects.stderr
          return 0

end SyndromeSchedule

open SyndromeSchedule in
def main (args : List String) : IO UInt32 := do
  match Invocation.ofArguments args with
  | .run command => command.perform
  | .version =>
      IO.print versionText
      return 0
  | .help =>
      IO.print usageText
      return 0
  | .misuse =>
      (← IO.getStderr).putStr usageText
      return 2
