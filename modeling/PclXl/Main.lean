import PclXl.CommandLine.Run

/-!
# The program

The files that the arguments name are read, and what the run writes is written.
-/

namespace PclXl.Program

/-- An error number; some calls report it negated. -/
def errorNumber (code : UInt32) : UInt32 :=
  min code (0 - code)

/-- What the operating system says about a file that cannot be read. -/
def systemError : IO.Error → SystemError
  | .noFileOrDirectory _ _ _ => .notFound
  | .permissionDenied _ _ _ => .permissionDenied
  | .inappropriateType _ code _ =>
    if errorNumber code = 21 then .isADirectory else .notADirectory
  | .invalidArgument path code details =>
    if errorNumber code = 36 then .nameTooLong
    else ⟨0, "Other", toString (IO.Error.invalidArgument path code details)⟩
  | error => ⟨0, "Other", toString error⟩

/-- The bytes of a file, or the reason why it cannot be read. -/
def readFile (path : String) : IO (Except SystemError (List UInt8)) := do
  try
    return .ok (← IO.FS.readBinFile path).toList
  catch error =>
    return .error (systemError error)

/-- The files that a run for the arguments may read, read in advance. -/
def readFiles (arguments : List String) : IO Files := do
  let contents ← (Run.paths arguments).mapM fun path => return (path, ← readFile path)
  return fun path => (contents.lookup path).getD (.error .notFound)

/-- Write what a run writes. A reader of the output that goes away ends the program. -/
def play (run : Run) : IO UInt32 := do
  let stdout ← IO.getStdout
  let stderr ← IO.getStderr
  try
    for emission in run.emissions do
      match emission with
      | .out text => stdout.putStr text
      | .err text =>
        stdout.flush
        stderr.putStr text
    stdout.flush
    return run.exitCode.toUInt32
  catch
    | .resourceVanished _ _ => return 0
    | error => throw error

/-- List the files that a command line names, with a reader of options files. The first word of the
command line is the name that the program was called by, if it was called by one. -/
def main (toml : TomlReader) (commandLine : List String) : IO UInt32 := do
  let program := commandLine.head?.getD "pxldis"
  let arguments := commandLine.tail
  let files ← readFiles arguments
  play (Run.ofArguments toml program arguments files)

end PclXl.Program
