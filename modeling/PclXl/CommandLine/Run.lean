import PclXl.CommandLine.Arguments
import PclXl.CommandLine.OptionsFile
import PclXl.Listing.Reference
import PclXl.Stream.Diagnosis

/-!
# Runs of the program

A run lists files one after the other. Listings go to the output and reports to the error output;
the order between the two is kept. A file that cannot be read or taken apart is reported and does
not keep the program from listing the others, but the exit code tells of it.
-/

namespace PclXl

/-- Text that the program writes. -/
inductive Emission where
  /-- Text for the output. -/
  | out (text : String)
  /-- Text for the error output. -/
  | err (text : String)
  deriving DecidableEq, Repr

namespace Emission

/-- The text, if it is for the output. -/
def out? : Emission → Option String
  | out text => some text
  | err _ => none

/-- The text, if it is for the error output. -/
def err? : Emission → Option String
  | out _ => none
  | err text => some text

end Emission

/-- The bytes of each file, or the reason why it cannot be read. -/
abbrev Files := String → Except SystemError (List UInt8)

/-- What a run of the program does. -/
structure Run where
  /-- What is written, in order. -/
  emissions : List Emission
  /-- Zero if all went well. -/
  exitCode : UInt8
  deriving DecidableEq, Repr

namespace Run

/-- Everything that is written to the output. -/
def stdout (run : Run) : String :=
  String.join (run.emissions.filterMap Emission.out?)

/-- Everything that is written to the error output. -/
def stderr (run : Run) : String :=
  String.join (run.emissions.filterMap Emission.err?)

/-- How the program is used, under the name that it was called by. -/
def usage (program : String) : String :=
  unlines [
    "Usage: " ++ program ++ " [options] <file>...",
    "",
    "Options:",
    "  -n             Omit file offsets from operator comments",
    "  -d             Do not hex dump embedded data",
    "  -c <file>      Read output options from a TOML file",
    "  -t, --tables   List known operators, attributes and enumerations",
    "  -h             Show this help message"]

/-- The run that ends before a file is read. -/
def ofEarlyEnd (program : String) : EarlyEnd → Run
  | .help => ⟨[.err (usage program)], 0⟩
  | .missingFileName => ⟨[.err "Option -c needs a file name\n"], 1⟩
  | .unknownOption text => ⟨[.err ("Unknown option: " ++ text ++ "\n")], 1⟩

/-- The report of what is wrong with a file. -/
def report (path message : String) : Emission :=
  .err (path ++ ": " ++ message ++ "\n")

/-- Step a session on the stream of a file until its end, and write what each step gives. What was
written before stands in `earlier`, the last text first. -/
def stepThrough (o : Options) (path : String) (earlier : List Emission) (s : Session) : Run :=
  match _h : s.step with
  | (.sequence tokens, s') => stepThrough o path (.out (o.listing tokens) :: earlier) s'
  | (.ended ending, s') =>
    match ending.fault? with
    | none => ⟨(.out (o.listing (s'.unfinished ++ ending.tokens)) :: earlier).reverse, 0⟩
    | some fault =>
      let diagnosis := s'.diagnose fault s'.unfinished
      ⟨(report path diagnosis.report :: .out (o.listing s'.unfinished) :: earlier).reverse, 1⟩
termination_by s.cursor.rest.length
decreasing_by exact Session.step_rest_lt _h

/-- What is written for the bytes of a file. -/
def ofData (o : Options) (path : String) (data : List UInt8) : Run :=
  match Session.openFile data with
  | .error fault => ⟨[report path (Diagnosis.ofFault fault [] data 0).report], 1⟩
  | .ok s => stepThrough o path [.out (Options.headerText s.header)] s

/-- What is written for a file. -/
def ofFile (o : Options) (files : Files) (path : String) : Run :=
  match files path with
  | .error error => ⟨[report path error.message], 1⟩
  | .ok data => ofData o path data

/-- Runs one after the other. The exit code is zero if all of theirs are. -/
def sequence (runs : List Run) : Run where
  emissions := runs.flatMap Run.emissions
  exitCode := if runs.all fun run => run.exitCode == 0 then 0 else 1

/-- The run for a request with options. Each of several files has its name in front. -/
def ofRequest (o : Options) (files : Files) (r : Request) : Run :=
  let tables : Run := ⟨if r.vocabulary then [.out Vocabulary.listing] else [], 0⟩
  let heading := fun path : String =>
    if 1 < r.files.length then [Emission.out ("// " ++ path ++ "\n")] else []
  sequence (tables :: r.files.flatMap fun path => [⟨heading path, 0⟩, ofFile o files path])

/-- The options for a request: those of its options file, less what the request leaves out. -/
def options (toml : TomlReader) (files : Files) (r : Request) : Except OptionsError Options := do
  let o ← match r.optionsFile with
    | some path => OptionsFile.load toml (files path)
    | none => pure {}
  return { o with
    showOffsets := o.showOffsets && !r.omitOffsets
    dumpHex := o.dumpHex && !r.omitDumps }

/-- The files that a run for arguments may read, first that of the options. None is read if the
arguments end the program, or if they leave nothing to do. -/
def paths (arguments : List String) : List String :=
  match Request.ofArguments arguments with
  | .error _ => []
  | .ok r =>
    if r.files.isEmpty && !r.vocabulary then [] else r.optionsFile.toList ++ r.files

/-- The run for arguments of the program, called by a name. -/
def ofArguments (toml : TomlReader) (program : String) (arguments : List String) (files : Files) :
    Run :=
  match Request.ofArguments arguments with
  | .error early => ofEarlyEnd program early
  | .ok r =>
    if r.files.isEmpty && !r.vocabulary then ⟨[.err (usage program)], 1⟩
    else
      match options toml files r with
      | .error error => ⟨[.err error.report], 1⟩
      | .ok o => ofRequest o files r

end Run

end PclXl
