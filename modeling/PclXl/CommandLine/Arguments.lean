/-!
# Command-line arguments

The arguments ask for a listing of files, with options. They are read from left to right; the first
that asks for help or cannot be understood ends the reading, and so the program.
-/

namespace PclXl

/-- What a single argument means. -/
inductive Argument where
  /-- Leave out the file offsets. -/
  | omitOffsets
  /-- Leave out the dumps. -/
  | omitDumps
  /-- List the vocabulary. -/
  | vocabulary
  /-- Read options from the file that the next argument names. -/
  | optionsFile
  /-- Show how the program is used. -/
  | help
  /-- A file to be listed. -/
  | file (path : String)
  /-- An argument that looks like an option but is none. -/
  | unknown (text : String)
  deriving DecidableEq, Repr

/-- What an argument means. Only arguments that start with a hyphen are options. -/
def Argument.ofString (text : String) : Argument :=
  if text = "-n" then omitOffsets
  else if text = "-d" then omitDumps
  else if text = "-t" ∨ text = "--tables" then vocabulary
  else if text = "-c" then optionsFile
  else if text = "-h" ∨ text = "--help" then help
  else if text.toList.head? = some '-' then unknown text
  else file text

/-- What the arguments ask for. -/
structure Request where
  /-- The files to be listed, in order. -/
  files : List String := []
  /-- Whether the vocabulary is listed first. -/
  vocabulary : Bool := false
  /-- Whether file offsets are left out. -/
  omitOffsets : Bool := false
  /-- Whether dumps are left out. -/
  omitDumps : Bool := false
  /-- The file that options are read from. -/
  optionsFile : Option String := none
  deriving DecidableEq, Repr

/-- Why the program ends before it reads a file. -/
inductive EarlyEnd where
  /-- Help was asked for. -/
  | help
  /-- The name of the options file is missing. -/
  | missingFileName
  /-- There is no such option. -/
  | unknownOption (text : String)
  deriving DecidableEq, Repr

namespace Request

/-- What the remaining arguments ask for, in addition to a request. -/
def extend (r : Request) : List String → Except EarlyEnd Request
  | [] => .ok r
  | text :: rest =>
    match Argument.ofString text with
    | .omitOffsets => extend { r with omitOffsets := true } rest
    | .omitDumps => extend { r with omitDumps := true } rest
    | .vocabulary => extend { r with vocabulary := true } rest
    | .optionsFile =>
      match rest with
      | [] => .error .missingFileName
      | path :: rest => extend { r with optionsFile := some path } rest
    | .help => .error .help
    | .file path => extend { r with files := r.files ++ [path] } rest
    | .unknown text => .error (.unknownOption text)

/-- What the arguments ask for. -/
def ofArguments (arguments : List String) : Except EarlyEnd Request :=
  extend {} arguments

end Request

end PclXl
