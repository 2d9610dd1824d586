import PclXl.CommandLine.SystemError
import PclXl.Listing.Options

/-!
# Options files

The options of a listing can be read from a file in the TOML format. A reader of that format is given
from outside: it says which options a text sets, or what is wrong with the text. The files themselves
are read here, and the options that come from one are checked before they are used.
-/

namespace PclXl

/-- What a reader finds wrong with a text. -/
structure TomlError where
  /-- The message for a person. -/
  message : String
  /-- The message with all parts of the error. -/
  details : String
  deriving DecidableEq, Repr

/-- A reader of options in the TOML format. -/
abbrev TomlReader := String → Except TomlError Options

namespace OptionsFile

/-- The names of the options in a file. -/
def names : List String :=
  ["show_offsets", "dump_hex", "dump_width", "max_dump_bytes", "indent_width", "text_arrays",
    "enum_labels"]

/-- The options that are truth values, with the options that each of them gives on its own. -/
def switches : List (String × (Bool → Options)) := [
  ("show_offsets", fun on => { showOffsets := on }),
  ("dump_hex", fun on => { dumpHex := on }),
  ("text_arrays", fun on => { textArrays := on }),
  ("enum_labels", fun on => { enumLabels := on })]

/-- A line that gives a key a truth value. -/
def switchLine (key : String) (on : Bool) : String :=
  key ++ " = " ++ (if on then "true" else "false") ++ "\n"

/-- The characters of a key without quotes. -/
def isKeyChar (c : Char) : Bool :=
  c.isAlphanum || c == '_' || c == '-'

end OptionsFile

/-- What is documented of a reader: any option may be set, those that a text leaves out keep their
defaults, and keys that name no option are refused. -/
structure TomlReader.Documented (toml : TomlReader) : Prop where
  /-- A text that sets nothing leaves all options as they are by default. -/
  empty : toml "" = .ok {}
  /-- A line sets an option that is a truth value, and no other. -/
  switch : ∀ entry ∈ OptionsFile.switches, ∀ on,
    toml (OptionsFile.switchLine entry.1 on) = .ok (entry.2 on)
  /-- Rows of no bytes can be asked for. -/
  zeroWidth : toml "dump_width = 0\n" = .ok { dumpWidth := 0 }
  /-- A key that names no option cannot be set. -/
  unknownKey : ∀ key, key ∉ OptionsFile.names → key.toList ≠ [] →
    (∀ c ∈ key.toList, OptionsFile.isKeyChar c = true) →
    ∀ on, ∃ error, toml (OptionsFile.switchLine key on) = .error error

/-- Why the options in a file cannot be used. -/
inductive OptionsError where
  /-- The file cannot be read. -/
  | unreadable (error : SystemError)
  /-- The file is not encoded in UTF-8. -/
  | notUtf8
  /-- The reader refuses the text of the file. -/
  | malformed (error : TomlError)
  /-- Rows of no bytes are asked for. -/
  | zeroWidth
  deriving DecidableEq, Repr

namespace OptionsError

/-- What is wrong with the encoding of a file. -/
def encodingText : String :=
  "stream did not contain valid UTF-8"

/-- What is wrong with the width of a dump. -/
def widthText : String :=
  "dump_width must be at least 1"

/-- The message for an error. -/
def message : OptionsError → String
  | unreadable error => "Cannot read options file: " ++ error.message
  | notUtf8 => "Cannot read options file: " ++ encodingText
  | malformed error => "Invalid options file: " ++ error.message
  | zeroWidth => "Invalid option: " ++ widthText

/-- The message with all parts of the error. -/
def details : OptionsError → String
  | unreadable error => "Io(" ++ error.details ++ ")"
  | notUtf8 => "Io(Error \x7b kind: InvalidData, message: \"" ++ encodingText ++ "\" \x7d)"
  | malformed error => "Parse(" ++ error.details ++ ")"
  | zeroWidth => "Invalid(\"" ++ widthText ++ "\")"

/-- What the program says when it stops at an error. -/
def report (error : OptionsError) : String :=
  "Error: " ++ error.details ++ "\n"

end OptionsError

namespace OptionsFile

/-- The options that a text sets, if they can be used. -/
def ofText (toml : TomlReader) (text : String) : Except OptionsError Options :=
  match toml text with
  | .error error => .error (.malformed error)
  | .ok o => if o.dumpWidth = 0 then .error .zeroWidth else .ok o

/-- The options in a file, of which the bytes or the reason why there are none are given. -/
def load (toml : TomlReader) (contents : Except SystemError (List UInt8)) :
    Except OptionsError Options :=
  match contents with
  | .error error => .error (.unreadable error)
  | .ok bytes =>
    match String.fromUTF8? ⟨bytes.toArray⟩ with
    | none => .error .notUtf8
    | some text => ofText toml text

end OptionsFile

end PclXl
