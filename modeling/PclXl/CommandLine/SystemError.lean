import PclXl.Text.Numeral

/-!
# Errors of the file system

What the operating system says when a file cannot be read.
-/

namespace PclXl

open Text

/-- An error number of the operating system with what it is called. -/
structure SystemError where
  /-- The number. -/
  number : Nat
  /-- The name of its kind. -/
  kind : String
  /-- What the operating system says about it. -/
  description : String
  deriving DecidableEq, Repr

namespace SystemError

/-- There is no such file. -/
def notFound : SystemError :=
  ⟨2, "NotFound", "No such file or directory"⟩

/-- The file may not be read. -/
def permissionDenied : SystemError :=
  ⟨13, "PermissionDenied", "Permission denied"⟩

/-- A part of the path is no directory. -/
def notADirectory : SystemError :=
  ⟨20, "NotADirectory", "Not a directory"⟩

/-- The file is a directory. -/
def isADirectory : SystemError :=
  ⟨21, "IsADirectory", "Is a directory"⟩

/-- A name or the whole path is longer than the operating system allows. -/
def nameTooLong : SystemError :=
  ⟨36, "InvalidFilename", "File name too long"⟩

/-- The message for a reader. -/
def message (e : SystemError) : String :=
  e.description ++ " (os error " ++ decimal e.number ++ ")"

/-- The message with all parts of the error. -/
def details (e : SystemError) : String :=
  "Os \x7b code: " ++ decimal e.number ++ ", kind: " ++ e.kind ++ ", message: \"" ++
    e.description ++ "\" \x7d"

end SystemError

end PclXl
