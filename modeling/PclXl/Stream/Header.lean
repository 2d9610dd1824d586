import PclXl.Bytes.Occurrence
import PclXl.Bytes.Order
import PclXl.Stream.Fault
import PclXl.Text.Blank
import PclXl.Text.Utf8

/-!
# Stream headers

A stream starts with a line of text: the mark of a byte order, the name of the language, and the
numbers of its protocol class and revision, perhaps with a comment. Anything may precede the stream
in a file; the stream starts one byte before the first place where the name stands.
-/

namespace PclXl

open Text

/-- What the header line of a stream says. -/
structure Header where
  /-- The order of the bytes in numbers. -/
  order : ByteOrder
  /-- The protocol class. -/
  protocol : String
  /-- The revision of the protocol class. -/
  revision : String
  /-- What follows the revision, if anything does. -/
  comment : Option String
  /-- Bytes of the header line, its line feed included. -/
  length : Nat
  deriving DecidableEq, Repr

/-- The parts of a text between separators; the last of at most `n` parts keeps the separators that
are left. -/
def splitAtMost (separator : Char) : Nat → List Char → List (List Char)
  | 0, _ => []
  | 1, cs => [cs]
  | n + 2, cs =>
    match cs.dropWhile (· != separator) with
    | [] => [cs]
    | _ :: rest => cs.takeWhile (· != separator) :: splitAtMost separator (n + 1) rest

namespace Header

/-- The name of the language, as it stands behind the mark in a header. -/
def languageName : List Char :=
  "HP-PCL XL".toList

/-- The bytes by which a stream is found: the name between a space and a semicolon. -/
def languageMarker : List UInt8 :=
  [0x20, 0x48, 0x50, 0x2D, 0x50, 0x43, 0x4C, 0x20, 0x58, 0x4C, 0x3B]

/-- How many bytes precede the stream in a file. -/
def locate (data : List UInt8) : Except Fault Nat :=
  match Bytes.firstWithin? languageMarker data.length data with
  | none => .error .missingHeader
  | some 0 => .error (.unsupportedBinding 0 0x20)
  | some (n + 1) => .ok n

/-- The header that a line of text holds, without its mark and line feed, of a line with a length in
bytes. -/
def ofLine? (order : ByteOrder) (length : Nat) (line : List Char) : Option Header :=
  let line := trimLeft (dropWhileEnd (· == '\r') line)
  if languageName.isPrefixOf line then
    let fields := splitAtMost ';' 4 line
    some {
      order
      protocol := String.ofList (trim (fields[1]?.getD []))
      revision := String.ofList (trim (fields[2]?.getD []))
      comment := fields[3]?.map String.ofList
      length }
  else none

/-- The header at the start of a stream whose first byte has the file offset `base`. -/
def read (stream : List UInt8) (base : Nat) : Except Fault Header :=
  match stream with
  | [] => .error (.endOfStream base 1)
  | mark :: rest =>
    match ByteOrder.ofMark? mark with
    | none => .error (.unsupportedBinding base mark)
    | some order =>
      let line := rest.takeWhile (· != 0x0A)
      if line.length = rest.length then .error (.endOfStream (base + stream.length) 1)
      else
        match ofLine? order (line.length + 2) (Utf8.decode line) with
        | none => .error .missingHeader
        | some header => .ok header

/-- The header as the first line of a listing shows it. -/
def text (header : Header) : String :=
  "` HP-PCL XL;" ++ header.protocol ++ ";" ++ header.revision

end Header

end PclXl
