/-!
# Listing options

What a listing shows, and how wide it is.
-/

namespace PclXl

/-- The options of a listing. -/
structure Options where
  /-- Show file offsets in the comment of an operator. -/
  showOffsets : Bool := true
  /-- Dump data blocks and arrays of bytes in hexadecimal. -/
  dumpHex : Bool := true
  /-- Bytes in a row of a dump. Zero counts as one. -/
  dumpWidth : Nat := 16
  /-- Bytes after which a dump is cut off, if it is. -/
  maxDumpBytes : Option Nat := none
  /-- Spaces for each level of saved graphics states. -/
  indentWidth : Nat := 4
  /-- Show arrays of printable bytes as text. -/
  textArrays : Bool := true
  /-- Show the labels of enumerated values. -/
  enumLabels : Bool := true
  deriving DecidableEq, Repr

end PclXl
