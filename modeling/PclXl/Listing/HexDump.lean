import PclXl.Bytes.Chunks
import PclXl.Listing.Options
import PclXl.Text.Numeral

/-!
# Hexadecimal dumps

Bytes are dumped in rows of equal width. A row shows the file offset of its first byte, a cell for
each byte and, between bars, the characters that the bytes are in ASCII. The last row may have
blank cells; a dump that is cut off says how many bytes it leaves out.
-/

namespace PclXl

open Text

/-- The bytes that are printable characters of ASCII. -/
def isPrintable (b : UInt8) : Bool :=
  0x20 ≤ b && b < 0x7F

/-- The indentation of a line at a level. Levels below zero are not indented. -/
def Options.indent (o : Options) (level : Int) : String :=
  spaces (level.toNat * o.indentWidth)

namespace HexDump

/-- The cell of a byte. -/
def cell (b : UInt8) : String :=
  hex 2 b.toNat ++ " "

/-- The cell where a row has no more bytes. -/
def blankCell : String :=
  "   "

/-- What stands for a byte between the bars. -/
def shown (b : UInt8) : Char :=
  if isPrintable b then Char.ofNat b.toNat else '.'

/-- The row for at most `width` bytes from a file offset on. -/
def row (indent : String) (width offset : Nat) (chunk : List UInt8) : String :=
  indent ++ hex 8 offset ++ ": " ++ String.join (chunk.map cell) ++
    String.join (List.replicate (width - chunk.length) blankCell) ++
    "|" ++ String.ofList (chunk.map shown) ++ "|"

/-- The rows for bytes from a file offset on. -/
def rows (indent : String) (width offset : Nat) (bytes : List UInt8) : List String :=
  (Bytes.chunks width bytes).mapIdx fun i chunk => row indent width (offset + i * width) chunk

/-- The lines of a dump of bytes from a file offset on, at a level. -/
def lines (o : Options) (bytes : List UInt8) (offset : Nat) (level : Int) : List String :=
  let indent := o.indent level
  let dumped := match o.maxDumpBytes with
    | some limit => bytes.take limit
    | none => bytes
  let left := bytes.length - dumped.length
  rows indent (max 1 o.dumpWidth) offset dumped ++
    if left = 0 then [] else [indent ++ "... " ++ decimal left ++ " more bytes"]

end HexDump

end PclXl
