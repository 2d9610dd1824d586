import PclXl.Listing.HexDump
import PclXl.Stream.Transcript

/-!
# Listings

A listing is a sequence of lines. Each operator takes three: a blank one, a comment with its place
in the stream, and one with its attributes and its name. Arrays of bytes that are not shown as text
and data blocks follow as dumps. Attributes without an operator, which only a stream that breaks
off has, take one line together.
-/

namespace PclXl

open Text

/-- The text of lines; each ends in a line feed. -/
def unlines (lines : List String) : String :=
  String.join (lines.map (· ++ "\n"))

/-- Numbers in a row, with a space between them. -/
def numberRow (numbers : List Number) : String :=
  " ".intercalate (numbers.map Number.text)

/-- Bytes that can stand between quotes: there are some, all are printable, and none is a quote. -/
def isQuotable (bytes : List UInt8) : Bool :=
  !bytes.isEmpty && bytes.all fun b => isPrintable b && b != 0x22

/-- The line for the end of a job. -/
def jobEndLine : String :=
  "string* \\x1B%-12345X"

namespace Options

/-- The text of a list of numbers between brackets. -/
def bracketed (numbers : List Number) : String :=
  if numbers.isEmpty then "[ ]" else "[ " ++ numberRow numbers ++ " ]"

/-- The text of an array: quoted, or the number of its bytes if they are dumped elsewhere, or its
elements. -/
def arrayText (o : Options) (array : ArrayValue) : String :=
  match array.raw with
  | none => bracketed array.items
  | some raw =>
    if o.textArrays && isQuotable raw then
      "\"" ++ String.ofList (raw.map fun b => Char.ofNat b.toNat) ++ "\""
    else if o.dumpHex && !raw.isEmpty then "[ " ++ decimal raw.length ++ " bytes ]"
    else bracketed array.items

/-- The text of a value. The label stands for a single number if labels are shown. -/
def valueText (o : Options) (value : Value) (label : Option String) : String :=
  match value with
  | .scalar n =>
    match label with
    | some label => if o.enumLabels then label else n.text
    | none => n.text
  | .pair x y => numberRow [x, y]
  | .quad a b c d => numberRow [a, b, c, d]
  | .array array => o.arrayText array

/-- The data type, the value and the name of an attribute. -/
def attributeText (o : Options) (a : Attribute) : String :=
  a.value.dataType.name ++ " " ++ o.valueText a.value a.label ++ " " ++ a.name

/-- The lines of the dump of an attribute's value: only arrays of bytes that are not shown as text
have one. -/
def arrayDump (o : Options) (level : Int) (a : Attribute) : List String :=
  match a.value with
  | .array ⟨.ubyte, _, _, some raw, dataOffset⟩ =>
    if !raw.isEmpty && o.dumpHex && !(o.textArrays && isQuotable raw) then
      HexDump.lines o raw dataOffset level
    else []
  | _ => []

/-- The comment in front of an operator. -/
def operatorComment (o : Options) (op : Operator) : String :=
  o.indent op.level ++ "//" ++
    (match op.position with
      | some position => " Operator Position: " ++ decimal position
      | none => " Data Block") ++
    (if o.showOffsets then
      " File Offset: " ++ decimal op.offset ++ " (0x" ++ hex 1 op.offset ++ ")"
    else "") ++
    " Tag: 0x" ++ hex 2 op.tag.toNat ++ " Level: " ++ signedDecimal op.level

/-- The lines of an operator with its attributes. -/
def operatorLines (o : Options) (op : Operator) (attributes : List Attribute) : List String :=
  ["", o.operatorComment op,
    o.indent op.level ++ String.join (attributes.map fun a => o.attributeText a ++ " ") ++
      op.name] ++
    attributes.flatMap (o.arrayDump op.level)

/-- The lines of a data block at a level: a dump, or how many bytes it has. -/
def payloadLines (o : Options) (level : Int) (p : Payload) : List String :=
  if o.dumpHex && !p.bytes.isEmpty then HexDump.lines o p.bytes p.offset level
  else
    [o.indent level ++ "// " ++ decimal p.bytes.length ++ " bytes of data" ++
      if o.showOffsets then " at 0x" ++ hex 1 p.offset else ""]

/-- The line of attributes that no operator follows. -/
def leftoverLines (o : Options) (level : Int) (attributes : List Attribute) : List String :=
  if attributes.isEmpty then []
  else [o.indent level ++ " ".intercalate (attributes.map o.attributeText)]

/-- The lines of tokens, behind attributes whose operator has not come yet and behind an operator
at a level. -/
def linesAfter (o : Options) (pending : List Attribute) (level : Int) : List Token → List String
  | [] => o.leftoverLines level pending
  | .attr a :: tokens => linesAfter o (pending ++ [a]) level tokens
  | .operator op :: tokens => o.operatorLines op pending ++ linesAfter o [] op.level tokens
  | .payload p :: tokens => o.payloadLines level p ++ linesAfter o pending level tokens
  | .jobEnd _ :: tokens =>
    o.leftoverLines level pending ++ [jobEndLine] ++ linesAfter o [] level tokens

/-- The lines of tokens. -/
def lines (o : Options) (tokens : List Token) : List String :=
  o.linesAfter [] 0 tokens

/-- The text of tokens. -/
def listing (o : Options) (tokens : List Token) : String :=
  unlines (o.lines tokens)

/-- The text of a dump of bytes from a file offset on, at a level. -/
def hexDump (o : Options) (bytes : List UInt8) (offset : Nat) (level : Int) : String :=
  unlines (HexDump.lines o bytes offset level)

/-- The text of a header. -/
def headerText (header : Header) : String :=
  unlines [header.text]

/-- The pieces in which the listing of a transcript is written: one for each complete operator, and
one for what the end of the session left. -/
def pieces (o : Options) (t : Transcript) : List String :=
  t.sequences.map o.listing ++ [o.listing (t.session.unfinished ++ t.ending.tokens)]

end Options

end PclXl
