/-!
# Operators

The operators of the language by their tags. Three of them are followed by a data block; the two
that only carry data are not counted among the operators of a stream.
-/

namespace PclXl

/-- Where the length of a data block stands. -/
inductive PayloadSource where
  /-- Four bytes in front of the data. -/
  | inlineUInt32
  /-- One byte in front of the data. -/
  | inlineUByte
  /-- The attribute `VUDataLength` of the same operator. -/
  | vendorLength
  deriving DecidableEq, Repr

/-- What the language lays down for an operator. -/
structure OperatorInfo where
  /-- The byte that stands for the operator. -/
  tag : UInt8
  /-- The name of the operator in a listing. -/
  name : String
  /-- Where the length of its data block stands, if one follows. -/
  payload : Option PayloadSource
  /-- Whether it takes a number among the operators of a stream. -/
  counted : Bool
  deriving DecidableEq, Repr

namespace Vocabulary

/-- The tag of the operator that restores the graphics state. -/
def popTag : UInt8 := 0x60

/-- The tag of the operator that saves the graphics state. -/
def pushTag : UInt8 := 0x61

/-- A counted operator that no data block follows. -/
def plain (tag : UInt8) (name : String) : OperatorInfo :=
  ⟨tag, name, none, true⟩

/-- All operators in the order of their tags. -/
def operators : List OperatorInfo :=
  [plain 0x41 "BeginSession", plain 0x42 "EndSession", plain 0x43 "BeginPage",
    plain 0x44 "EndPage", ⟨0x46, "VendorUnique", some .vendorLength, true⟩, plain 0x47 "Comment",
    plain 0x48 "OpenDataSource", plain 0x49 "CloseDataSource", plain 0x4F "BeginFontHeader",
    plain 0x50 "ReadFontHeader", plain 0x51 "EndFontHeader", plain 0x52 "BeginChar",
    plain 0x53 "ReadChar", plain 0x54 "EndChar", plain 0x55 "RemoveFont",
    plain 0x56 "SetCharAttributes", plain 0x5B "BeginStream", plain 0x5C "ReadStream",
    plain 0x5D "EndStream", plain 0x5E "ExecStream", plain 0x5F "RemoveStream",
    plain 0x60 "PopGS", plain 0x61 "PushGS", plain 0x62 "SetClipReplace",
    plain 0x63 "SetBrushSource", plain 0x64 "SetCharAngle", plain 0x65 "SetCharScale",
    plain 0x66 "SetCharShear", plain 0x67 "SetClipIntersect", plain 0x68 "SetClipRectangle",
    plain 0x69 "SetClipToPage", plain 0x6A "SetColorSpace", plain 0x6B "SetCursor",
    plain 0x6C "SetCursorRel", plain 0x6D "SetHalftoneMethod", plain 0x6E "SetFillMode",
    plain 0x6F "SetFont", plain 0x70 "SetLineDash", plain 0x71 "SetLineCap",
    plain 0x72 "SetLineJoin", plain 0x73 "SetMiterLimit", plain 0x74 "SetPageDefaultCTM",
    plain 0x75 "SetPageOrigin", plain 0x76 "SetPageRotation", plain 0x77 "SetPageScale",
    plain 0x78 "SetPaintTxMode", plain 0x79 "SetPenSource", plain 0x7A "SetPenWidth",
    plain 0x7B "SetROP", plain 0x7C "SetSourceTxMode", plain 0x7D "SetCharBoldValue",
    plain 0x7F "SetClipMode", plain 0x80 "SetPathToClip", plain 0x81 "SetCharSubMode",
    plain 0x84 "CloseSubPath", plain 0x85 "NewPath", plain 0x86 "PaintPath", plain 0x91 "ArcPath",
    plain 0x93 "BezierPath", plain 0x95 "BezierRelPath", plain 0x96 "Chord",
    plain 0x97 "ChordPath", plain 0x98 "Ellipse", plain 0x99 "EllipsePath", plain 0x9B "LinePath",
    plain 0x9D "LineRelPath", plain 0x9E "Pie", plain 0x9F "PiePath", plain 0xA0 "Rectangle",
    plain 0xA1 "RectanglePath", plain 0xA2 "RoundRectangle", plain 0xA3 "RoundRectanglePath",
    plain 0xA8 "Text", plain 0xA9 "TextPath", plain 0xB0 "BeginImage", plain 0xB1 "ReadImage",
    plain 0xB2 "EndImage", plain 0xB3 "BeginRastPattern", plain 0xB4 "ReadRastPattern",
    plain 0xB5 "EndRastPattern", plain 0xB6 "BeginScan", plain 0xB8 "EndScan",
    plain 0xB9 "ScanLineRel", plain 0xBF "PassThrough",
    ⟨0xFA, "embedded_data", some .inlineUInt32, false⟩,
    ⟨0xFB, "embedded_data_byte", some .inlineUByte, false⟩]

end Vocabulary

/-- The operator that a tag stands for. -/
def OperatorInfo.ofTag? (tag : UInt8) : Option OperatorInfo :=
  Vocabulary.operators.find? fun info => info.tag == tag

theorem OperatorInfo.tag_of_ofTag? {tag : UInt8} {info : OperatorInfo}
    (h : ofTag? tag = some info) : info.tag = tag := by
  simpa using List.find?_some h

end PclXl
