import PclXl.Vocabulary.Attributes

/-!
# Enumerations

Some attributes take their value from an enumeration. Each member of an enumeration has a label
that a listing may show in place of the number.
-/

namespace PclXl.Vocabulary

/-- The members of an enumeration with their labels. -/
abbrev LabelSet := List (UInt32 × String)

namespace LabelSet

/-- Directions of an arc. -/
def arcDirection : LabelSet :=
  [(0, "eClockWise"), (1, "eCounterClockWise")]

/-- Rules for the inside of a clip path. -/
def clipMode : LabelSet :=
  [(0, "eNonZeroWinding"), (1, "eEvenOdd")]

/-- Sides of a clip path. -/
def clipRegion : LabelSet :=
  [(0, "eInterior"), (1, "eExterior")]

/-- Bits of a colour component. -/
def colorDepth : LabelSet :=
  [(0, "e1Bit"), (1, "e4Bit"), (2, "e8Bit")]

/-- Meanings of a pixel. -/
def colorMapping : LabelSet :=
  [(0, "eDirectPixel"), (1, "eIndexedPixel")]

/-- Colour spaces. -/
def colorSpace : LabelSet :=
  [(1, "eGray"), (2, "eRGB"), (6, "eSRGB")]

/-- Compressions of image data. -/
def compressMode : LabelSet :=
  [(0, "eNoCompression"), (1, "eRLECompression"), (2, "eJPEGCompression"),
    (3, "eDeltaRowCompression")]

/-- Byte orders of a data source. -/
def dataOrg : LabelSet :=
  [(0, "eBinaryHighByteFirst"), (1, "eBinaryLowByteFirst")]

/-- Kinds of data source. -/
def dataSource : LabelSet :=
  [(0, "eDefault")]

/-- Types of a point's coordinates. -/
def dataType : LabelSet :=
  [(0, "eUByte"), (1, "eSByte"), (2, "eUInt16"), (3, "eSInt16")]

/-- Built-in dither matrices. -/
def ditherMatrix : LabelSet :=
  [(0, "eDeviceBest")]

/-- Bindings of a page with two sides. -/
def duplexPageMode : LabelSet :=
  [(0, "eDuplexHorizontalBinding"), (1, "eDuplexVerticalBinding")]

/-- Sides of such a page. -/
def duplexPageSide : LabelSet :=
  [(0, "eFrontMediaSide"), (1, "eBackMediaSide")]

/-- Ways to report errors. -/
def errorReport : LabelSet :=
  [(0, "eNoReporting"), (1, "eBackChannel"), (2, "eErrorPage"), (3, "eBackChAndErrPage"),
    (4, "eNWBackChannel"), (5, "eNWErrorPage"), (6, "eNWBackChAndErrPage")]

/-- Rules for the inside of a path. -/
def fillMode : LabelSet :=
  [(0, "eNonZeroWinding"), (1, "eEvenOdd")]

/-- Ends of a line. -/
def lineCap : LabelSet :=
  [(0, "eButtCap"), (1, "eRoundCap"), (2, "eSquareCap"), (3, "eTriangleCap")]

/-- Joins of two lines. -/
def lineJoin : LabelSet :=
  [(0, "eMiterJoin"), (1, "eRoundJoin"), (2, "eBevelJoin"), (3, "eNoJoin")]

/-- Units of measure. -/
def measure : LabelSet :=
  [(0, "eInch"), (1, "eMillimeter"), (2, "eTenthsOfAMillimeter")]

/-- Output bins. -/
def mediaDestination : LabelSet :=
  [(0, "eDefaultDestination"), (1, "eFaceDownBin"), (2, "eFaceUpBin"), (3, "eJobOffsetBin")]

/-- Sizes of paper. -/
def mediaSize : LabelSet :=
  [(0, "eLetterPaper"), (1, "eLegalPaper"), (2, "eA4Paper"), (3, "eExecPaper"),
    (4, "eLedgerPaper"), (5, "eA3Paper"), (6, "eCOM10Envelope"), (7, "eMonarchEnvelope"),
    (8, "eC5Envelope"), (9, "eDLEnvelope"), (10, "eJB4Paper"), (11, "eJB5Paper"),
    (12, "eB5Envelope"), (13, "eB5Paper"), (14, "eJPostcard"), (15, "eJDoublePostcard"),
    (16, "eA5Paper"), (17, "eA6Paper"), (18, "eJB6Paper")]

/-- Input trays. -/
def mediaSource : LabelSet :=
  [(0, "eDefaultSource"), (1, "eAutoSelect"), (2, "eManualFeed"), (3, "eMultiPurposeTray"),
    (4, "eUpperCassette"), (5, "eLowerCassette"), (6, "eEnvelopeTray"), (7, "eThirdCassette")]

/-- Orientations of a page. -/
def orientation : LabelSet :=
  [(0, "ePortraitOrientation"), (1, "eLandscapeOrientation"), (2, "eReversePortrait"),
    (3, "eReverseLandscape")]

/-- Lifetimes of a pattern. -/
def patternPersistence : LabelSet :=
  [(0, "eTempPattern"), (1, "ePagePattern"), (2, "eSessionPattern")]

/-- Sides of a page with one side. -/
def simplexPageMode : LabelSet :=
  [(0, "eSimplexFrontSide")]

/-- Transparencies. -/
def txMode : LabelSet :=
  [(0, "eOpaque"), (1, "eTransparent")]

/-- Directions of writing. -/
def writingMode : LabelSet :=
  [(0, "eHorizontal"), (1, "eVertical")]

end LabelSet

/-- The attributes that take their value from an enumeration. -/
def enumerations : List (String × LabelSet) :=
  [("ArcDirection", LabelSet.arcDirection), ("ClipMode", LabelSet.clipMode),
    ("ClipRegion", LabelSet.clipRegion), ("ColorDepth", LabelSet.colorDepth),
    ("ColorMapping", LabelSet.colorMapping), ("ColorSpace", LabelSet.colorSpace),
    ("CompressMode", LabelSet.compressMode), ("CustomMediaSizeUnits", LabelSet.measure),
    ("DataOrg", LabelSet.dataOrg), ("DeviceMatrix", LabelSet.ditherMatrix),
    ("DitherMatrixDataType", LabelSet.dataType), ("DitherMatrixDepth", LabelSet.colorDepth),
    ("DuplexPageMode", LabelSet.duplexPageMode), ("DuplexPageSide", LabelSet.duplexPageSide),
    ("ErrorReport", LabelSet.errorReport), ("FillMode", LabelSet.fillMode),
    ("LineCapStyle", LabelSet.lineCap), ("LineJoinStyle", LabelSet.lineJoin),
    ("Measure", LabelSet.measure), ("MediaDestination", LabelSet.mediaDestination),
    ("MediaSize", LabelSet.mediaSize), ("MediaSource", LabelSet.mediaSource),
    ("Orientation", LabelSet.orientation), ("PaletteDepth", LabelSet.colorDepth),
    ("PatternPersistence", LabelSet.patternPersistence), ("PointType", LabelSet.dataType),
    ("PrimaryDepth", LabelSet.colorDepth), ("SimplexPageMode", LabelSet.simplexPageMode),
    ("SourceType", LabelSet.dataSource), ("TxMode", LabelSet.txMode),
    ("WritingMode", LabelSet.writingMode)]

/-- The enumeration that an attribute takes its value from. -/
def labels? (attributeName : String) : Option LabelSet :=
  enumerations.lookup attributeName

/-- The label of an attribute's value, if the attribute is enumerated and the value is a member. -/
def label? (attributeName : String) (value : UInt32) : Option String := do
  (← labels? attributeName).lookup value

end PclXl.Vocabulary
