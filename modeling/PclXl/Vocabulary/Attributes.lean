/-!
# Attributes

The attributes of the language by their numbers.
-/

namespace PclXl.Vocabulary

/-- All attributes in the order of their numbers. -/
def attributes : List (UInt16 × String) :=
  [(2, "PaletteDepth"), (3, "ColorSpace"), (4, "NullBrush"), (5, "NullPen"), (6, "PaletteData"),
    (8, "PatternSelectID"), (9, "GrayLevel"), (11, "RGBColor"), (12, "PatternOrigin"),
    (13, "NewDestinationSize"), (14, "PrimaryArray"), (15, "PrimaryDepth"),
    (17, "ColorimetricColorSpace"), (18, "XYChromaticities"), (19, "WhiteReferencePoint"),
    (20, "CRGBMinMax"), (21, "GammaGain"), (33, "DeviceMatrix"), (34, "DitherMatrixDataType"),
    (35, "DitherOrigin"), (36, "MediaDestination"), (37, "MediaSize"), (38, "MediaSource"),
    (39, "MediaType"), (40, "Orientation"), (41, "PageAngle"), (42, "PageOrigin"),
    (43, "PageScale"), (44, "ROP3"), (45, "TxMode"), (47, "CustomMediaSize"),
    (48, "CustomMediaSizeUnits"), (49, "PageCopies"), (50, "DitherMatrixSize"),
    (51, "DitherMatrixDepth"), (52, "SimplexPageMode"), (53, "DuplexPageMode"),
    (54, "DuplexPageSide"), (65, "ArcDirection"), (66, "BoundingBox"), (67, "DashOffset"),
    (68, "EllipseDimension"), (69, "EndPoint"), (70, "FillMode"), (71, "LineCapStyle"),
    (72, "LineJoinStyle"), (73, "MiterLength"), (74, "LineDashStyle"), (75, "PenWidth"),
    (76, "Point"), (77, "NumberOfPoints"), (78, "SolidLine"), (79, "StartPoint"),
    (80, "PointType"), (81, "ControlPoint1"), (82, "ControlPoint2"), (83, "ClipRegion"),
    (84, "ClipMode"), (98, "ColorDepth"), (99, "BlockHeight"), (100, "ColorMapping"),
    (101, "CompressMode"), (102, "DestinationBox"), (103, "DestinationSize"),
    (104, "PatternPersistence"), (105, "PatternDefineID"), (107, "SourceHeight"),
    (108, "SourceWidth"), (109, "StartLine"), (110, "PadBytesMultiple"), (111, "BlockByteLength"),
    (115, "NumberOfScanLines"), (129, "CommentData"), (130, "DataOrg"), (134, "Measure"),
    (136, "SourceType"), (137, "UnitsPerMeasure"), (139, "StreamName"), (140, "StreamDataLength"),
    (143, "ErrorReport"), (145, "VUExtension"), (146, "VUDataLength"), (147, "VUAttr1"),
    (148, "VUAttr2"), (149, "VUAttr3"), (161, "CharAngle"), (162, "CharCode"),
    (163, "CharDataSize"), (164, "CharScale"), (165, "CharShear"), (166, "CharSize"),
    (167, "FontHeaderLength"), (168, "FontName"), (169, "FontFormat"), (170, "SymbolSet"),
    (171, "TextData"), (172, "CharSubModeArray"), (173, "WritingMode"), (175, "XSpacingData"),
    (176, "YSpacingData"), (177, "CharBoldValue")]

/-- The name of the attribute with a number. -/
def attributeName? (number : UInt16) : Option String :=
  attributes.lookup number

/-- The number of the attribute that gives the length of a data block. -/
def vendorLengthNumber : UInt16 := 146

/-- The name of the attribute that gives the length of a data block. -/
def vendorLengthName : String := "VUDataLength"

end PclXl.Vocabulary
