import PclXl.Listing.Layout
import PclXl.Vocabulary.Enumerations

/-!
# Listing the vocabulary

The operators and the attributes of the language, each with its code, the enumerated attributes
with the labels of their values.
-/

namespace PclXl.Vocabulary

open Text

/-- The line of an operator. -/
def operatorLine (info : OperatorInfo) : String :=
  "0x" ++ hex 2 info.tag.toNat ++ " " ++ info.name ++ if info.counted then "" else " (data block)"

/-- The line of an attribute. -/
def attributeLine (number : UInt16) (name : String) : String :=
  paddedDecimal 3 ' ' number.toNat ++ " " ++ name ++
    match labels? name with
    | none => ""
    | some labels =>
      ":" ++ String.join (labels.map fun entry => " " ++ entry.2 ++ "=" ++ decimal entry.1.toNat)

/-- The text of the whole vocabulary. -/
def listing : String :=
  unlines (["// Operators"] ++ operators.map operatorLine ++ ["", "// Attributes"] ++
    attributes.map fun entry => attributeLine entry.1 entry.2)

end PclXl.Vocabulary
