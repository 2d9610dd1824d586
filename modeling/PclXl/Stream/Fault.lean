import PclXl.Text.Numeral

/-!
# What can be wrong with a stream

Each fault names its cause and the place in the file where it shows. Only a file without any header
has no such place.
-/

namespace PclXl

open Text

/-- What a code was expected to be, where an unknown one stands. -/
inductive CodeKind where
  /-- The tag between a value and the number of its attribute. -/
  | attributeTag
  /-- The number of an attribute. -/
  | attributeNumber
  /-- The tag in front of the count of an array. -/
  | arraySizeTag
  /-- The tag of an operator. -/
  | operatorTag
  deriving DecidableEq, Repr

/-- The words for a kind of code in a message. -/
def CodeKind.description : CodeKind → String
  | attributeTag => "attribute id tag"
  | attributeNumber => "attribute number"
  | arraySizeTag => "array size tag"
  | operatorTag => "operator tag"

/-- Why a stream cannot be read on. Every offset is an offset in the file. -/
inductive Fault where
  /-- There is no stream header. -/
  | missingHeader
  /-- The header does not start with the mark of a byte order. -/
  | unsupportedBinding (offset : Nat) (found : UInt8)
  /-- A code has no meaning where it stands. -/
  | unknownCode (offset : Nat) (code : UInt16) (kind : CodeKind)
  /-- An attribute has a value of another data type than it must have. -/
  | typeMismatch (offset : Nat) (attributeName expected found : String)
  /-- An operator lacks an attribute that it cannot do without. -/
  | missingAttribute (offset : Nat) (operatorName attributeName : String)
  /-- The bytes ran out where `needed` more were wanted. -/
  | endOfStream (offset needed : Nat)
  deriving DecidableEq, Repr

namespace Fault

/-- The file offset that a fault refers to. -/
def offset? : Fault → Option Nat
  | missingHeader => none
  | unsupportedBinding offset _ => some offset
  | unknownCode offset _ _ => some offset
  | typeMismatch offset _ _ _ => some offset
  | missingAttribute offset _ _ => some offset
  | endOfStream offset _ => some offset

/-- The message for a fault. -/
def message : Fault → String
  | missingHeader => "No PCL XL stream header found"
  | unsupportedBinding offset found =>
    "Unsupported binding " ++ hexCode found.toNat ++ " at offset " ++ hexOffset offset
  | unknownCode offset code kind =>
    "Unknown " ++ kind.description ++ " " ++ hexCode code.toNat ++ " at offset " ++
      hexOffset offset
  | typeMismatch offset attributeName expected found =>
    "Type mismatch for " ++ attributeName ++ " at offset " ++ hexOffset offset ++ ": expected " ++
      expected ++ ", found " ++ found
  | missingAttribute offset operatorName attributeName =>
    operatorName ++ " at offset " ++ hexOffset offset ++ " requires a preceding " ++
      attributeName ++ " attribute"
  | endOfStream offset needed =>
    "Unexpected end of stream at offset " ++ hexOffset offset ++ " (" ++ decimal needed ++
      " more bytes needed)"

end Fault

end PclXl
