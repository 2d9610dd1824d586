import PclXl.Data.Value
import PclXl.Vocabulary.Operators

/-!
# Tokens

What a stream is taken apart into: attributes, each with its value, the operators that they belong
to, the data blocks that follow some operators, and the end of the job.
-/

namespace PclXl

/-- An attribute with its value. -/
structure Attribute where
  /-- The number of the attribute. -/
  number : UInt16
  /-- The name of the attribute. -/
  name : String
  /-- The value of the attribute. -/
  value : Value
  /-- The label of the value, if the attribute is enumerated and the value has one. -/
  label : Option String
  /-- File offset of the data-type tag of the value. -/
  offset : Nat
  deriving DecidableEq

/-- An operator and its place among the others. -/
structure Operator where
  /-- The tag of the operator. -/
  tag : UInt8
  /-- The name of the operator. -/
  name : String
  /-- File offset of the first of its attributes, or of its tag if it has none. -/
  offset : Nat
  /-- File offset of its tag. -/
  tagOffset : Nat
  /-- How many saved graphics states the operator runs under. -/
  level : Int
  /-- Its place among the counted operators, starting at one. -/
  position : Option Nat
  deriving DecidableEq

/-- The data block of an operator. -/
structure Payload where
  /-- Where the length of the block stood. -/
  source : PayloadSource
  /-- The bytes of the block. -/
  bytes : List UInt8
  /-- File offset of the first byte of the block. -/
  offset : Nat
  /-- How many bytes of padding follow the block. -/
  padding : Nat
  deriving DecidableEq

/-- A part of a stream. -/
inductive Token where
  /-- An attribute, which belongs to the next operator. -/
  | attr (a : Attribute)
  /-- An operator. -/
  | operator (op : Operator)
  /-- The data block of the operator before it. -/
  | payload (p : Payload)
  /-- The end of the job, whose marker starts at a file offset. -/
  | jobEnd (offset : Nat)
  deriving DecidableEq

/-- The operator that a token is. -/
def Token.operator? : Token → Option Operator
  | operator op => some op
  | _ => none

end PclXl
