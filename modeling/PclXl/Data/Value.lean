import PclXl.Data.DataType

/-!
# Values

What stands in front of an attribute's number: one, two, four or counted numbers. An array of bytes
also keeps the bytes themselves, and every array the file offset of its first element.
-/

namespace PclXl

/-- The value of an array. -/
structure ArrayValue where
  /-- The type of the elements. -/
  element : ElementType
  /-- The type of the count in front of the elements. -/
  countType : ElementType
  /-- The elements in order. -/
  items : List Number
  /-- The bytes of the elements, kept for arrays of bytes only. -/
  raw : Option (List UInt8)
  /-- File offset of the first byte of the elements. -/
  dataOffset : Nat
  deriving DecidableEq

/-- The value of an attribute. -/
inductive Value where
  /-- A single number. -/
  | scalar (n : Number)
  /-- Two numbers. -/
  | pair (x y : Number)
  /-- Four numbers. -/
  | quad (a b c d : Number)
  /-- Counted numbers. -/
  | array (array : ArrayValue)
  deriving DecidableEq

namespace Value

/-- The data type of a value; the first number decides for pairs and quads. -/
def dataType : Value → DataType
  | scalar n => ⟨.scalar, n.elementType⟩
  | pair x _ => ⟨.pair, x.elementType⟩
  | quad a _ _ _ => ⟨.quad, a.elementType⟩
  | array v => ⟨.array, v.element⟩

/-- The numbers of a value in order. -/
def items : Value → List Number
  | scalar n => [n]
  | pair x y => [x, y]
  | quad a b c d => [a, b, c, d]
  | array v => v.items

/-- The number of a value that is a single number. -/
def scalar? : Value → Option Number
  | scalar n => some n
  | _ => none

end Value

end PclXl
