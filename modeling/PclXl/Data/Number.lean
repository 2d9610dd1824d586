import PclXl.Bytes.Order
import PclXl.Numeric.Binary32

/-!
# Numbers and their types

Every operand is made of numbers of one of six types. A number is stored as a word of its type's
width; the type and the word determine it, and it determines both.
-/

namespace PclXl

open Numeric Text

/-- The types of a single number. -/
inductive ElementType where
  /-- Unsigned, one byte. -/
  | ubyte
  /-- Unsigned, two bytes. -/
  | uint16
  /-- Unsigned, four bytes. -/
  | uint32
  /-- Two's complement, two bytes. -/
  | sint16
  /-- Two's complement, four bytes. -/
  | sint32
  /-- The binary32 format. -/
  | real32
  deriving DecidableEq, Repr

namespace ElementType

/-- Bytes that one number takes up. -/
def width : ElementType → Nat
  | ubyte => 1
  | uint16 => 2
  | uint32 => 4
  | sint16 => 2
  | sint32 => 4
  | real32 => 4

/-- The keyword of the type in a listing. -/
def name : ElementType → String
  | ubyte => "ubyte"
  | uint16 => "uint16"
  | uint32 => "uint32"
  | sint16 => "sint16"
  | sint32 => "sint32"
  | real32 => "real32"

/-- The three bits that stand for the type in a data-type tag. -/
def code : ElementType → UInt8
  | ubyte => 0
  | uint16 => 1
  | uint32 => 2
  | sint16 => 3
  | sint32 => 4
  | real32 => 5

/-- The type that a code stands for. -/
def ofCode? (code : UInt8) : Option ElementType :=
  [ubyte, uint16, uint32, sint16, sint32, real32].find? fun t => t.code == code

theorem width_pos (t : ElementType) : 0 < t.width := by
  cases t <;> decide

theorem ofCode?_code (t : ElementType) : ofCode? t.code = some t := by
  cases t <;> decide

theorem code_of_ofCode? {code : UInt8} {t : ElementType} (h : ofCode? code = some t) :
    t.code = code := by
  simpa using List.find?_some h

end ElementType

/-- A number together with its type. -/
inductive Number where
  /-- An unsigned number of one byte. -/
  | ubyte (value : UInt8)
  /-- An unsigned number of two bytes. -/
  | uint16 (value : UInt16)
  /-- An unsigned number of four bytes. -/
  | uint32 (value : UInt32)
  /-- A signed number of two bytes. -/
  | sint16 (value : Int16)
  /-- A signed number of four bytes. -/
  | sint32 (value : Int32)
  /-- A number of the binary32 format. -/
  | real32 (value : Binary32)
  deriving DecidableEq

namespace Number

/-- The type of a number. -/
def elementType : Number → ElementType
  | ubyte _ => .ubyte
  | uint16 _ => .uint16
  | uint32 _ => .uint32
  | sint16 _ => .sint16
  | sint32 _ => .sint32
  | real32 _ => .real32

/-- The word that a number is stored as. -/
def word : Number → Nat
  | ubyte v => v.toNat
  | uint16 v => v.toNat
  | uint32 v => v.toNat
  | sint16 v => v.toUInt16.toNat
  | sint32 v => v.toUInt32.toNat
  | real32 v => v.bits.toNat

/-- The number of a type that is stored as a word. -/
def ofWord (t : ElementType) (word : Nat) : Number :=
  match t with
  | .ubyte => ubyte (UInt8.ofNat word)
  | .uint16 => uint16 (UInt16.ofNat word)
  | .uint32 => uint32 (UInt32.ofNat word)
  | .sint16 => sint16 (UInt16.ofNat word).toInt16
  | .sint32 => sint32 (UInt32.ofNat word).toInt32
  | .real32 => real32 ⟨UInt32.ofNat word⟩

/-- The value as a natural number below `2 ^ 32`; reals and negative numbers have none. -/
def toUInt32? : Number → Option UInt32
  | ubyte v => some v.toUInt32
  | uint16 v => some v.toUInt32
  | uint32 v => some v
  | sint16 v => if 0 ≤ v.toInt then some (UInt32.ofNat v.toInt.toNat) else none
  | sint32 v => if 0 ≤ v.toInt then some (UInt32.ofNat v.toInt.toNat) else none
  | real32 _ => none

/-- Integers are written in decimal, reals with six decimal places. -/
def text : Number → String
  | ubyte v => decimal v.toNat
  | uint16 v => decimal v.toNat
  | uint32 v => decimal v.toNat
  | sint16 v => signedDecimal v.toInt
  | sint32 v => signedDecimal v.toInt
  | real32 v => v.text

@[simp] theorem elementType_ofWord (t : ElementType) (word : Nat) :
    (ofWord t word).elementType = t := by
  cases t <;> rfl

/-- A number is determined by its type and its word. -/
@[simp] theorem ofWord_word (n : Number) : ofWord n.elementType n.word = n := by
  cases n <;> simp [elementType, word, ofWord]

/-- The word of a number fits the width of its type. -/
theorem word_lt (n : Number) : n.word < ByteOrder.limit n.elementType.width := by
  cases n with
  | ubyte v => exact v.toNat_lt
  | uint16 v => exact v.toNat_lt
  | uint32 v => exact v.toNat_lt
  | sint16 v => exact v.toUInt16.toNat_lt
  | sint32 v => exact v.toUInt32.toNat_lt
  | real32 v => exact v.bits.toNat_lt

/-- A word that fits the width of a type is the word of the number that it gives. -/
theorem word_ofWord {t : ElementType} {word : Nat} (h : word < ByteOrder.limit t.width) :
    (ofWord t word).word = word := by
  cases t <;> simp [ofWord, Number.word, ElementType.width, ByteOrder.limit] at h ⊢ <;> omega

end Number

end PclXl
