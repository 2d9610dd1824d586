import PclXl.Numeric.HalfEven
import PclXl.Text.Numeral

/-!
# Numbers of the binary32 format

A word of 32 bits is read as sign, exponent field and fraction. The magnitude of a finite number is
a natural number divided by `2 ^ 150`, so that it is written with six decimal places by exact
integer arithmetic alone.
-/

namespace PclXl.Numeric

open Text

/-- A number of the IEEE 754 format binary32, given by its bits. -/
structure Binary32 where
  /-- Sign bit, eight bits of exponent and twenty-three bits of fraction. -/
  bits : UInt32
  deriving DecidableEq

namespace Binary32

/-- The sign bit is set. Zero and the numbers that are no numbers have a sign too. -/
def isNegative (x : Binary32) : Bool :=
  0x80000000 ≤ x.bits.toNat

/-- The biased exponent. -/
def exponentField (x : Binary32) : Nat :=
  x.bits.toNat / 0x800000 % 0x100

/-- The trailing part of the significand. -/
def fraction (x : Binary32) : Nat :=
  x.bits.toNat % 0x800000

/-- The largest exponent marks the infinities and the numbers that are no numbers. -/
def isFinite (x : Binary32) : Bool :=
  x.exponentField != 255

/-- The largest exponent with a fraction stands for no number. -/
def isNaN (x : Binary32) : Bool :=
  !x.isFinite && x.fraction != 0

/-- The fraction with the leading bit that only a positive exponent field implies. -/
def significand (x : Binary32) : Nat :=
  if x.exponentField = 0 then x.fraction else 0x800000 + x.fraction

/-- The magnitude of a finite number, as a multiple of `2 ^ -150`. Field zero has the scale of field
one. -/
def magnitude (x : Binary32) : Nat :=
  x.significand <<< max 1 x.exponentField

/-- The magnitude of a finite number in millionths, rounded to the nearest; a half goes to the even
neighbour. -/
def millionths (x : Binary32) : Nat :=
  roundHalfEven (x.magnitude * 1000000) (1 <<< 150)

/-- Six decimal places behind all integer digits, with a minus sign where the sign bit is set. A
number that is no number is written without a sign. -/
def text (x : Binary32) : String :=
  if x.isNaN then "NaN"
  else
    (if x.isNegative then "-" else "") ++
      if x.isFinite then
        decimal (x.millionths / 1000000) ++ "." ++ paddedDecimal 6 '0' (x.millionths % 1000000)
      else "inf"

end Binary32

end PclXl.Numeric
