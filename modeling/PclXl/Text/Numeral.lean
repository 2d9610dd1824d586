/-!
# Numerals

Counts are written in decimal, offsets and codes in lower-case hexadecimal that is filled up with
zeros on the left to a least number of places. A hexadecimal numeral never loses digits: the filling
only applies to numbers that have fewer.
-/

namespace PclXl.Text

/-- Decimal digits of a natural number, without superfluous zeros. -/
def decimal (n : Nat) : String :=
  String.ofList (Nat.toDigits 10 n)

/-- Decimal digits of an integer, with a minus sign exactly for the negative ones. -/
def signedDecimal (i : Int) : String :=
  if i < 0 then "-" ++ decimal i.natAbs else decimal i.natAbs

/-- Decimal digits, filled up on the left with `fill` to at least `places` characters. -/
def paddedDecimal (places : Nat) (fill : Char) (n : Nat) : String :=
  String.ofList ((Nat.toDigits 10 n).leftpad places fill)

/-- Hexadecimal digits, filled up with zeros to at least `places` digits. -/
def hex (places n : Nat) : String :=
  String.ofList ((Nat.toDigits 16 n).leftpad places '0')

/-- A code in a message: at least two hexadecimal digits behind `0x`. -/
def hexCode (n : Nat) : String :=
  "0x" ++ hex 2 n

/-- A file offset in a message: at least eight hexadecimal digits behind `0x`. -/
def hexOffset (n : Nat) : String :=
  "0x" ++ hex 8 n

/-- A run of `n` spaces. -/
def spaces (n : Nat) : String :=
  String.ofList (List.replicate n ' ')

theorem toList_hex (places n : Nat) :
    (hex places n).toList = (Nat.toDigits 16 n).leftpad places '0' := by
  simp [hex]

/-- A byte always has two hexadecimal digits. -/
theorem length_hex_byte (b : UInt8) : (hex 2 b.toNat).toList.length = 2 := by
  have h : (Nat.toDigits 16 b.toNat).length ≤ 2 :=
    (Nat.length_toDigits_le_iff (by decide) (by decide)).2 b.toNat_lt
  rw [toList_hex, List.length_leftpad]
  omega

end PclXl.Text
