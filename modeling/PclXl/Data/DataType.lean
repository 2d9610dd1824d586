import PclXl.Data.Number

/-!
# Data types

A data type joins the type of its numbers with the form in which they are grouped. Each of the
twenty-four data types has its own tag, whose low three bits stand for the type of the numbers and
whose high five bits stand for the form.
-/

namespace PclXl

/-- How the numbers of a value are grouped. -/
inductive Form where
  /-- A single number. -/
  | scalar
  /-- Two numbers, as for the coordinates of a point. -/
  | pair
  /-- Four numbers, as for the corners of a box. -/
  | quad
  /-- As many numbers as a count in front of them says. -/
  | array
  deriving DecidableEq, Repr

namespace Form

/-- What follows the type of the numbers in the name of a data type. -/
def suffix : Form → String
  | scalar => ""
  | pair => "_xy"
  | quad => "_box"
  | array => "_array"

/-- The high bits that stand for the form in a data-type tag. -/
def code : Form → UInt8
  | scalar => 0xC0
  | array => 0xC8
  | pair => 0xD0
  | quad => 0xE0

/-- The form that a code stands for. -/
def ofCode? (code : UInt8) : Option Form :=
  [scalar, array, pair, quad].find? fun f => f.code == code

theorem ofCode?_code (f : Form) : ofCode? f.code = some f := by
  cases f <;> decide

theorem code_of_ofCode? {code : UInt8} {f : Form} (h : ofCode? code = some f) : f.code = code := by
  simpa using List.find?_some h

end Form

/-- The type of a value. -/
structure DataType where
  /-- How the numbers are grouped. -/
  form : Form
  /-- The type of each number. -/
  element : ElementType
  deriving DecidableEq, Repr

namespace DataType

/-- The keyword of the data type in a listing. -/
def name (t : DataType) : String :=
  t.element.name ++ t.form.suffix

/-- The tag in front of a value of the data type. -/
def tag (t : DataType) : UInt8 :=
  t.form.code ||| t.element.code

/-- The data type that a tag stands for, or none if the byte is no data-type tag. -/
def ofTag? (tag : UInt8) : Option DataType := do
  let element ← ElementType.ofCode? (tag &&& 0x07)
  let form ← Form.ofCode? (tag &&& 0xF8)
  return ⟨form, element⟩

theorem ofTag?_tag (t : DataType) : ofTag? t.tag = some t := by
  obtain ⟨form, element⟩ := t
  cases form <;> cases element <;> decide

/-- A tag stands for exactly the data type that it is the tag of. -/
theorem ofTag?_eq_some_iff {tag : UInt8} {t : DataType} : ofTag? tag = some t ↔ tag = t.tag := by
  constructor
  · intro h
    simp only [ofTag?, Option.bind_eq_bind, Option.bind_eq_some_iff, Option.pure_def,
      Option.some.injEq] at h
    obtain ⟨element, he, form, hf, rfl⟩ := h
    have low := ElementType.code_of_ofCode? he
    have high := Form.code_of_ofCode? hf
    rw [DataType.tag, low, high, ← UInt8.toNat_inj, UInt8.toNat_or, UInt8.toNat_and,
      UInt8.toNat_and, ← Nat.and_or_distrib_left]
    exact (Nat.and_two_pow_sub_one_of_lt_two_pow (n := 8) tag.toNat_lt).symm
  · rintro rfl
    exact ofTag?_tag t

end DataType

end PclXl
