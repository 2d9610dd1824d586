import PclXl.Data.Value
import PclXl.Stream.Reader

/-!
# Reading values

A value is read behind its data-type tag. In front of the elements of an array stand a second tag,
which gives the width of the count, and the count. The elements of an array of bytes are read as
one block, those of other arrays one by one.
-/

namespace PclXl

/-- The type of an array's count that a size tag announces. -/
def countType? (sizeTag : UInt8) : Option ElementType :=
  match DataType.ofTag? sizeTag with
  | some ⟨.scalar, .ubyte⟩ => some .ubyte
  | some ⟨.scalar, .uint16⟩ => some .uint16
  | _ => none

namespace Reader

/-- The value of an array with elements of a type. -/
def array (element : ElementType) : Reader ArrayValue := do
  let sizeOffset ← fileOffset
  let sizeTag ← peek
  match countType? sizeTag with
  | none => fail (.unknownCode sizeOffset sizeTag.toUInt16 .arraySizeTag)
  | some countType =>
    let _ ← byte
    let count ← word countType.width
    let dataOffset ← fileOffset
    if element = .ubyte then
      let raw ← take count
      return ⟨element, countType, raw.map .ubyte, some raw, dataOffset⟩
    else
      let items ← numbers element count
      return ⟨element, countType, items, none, dataOffset⟩

/-- The value of a data type. -/
def value (t : DataType) : Reader Value :=
  match t.form with
  | .scalar => do
    return .scalar (← number t.element)
  | .pair => do
    let x ← number t.element
    let y ← number t.element
    return .pair x y
  | .quad => do
    let a ← number t.element
    let b ← number t.element
    let c ← number t.element
    let d ← number t.element
    return .quad a b c d
  | .array => do
    return .array (← array t.element)

/-- A size tag and the smallest count take up two bytes. -/
theorem consumes_array (element : ElementType) : Consumes 2 (array element) := by
  refine (consumes_fileOffset.bind (n := 2) fun _ => ?_).mono (by omega)
  refine (consumes_peek.bind (n := 2) fun sizeTag => ?_).mono (by omega)
  split
  · exact consumes_fail 2 _
  · rename_i countType _
    refine (consumes_byte.bind (n := 1) fun _ => ?_).mono (by omega)
    refine ((consumes_word countType.width).bind (n := 0) fun count => ?_).mono
      (by have := countType.width_pos; omega)
    refine (consumes_fileOffset.bind (n := 0) fun _ => ?_).mono (by omega)
    split
    · exact ((consumes_take count).map _).mono (by omega)
    · exact ((consumes_numbers element count).map _).mono (by omega)

/-- No value takes up less than a byte. -/
theorem consumes_value (t : DataType) : Consumes 1 (value t) := by
  have hw := t.element.width_pos
  have one : Consumes 1 (number t.element) := (consumes_number t.element).mono hw
  unfold value
  split
  · exact one.map _
  · exact (one.bind fun _ => one.map _).mono (by omega)
  · exact (one.bind fun _ => one.bind fun _ => one.bind fun _ => one.map _).mono (by omega)
  · exact ((consumes_array t.element).map _).mono (by omega)

end Reader

end PclXl
