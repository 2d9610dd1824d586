import PclXl.Stream.Operand
import PclXl.Stream.Token
import PclXl.Vocabulary.Enumerations

/-!
# Attribute lists

In front of an operator stand its attributes, each as a value followed by the number of the
attribute. The list ends at the first byte that is no data-type tag. Every attribute takes up at
least four bytes, so that a list always ends.
-/

namespace PclXl

open Vocabulary

/-- The length of a data block that an attribute declares. -/
def Attribute.vendorLength? (a : Attribute) : Option UInt32 :=
  match a.value with
  | .scalar (.uint32 n) => if a.number = vendorLengthNumber then some n else none
  | _ => none

/-- The width of an attribute's number behind its tag. -/
def attributeNumberWidth? (tag : UInt8) : Option Nat :=
  if tag = 0xF8 then some 1
  else if tag = 0xF9 then some 2
  else none

namespace Reader

/-- The number of an attribute and its name. The cursor is left in front of a number that has no
name. -/
def attrNumber : Reader (UInt16 × String) := do
  let tagOffset ← fileOffset
  let tag ← peek
  match attributeNumberWidth? tag with
  | none => fail (.unknownCode tagOffset tag.toUInt16 .attributeTag)
  | some width =>
    let _ ← byte
    let place ← get
    let number ← UInt16.ofNat <$> word width
    match attributeName? number with
    | none =>
      set place
      fail (.unknownCode place.fileOffset number .attributeNumber)
    | some name => return (number, name)

/-- An attribute whose value has a data type. The declared length of a data block must be a single
number of type `uint32`. -/
def attr (t : DataType) : Reader Attribute := do
  let offset ← fileOffset
  let _ ← byte
  let value ← value t
  let _ ← skipWhiteSpace
  let (number, name) ← attrNumber
  let a : Attribute := ⟨number, name, value, value.scalar?.bind (·.toUInt32?) |>.bind (label? name),
    offset⟩
  if number = vendorLengthNumber ∧ a.vendorLength? = none then
    fail (.typeMismatch offset name ElementType.uint32.name value.dataType.name)
  else
    return a

/-- The next attribute, or none where no data-type tag stands. -/
def attr? : Reader (Option Attribute) := do
  let _ ← skipWhiteSpace
  match DataType.ofTag? (← peek) with
  | none => return none
  | some t => return some (← attr t)

theorem consumes_attrNumber : Consumes 2 attrNumber := by
  refine (consumes_fileOffset.bind (n := 2) fun _ => consumes_peek.bind (n := 2) fun tag => ?_).mono
    (by omega)
  split
  · exact consumes_fail 2 _
  · rename_i width hw
    have hpos : 1 ≤ width := by
      unfold attributeNumberWidth? at hw
      split at hw
      · cases hw
        exact Nat.le_refl _
      · split at hw <;> cases hw
        decide
    refine (consumes_byte.bind (n := 1) fun _ => ?_).mono (by omega)
    refine (consumes_get.bind (n := 1) fun place => ?_).mono (by omega)
    refine (((consumes_word width).map _).bind (n := 0) fun number => ?_).mono (by omega)
    cases attributeName? number with
    | none =>
      intro c a c' h
      obtain ⟨_, _, -, h⟩ := bind_eq_ok_iff.1 h
      cases h
    | some name => exact consumes_pure _

/-- No attribute takes up less than four bytes: two tags, a value and a number. -/
theorem consumes_attr (t : DataType) : Consumes 4 (attr t) := by
  refine (consumes_fileOffset.bind (n := 4) fun _ => ?_).mono (by omega)
  refine (consumes_byte.bind (n := 3) fun _ => ?_).mono (by omega)
  refine ((consumes_value t).bind (n := 2) fun _ => ?_).mono (by omega)
  refine (consumes_skipWhiteSpace.bind (n := 2) fun _ => ?_).mono (by omega)
  refine (consumes_attrNumber.bind (n := 0) fun entry => ?_).mono (by omega)
  dsimp only
  split
  · exact consumes_fail 0 _
  · exact consumes_pure _

/-- Where an attribute is found, at least four bytes are read. -/
theorem attr?_consumes {c c' : Cursor} {a : Attribute}
    (h : attr? c = .ok (some a) c') : c'.rest.length + 4 ≤ c.rest.length := by
  obtain ⟨_, c₁, h₁, h⟩ := bind_eq_ok_iff.1 h
  obtain ⟨tag, c₂, h₂, h⟩ := bind_eq_ok_iff.1 h
  have le₁ := consumes_skipWhiteSpace c _ c₁ h₁
  have le₂ := consumes_peek c₁ tag c₂ h₂
  cases ht : DataType.ofTag? tag with
  | none =>
    simp only [ht] at h
    cases (pure_eq_ok_iff.1 h).1
  | some t =>
    simp only [ht] at h
    obtain ⟨b, c₃, h₃, h⟩ := bind_eq_ok_iff.1 h
    obtain ⟨-, rfl⟩ := pure_eq_ok_iff.1 h
    have := consumes_attr t c₂ b c₃ h₃
    omega

end Reader

/-- What reading an attribute list led to. -/
structure AttributeList where
  /-- The attributes that were read. -/
  attributes : List Attribute
  /-- What stopped the reading, if the list did not end by itself. -/
  interrupt : Option Interrupt
  /-- Where the reading ended. -/
  cursor : Cursor

namespace AttributeList

/-- The attribute list at a cursor. -/
def read (c : Cursor) : AttributeList :=
  match _h : Reader.attr? c with
  | .error i c' => ⟨[], some i, c'⟩
  | .ok none c' => ⟨[], none, c'⟩
  | .ok (some a) c' =>
    let list := read c'
    { list with attributes := a :: list.attributes }
termination_by c.rest.length
decreasing_by
  have := Reader.attr?_consumes _h
  omega

/-- The length of a data block that a list declares: the last one counts. -/
def vendorLength? (list : AttributeList) : Option UInt32 :=
  (list.attributes.filterMap Attribute.vendorLength?).getLast?

end AttributeList

end PclXl
