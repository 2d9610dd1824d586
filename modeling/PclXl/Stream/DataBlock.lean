import PclXl.Stream.Reader
import PclXl.Stream.Token
import PclXl.Vocabulary.Attributes

/-!
# Data blocks

Behind some operators stands a block of raw bytes, which is never looked into. Its length stands in
front of it or was declared by an attribute of the operator; a declared length serves for one block
only.
-/

namespace PclXl

namespace Reader

/-- The length of a data block. A fault names the operator and the offset of its tag. -/
def payloadLength (source : PayloadSource) (declared : Option UInt32) (operatorName : String)
    (tagOffset : Nat) : Reader Nat :=
  match source with
  | .inlineUInt32 => word 4
  | .inlineUByte => word 1
  | .vendorLength =>
    match declared with
    | some length => return length.toNat
    | none => fail (.missingAttribute tagOffset operatorName Vocabulary.vendorLengthName)

/-- A data block with the padding behind it. -/
def payload (source : PayloadSource) (declared : Option UInt32) (operatorName : String)
    (tagOffset : Nat) : Reader Payload := do
  let length ← payloadLength source declared operatorName tagOffset
  let offset ← fileOffset
  let bytes ← takeRaw length
  let padding ← skipPadding
  return ⟨source, bytes, offset, padding⟩

theorem consumes_payloadLength (source : PayloadSource) (declared : Option UInt32)
    (operatorName : String) (tagOffset : Nat) :
    Consumes 0 (payloadLength source declared operatorName tagOffset) := by
  cases source with
  | inlineUInt32 => exact (consumes_word 4).mono (by omega)
  | inlineUByte => exact (consumes_word 1).mono (by omega)
  | vendorLength =>
    cases declared with
    | none => exact consumes_fail 0 _
    | some length => exact consumes_pure _

theorem consumes_payload (source : PayloadSource) (declared : Option UInt32)
    (operatorName : String) (tagOffset : Nat) :
    Consumes 0 (payload source declared operatorName tagOffset) := by
  refine ((consumes_payloadLength source declared operatorName tagOffset).bind (n := 0)
    fun length => ?_).mono (by omega)
  refine (consumes_fileOffset.bind (n := 0) fun _ => ?_).mono (by omega)
  refine ((consumes_takeRaw length).bind (n := 0) fun _ => ?_).mono (by omega)
  exact consumes_skipPadding.map _

end Reader

/-- What is left of a declared length after the length of a data block was looked up. -/
def PayloadSource.declaredAfter (source : PayloadSource) (declared : Option UInt32) :
    Option UInt32 :=
  match source with
  | .vendorLength => none
  | _ => declared

end PclXl
