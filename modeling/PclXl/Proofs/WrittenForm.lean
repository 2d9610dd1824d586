import PclXl.Proofs.NumberBytes
import PclXl.Stream.Session

/-!
# Written form

What a stream may hold between its header and the end of its job, apart from any reader: operands,
attributes and operators with every choice that the language leaves to a writer, which are the width
of a count, the width of an attribute's number, white space and padding. A written operator has its
bytes in either order and the tokens that stand for it at a place of a file.
-/

namespace PclXl

open Vocabulary

/-- White space between the parts of an operator. -/
structure Space where
  /-- The bytes. -/
  bytes : List UInt8
  /-- Each of them is white space. -/
  blank : ∀ b ∈ bytes, Reader.isWhiteSpace b = true

/-- No white space at all. -/
def Space.none : Space :=
  ⟨[], by simp⟩

/-- How many bytes at the start of white space look like the padding of a data block. -/
def Space.padding (s : Space) : Nat :=
  (s.bytes.takeWhile Reader.isPadding).length

/-- How many bytes a count or the number of an attribute takes up. -/
inductive FieldWidth where
  /-- One byte. -/
  | one
  /-- Two bytes. -/
  | two
  deriving DecidableEq

namespace FieldWidth

/-- The number of bytes. -/
def size : FieldWidth → Nat
  | one => 1
  | two => 2

/-- The type of a count of that width. -/
def countType : FieldWidth → ElementType
  | one => .ubyte
  | two => .uint16

/-- The tag in front of a count of that width. -/
def sizeTag (w : FieldWidth) : UInt8 :=
  DataType.tag ⟨.scalar, w.countType⟩

/-- The tag in front of an attribute's number of that width. -/
def numberTag : FieldWidth → UInt8
  | one => 0xF8
  | two => 0xF9

@[simp] theorem width_countType (w : FieldWidth) : w.countType.width = w.size := by
  cases w <;> rfl

end FieldWidth

/-- What stands behind the data-type tag of an attribute. -/
inductive Operand where
  /-- A single number. -/
  | scalar (x : Number)
  /-- Two numbers of one type. -/
  | pair (x y : Number) (same : y.elementType = x.elementType)
  /-- Four numbers of one type. -/
  | quad (a b c d : Number) (same : b.elementType = a.elementType ∧
      c.elementType = a.elementType ∧ d.elementType = a.elementType)
  /-- Counted bytes. -/
  | byteArray (width : FieldWidth) (raw : List UInt8) (fits : raw.length < ByteOrder.limit width.size)
  /-- Counted numbers of a type other than a byte. -/
  | array (width : FieldWidth) (element : ElementType) (other : element ≠ .ubyte)
      (items : List Number) (typed : ∀ x ∈ items, x.elementType = element)
      (fits : items.length < ByteOrder.limit width.size)

namespace Operand

/-- The data type that the tag in front announces. -/
def dataType : Operand → DataType
  | scalar x => ⟨.scalar, x.elementType⟩
  | pair x _ _ => ⟨.pair, x.elementType⟩
  | quad a _ _ _ _ => ⟨.quad, a.elementType⟩
  | byteArray _ _ _ => ⟨.array, .ubyte⟩
  | array _ element _ _ _ _ => ⟨.array, element⟩

/-- The bytes of an operand. -/
def bytes (order : ByteOrder) : Operand → List UInt8
  | scalar x => x.bytes order
  | pair x y _ => x.bytes order ++ y.bytes order
  | quad a b c d _ => a.bytes order ++ (b.bytes order ++ (c.bytes order ++ d.bytes order))
  | byteArray width raw _ => width.sizeTag :: (order.bytes width.size raw.length ++ raw)
  | array width _ _ items _ _ =>
    width.sizeTag :: (order.bytes width.size items.length ++ items.flatMap (·.bytes order))

/-- The value of an operand whose first byte has a file offset. -/
def value (offset : Nat) : Operand → Value
  | scalar x => .scalar x
  | pair x y _ => .pair x y
  | quad a b c d _ => .quad a b c d
  | byteArray width raw _ =>
    .array ⟨.ubyte, width.countType, raw.map .ubyte, some raw, offset + 1 + width.size⟩
  | array width element _ items _ _ =>
    .array ⟨element, width.countType, items, none, offset + 1 + width.size⟩

/-- A byte array takes its count type, its count and its bytes. -/
theorem length_byteArray (order : ByteOrder) (width : FieldWidth) (raw : List UInt8)
    (fits : raw.length < ByteOrder.limit width.size) :
    ((byteArray width raw fits).bytes order).length = 1 + width.size + raw.length := by
  rw [bytes, List.length_cons, List.length_append, ByteOrder.length_bytes]
  omega

/-- An array takes its count type, its count and the bytes of its elements. -/
theorem length_array (order : ByteOrder) (width : FieldWidth) (element : ElementType)
    (other : element ≠ .ubyte) (items : List Number) (typed : ∀ x ∈ items, x.elementType = element)
    (fits : items.length < ByteOrder.limit width.size) :
    ((array width element other items typed fits).bytes order).length =
      1 + width.size + (items.flatMap (·.bytes order)).length := by
  rw [bytes, List.length_cons, List.length_append, ByteOrder.length_bytes]
  omega

@[simp] theorem dataType_value (o : Operand) (offset : Nat) :
    (o.value offset).dataType = o.dataType := by
  cases o <;> rfl

end Operand

/-- An attribute as it is written. -/
structure WrittenAttribute where
  /-- What stands behind the data-type tag. -/
  operand : Operand
  /-- White space in front of the tag of the number. -/
  gap : Space
  /-- The width of the number. -/
  width : FieldWidth
  /-- The number of the attribute. -/
  number : UInt16
  /-- The name of the attribute. -/
  name : String
  /-- White space behind the number. -/
  space : Space
  /-- The language knows the attribute. -/
  known : attributeName? number = some name
  /-- The number fits its width. -/
  fits : number.toNat < ByteOrder.limit width.size
  /-- The length of a data block is declared by a single number of type `uint32`. -/
  declares : number = vendorLengthNumber → ∃ n, operand = .scalar (.uint32 n)

namespace WrittenAttribute

/-- The bytes of an attribute up to its number. -/
def stem (order : ByteOrder) (a : WrittenAttribute) : List UInt8 :=
  a.operand.dataType.tag :: (a.operand.bytes order ++ (a.gap.bytes ++
    a.width.numberTag :: order.bytes a.width.size a.number.toNat))

/-- The bytes of an attribute with the white space behind it. -/
def bytes (order : ByteOrder) (a : WrittenAttribute) : List UInt8 :=
  a.stem order ++ a.space.bytes

/-- The attribute that is read where its data-type tag has a file offset. -/
def token (offset : Nat) (a : WrittenAttribute) : Attribute where
  number := a.number
  name := a.name
  value := a.operand.value (offset + 1)
  label := (a.operand.value (offset + 1)).scalar?.bind (·.toUInt32?) |>.bind (label? a.name)
  offset := offset

/-- The length of a data block that an attribute declares. -/
def declared? (a : WrittenAttribute) : Option UInt32 :=
  match a.operand with
  | .scalar (.uint32 n) => if a.number = vendorLengthNumber then some n else none
  | _ => none

/-- An attribute with other white space behind it. -/
def withSpace (s : Space) (a : WrittenAttribute) : WrittenAttribute :=
  { a with space := s }

/-- The white space of an attribute stands behind its number. -/
theorem bytes_withSpace (order : ByteOrder) (s : Space) (a : WrittenAttribute) :
    (a.withSpace s).bytes order = a.stem order ++ s.bytes :=
  rfl

/-- White space does not show in the token of an attribute. -/
theorem token_withSpace (offset : Nat) (s : Space) (a : WrittenAttribute) :
    (a.withSpace s).token offset = a.token offset :=
  rfl

/-- The bytes of attributes that follow each other. -/
def listBytes (order : ByteOrder) (as : List WrittenAttribute) : List UInt8 :=
  as.flatMap (bytes order)

/-- The attributes that are read from a file offset on. -/
def listTokens (order : ByteOrder) : Nat → List WrittenAttribute → List Attribute
  | _, [] => []
  | offset, a :: as => a.token offset :: listTokens order (offset + (a.bytes order).length) as

/-- The length of a data block that attributes declare: the last one counts. -/
def listDeclared? (as : List WrittenAttribute) : Option UInt32 :=
  (as.filterMap declared?).getLast?

/-- An attribute declares the length that it was written with. -/
theorem vendorLength?_token (offset : Nat) (a : WrittenAttribute) :
    (a.token offset).vendorLength? = a.declared? := by
  unfold Attribute.vendorLength? declared?
  cases h : a.operand with
  | scalar x =>
    simp only [token, h, Operand.value]
    cases x <;> rfl
  | pair x y same => simp only [token, h, Operand.value]
  | quad p q r s same => simp only [token, h, Operand.value]
  | byteArray width raw fits => simp only [token, h, Operand.value]
  | array width element other items typed fits => simp only [token, h, Operand.value]

/-- Reading attributes finds the lengths that they declare. -/
theorem filterMap_vendorLength?_listTokens (order : ByteOrder) (offset : Nat)
    (as : List WrittenAttribute) :
    (listTokens order offset as).filterMap Attribute.vendorLength? = as.filterMap declared? := by
  induction as generalizing offset with
  | nil => rfl
  | cons a as ih =>
    rw [listTokens, List.filterMap_cons, List.filterMap_cons, vendorLength?_token, ih]

end WrittenAttribute

namespace PayloadSource

/-- How many bytes in front of a data block hold its length. -/
def lengthWidth : PayloadSource → Nat
  | inlineUInt32 => 4
  | inlineUByte => 1
  | vendorLength => 0

/-- The bytes in front of a data block of length `n`. -/
def lengthField (order : ByteOrder) (source : PayloadSource) (n : Nat) : List UInt8 :=
  order.bytes source.lengthWidth n

/-- A data block of length `n` can be written behind attributes that declare a length, or none. -/
def Allows (source : PayloadSource) (declared : Option UInt32) (n : Nat) : Prop :=
  match source with
  | inlineUInt32 => n < ByteOrder.limit 4
  | inlineUByte => n < ByteOrder.limit 1
  | vendorLength => declared.map UInt32.toNat = some n

@[simp] theorem length_lengthField (order : ByteOrder) (source : PayloadSource) (n : Nat) :
    (source.lengthField order n).length = source.lengthWidth :=
  ByteOrder.length_bytes order _ _

/-- Nothing stands in front of a data block whose length an attribute declares. -/
theorem lengthField_vendorLength (order : ByteOrder) (n : Nat) :
    vendorLength.lengthField order n = [] :=
  List.length_eq_zero_iff.1 (length_lengthField order _ _)

end PayloadSource

/-- A data block as it is written behind its operator. -/
structure WrittenBlock where
  /-- Where its length stands. -/
  source : PayloadSource
  /-- Its bytes. -/
  body : List UInt8
  /-- How many bytes of padding follow. -/
  padding : Nat

namespace WrittenBlock

/-- The data block that is read behind a tag at a file offset. -/
def token (tagOffset : Nat) (b : WrittenBlock) : Payload :=
  ⟨b.source, b.body, tagOffset + 1 + b.source.lengthWidth, b.padding⟩

end WrittenBlock

/-- What operators in front leave to the next one: the saved graphics states and how many counted
operators there were. -/
structure Tally where
  /-- Saved graphics states minus restored ones. -/
  level : Int
  /-- How many counted operators came before. -/
  count : Nat

namespace Tally

/-- Nothing came before. -/
def zero : Tally :=
  ⟨0, 0⟩

/-- The level that an operator runs at. -/
def levelOf (t : Tally) (info : OperatorInfo) : Int :=
  if info.tag = popTag then t.level - 1 else t.level

/-- The place of an operator among the counted ones. -/
def positionOf (t : Tally) (info : OperatorInfo) : Option Nat :=
  if info.counted then some (t.count + 1) else none

/-- What an operator leaves to the next one. -/
def after (t : Tally) (info : OperatorInfo) : Tally where
  level :=
    if info.tag = popTag then t.level - 1
    else if info.tag = pushTag then t.level + 1
    else t.level
  count := if info.counted then t.count + 1 else t.count

end Tally

/-- An operator as it is written up to its tag, with the attributes in front of it. -/
structure Heading where
  /-- White space in front. -/
  space : Space
  /-- The attributes. -/
  attributes : List WrittenAttribute
  /-- The operator. -/
  info : OperatorInfo
  /-- The language knows the operator. -/
  known : OperatorInfo.ofTag? info.tag = some info

namespace Heading

/-- The bytes of the attributes. -/
def listBytes (order : ByteOrder) (g : Heading) : List UInt8 :=
  WrittenAttribute.listBytes order g.attributes

/-- The bytes up to the tag. -/
def stem (order : ByteOrder) (g : Heading) : List UInt8 :=
  g.space.bytes ++ (g.listBytes order ++ [g.info.tag])

/-- The length of a data block that the attributes declare. -/
def declared? (g : Heading) : Option UInt32 :=
  WrittenAttribute.listDeclared? g.attributes

/-- The operator that is read, where its first byte behind the white space has a file offset. -/
def operator (order : ByteOrder) (offset : Nat) (t : Tally) (g : Heading) : Operator where
  tag := g.info.tag
  name := g.info.name
  offset := offset
  tagOffset := offset + (g.listBytes order).length
  level := t.levelOf g.info
  position := t.positionOf g.info

/-- The tokens that are read up to the tag: the attributes and the operator. -/
def leadTokens (order : ByteOrder) (offset : Nat) (t : Tally) (g : Heading) : List Token :=
  (WrittenAttribute.listTokens order offset g.attributes).map .attr ++
    [.operator (g.operator order offset t)]

/-- An operator without its block takes the white space in front, its attributes and its tag. -/
theorem length_stem (order : ByteOrder) (g : Heading) :
    (g.stem order).length = g.space.bytes.length + (g.listBytes order).length + 1 := by
  simp only [stem, List.length_append, List.length_singleton]
  omega

end Heading

/-- An operator as it is written, with the attributes in front of it and the data block behind. -/
structure Sequence extends Heading where
  /-- The data block, if the operator has one. -/
  block : Option WrittenBlock
  /-- A data block is written exactly where the operator has one. -/
  source_eq : block.map (·.source) = info.payload
  /-- The length of the data block is the one that is given. -/
  sized : ∀ b ∈ block, b.source.Allows toHeading.declared? b.body.length

namespace Sequence

/-- The length of the data block in front of it, if the operator has one. -/
def lengthField (order : ByteOrder) (q : Sequence) : List UInt8 :=
  match q.block with
  | none => []
  | some b => b.source.lengthField order b.body.length

/-- The bytes of a written operator up to the body of its data block. -/
def head (order : ByteOrder) (q : Sequence) : List UInt8 :=
  q.stem order ++ q.lengthField order

/-- The body of the data block with its padding, if the operator has one. -/
def body (q : Sequence) : List UInt8 :=
  match q.block with
  | none => []
  | some b => b.body ++ List.replicate b.padding 0

/-- The bytes of a written operator. -/
def bytes (order : ByteOrder) (q : Sequence) : List UInt8 :=
  q.head order ++ q.body

/-- The data block that is read, as a list of at most one token. -/
def blockTokens (order : ByteOrder) (offset : Nat) (q : Sequence) : List Token :=
  match q.block with
  | none => []
  | some b => [.payload (b.token (offset + (q.listBytes order).length))]

/-- The tokens that are read: the attributes, the operator and its data block. -/
def tokens (order : ByteOrder) (offset : Nat) (t : Tally) (q : Sequence) : List Token :=
  q.leadTokens order offset t ++ q.blockTokens order offset

/-- An operator without a block is written as its stem. -/
theorem bytes_of_none {q : Sequence} (order : ByteOrder) (hb : q.block = none) :
    q.bytes order = q.stem order := by
  simp only [bytes, head, lengthField, body, hb, List.append_nil]

/-- In front of the body of a block stands the stem with the length field. -/
theorem head_of_some {q : Sequence} {b : WrittenBlock} (order : ByteOrder)
    (hb : q.block = some b) :
    q.head order = q.stem order ++ b.source.lengthField order b.body.length := by
  rw [head, lengthField, hb]

/-- The body of a block goes on with its padding. -/
theorem body_of_some {q : Sequence} {b : WrittenBlock} (hb : q.block = some b) :
    q.body = b.body ++ List.replicate b.padding 0 := by
  rw [body, hb]

/-- The length field takes its width behind the stem. -/
theorem length_head_of_some {q : Sequence} {b : WrittenBlock} (order : ByteOrder)
    (hb : q.block = some b) :
    (q.head order).length = (q.stem order).length + b.source.lengthWidth := by
  rw [head_of_some order hb, List.length_append, PayloadSource.length_lengthField]

/-- An operator with a block takes the stem, the length field, the body and the padding. -/
theorem length_bytes_of_some {q : Sequence} {b : WrittenBlock} (order : ByteOrder)
    (hb : q.block = some b) : (q.bytes order).length =
      (q.stem order).length + (b.source.lengthWidth + b.body.length + b.padding) := by
  rw [bytes, List.length_append, length_head_of_some order hb, body_of_some hb, List.length_append,
    List.length_replicate]
  omega

/-- A written operator with more padding behind its data block, if it has one. -/
def pad (n : Nat) (q : Sequence) : Sequence :=
  { q with
    block := q.block.map fun b => { b with padding := b.padding + n }
    source_eq := by
      have h := q.source_eq
      cases hb : q.block with
      | none => simpa [hb] using h
      | some b => simpa [hb] using h
    sized := by
      intro b h
      cases hb : q.block with
      | none => simp [hb] at h
      | some b' =>
        simp only [hb, Option.map_some, Option.mem_some_iff] at h
        subst h
        exact q.sized b' hb }

/-- More padding goes to the block, if there is one. -/
theorem block_pad (n : Nat) (q : Sequence) :
    (q.pad n).block = q.block.map fun b => { b with padding := b.padding + n } :=
  rfl

/-- Padding lies behind all that is scanned of an operator. -/
theorem head_pad (order : ByteOrder) (n : Nat) (q : Sequence) :
    (q.pad n).head order = q.head order := by
  cases hb : q.block with
  | none => simp only [head, lengthField, block_pad, hb, Option.map_none]; rfl
  | some b => simp only [head, lengthField, block_pad, hb, Option.map_some]; rfl

/-- Padding is written behind all else of a data block. -/
theorem bytes_pad {q : Sequence} {b : WrittenBlock} (order : ByteOrder) (n : Nat)
    (hb : q.block = some b) : (q.pad n).bytes order = q.bytes order ++ List.replicate n 0 := by
  simp only [bytes, head, lengthField, body, pad, hb, Option.map_some, List.append_assoc,
    List.replicate_append_replicate]

/-- The tokens of an operator end in its data block. -/
theorem tokens_of_some {q : Sequence} {b : WrittenBlock} (order : ByteOrder) (offset : Nat)
    (t : Tally) (hb : q.block = some b) : q.tokens order offset t =
      q.leadTokens order offset t ++ [.payload (b.token (offset + (q.listBytes order).length))] := by
  rw [tokens, blockTokens, hb]

end Sequence

/-- All that is written between the header of a stream and the end of its job. -/
structure Job where
  /-- The operators in order. -/
  sequences : List Sequence
  /-- White space in front of the end. -/
  space : Space

namespace Job

/-- The bytes of operators that follow each other. -/
def listBytes (order : ByteOrder) (qs : List Sequence) : List UInt8 :=
  qs.flatMap (Sequence.bytes order)

/-- The white space that follows, where `qs` are the operators to come and `last` stands behind
them. -/
def nextSpace (last : Space) : List Sequence → Space
  | [] => last
  | q :: _ => q.space

/-- The tokens of operators from a file offset on. Zero bytes at the start of the white space behind
a data block count as its padding. -/
def listTokens (order : ByteOrder) (last : Space) : Nat → Tally → List Sequence → List Token
  | _, _, [] => []
  | offset, t, q :: qs =>
    (q.pad (nextSpace last qs).padding).tokens order (offset + q.space.bytes.length) t ++
      listTokens order last (offset + (q.bytes order).length) (t.after q.info) qs

/-- The bytes of a job up to the marker that ends it. -/
def bytes (order : ByteOrder) (job : Job) : List UInt8 :=
  listBytes order job.sequences ++ job.space.bytes

/-- The tokens of a job whose first byte has a file offset, without the end. -/
def tokens (order : ByteOrder) (offset : Nat) (job : Job) : List Token :=
  listTokens order job.space offset .zero job.sequences

end Job

/-- A place lies inside the body of a data block among the tokens. -/
def InBody (tokens : List Token) (place : Nat) : Prop :=
  ∃ p, .payload p ∈ tokens ∧ p.offset ≤ place ∧ place < p.offset + p.bytes.length

/-- The job-end marker starts at a place of a file. -/
def MarkerAt (data : List UInt8) (place : Nat) : Prop :=
  jobEndMarker <+: data.drop place

instance (data : List UInt8) (place : Nat) : Decidable (MarkerAt data place) :=
  inferInstanceAs (Decidable (jobEndMarker <+: data.drop place))

/-- There is room for a marker behind the place where it starts. -/
theorem length_of_marker {bs : List UInt8} {n : Nat} (h : jobEndMarker <+: bs.drop n) :
    n + jobEndMarker.length ≤ bs.length := by
  have hle := h.length_le
  have hmarker : jobEndMarker.length = 9 := rfl
  rw [List.length_drop] at hle
  omega

/-- The only data block among the tokens of an operator is its own. -/
theorem Sequence.exists_block_of_mem {order : ByteOrder} {offset : Nat} {t : Tally} {q : Sequence}
    {p : Payload} (h : .payload p ∈ q.tokens order offset t) :
    ∃ b, q.block = some b ∧ p = b.token (offset + (q.listBytes order).length) := by
  unfold tokens Heading.leadTokens blockTokens at h
  cases hb : q.block with
  | none =>
    rw [hb] at h
    simp at h
  | some b =>
    rw [hb] at h
    simp only [List.mem_append, List.mem_map, List.mem_singleton, reduceCtorEq, and_false,
      exists_false, or_false, false_or, Token.payload.injEq] at h
    exact ⟨b, rfl, h⟩

/-- The body of a data block stands behind all that is scanned of its operator. -/
theorem Sequence.offset_of_payload_mem {order : ByteOrder} {offset : Nat} {t : Tally} {q : Sequence}
    {p : Payload} (h : .payload p ∈ q.tokens order (offset + q.space.bytes.length) t) :
    p.offset = offset + (q.head order).length ∧
      p.offset + p.bytes.length ≤ offset + (q.bytes order).length := by
  obtain ⟨b, hb, hp⟩ := exists_block_of_mem h
  have hstem := q.length_stem order
  have hbytes := length_bytes_of_some order hb
  have hhead := length_head_of_some order hb
  rw [hp]
  simp only [WrittenBlock.token]
  omega

/-- A place is in a body of two runs of tokens if it is in a body of one of them. -/
theorem inBody_append {ts us : List Token} {place : Nat} :
    InBody (ts ++ us) place ↔ InBody ts place ∨ InBody us place := by
  constructor
  · intro h
    obtain ⟨p, hp, hplace⟩ := h
    rcases List.mem_append.1 hp with hts | hus
    · exact .inl ⟨p, hts, hplace⟩
    · exact .inr ⟨p, hus, hplace⟩
  · intro h
    rcases h with ⟨p, hp, hplace⟩ | ⟨p, hp, hplace⟩
    · exact ⟨p, List.mem_append_left us hp, hplace⟩
    · exact ⟨p, List.mem_append_right ts hp, hplace⟩

/-- The body of an operator's data block begins behind all that is scanned of the operator. -/
theorem Sequence.le_of_inBody {order : ByteOrder} {offset place : Nat} {t : Tally} {q : Sequence}
    (h : InBody (q.tokens order (offset + q.space.bytes.length) t) place) :
    offset + (q.head order).length ≤ place ∧ place < offset + (q.bytes order).length := by
  obtain ⟨p, hp, hstart, hstop⟩ := h
  have hplace := offset_of_payload_mem hp
  omega

end PclXl
