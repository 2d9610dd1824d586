import PclXl.Proofs.JobEndPrecedence

/-!
# The other byte order

Two files that differ in the mark of their byte order only are read alike, up to the bytes of their
numbers. The bytes that one order reads as a number are read by the other as the number with the
reversed bytes. This does not change what follows as long as no field of more than one byte says how
far the reading goes: no count or attribute number of two bytes, and no length of a data block other
than the one of a single byte. An operator in which none of these fields stands is written by the
same bytes in both orders, with its numbers mirrored.
-/

namespace PclXl

open Cursor Vocabulary

/-- The other order. -/
def ByteOrder.opposite : ByteOrder → ByteOrder
  | lowFirst => highFirst
  | highFirst => lowFirst

namespace ByteOrder

/-- In the opposite order the bytes of a number stand the other way round. -/
theorem bytes_opposite (order : ByteOrder) (width n : Nat) :
    order.opposite.bytes width n = (order.bytes width n).reverse := by
  cases order with
  | lowFirst => rfl
  | highFirst => exact (List.reverse_reverse _).symm

/-- A single byte is the same in both orders. -/
theorem bytes_opposite_one (order : ByteOrder) (n : Nat) :
    order.opposite.bytes 1 n = order.bytes 1 n := by
  cases order <;> rfl

end ByteOrder

namespace Number

/-- The number of the same type that is stored as the bytes of another one in reverse. -/
def mirror (x : Number) : Number :=
  ofWord x.elementType (ByteOrder.highFirst.value (x.bytes .lowFirst))

/-- A mirrored number has the same type. -/
@[simp] theorem elementType_mirror (x : Number) : x.mirror.elementType = x.elementType :=
  elementType_ofWord _ _

/-- Its word is the value of the bytes in the opposite order. -/
theorem word_mirror (order : ByteOrder) (x : Number) :
    x.mirror.word = order.opposite.value (x.bytes order) := by
  have hlt := ByteOrder.value_lt .highFirst (x.bytes .lowFirst)
  rw [length_bytes] at hlt
  rw [mirror, word_ofWord hlt]
  cases order <;> rfl

/-- The bytes of a number are read in the opposite order as its mirrored number. -/
@[simp] theorem bytes_opposite_mirror (order : ByteOrder) (x : Number) :
    x.mirror.bytes order.opposite = x.bytes order := by
  have hvalue := ByteOrder.bytes_value order.opposite (x.bytes order)
  rw [length_bytes] at hvalue
  rw [bytes, elementType_mirror, word_mirror order, hvalue]

/-- The mirrored number is stored as the reversed bytes. -/
theorem bytes_mirror (order : ByteOrder) (x : Number) :
    x.mirror.bytes order = (x.bytes order).reverse := by
  have hopposite := x.bytes_opposite_mirror order
  rw [bytes, ByteOrder.bytes_opposite] at hopposite
  rw [← hopposite, List.reverse_reverse]
  rfl

/-- A number of one byte is its own mirror. -/
theorem mirror_of_ubyte {x : Number} (h : x.elementType = .ubyte) : x.mirror = x := by
  have hword : x.mirror.word = x.word := by
    have hlt := x.word_lt
    rw [h] at hlt
    rw [word_mirror .highFirst, bytes, h]
    exact (congrArg _ (ByteOrder.bytes_opposite_one .lowFirst x.word)).trans
      (ByteOrder.value_bytes .lowFirst hlt)
  calc x.mirror = ofWord x.mirror.elementType x.mirror.word := (ofWord_word _).symm
    _ = ofWord x.elementType x.word := by rw [elementType_mirror, hword]
    _ = x := ofWord_word x

end Number

/-- A value of mirrored numbers. The count of an array, its raw bytes and its place are kept. -/
def Value.mirror : Value → Value
  | scalar x => scalar x.mirror
  | pair x y => pair x.mirror y.mirror
  | quad a b c d => quad a.mirror b.mirror c.mirror d.mirror
  | array v => array { v with items := v.items.map Number.mirror }

/-- An attribute with a mirrored value, and the label of that value. -/
def Attribute.mirror (a : Attribute) : Attribute :=
  { a with
    value := a.value.mirror
    label := a.value.mirror.scalar?.bind (·.toUInt32?) |>.bind (label? a.name) }

/-- A token with mirrored values. -/
def Token.mirror : Token → Token
  | attr a => attr a.mirror
  | operator op => operator op
  | payload p => payload p
  | jobEnd offset => jobEnd offset

/-- A step with mirrored tokens. -/
def Step.mirror : Step → Step
  | sequence tokens => sequence (tokens.map Token.mirror)
  | ended ending => ended ending

namespace Operand

/-- The width of the count of an operand, if it has one. -/
def countWidth? : Operand → Option FieldWidth
  | byteArray width _ _ => some width
  | array width _ _ _ _ _ => some width
  | _ => none

/-- An operand of mirrored numbers. -/
def mirror : Operand → Operand
  | scalar x => scalar x.mirror
  | pair x y same => pair x.mirror y.mirror (by simpa using same)
  | quad a b c d same => quad a.mirror b.mirror c.mirror d.mirror (by simpa using same)
  | byteArray width raw fits => byteArray width raw fits
  | array width element other items typed fits =>
    array width element other (items.map Number.mirror)
      (by
        intro x hx
        obtain ⟨y, hy, rfl⟩ := List.mem_map.1 hx
        rw [Number.elementType_mirror, typed y hy])
      (by rwa [List.length_map])

/-- A mirrored operand has the same data type. -/
theorem dataType_mirror (o : Operand) : o.mirror.dataType = o.dataType := by
  cases o <;> simp [mirror, dataType]

/-- Bytes are their own mirror images. -/
theorem mirror_map_ubyte (raw : List UInt8) :
    (raw.map Number.ubyte).map Number.mirror = raw.map Number.ubyte := by
  rw [List.map_map]
  exact List.map_congr_left fun b _ => Number.mirror_of_ubyte rfl

/-- The value of a mirrored operand is the mirrored value. -/
theorem value_mirror (o : Operand) (offset : Nat) :
    o.mirror.value offset = (o.value offset).mirror := by
  cases o with
  | byteArray width raw fits => simp only [mirror, value, Value.mirror, mirror_map_ubyte]
  | _ => rfl

/-- An operand of bytes is its own mirror. -/
theorem value_mirror_of_ubyte {o : Operand} (h : o.dataType.element = .ubyte) (offset : Nat) :
    (o.value offset).mirror = o.value offset := by
  cases o with
  | scalar x => exact congrArg Value.scalar (Number.mirror_of_ubyte h)
  | pair x y same =>
    have hy := Number.mirror_of_ubyte (same.trans h)
    rw [value, Value.mirror, Number.mirror_of_ubyte h, hy]
  | quad a b c d same =>
    have hb := Number.mirror_of_ubyte (same.1.trans h)
    have hc := Number.mirror_of_ubyte (same.2.1.trans h)
    have hd := Number.mirror_of_ubyte (same.2.2.trans h)
    rw [value, Value.mirror, Number.mirror_of_ubyte h, hb, hc, hd]
  | byteArray width raw fits => simp only [value, Value.mirror, mirror_map_ubyte]
  | array width element other items typed fits => exact absurd h other

/-- An operand whose count takes one byte is the same bytes in both orders. -/
theorem bytes_mirror {o : Operand} (h : ∀ w ∈ o.countWidth?, w = .one) (order : ByteOrder) :
    o.mirror.bytes order.opposite = o.bytes order := by
  cases o with
  | scalar x => exact x.bytes_opposite_mirror order
  | pair x y same => simp only [mirror, bytes, Number.bytes_opposite_mirror]
  | quad a b c d same => simp only [mirror, bytes, Number.bytes_opposite_mirror]
  | byteArray width raw fits =>
    have hone : width = .one := h width rfl
    subst hone
    simp only [mirror, bytes, FieldWidth.size, ByteOrder.bytes_opposite_one]
  | array width element other items typed fits =>
    have hone : width = .one := h width rfl
    subst hone
    simp only [mirror, bytes, FieldWidth.size, ByteOrder.bytes_opposite_one, List.length_map,
      List.flatMap_map, Number.bytes_opposite_mirror]

end Operand

/-- Neither the tag of a count of two bytes nor that of a number of two bytes stands in an
attribute. -/
structure WrittenAttribute.OneByteFields (a : WrittenAttribute) : Prop where
  /-- The tag in front of the count, if there is one. -/
  count : ∀ w ∈ a.operand.countWidth?, w.sizeTag ≠ 0xC1
  /-- The tag in front of the number. -/
  number : a.width.numberTag ≠ 0xF9

/-- No field of more than one byte other than a number stands in an operator. -/
structure Sequence.OneByteFields (q : Sequence) : Prop where
  /-- None stands in its attributes. -/
  attributes : ∀ a ∈ q.attributes, a.OneByteFields
  /-- The operator is not the one whose data block has a length of four bytes. -/
  notEmbedded : q.info.tag ≠ 0xFA
  /-- The operator is not the one whose data block has the length of an attribute. -/
  notVendor : q.info.tag ≠ 0x46

namespace WrittenAttribute

/-- An attribute of mirrored numbers. -/
def mirror (a : WrittenAttribute) : WrittenAttribute :=
  { a with
    operand := a.operand.mirror
    declares := by
      intro hnumber
      obtain ⟨n, hn⟩ := a.declares hnumber
      exact ⟨_, by rw [hn]; rfl⟩ }

/-- The token of a mirrored attribute is the mirrored token. -/
theorem token_mirror (offset : Nat) (a : WrittenAttribute) :
    a.mirror.token offset = (a.token offset).mirror := by
  have hvalue := a.operand.value_mirror (offset + 1)
  unfold token Attribute.mirror mirror
  dsimp only
  rw [hvalue]

/-- An attribute of bytes is its own mirror. -/
theorem mirror_token_of_ubyte {offset : Nat} {a : WrittenAttribute}
    (h : (a.token offset).value.dataType.element = .ubyte) :
    (a.token offset).mirror = a.token offset := by
  have htype : a.operand.dataType.element = .ubyte := by
    rwa [← a.operand.dataType_value (offset + 1)]
  have hvalue := Operand.value_mirror_of_ubyte htype (offset + 1)
  unfold Attribute.mirror token
  dsimp only
  rw [hvalue]

/-- With fields of one byte, a mirrored attribute has the same bytes in the opposite order. -/
theorem bytes_mirror {a : WrittenAttribute} (h : a.OneByteFields) (order : ByteOrder) :
    a.mirror.bytes order.opposite = a.bytes order := by
  have hcount : ∀ w ∈ a.operand.countWidth?, w = .one := by
    intro w hw
    have hne := h.count w hw
    cases w with
    | one => rfl
    | two => exact absurd rfl hne
  have hwidth : a.width = .one := by
    have hne := h.number
    cases hw : a.width with
    | one => rfl
    | two => exact absurd (by rw [hw]; rfl) hne
  have hoperand := Operand.bytes_mirror hcount order
  have htype := a.operand.dataType_mirror
  unfold bytes stem mirror
  dsimp only
  rw [hoperand, htype, hwidth, FieldWidth.size, ByteOrder.bytes_opposite_one]

/-- So has a list of them. -/
theorem listBytes_mirror {as : List WrittenAttribute} (h : ∀ a ∈ as, a.OneByteFields)
    (order : ByteOrder) : listBytes order.opposite (as.map mirror) = listBytes order as := by
  unfold listBytes
  rw [List.flatMap_map]
  exact congrArg List.flatten (List.map_congr_left fun a ha => bytes_mirror (h a ha) order)

/-- The tokens of a mirrored list are the mirrored tokens. -/
theorem listTokens_mirror {as : List WrittenAttribute} (h : ∀ a ∈ as, a.OneByteFields)
    (order : ByteOrder) (offset : Nat) : listTokens order.opposite offset (as.map mirror) =
      (listTokens order offset as).map Attribute.mirror := by
  induction as generalizing offset with
  | nil => rfl
  | cons a as ih =>
    have hrest := ih (fun b hb => h b (List.mem_cons_of_mem a hb)) (offset + (a.bytes order).length)
    rw [List.map_cons, listTokens, listTokens, bytes_mirror (h a List.mem_cons_self), hrest,
      token_mirror, List.map_cons]

/-- Every token of a list is that of an attribute at some place. -/
theorem exists_of_mem_listTokens {order : ByteOrder} {offset : Nat} {as : List WrittenAttribute}
    {a : Attribute} (h : a ∈ listTokens order offset as) :
    ∃ (w : WrittenAttribute) (place : Nat), a = w.token place := by
  induction as generalizing offset with
  | nil => cases h
  | cons w as ih =>
    rcases List.mem_cons.1 h with rfl | hrest
    · exact ⟨w, offset, rfl⟩
    · exact ih hrest

end WrittenAttribute

/-- All up to the tag of an operator, with mirrored attributes. -/
def Heading.mirror (g : Heading) : Heading :=
  { g with attributes := g.attributes.map WrittenAttribute.mirror }

namespace Sequence

/-- The attributes among the tokens of an operator are its own. -/
theorem exists_token_of_mem {order : ByteOrder} {offset : Nat} {t : Tally} {q : Sequence}
    {a : Attribute} (h : .attr a ∈ q.tokens order offset t) :
    ∃ (w : WrittenAttribute) (place : Nat), a = w.token place := by
  unfold tokens Heading.leadTokens blockTokens at h
  cases hb : q.block with
  | none =>
    rw [hb] at h
    simp only [List.append_nil, List.mem_append, List.mem_map, List.mem_singleton, reduceCtorEq,
      Token.attr.injEq, exists_eq_right, or_false] at h
    exact WrittenAttribute.exists_of_mem_listTokens h
  | some b =>
    rw [hb] at h
    simp only [List.mem_append, List.mem_map, List.mem_singleton, reduceCtorEq,
      Token.attr.injEq, exists_eq_right, or_false] at h
    exact WrittenAttribute.exists_of_mem_listTokens h

/-- Only the operator with a length of one byte is left among those with a data block. -/
theorem OneByteFields.source {q : Sequence} (h : q.OneByteFields) {b : WrittenBlock}
    (hb : b ∈ q.block) : b.source = .inlineUByte := by
  have hpayload := q.source_eq
  rw [hb] at hpayload
  have hmem : q.info ∈ operators := List.mem_of_find?_eq_some q.known
  have hall : ∀ i ∈ operators, i.tag = 0xFA ∨ i.tag = 0x46 ∨ i.payload = none ∨
      i.payload = some .inlineUByte := by decide
  rcases hall q.info hmem with hembedded | hvendor | hnone | hbyte
  · exact absurd hembedded h.notEmbedded
  · exact absurd hvendor h.notVendor
  · rw [hnone] at hpayload
    cases hpayload
  · rw [hbyte] at hpayload
    exact Option.some.inj hpayload

/-- An operator with mirrored attributes. -/
def mirror (q : Sequence) (h : q.OneByteFields) : Sequence :=
  { q with
    toHeading := q.toHeading.mirror
    sized := by
      intro b hb
      have hallows := q.sized b hb
      rw [h.source hb] at hallows ⊢
      exact hallows }

variable {q : Sequence} (h : q.OneByteFields) (order : ByteOrder)

/-- The attributes of a mirrored sequence have the same bytes in the opposite order. -/
theorem listBytes_mirror : (q.mirror h).listBytes order.opposite = q.listBytes order :=
  WrittenAttribute.listBytes_mirror h.attributes order

/-- Its data block is the same. -/
theorem block_mirror : (q.mirror h).block = q.block :=
  rfl

/-- So are the bytes of its length. -/
theorem lengthField_mirror : (q.mirror h).lengthField order.opposite = q.lengthField order := by
  rw [lengthField, lengthField, block_mirror]
  cases hb : q.block with
  | none => rfl
  | some b =>
    dsimp only
    rw [h.source hb]
    exact ByteOrder.bytes_opposite_one order _

/-- So is everything up to the data block. -/
theorem head_mirror : (q.mirror h).head order.opposite = q.head order := by
  rw [head, head, Heading.stem, Heading.stem, listBytes_mirror, lengthField_mirror]
  rfl

/-- So it has the same bytes altogether. -/
theorem bytes_mirror : (q.mirror h).bytes order.opposite = q.bytes order := by
  rw [bytes, bytes, head_mirror]
  rfl

/-- The operator is read in the opposite order as the same tokens with mirrored values. -/
theorem tokens_mirror (offset : Nat) (t : Tally) :
    (q.mirror h).tokens order.opposite offset t = (q.tokens order offset t).map Token.mirror := by
  have hattributes := WrittenAttribute.listTokens_mirror h.attributes order offset
  have hblock : (q.mirror h).blockTokens order.opposite offset =
      (q.blockTokens order offset).map Token.mirror := by
    rw [blockTokens, blockTokens, listBytes_mirror, block_mirror]
    cases q.block <;> rfl
  rw [tokens, tokens, Heading.leadTokens, Heading.leadTokens, Heading.operator, Heading.operator,
    listBytes_mirror, hblock, List.map_append, List.map_append]
  change (WrittenAttribute.listTokens order.opposite offset
    (q.attributes.map WrittenAttribute.mirror)).map Token.attr ++ _ ++ _ = _
  rw [hattributes, List.map_map, List.map_map]
  rfl

end Sequence

namespace Header

/-- A header with the other byte order. -/
def mirror (header : Header) : Header :=
  { header with order := header.order.opposite }

/-- A header line says the same behind any mark. -/
theorem ofLine?_with {order : ByteOrder} {length : Nat} {line : List Char} {header : Header}
    (h : ofLine? order length line = some header) (other : ByteOrder) :
    ofLine? other length line = some { header with order := other } := by
  unfold ofLine? at h ⊢
  dsimp only at h ⊢
  split at h
  · rename_i hname
    rw [if_pos hname, ← Option.some.inj h]
  · cases h

/-- A header is read behind the mark of its order, and just so behind any other mark. -/
theorem exists_of_read {stream : List UInt8} {base : Nat} {header : Header}
    (h : read stream base = .ok header) : ∃ tail, stream = header.order.mark :: tail ∧
      1 ≤ header.length ∧
      ∀ order : ByteOrder, read (order.mark :: tail) base = .ok { header with order } := by
  obtain ⟨found, line, rest, rfl, hline, hparse⟩ := read_eq_ok_iff.1 h
  obtain ⟨rfl, hlength⟩ := order_length_of_ofLine? hparse
  refine ⟨_, rfl, by omega, fun order => ?_⟩
  exact read_eq_ok_iff.2 ⟨order, line, rest, rfl, hline, ofLine?_with hparse order⟩

end Header

namespace Session

/-- Two sessions on streams in opposite orders stand in front of the same bytes. -/
structure Mirrors (s t : Session) : Prop where
  /-- The headers differ in the order only. -/
  header_eq : t.header = s.header.mirror
  /-- The cursors read in opposite orders. -/
  order_eq : t.cursor.order = s.cursor.order.opposite
  /-- The same bytes are still to come. -/
  rest_eq : t.cursor.rest = s.cursor.rest
  /-- They stand at the same file offset. -/
  fileOffset_eq : t.fileOffset = s.fileOffset
  /-- As many graphics states are saved. -/
  level_eq : t.level = s.level
  /-- As many counted operators were read. -/
  operatorCount_eq : t.operatorCount = s.operatorCount
  /-- The sessions go on. -/
  scanning : s.phase = .scanning ∧ t.phase = .scanning

/-- Where one of two mirrored sessions has a sequence ahead, the other has its mirror image. -/
theorem holdsSequence_mirror {s t : Session} (hst : s.Mirrors t) {q : Sequence}
    (h : q.OneByteFields) (hholds : s.cursor.HoldsSequence q) :
    t.cursor.HoldsSequence (q.mirror h) := by
  obtain ⟨⟨hstands, hclear⟩, hbody, hended⟩ := hholds
  refine ⟨⟨?_, ?_⟩, ?_, ?_⟩
  · rw [hst.order_eq, hst.rest_eq, Sequence.head_mirror]
    exact hstands
  · unfold Clear
    rw [hst.order_eq, hst.rest_eq, Sequence.head_mirror]
    exact hclear
  · rw [hst.order_eq, hst.rest_eq, Sequence.head_mirror]
    exact hbody
  · rw [hst.order_eq, hst.rest_eq, Sequence.bytes_mirror]
    exact hended

/-- A step reads in the opposite order what it reads in the first one, mirrored, because the same
bytes hold the mirrored operator. -/
theorem Mirrors.step {s t : Session} (hst : s.Mirrors t) {q : Sequence} (h : q.OneByteFields)
    (hholds : s.cursor.HoldsSequence q) :
    t.step.1 = s.step.1.mirror ∧ s.step.2.Mirrors t.step.2 := by
  have hmirrored := holdsSequence_mirror hst h hholds
  have htally : t.tally = s.tally := by
    rw [tally, tally, hst.level_eq, hst.operatorCount_eq]
  have hbytes : (q.mirror h).bytes t.cursor.order = q.bytes s.cursor.order := by
    rw [hst.order_eq, Sequence.bytes_mirror]
  rw [step_of_holdsSequence hst.scanning.1 hholds, step_of_holdsSequence hst.scanning.2 hmirrored]
  constructor
  · rw [hst.order_eq, hst.fileOffset_eq, htally]
    exact congrArg Step.sequence (Sequence.tokens_mirror h s.cursor.order _ s.tally)
  · have hcursor : (t.afterSequence (q.mirror h)).cursor =
        t.cursor.advance (q.bytes s.cursor.order).length := by
      rw [← hbytes]
      rfl
    refine ⟨hst.header_eq, hst.order_eq, ?_, ?_, ?_, ?_, hst.scanning⟩
    · rw [hcursor, rest_advance, hst.rest_eq]
      rfl
    · rw [fileOffset_afterSequence hmirrored, fileOffset_afterSequence hholds, hbytes,
        hst.fileOffset_eq]
    · change (t.tally.after q.info).level = (s.tally.after q.info).level
      rw [htally]
    · change (t.tally.after q.info).count = (s.tally.after q.info).count
      rw [htally]

/-- The first steps complete operators, in none of which a field of more than one byte other than a
number stands. -/
def OneByteSteps (s : Session) (k : Nat) : Prop :=
  ∀ j < k, ∃ ts s' q, (s.after j).step = (.sequence ts, s') ∧
    (s.after j).cursor.HoldsSequence q ∧ q.OneByteFields

/-- The first steps of two sessions in opposite orders agree. -/
structure AgreeFor (s t : Session) (k : Nat) : Prop where
  /-- The headers differ in the order only. -/
  header_eq : t.header = s.header.mirror
  /-- The steps of the other session complete operators as well. -/
  completes : ∀ j < k, ∃ ts, (t.after j).step.1 = .sequence ts
  /-- They give the same tokens, mirrored. -/
  outcomes_eq : t.outcomes k = (s.outcomes k).map Step.mirror
  /-- Attributes of bytes are the same ones, with their labels. -/
  mirror_eq : ∀ a, .attr a ∈ s.emitted k → a.value.dataType.element = .ubyte → a.mirror = a
  /-- The sessions stand alike in front of each step and behind the last. -/
  mirrors : ∀ j ≤ k, (s.after j).Mirrors (t.after j)

/-- Sessions in front of the same bytes stay so for as many steps. -/
theorem Mirrors.after {s t : Session} (hst : s.Mirrors t) {k : Nat} (h : s.OneByteSteps k) {j : Nat}
    (hj : j ≤ k) :
    (s.after j).Mirrors (t.after j) ∧ t.outcomes j = (s.outcomes j).map Step.mirror := by
  induction j with
  | zero => exact ⟨hst, rfl⟩
  | succ j ih =>
    obtain ⟨hmirrors, houtcomes⟩ := ih (by omega)
    obtain ⟨ts, s', q, -, hholds, hq⟩ := h j hj
    obtain ⟨hstep, hnext⟩ := hmirrors.step hq hholds
    refine ⟨hnext, ?_⟩
    rw [outcomes, outcomes, List.map_append, houtcomes, hstep]
    rfl

/-- Attributes of bytes that are read are their own mirrors. -/
theorem mirror_of_mem_emitted {s : Session} {k : Nat} (h : s.OneByteSteps k) {a : Attribute}
    (ha : .attr a ∈ s.emitted k) (htype : a.value.dataType.element = .ubyte) : a.mirror = a := by
  induction k with
  | zero => cases ha
  | succ k ih =>
    rw [emitted_succ] at ha
    rcases List.mem_append.1 ha with hbefore | hlast
    · exact ih (fun j hj => h j (Nat.lt_succ_of_lt hj)) hbefore
    · obtain ⟨ts, s', q, hstep, hholds, -⟩ := h k (Nat.lt_succ_self k)
      rw [step_of_holdsSequence (step_eq_sequence_iff.1 hstep).1 hholds] at hlast
      obtain ⟨w, place, rfl⟩ := Sequence.exists_token_of_mem hlast
      exact WrittenAttribute.mirror_token_of_ubyte htype

/-- So they agree for as many steps as have fields of one byte. -/
theorem Mirrors.agreeFor {s t : Session} (hst : s.Mirrors t) {k : Nat} (h : s.OneByteSteps k) :
    s.AgreeFor t k := by
  refine ⟨hst.header_eq, fun j hj => ?_, (hst.after h (Nat.le_refl k)).2,
    fun a => mirror_of_mem_emitted h, fun j hj => (hst.after h hj).1⟩
  obtain ⟨ts, s', q, hs, hholds, hq⟩ := h j hj
  have hstep := ((hst.after h (Nat.le_of_lt hj)).1.step hq hholds).1
  rw [hs] at hstep
  exact ⟨_, hstep⟩

/-- A stream behind the mark of the opposite order starts in front of the same bytes. -/
theorem exists_mirrors_of_start {stream : List UInt8} {base : Nat} {s : Session}
    (h : start stream base = .ok s) :
    stream[0]? = some s.header.order.mark ∧
    ∃ t, start (stream.set 0 s.header.order.opposite.mark) base = .ok t ∧ s.Mirrors t := by
  obtain ⟨header, hread, rfl⟩ := start_eq_ok_iff.1 h
  obtain ⟨tail, rfl, hlength, hother⟩ := Header.exists_of_read hread
  obtain ⟨n, hn⟩ : ∃ n, header.length = n + 1 := ⟨header.length - 1, by omega⟩
  refine ⟨rfl, _, start_eq_ok_iff.2 ⟨header.mirror, hother header.order.opposite, rfl⟩,
    rfl, rfl, ?_, rfl, rfl, rfl, rfl, rfl⟩
  change (header.order.opposite.mark :: tail).drop header.length =
    (header.order.mark :: tail).drop header.length
  rw [hn]
  rfl

/-- A stream is found where it is, whatever order its mark announces. -/
theorem locate_set {data : List UInt8} {n : Nat} (h : Header.locate data = .ok n)
    (order : ByteOrder) : Header.locate (data.set n order.mark) = .ok n := by
  obtain ⟨hname, hleast⟩ := Header.locate_eq_ok_iff.1 h
  have hmarker : Header.languageMarker.length = 11 := rfl
  have hlength := hname.length_le
  rw [List.length_drop, hmarker] at hlength
  have htake : (data.take n).length = n := by
    rw [List.length_take]
    omega
  have hsplit : data.set n order.mark = data.take n ++ order.mark :: data.drop (n + 1) := by
    rw [List.set_eq_take_append_cons_drop, if_pos (by omega)]
  refine Header.locate_eq_ok_iff.2 ⟨?_, fun j hj => ?_⟩
  · rwa [List.drop_set_of_lt (by omega)]
  · rw [hsplit]
    exact Header.not_prefix_drop (Header.not_infix_take hleast) (by omega)

/-- A file is opened where its stream starts. -/
theorem openFile_of_locate {data : List UInt8} {n : Nat} (h : Header.locate data = .ok n) :
    openFile data = start (data.drop n) n := by
  unfold openFile
  rw [h]
  rfl

/-- A file with the mark of the opposite order opens in front of the same bytes. -/
theorem exists_mirrors_of_openFile {data : List UInt8} {s : Session} (h : openFile data = .ok s) :
    data[s.cursor.base]? = some s.header.order.mark ∧
    ∃ t, openFile (data.set s.cursor.base s.header.order.opposite.mark) = .ok t ∧ s.Mirrors t := by
  obtain ⟨n, header, hlocate, -, hs⟩ := openFile_eq_ok_iff_read.1 h
  have hbase : s.cursor.base = n := congrArg (fun s : Session => s.cursor.base) hs
  rw [openFile_of_locate hlocate] at h
  obtain ⟨hmark, t, hother, hmirrors⟩ := exists_mirrors_of_start h
  rw [hbase, openFile_of_locate (locate_set hlocate s.header.order.opposite)]
  rw [List.getElem?_drop, Nat.add_zero] at hmark
  refine ⟨hmark, t, ?_, hmirrors⟩
  rw [List.drop_set, if_neg (Nat.lt_irrefl n), Nat.sub_self]
  exact hother

/-- The byte order of a file decides its numbers only. If the mark of the order is exchanged, the
file or stream opens just so, and as many of its first steps as have no field of more than one byte
in them other than numbers complete the same operators. The tokens have the same names, shapes,
offsets, levels, positions, raw bytes and data blocks, and each number is the one whose stored bytes
are reversed. -/
theorem opposite_orders_agree (k : Nat) :
    (∀ (x : Number) (order : ByteOrder), x.mirror.elementType = x.elementType ∧
      x.mirror.bytes order = (x.bytes order).reverse) ∧
    (∀ data s, openFile data = .ok s → s.OneByteSteps k →
      data[s.cursor.base]? = some s.header.order.mark ∧
      ∃ t, openFile (data.set s.cursor.base s.header.order.opposite.mark) = .ok t ∧
        s.AgreeFor t k) ∧
    ∀ stream base s, start stream base = .ok s → s.OneByteSteps k →
      stream[0]? = some s.header.order.mark ∧
      ∃ t, start (stream.set 0 s.header.order.opposite.mark) base = .ok t ∧ s.AgreeFor t k := by
  refine ⟨fun x order => ⟨x.elementType_mirror, x.bytes_mirror order⟩,
    fun data s hopen hsteps => ?_, fun stream base s hstart hsteps => ?_⟩
  · obtain ⟨hmark, t, hother, hmirrors⟩ := exists_mirrors_of_openFile hopen
    exact ⟨hmark, t, hother, hmirrors.agreeFor hsteps⟩
  · obtain ⟨hmark, t, hother, hmirrors⟩ := exists_mirrors_of_start hstart
    exact ⟨hmark, t, hother, hmirrors.agreeFor hsteps⟩

/-- A data block whose length takes one byte, with padding behind it. In front of its operator stand
an enumerated value of two bytes and an array of bytes. -/
def sizedBlock : Sequence where
  space := .none
  attributes :=
    [⟨.scalar (.uint16 1), .none, .one, 0x25, "MediaSize", .none, by decide, by decide,
        fun h => absurd h (by decide)⟩,
      ⟨.byteArray .one [0x01, 0x02] (by decide), .none, .one, 0x25, "MediaSize", .none, by decide,
        by decide, fun h => absurd h (by decide)⟩]
  info := ⟨0xFB, "embedded_data_byte", some .inlineUByte, false⟩
  known := by decide
  block := some ⟨.inlineUByte, [0x1B], 1⟩
  source_eq := rfl
  sized := by
    intro b hb
    have hfits : [(0x1B : UInt8)].length < ByteOrder.limit 1 := by decide
    rw [← Option.some.inj hb]
    exact hfits

/-- The sample sequence has fields of one byte only. -/
theorem oneByteFields_sizedBlock : sizedBlock.OneByteFields := by
  refine ⟨fun a ha => ⟨?_, ?_⟩, by decide, by decide⟩
  · revert a ha
    decide +kernel
  · revert a ha
    decide +kernel

/-- The block twice, in the order with the low byte first. -/
def twoBlocks : List UInt8 :=
  [0xC1, 0x01, 0x00, 0xF8, 0x25, 0xC8, 0xC0, 0x02, 0x01, 0x02, 0xF8, 0x25, 0xFB, 0x01, 0x1B, 0x00,
    0xC1, 0x01, 0x00, 0xF8, 0x25, 0xC8, 0xC0, 0x02, 0x01, 0x02, 0xF8, 0x25, 0xFB, 0x01, 0x1B, 0x00]

/-- So have both steps on it. -/
theorem oneByteSteps_twoBlocks : (onSample twoBlocks).OneByteSteps 2 := by
  have hfirst : ((onSample twoBlocks).after 0).cursor.rest =
      sizedBlock.bytes ((onSample twoBlocks).after 0).cursor.order ++ twoBlocks.drop 16 := by
    decide +kernel
  have hsecond : ((onSample twoBlocks).after 1).cursor.rest =
      sizedBlock.bytes ((onSample twoBlocks).after 1).cursor.order ++ [] := by decide +kernel
  have hholds := holdsSequence_of_rest hfirst (by unfold Clear; decide +kernel) (by decide)
  have hholds' := holdsSequence_of_rest hsecond (by unfold Clear; decide +kernel) (by decide)
  intro j hj
  match j, hj with
  | 0, _ => exact ⟨_, _, _, step_of_holdsSequence rfl hholds, hholds, oneByteFields_sizedBlock⟩
  | 1, _ =>
    exact ⟨_, _, _, step_of_holdsSequence (by decide +kernel) hholds', hholds',
      oneByteFields_sizedBlock⟩

/-- The tokens of a block whose size is a number with a label, at a file offset. -/
def blockTokens (size : Number) (label : Option String) (offset : Nat) : List Token :=
  [.attr ⟨0x25, "MediaSize", .scalar size, label, offset⟩,
    .attr ⟨0x25, "MediaSize", .array ⟨.ubyte, .ubyte, [.ubyte 1, .ubyte 2], some [1, 2], offset + 8⟩,
      none, offset + 5⟩,
    .operator ⟨0xFB, "embedded_data_byte", offset, offset + 12, 0, none⟩,
    .payload ⟨.inlineUByte, [0x1B], offset + 14, 1⟩]

/-- With the other mark the size is another number and loses its label, and all else is the same. -/
theorem opposite_orders_agree_twoBlocks :
    ∃ t, openFile ([0x29, 0x20, 0x48, 0x50, 0x2D, 0x50, 0x43, 0x4C, 0x20, 0x58, 0x4C, 0x3B, 0x32,
        0x3B, 0x30, 0x0A] ++ twoBlocks) = .ok t ∧ (t.after 2).fileOffset = 48 ∧
      (onSample twoBlocks).outcomes 2 =
        [.sequence (blockTokens (.uint16 1) (some "eLegalPaper") 16),
          .sequence (blockTokens (.uint16 1) (some "eLegalPaper") 32)] ∧
      t.outcomes 2 = [.sequence (blockTokens (.uint16 256) none 16),
        .sequence (blockTokens (.uint16 256) none 32)] := by
  obtain ⟨-, t, hopen, hagree⟩ := (opposite_orders_agree 2).2.1 _ _ (openFile_onSample twoBlocks)
    oneByteSteps_twoBlocks
  have hoffset : ((onSample twoBlocks).after 2).fileOffset = 48 := by decide +kernel
  refine ⟨t, hopen, ?_, by decide +kernel, ?_⟩
  · rw [(hagree.mirrors 2 (Nat.le_refl 2)).fileOffset_eq, hoffset]
  · rw [hagree.outcomes_eq]
    decide +kernel

end Session

end PclXl
