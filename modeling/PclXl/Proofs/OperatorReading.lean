import PclXl.Proofs.AttributeReading

/-!
# Operators read back

A step of a session completes an operator exactly where one is written at its cursor, with no
job-end marker in front of the body of its data block and with all padding that stands behind the
body. The tokens and the session after the step are then determined.
-/

namespace PclXl

open Cursor Vocabulary

/-- White space in front of a byte that is none is empty. -/
theorem Space.bytes_eq_nil {s : Space} {bs rest : List UInt8} (h : s.bytes ++ bs <+: rest)
    (hnot : ∀ b ∈ rest.head?, Reader.isWhiteSpace b = false) : s.bytes = [] := by
  obtain ⟨tail, htail⟩ := h
  cases hs : s.bytes with
  | nil => rfl
  | cons b ws =>
    have hblank := s.blank b (by rw [hs]; exact List.mem_cons_self)
    have hb := hnot b (by rw [← htail, hs]; rfl)
    rw [hb] at hblank
    cases hblank

/-- No white space is skipped in front of a byte that is none. -/
theorem Reader.skipWhiteSpace_of_holds {b : UInt8} {c : Cursor} (hb : c.Holds [b])
    (hblank : isWhiteSpace b = false) :
    skipWhiteSpace c = .ok (c.rest.takeWhile isWhiteSpace).length c := by
  have hskip : c.skipWhile isWhiteSpace = c.advance (Space.none.bytes).length :=
    skipWhile_of_holds hb hblank
  have hspace := skipWhiteSpace_eq c
  rwa [hskip, Space.none, List.length_nil, advance_zero] at hspace

/-- The tag of an operator is read where it stands. -/
theorem operatorTag_of_holds {info : OperatorInfo} {c : Cursor}
    (hknown : OperatorInfo.ofTag? info.tag = some info) (h : c.Holds [info.tag]) :
    Session.operatorTag c = .ok (info, c.fileOffset) (c.advance 1) := by
  have hspace := Reader.skipWhiteSpace_of_holds h (operator_tag_apart hknown).1
  have hpeek : Reader.peek c = .ok info.tag c := Reader.peek_eq_ok_iff.2 ⟨h, rfl⟩
  have hbyte : Reader.byte c = .ok info.tag (c.advance 1) := Reader.byte_eq_ok_iff.2 ⟨h, rfl⟩
  unfold Session.operatorTag
  rw [Reader.bind_of_ok hspace, Reader.fileOffset_bind, Reader.bind_of_ok hpeek, hknown]
  dsimp only
  rw [Reader.bind_of_ok hbyte]
  rfl

/-- Where the tag of an operator is read, it stands behind white space. -/
theorem exists_of_operatorTag {entry : OperatorInfo × Nat} {c c' : Cursor}
    (h : Session.operatorTag c = .ok entry c') : ∃ s : Space,
      OperatorInfo.ofTag? entry.1.tag = some entry.1 ∧ c.Holds (s.bytes ++ [entry.1.tag]) ∧
      c' = c.advance (s.bytes.length + 1) := by
  unfold Session.operatorTag at h
  rw [Reader.bind_of_ok (Reader.skipWhiteSpace_eq c), Reader.fileOffset_bind] at h
  obtain ⟨tag, d, hpeek, h⟩ := Reader.bind_eq_ok_iff.1 h
  obtain ⟨htag, rfl⟩ := Reader.peek_eq_ok_iff.1 hpeek
  obtain ⟨s, hholds, -, hskip⟩ := exists_space_of_holds htag
  cases hinfo : OperatorInfo.ofTag? tag with
  | none =>
    rw [hinfo] at h
    exact absurd h Reader.fail_ne_ok
  | some i =>
    rw [hinfo] at h
    obtain ⟨b, d, hbyte, h⟩ := Reader.bind_eq_ok_iff.1 h
    obtain ⟨-, rfl⟩ := Reader.byte_eq_ok_iff.1 hbyte
    obtain ⟨hpair, rfl⟩ := Reader.pure_eq_ok_iff.1 h
    cases hpair
    have htag := OperatorInfo.tag_of_ofTag? hinfo
    rw [htag, hskip, advance_advance]
    exact ⟨s, hinfo, hholds, rfl⟩

/-- The length of a data block is read where it is written, or known from an attribute. -/
theorem payloadLength_eq_ok_iff {source : PayloadSource} {declared : Option UInt32} {name : String}
    {tagOffset n : Nat} {c c' : Cursor} :
    Reader.payloadLength source declared name tagOffset c = .ok n c' ↔
      source.Allows declared n ∧ c.Holds (source.lengthField c.order n) ∧
      c' = c.advance source.lengthWidth := by
  cases source with
  | inlineUInt32 => exact Reader.word_eq_ok_iff
  | inlineUByte => exact Reader.word_eq_ok_iff
  | vendorLength =>
    rw [PayloadSource.lengthField_vendorLength]
    cases declared with
    | none =>
      constructor
      · intro h
        exact absurd h Reader.fail_ne_ok
      · intro h
        cases h.1
    | some length =>
      constructor
      · intro h
        obtain ⟨hn, hc⟩ := Reader.pure_eq_ok_iff.1 h
        exact ⟨congrArg some hn, c.holds_nil, by rw [← hc]; exact (advance_zero c).symm⟩
      · intro h
        obtain ⟨hn, -, hc⟩ := h
        refine Reader.pure_eq_ok_iff.2 ⟨Option.some.inj hn, ?_⟩
        rw [hc]
        exact (advance_zero c).symm

/-- Padding is made of zero bytes. -/
theorem isPadding_iff {b : UInt8} : Reader.isPadding b = true ↔ b = 0 := by
  simp [Reader.isPadding]

/-- All padding at a cursor is skipped and counted. -/
theorem skipPadding_eq_ok_iff {n : Nat} {c c' : Cursor} :
    Reader.skipPadding c = .ok n c' ↔ List.replicate n 0 <+: c.rest ∧
      (c.rest.drop n).head? ≠ some 0 ∧ c' = c.advance n := by
  have hskip : Reader.skipPadding c = .ok (c.rest.takeWhile Reader.isPadding).length
      (c.advance (c.rest.takeWhile Reader.isPadding).length) := rfl
  rw [hskip]
  constructor
  · intro h
    cases h
    have hall := List.all_eq_true.1 (List.all_takeWhile (p := Reader.isPadding) (l := c.rest))
    have hzeros := List.eq_replicate_of_mem fun b hb => isPadding_iff.1 (hall b hb)
    refine ⟨?_, fun hhead => ?_, rfl⟩
    · rw [← hzeros]
      exact List.takeWhile_prefix _
    · exact absurd (not_of_head?_takeWhile 0 hhead) (by decide)
  · intro h
    obtain ⟨hpre, hhead, hc⟩ := h
    have htake : c.rest.takeWhile Reader.isPadding = List.replicate n 0 := by
      refine takeWhile_eq hpre (fun b hb => isPadding_iff.2 (List.eq_of_mem_replicate hb)) ?_
      intro b hb
      rw [List.length_replicate] at hb
      have hne : b ≠ 0 := fun hzero => hhead (by rw [← hzero]; exact hb)
      simpa [Reader.isPadding] using hne
    rw [htake, List.length_replicate, hc]

/-- A data block stands at a cursor: no job-end marker starts in front of its body, and all padding
behind the body belongs to it. -/
structure Cursor.HoldsBlock (c : Cursor) (b : WrittenBlock) : Prop where
  /-- The length stands in front. -/
  field : c.Holds (b.source.lengthField c.order b.body.length)
  /-- The body follows. -/
  body : b.body <+: c.rest.drop b.source.lengthWidth
  /-- The padding follows. -/
  padding : List.replicate b.padding 0 <+: c.rest.drop (b.source.lengthWidth + b.body.length)
  /-- No more padding follows. -/
  ended : (c.rest.drop (b.source.lengthWidth + b.body.length + b.padding)).head? ≠ some 0

/-- A data block is read exactly where one is written. -/
theorem payload_eq_ok_iff {source : PayloadSource} {declared : Option UInt32} {name : String}
    {tagOffset : Nat} {p : Payload} {c c' : Cursor} :
    Reader.payload source declared name tagOffset c = .ok p c' ↔ ∃ b : WrittenBlock,
      b.source = source ∧ source.Allows declared b.body.length ∧ c.HoldsBlock b ∧
      p = ⟨b.source, b.body, c.fileOffset + b.source.lengthWidth, b.padding⟩ ∧
      c' = c.advance (b.source.lengthWidth + b.body.length + b.padding) := by
  unfold Reader.payload
  constructor
  · intro h
    obtain ⟨n, d, hlength, h⟩ := Reader.bind_eq_ok_iff.1 h
    obtain ⟨hallows, hfield, rfl⟩ := payloadLength_eq_ok_iff.1 hlength
    have hoffset := hfield.fileOffset
    rw [PayloadSource.length_lengthField] at hoffset
    obtain ⟨offset, d, hplace, h⟩ := Reader.bind_eq_ok_iff.1 h
    obtain ⟨rfl, rfl⟩ := Reader.fileOffset_eq_ok_iff.1 hplace
    obtain ⟨body, d, hbody, h⟩ := Reader.bind_eq_ok_iff.1 h
    obtain ⟨rfl, hpre, rfl⟩ := Reader.takeRaw_eq_ok_iff.1 hbody
    obtain ⟨n, d, hskip, h⟩ := Reader.bind_eq_ok_iff.1 h
    obtain ⟨hpadding, hended, rfl⟩ := skipPadding_eq_ok_iff.1 hskip
    obtain ⟨rfl, rfl⟩ := Reader.pure_eq_ok_iff.1 h
    simp only [rest_advance, List.drop_drop] at hpre hpadding hended
    rw [advance_advance, advance_advance, hoffset, ← Nat.add_assoc]
    exact ⟨⟨source, body, n⟩, rfl, hallows, ⟨hfield, hpre, hpadding, hended⟩, rfl, rfl⟩
  · intro h
    obtain ⟨b, rfl, hallows, hblock, rfl, rfl⟩ := h
    have hoffset := hblock.field.fileOffset
    rw [PayloadSource.length_lengthField] at hoffset
    have hlength : Reader.payloadLength b.source declared name tagOffset c =
        .ok b.body.length (c.advance b.source.lengthWidth) :=
      payloadLength_eq_ok_iff.2 ⟨hallows, hblock.field, rfl⟩
    have hplace : Reader.fileOffset (c.advance b.source.lengthWidth) =
        .ok (c.fileOffset + b.source.lengthWidth) (c.advance b.source.lengthWidth) :=
      Reader.fileOffset_eq_ok_iff.2 ⟨hoffset.symm, rfl⟩
    have hbody : Reader.takeRaw b.body.length (c.advance b.source.lengthWidth) =
        .ok b.body (c.advance (b.source.lengthWidth + b.body.length)) :=
      Reader.takeRaw_eq_ok_iff.2 ⟨rfl, hblock.body, (advance_advance _ _ _).symm⟩
    have hskip : Reader.skipPadding (c.advance (b.source.lengthWidth + b.body.length)) =
        .ok b.padding (c.advance (b.source.lengthWidth + b.body.length + b.padding)) := by
      refine skipPadding_eq_ok_iff.2 ⟨hblock.padding, ?_, (advance_advance _ _ _).symm⟩
      rw [rest_advance, List.drop_drop]
      exact hblock.ended
    rw [Reader.bind_of_ok hlength, Reader.bind_of_ok hplace, Reader.bind_of_ok hbody,
      Reader.bind_of_ok hskip]
    rfl

/-- A written operator stands at a cursor: no job-end marker starts in front of the body of its data
block, and all padding behind the body belongs to it. -/
structure Cursor.HoldsSequence (c : Cursor) (q : Sequence) : Prop where
  /-- All up to the body of the data block stands at the cursor. -/
  head : c.Holds (q.head c.order)
  /-- The body and its padding follow. -/
  body : q.body <+: c.rest.drop (q.head c.order).length
  /-- No more padding follows. -/
  ended : q.block.isSome → (c.rest.drop (q.bytes c.order).length).head? ≠ some 0

/-- Where a sequence stands, its stem stands first. -/
theorem Cursor.HoldsSequence.stem {c : Cursor} {q : Sequence} (h : c.HoldsSequence q) :
    c.Holds (q.stem c.order) := by
  have hhead := h.head
  rw [Sequence.head] at hhead
  exact (holds_append.1 hhead).1

/-- The bytes of an operator at a cursor are the next ones. -/
theorem Cursor.HoldsSequence.stands {c : Cursor} {q : Sequence} (h : c.HoldsSequence q) :
    q.bytes c.order <+: c.rest :=
  append_prefix_iff.2 ⟨h.head.1, h.body⟩

/-- An operator stands where its bytes do, in front of no more padding. -/
theorem Cursor.holdsSequence_of_rest {c : Cursor} {q : Sequence} {tail : List UInt8}
    (hrest : c.rest = q.bytes c.order ++ tail) (hclear : c.Clear (q.head c.order).length)
    (hended : q.block.isSome → tail.head? ≠ some 0) : c.HoldsSequence q := by
  have hsplit : c.rest = q.head c.order ++ (q.body ++ tail) := by
    rw [hrest, Sequence.bytes, List.append_assoc]
  refine ⟨⟨?_, hclear⟩, ?_, ?_⟩
  · rw [hsplit]
    exact List.prefix_append _ _
  · rw [hsplit, List.drop_left]
    exact List.prefix_append _ _
  · rw [hrest, List.drop_left]
    exact hended

/-- An operator without a data block stands where all up to its tag does. -/
theorem Cursor.holdsSequence_iff_of_none {c : Cursor} {q : Sequence} (hb : q.block = none) :
    c.HoldsSequence q ↔ c.Holds (q.stem c.order) := by
  have hhead : q.head c.order = q.stem c.order := by
    rw [Sequence.head, Sequence.lengthField, hb, List.append_nil]
  constructor
  · intro h
    exact h.stem
  · intro h
    refine ⟨by rwa [hhead], ?_, ?_⟩
    · rw [Sequence.body, hb]
      exact List.nil_prefix
    · intro hsome
      rw [hb] at hsome
      cases hsome

/-- An operator with a data block stands where all up to its tag does and the data block behind. -/
theorem Cursor.holdsSequence_iff_of_some {c : Cursor} {q : Sequence} {b : WrittenBlock}
    (hb : q.block = some b) : c.HoldsSequence q ↔
      c.Holds (q.stem c.order) ∧ (c.advance (q.stem c.order).length).HoldsBlock b := by
  have hhead := Sequence.head_of_some c.order hb
  have hbody := Sequence.body_of_some hb
  have hwidth := Sequence.length_head_of_some c.order hb
  have hlength := Sequence.length_bytes_of_some c.order hb
  constructor
  · intro h
    have hholds := h.head
    have hblock := h.body
    have hended := h.ended (by rw [hb]; rfl)
    rw [hhead] at hholds
    rw [hwidth, hbody, append_prefix_iff, List.drop_drop] at hblock
    rw [hlength] at hended
    obtain ⟨hstem, hfield⟩ := holds_append.1 hholds
    refine ⟨hstem, hfield, ?_, ?_, ?_⟩
    · rw [rest_advance, List.drop_drop]
      exact hblock.1
    · rw [rest_advance, List.drop_drop, ← Nat.add_assoc]
      exact hblock.2
    · rw [rest_advance, List.drop_drop]
      exact hended
  · intro h
    obtain ⟨hstem, hblock⟩ := h
    have hbytes := hblock.body
    have hpadding := hblock.padding
    have hended := hblock.ended
    rw [rest_advance, List.drop_drop] at hbytes hpadding hended
    refine ⟨?_, ?_, fun _ => ?_⟩
    · rw [hhead]
      exact holds_append.2 ⟨hstem, hblock.field⟩
    · rw [hwidth, hbody, append_prefix_iff, List.drop_drop, Nat.add_assoc]
      exact ⟨hbytes, hpadding⟩
    · rwa [hlength]

/-- The part of a written operator behind its white space starts with a byte that is none. -/
theorem Heading.exists_first (order : ByteOrder) (g : Heading) : ∃ b bs,
    g.listBytes order ++ [g.info.tag] = b :: bs ∧ Reader.isWhiteSpace b = false := by
  cases has : g.attributes with
  | nil =>
    have hblank := (operator_tag_apart g.known).1
    refine ⟨g.info.tag, [], ?_, hblank⟩
    rw [listBytes, has]
    rfl
  | cons a as =>
    have hblank := isWhiteSpace_dataTypeTag a.operand.dataType
    rw [listBytes, has, WrittenAttribute.listBytes, List.flatMap_cons, WrittenAttribute.bytes,
      WrittenAttribute.stem]
    exact ⟨_, _, rfl, hblank⟩

/-- The attributes of a written operator are read behind its white space. -/
theorem AttributeList.read_of_stem {c : Cursor} {g : Heading} (h : c.Holds (g.stem c.order)) :
    c.skipWhile Reader.isWhiteSpace = c.advance g.space.bytes.length ∧
    read (c.skipWhile Reader.isWhiteSpace) =
      ⟨WrittenAttribute.listTokens c.order (c.fileOffset + g.space.bytes.length) g.attributes, none,
        c.advance (g.space.bytes.length + (g.listBytes c.order).length)⟩ := by
  obtain ⟨hspace, hrest⟩ := holds_append.1 h
  obtain ⟨hblank, htype, -⟩ := operator_tag_apart g.known
  obtain ⟨b, bs, hfirst, hb⟩ := g.exists_first c.order
  have hskip : c.skipWhile Reader.isWhiteSpace = c.advance g.space.bytes.length := by
    rw [Heading.stem, hfirst] at h
    exact skipWhile_of_holds h hb
  have hread := read_of_holds (s := Space.none) hrest hblank htype
  have hzero : Space.none.bytes.length = 0 := rfl
  rw [hspace.fileOffset, hzero, Nat.add_zero, Nat.zero_add, advance_advance, order_advance] at hread
  refine ⟨hskip, ?_⟩
  rw [hskip, hread]
  rfl

/-- Where an attribute list and a tag are read behind white space, they are written there. -/
theorem exists_stem_of_reads {c c₁ c₂ : Cursor} {as : List Attribute} {entry : OperatorInfo × Nat}
    (hread : AttributeList.read (c.skipWhile Reader.isWhiteSpace) = ⟨as, none, c₁⟩)
    (htag : Session.operatorTag c₁ = .ok entry c₂) : ∃ g : Heading, c.Holds (g.stem c.order) := by
  obtain ⟨space, hspace, hskip, hfirst⟩ := c.exists_space
  obtain ⟨s₁, ws, b, hlist, hb, -, -, hend⟩ :=
    AttributeList.exists_written_of_read (c.skipWhile Reader.isWhiteSpace) (by rw [hread])
  obtain ⟨s₂, hknown, hstands, -⟩ := exists_of_operatorTag htag
  rw [hread] at hend
  dsimp only at hend
  rw [hskip] at hlist hend
  have hempty₁ : s₁.bytes = [] := Space.bytes_eq_nil hlist.1 hfirst
  rw [hempty₁, List.nil_append] at hlist
  rw [hempty₁, List.length_nil, Nat.zero_add] at hend
  obtain ⟨hattributes, hnext⟩ := holds_append.1 hlist
  rw [hend] at hstands
  have hempty₂ : s₂.bytes = [] := by
    refine Space.bytes_eq_nil hstands.1 fun d hd => ?_
    rw [hnext.head?] at hd
    rwa [← Option.some.inj hd]
  rw [hempty₂, List.nil_append] at hstands
  exact ⟨⟨space, ws, entry.1, hknown⟩,
    holds_append.2 ⟨hspace, holds_append.2 ⟨hattributes, hstands⟩⟩⟩

/-- The declared length that is left behind a written operator. -/
def Sequence.declaredAfter (q : Sequence) : Option UInt32 :=
  match q.block with
  | none => q.declared?
  | some b => b.source.declaredAfter q.declared?

namespace Session

/-- How many saved graphics states and counted operators there were. -/
def tally (s : Session) : Tally :=
  ⟨s.level, s.operatorCount⟩

/-- The session in front of the first byte that is not white space. -/
def skipSpace (s : Session) : Session :=
  { s with cursor := s.cursor.skipWhile Reader.isWhiteSpace }

/-- The session behind the tag of an operator that is written at its cursor. -/
def behindTag (s : Session) (g : Heading) : Session :=
  { s with
    cursor := s.cursor.advance (g.stem s.cursor.order).length
    declared := g.declared?
    level := (s.tally.after g.info).level
    operatorCount := (s.tally.after g.info).count }

/-- The session behind an operator that is written at its cursor. -/
def afterSequence (s : Session) (q : Sequence) : Session :=
  { s.behindTag q.toHeading with
    cursor := s.cursor.advance (q.bytes s.cursor.order).length
    declared := q.declaredAfter }

/-- What a step of a session that goes on does. -/
theorem step_of_scanning {s : Session} (hphase : s.phase = .scanning) :
    s.step = match s.skipSpace.pass.interrupt with
      | none => (.sequence s.skipSpace.pass.tokens, s.skipSpace.pass.session)
      | some i => (.ended (.ofInterrupt s.skipSpace.cursor.atEnd i),
        s.skipSpace.pass.session.finish (.ofInterrupt s.skipSpace.cursor.atEnd i)
          s.skipSpace.pass.tokens) := by
  unfold step
  split
  · rename_i ending unfinished hended
    rw [hphase] at hended
    cases hended
  · rfl

/-- Only a session that goes on completes an operator, and nothing interrupts it then. -/
theorem step_eq_sequence_iff {s s' : Session} {ts : List Token} :
    s.step = (.sequence ts, s') ↔ s.phase = .scanning ∧ s.skipSpace.pass.interrupt = none ∧
      s.skipSpace.pass.tokens = ts ∧ s.skipSpace.pass.session = s' := by
  cases hphase : s.phase with
  | ended ending unfinished =>
    unfold step
    rw [hphase]
    simp
  | scanning =>
    rw [step_of_scanning hphase]
    cases hi : s.skipSpace.pass.interrupt with
    | none => simp
    | some i => simp

/-- A data block that stands at the cursor of a session is read. -/
theorem passPayload_of_holdsBlock {s : Session} {info : OperatorInfo} {b : WrittenBlock}
    {tagOffset : Nat} {tokens : List Token} (hsource : info.payload = some b.source)
    (hallows : b.source.Allows s.declared b.body.length) (hblock : s.cursor.HoldsBlock b) :
    passPayload s info tagOffset tokens =
      ⟨tokens ++ [.payload ⟨b.source, b.body, s.cursor.fileOffset + b.source.lengthWidth,
        b.padding⟩], none,
        { s with
          cursor := s.cursor.advance (b.source.lengthWidth + b.body.length + b.padding)
          declared := b.source.declaredAfter s.declared }⟩ := by
  have hread : Reader.payload b.source s.declared info.name tagOffset s.cursor = .ok _ _ :=
    payload_eq_ok_iff.2 ⟨b, rfl, hallows, hblock, rfl, rfl⟩
  unfold passPayload readPayload
  rw [hsource]
  dsimp only
  rw [hread]

/-- Where a data block is read, one stands at the cursor of the session. -/
theorem exists_holdsBlock_of_passPayload {s : Session} {info : OperatorInfo}
    {source : PayloadSource} {tagOffset : Nat} {tokens : List Token}
    (hsource : info.payload = some source)
    (h : (passPayload s info tagOffset tokens).interrupt = none) : ∃ b : WrittenBlock,
      b.source = source ∧ source.Allows s.declared b.body.length ∧ s.cursor.HoldsBlock b := by
  unfold passPayload readPayload at h
  rw [hsource] at h
  dsimp only at h
  cases hread : Reader.payload source s.declared info.name tagOffset s.cursor with
  | error i c =>
    rw [hread] at h
    cases h
  | ok p c =>
    obtain ⟨b, hb, hallows, hblock, -, -⟩ := payload_eq_ok_iff.1 hread
    exact ⟨b, hb, hallows, hblock⟩

/-- The tag of an operator and its data block are read behind the attributes. -/
theorem passOperator_of_holds {s : Session} {info : OperatorInfo} {offset : Nat}
    {tokens : List Token} (hknown : OperatorInfo.ofTag? info.tag = some info)
    (h : s.cursor.Holds [info.tag]) :
    passOperator s offset tokens =
      passPayload (s.afterOperator info (s.cursor.advance 1)) info s.fileOffset
        (tokens ++ [.operator (s.nextOperator info offset s.fileOffset)]) := by
  have htag := operatorTag_of_holds hknown h
  unfold passOperator
  rw [htag]
  rfl

/-- Behind an attribute list that ends by itself, the operator is read. -/
theorem pass_eq {s : Session} {as : List Attribute} {c : Cursor}
    (h : AttributeList.read s.cursor = ⟨as, none, c⟩) :
    s.pass = passOperator
      { s with cursor := c, declared := (as.filterMap Attribute.vendorLength?).getLast? }
      s.fileOffset (as.map .attr) := by
  unfold pass
  rw [h]
  rfl

/-- An attribute list that is interrupted ends the reading. -/
theorem pass_eq_of_interrupt {s : Session} {as : List Attribute} {i : Interrupt} {c : Cursor}
    (h : AttributeList.read s.cursor = ⟨as, some i, c⟩) :
    s.pass = ⟨as.map .attr, some i, s.afterAttributes ⟨as, some i, c⟩⟩ := by
  unfold pass
  rw [h]

/-- Up to its tag an operator that is written at the cursor of a session is read. -/
theorem pass_of_stem {s : Session} {g : Heading} (h : s.cursor.Holds (g.stem s.cursor.order)) :
    s.skipSpace.pass = passPayload (s.behindTag g) g.info
      (s.cursor.fileOffset + g.space.bytes.length + (g.listBytes s.cursor.order).length)
      (g.leadTokens s.cursor.order (s.cursor.fileOffset + g.space.bytes.length) s.tally) := by
  obtain ⟨hskip, hread⟩ := AttributeList.read_of_stem h
  have hlength := g.length_stem s.cursor.order
  have hsplit : s.cursor.Holds ((g.space.bytes ++ g.listBytes s.cursor.order) ++ [g.info.tag]) := by
    rwa [List.append_assoc]
  obtain ⟨hlist, htag⟩ := holds_append.1 hsplit
  have hplace := hlist.fileOffset
  rw [List.length_append] at htag hplace
  have hspace : s.skipSpace.fileOffset = s.cursor.fileOffset + g.space.bytes.length := by
    change (s.cursor.skipWhile Reader.isWhiteSpace).fileOffset = _
    rw [hskip]
    exact (holds_append.1 h).1.fileOffset
  have hdeclared := WrittenAttribute.filterMap_vendorLength?_listTokens s.cursor.order
    (s.cursor.fileOffset + g.space.bytes.length) g.attributes
  have hend : (s.cursor.advance (g.space.bytes.length +
      (g.listBytes s.cursor.order).length)).advance 1 =
        s.cursor.advance (g.stem s.cursor.order).length := by
    rw [advance_advance, hlength]
  rw [pass_eq hread, hspace, hdeclared, passOperator_of_holds g.known htag]
  unfold fileOffset
  dsimp only
  rw [hend, hplace, ← Nat.add_assoc]
  rfl

/-- The operator that is written at the cursor of a session is read to its end. -/
theorem pass_of_holdsSequence {s : Session} {q : Sequence} (h : s.cursor.HoldsSequence q) :
    s.skipSpace.pass =
      ⟨q.tokens s.cursor.order (s.cursor.fileOffset + q.space.bytes.length) s.tally, none,
        s.afterSequence q⟩ := by
  have hstem := h.stem
  rw [pass_of_stem hstem]
  have hpayload := q.source_eq
  cases hb : q.block with
  | none =>
    rw [hb] at hpayload
    have hbytes := Sequence.bytes_of_none s.cursor.order hb
    unfold passPayload
    rw [← hpayload]
    simp only [Option.map_none, afterSequence, Sequence.declaredAfter, Sequence.tokens,
      Sequence.blockTokens, hb, hbytes, List.append_nil]
    rfl
  | some b =>
    rw [hb] at hpayload
    obtain ⟨-, hblock⟩ := (holdsSequence_iff_of_some hb).1 h
    have hallows := q.sized b hb
    have hplace : (s.cursor.advance (q.stem s.cursor.order).length).fileOffset =
        s.cursor.fileOffset + q.space.bytes.length + (q.listBytes s.cursor.order).length + 1 := by
      rw [hstem.fileOffset, q.length_stem s.cursor.order]
      omega
    have hend : (s.cursor.advance (q.stem s.cursor.order).length).advance
        (b.source.lengthWidth + b.body.length + b.padding) =
          s.cursor.advance (q.bytes s.cursor.order).length := by
      rw [advance_advance, Sequence.length_bytes_of_some s.cursor.order hb]
    rw [passPayload_of_holdsBlock hpayload.symm hallows hblock]
    simp only [behindTag, afterSequence, Sequence.declaredAfter, Sequence.tokens,
      Sequence.blockTokens, WrittenBlock.token, hb, hend, hplace]

/-- A step reads the operator that is written at the cursor of its session. -/
theorem step_of_holdsSequence {s : Session} {q : Sequence} (hphase : s.phase = .scanning)
    (h : s.cursor.HoldsSequence q) :
    s.step = (.sequence (q.tokens s.cursor.order (s.fileOffset + q.space.bytes.length) s.tally),
      s.afterSequence q) := by
  rw [step_of_scanning hphase, pass_of_holdsSequence h]
  rfl

/-- Where an operator is read, all up to its tag is written at the cursor of the session. -/
theorem exists_stem_of_pass {s : Session} (h : s.skipSpace.pass.interrupt = none) :
    ∃ g : Heading, s.cursor.Holds (g.stem s.cursor.order) := by
  cases hread : AttributeList.read s.skipSpace.cursor with
  | mk attributes interrupt c =>
    cases interrupt with
    | some i =>
      rw [pass_eq_of_interrupt hread] at h
      cases h
    | none =>
      rw [pass_eq hread] at h
      unfold passOperator at h
      cases htag : operatorTag c with
      | error i c' =>
        dsimp only at h
        rw [htag] at h
        cases h
      | ok entry c' => exact exists_stem_of_reads hread htag

/-- Where a step completes an operator, one is written at the cursor of its session. -/
theorem exists_holdsSequence_of_step {s s' : Session} {ts : List Token}
    (h : s.step = (.sequence ts, s')) : ∃ q : Sequence, s.cursor.HoldsSequence q := by
  obtain ⟨-, hnone, -⟩ := step_eq_sequence_iff.1 h
  obtain ⟨g, hstem⟩ := exists_stem_of_pass hnone
  rw [pass_of_stem hstem] at hnone
  cases hpayload : g.info.payload with
  | none =>
    have hsource : Option.map WrittenBlock.source none = g.info.payload := hpayload.symm
    exact ⟨⟨g, none, hsource, by simp⟩, (holdsSequence_iff_of_none rfl).2 hstem⟩
  | some source =>
    obtain ⟨b, rfl, hallows, hblock⟩ := exists_holdsBlock_of_passPayload hpayload hnone
    have hsized : ∀ d ∈ some b, d.source.Allows g.declared? d.body.length := by
      intro d hd
      rw [← Option.some.inj hd]
      exact hallows
    exact ⟨⟨g, some b, hpayload.symm, hsized⟩, (holdsSequence_iff_of_some rfl).2 ⟨hstem, hblock⟩⟩

end Session

end PclXl
