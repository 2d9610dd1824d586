import PclXl.Proofs.ByteAccounting
import PclXl.Proofs.InterruptedSteps
import PclXl.Proofs.PendingFields

/-!
# The place of a fault

A diagnosis names a place in the file, and what stands there is what it says. The bytes that it shows
lead up to that place, and a session that found an unknown code or lacked bytes has stopped at it.
Where bytes are lacking, the file holds the beginning of an operator up to that place, and as many
bytes are reported missing as the next field of the operator goes beyond the end of the file.
-/

namespace PclXl

open Cursor Vocabulary

/-- A number that no attribute has stands behind its tag. -/
theorem Cursor.failsAt_unknownNumber {c : Cursor} {w : FieldWidth} {n : Nat}
    {P : List UInt8 → Nat → Prop} (htag : c.Holds [w.numberTag])
    (hfits : n < ByteOrder.limit w.size) (hheld : (c.advance 1).Holds (c.order.bytes w.size n))
    (hname : attributeName? (UInt16.ofNat n) = none) :
    c.FailsAt (.unknownCode (c.advance 1).fileOffset (UInt16.ofNat n) .attributeNumber)
      (c.advance 1) P := by
  have hplace : (c.advance 1).fileOffset = c.fileOffset + 1 := htag.fileOffset
  have hlength := hheld.length_le
  rw [ByteOrder.length_bytes, rest_advance, List.length_drop] at hlength
  have hsize : 0 < w.size := by cases w <;> decide
  have hlimit : ByteOrder.limit w.size ≤ 2 ^ 16 := by cases w <;> decide
  have hcode : (UInt16.ofNat n).toNat = n := by
    rw [UInt16.toNat_ofNat']
    omega
  have htake : (c.rest.drop 1).take w.size = c.order.bytes w.size n := by
    have hprefix := List.prefix_iff_eq_take.1 hheld.1
    rw [ByteOrder.length_bytes] at hprefix
    exact hprefix.symm
  refine ⟨[w.numberTag], rfl, htag, ⟨1, Nat.le_refl 1, congrArg some hplace, ?_, w, Nat.one_pos,
    htag.getElem?_zero, by omega, ?_⟩, fun _ => congrArg some hplace, fun offset needed hf => ?_⟩
  · intro entry hentry heq
    have hne := List.lookup_eq_none_iff.1 hname entry hentry
    rw [heq] at hne
    simp at hne
  · rw [htake, hcode, ByteOrder.value_bytes _ hfits]
  · cases hf

/-- The tag of what does not have the data type that it must have stands at the cursor. -/
theorem Cursor.failsAt_typeMismatch {c : Cursor} {t : DataType} {bs : List UInt8}
    {P : List UInt8 → Nat → Prop} (hheld : c.Holds (t.tag :: bs)) (htag : t.tag ≠ 0xC2) :
    c.FailsAt (.typeMismatch c.fileOffset vendorLengthName ElementType.uint32.name t.name)
      (c.advance (t.tag :: bs).length) P := by
  refine ⟨t.tag :: bs, rfl, hheld, ⟨0, Nat.zero_le _, rfl, rfl, rfl, t, ?_, htag, rfl⟩,
    fun hstays => ?_, fun offset needed hf => ?_⟩
  · exact hheld.getElem?_zero
  · cases hstays
  · cases hf

/-- The tag of a single number of type `uint32` stands in front of no other operand. -/
theorem Operand.tag_ne_of_ne_uint32 {o : Operand} (h : ∀ n, o ≠ .scalar (.uint32 n)) :
    o.dataType.tag ≠ 0xC2 := by
  intro htag
  have htype := DataType.ofTag?_tag o.dataType
  have huint32 : DataType.ofTag? 0xC2 = some ⟨.scalar, .uint32⟩ := by decide
  rw [htag, huint32] at htype
  have hsame := Option.some.inj htype
  cases o with
  | scalar x =>
    cases x with
    | uint32 n => exact h n rfl
    | _ => cases hsame
  | _ => cases hsame

namespace Reader

/-- The number of an attribute fails at its tag or behind it. -/
theorem failsFrom_attrNumber {c : Cursor} {P : List UInt8 → Nat → Prop} (htag : P [] 1)
    (hnumber : ∀ w : FieldWidth, P [w.numberTag] w.size) : attrNumber.FailsFrom c P := by
  refine failsFrom_fileOffset_bind (failsFrom_peek_bind htag fun tag hheld => ?_)
  cases hwidth : attributeNumberWidth? tag with
  | none =>
    refine failsFrom_unknownCode ⟨tag, hheld.getElem?_zero, rfl, fun hone => ?_, fun htwo => ?_⟩
    · rw [hone] at hwidth
      exact absurd hwidth (by decide)
    · rw [htwo] at hwidth
      exact absurd hwidth (by decide)
  | some n =>
    obtain ⟨w, rfl, rfl⟩ := attributeNumberWidth?_eq_some_iff.1 hwidth
    have hbyte : byte c = .ok w.numberTag (c.advance 1) := byte_eq_ok_iff.2 ⟨hheld, rfl⟩
    have hget : (get : Reader Cursor) (c.advance 1) = .ok (c.advance 1) (c.advance 1) :=
      get_eq_ok_iff.2 ⟨rfl, rfl⟩
    intro f d h
    dsimp only at h
    rw [bind_of_ok hbyte, bind_of_ok hget] at h
    rcases bind_eq_error_iff.1 h with hshort | ⟨number, c', hread, h⟩
    · have hword : (UInt16.ofNat <$> word w.size).FailsFrom (c.advance 1)
          fun x width => P ([w.numberTag] ++ x) width := by
        rw [map_eq_pure_bind]
        exact (failsFrom_word (hnumber w)).map _
      exact (hword f d hshort).behind hheld fun _ _ hP => hP
    · obtain ⟨m, hm, rfl⟩ := map_eq_ok_iff.1 hread
      obtain ⟨hfits, hholds, rfl⟩ := word_eq_ok_iff.1 hm
      cases hname : attributeName? (UInt16.ofNat m) with
      | some name =>
        rw [hname] at h
        cases h
      | none =>
        rw [hname] at h
        cases h
        exact failsAt_unknownNumber hheld hfits hholds hname

/-- An attribute fails where a part of one comes next, or at its data-type tag. -/
theorem failsFrom_attr {t : DataType} {c : Cursor} (htag : c.Holds [t.tag]) :
    (attr t).FailsFrom c (WrittenAttribute.Awaits c.order) := by
  have hbyte : byte c = .ok t.tag (c.advance 1) := byte_eq_ok_iff.2 ⟨htag, rfl⟩
  intro f d h
  unfold attr at h
  rw [fileOffset_bind, bind_of_ok hbyte] at h
  rcases bind_eq_error_iff.1 h with hvalue | ⟨v, c₁, hvalue, h⟩
  · exact (failsFrom_value t _ f d hvalue).behind htag fun _ _ hawait => .operand t hawait
  · obtain ⟨o, rfl, rfl, hoperand, rfl⟩ := value_eq_ok_iff.1 hvalue
    rw [order_advance] at hoperand h
    obtain ⟨gap, hgap, hskip, -⟩ := ((c.advance 1).advance (o.bytes c.order).length).exists_space
    have hspace := skipWhiteSpace_eq ((c.advance 1).advance (o.bytes c.order).length)
    have hfront : c.Holds (o.dataType.tag :: (o.bytes c.order ++ gap.bytes)) :=
      holds_cons.2 ⟨htag, holds_append.2 ⟨hoperand, hgap⟩⟩
    have hbehind : ((c.advance 1).advance (o.bytes c.order).length).advance gap.bytes.length =
        c.advance (o.dataType.tag :: (o.bytes c.order ++ gap.bytes)).length := by
      rw [advance_advance, advance_advance, List.length_cons, List.length_append]
      congr 1
      omega
    rw [hskip, hbehind] at hspace
    rw [bind_of_ok hspace] at h
    rcases bind_eq_error_iff.1 h with hnumber | ⟨⟨number, name⟩, c₂, hread, h⟩
    · refine FailsAt.behind hfront (failsFrom_attrNumber ?_ (fun w => ?_) f d hnumber)
        fun _ _ hP => hP
      · rw [List.append_nil]
        exact .numberTag o gap
      · rw [List.cons_append, List.append_assoc]
        exact .number o gap w
    · obtain ⟨w, hname, hfits, hstands, rfl⟩ := holds_of_attrNumber hread
      dsimp only at h
      split at h
      · -- The fault names the data-type tag, in front of all that was read.
        rename_i hcheck
        have hother : ∀ n, o ≠ .scalar (.uint32 n) := by
          intro n hn
          have hnone := hcheck.2
          rw [hn] at hnone
          dsimp only [Attribute.vendorLength?, Operand.value] at hnone
          rw [if_pos hcheck.1] at hnone
          cases hnone
        have hvendor : name = vendorLengthName := by
          rw [hcheck.1] at hname
          exact (Option.some.inj hname).symm
        have hwhole : c.Holds (o.dataType.tag :: ((o.bytes c.order ++ gap.bytes) ++
            w.numberTag :: c.order.bytes w.size number.toNat)) :=
          holds_append.2 ⟨hfront, hstands⟩
        have hfails := failsAt_typeMismatch (P := WrittenAttribute.Awaits c.order) hwhole
          (Operand.tag_ne_of_ne_uint32 hother)
        rw [← List.cons_append, List.length_append, ← advance_advance] at hfails
        cases h
        rw [hvendor, Operand.dataType_value]
        exact hfails
      · cases h

/-- The next attribute fails behind white space. -/
theorem failsFrom_attr? (c : Cursor) : attr?.FailsFrom c (AttributeList.Awaits c.order) := by
  refine failsFrom_skipWhiteSpace_bind fun s => failsFrom_peek_bind ?_ fun b hb => ?_
  · exact .tag s []
  · cases htag : DataType.ofTag? b with
    | none => exact failsFrom_pure none
    | some t =>
      rw [DataType.ofTag?_eq_some_iff.1 htag] at hb
      have hattr := (failsFrom_attr hb).mono fun x width hawait =>
        (.part s [] hawait : AttributeList.Awaits c.order (s.bytes ++ x) width)
      exact hattr.map some

end Reader

/-- An attribute list fails where a part of a further attribute comes next, or the tag of the
operator. -/
theorem AttributeList.failsAt_of_read {c : Cursor} {f : Fault}
    (h : (read c).interrupt = some (.fault f)) : c.FailsAt f (read c).cursor (Awaits c.order) := by
  fun_induction read c with
  | case1 c i c' found =>
    cases h
    exact Reader.failsFrom_attr? c f c' found
  | case2 c c' found => cases h
  | case3 c a c' found list ih =>
    rcases Reader.exists_of_attr? found with ⟨s, w, -, hheld, rfl⟩ | ⟨s, b, hnone, -⟩
    · refine FailsAt.behind hheld ?_ fun _ _ hawait =>
        AttributeList.Awaits.behindAttribute s w hawait
      rw [List.length_append]
      exact ih h
    · cases hnone

/-- No operator of the table has a tag that is not found. -/
theorem OperatorInfo.tag_ne_of_ofTag? {tag : UInt8} (h : ofTag? tag = none) :
    ∀ info ∈ operators, info.tag ≠ tag := by
  intro info hinfo heq
  have hnot := List.find?_eq_none.1 h info hinfo
  simp [heq] at hnot

/-- Only one operator has a data block whose length an attribute declares. -/
theorem OperatorInfo.eq_of_vendorLength {info : OperatorInfo} (h : info ∈ operators)
    (hsource : info.payload = some .vendorLength) :
    info.tag = 0x46 ∧ info.name = "VendorUnique" := by
  have hall : ∀ i ∈ operators, i.payload = some .vendorLength →
      i.tag = 0x46 ∧ i.name = "VendorUnique" := by decide
  exact hall info h hsource

/-- In front of a byte that is not white space, the tag of an operator fails only where the byte is
none, and never for want of bytes. -/
theorem Session.failsFrom_operatorTag {c : Cursor} {b : UInt8} (hb : c.Holds [b])
    (hblank : Reader.isWhiteSpace b = false) : operatorTag.FailsFrom c fun _ _ => False := by
  have hspace := Reader.skipWhiteSpace_of_holds hb hblank
  have hpeek : Reader.peek c = .ok b c := Reader.peek_eq_ok_iff.2 ⟨hb, rfl⟩
  have hbyte : Reader.byte c = .ok b (c.advance 1) := Reader.byte_eq_ok_iff.2 ⟨hb, rfl⟩
  intro f d h
  unfold operatorTag at h
  rw [Reader.bind_of_ok hspace, Reader.fileOffset_bind, Reader.bind_of_ok hpeek] at h
  cases hinfo : OperatorInfo.ofTag? b with
  | none =>
    rw [hinfo] at h
    cases h
    exact failsAt_unknownCode ⟨b, hb.getElem?_zero, rfl, OperatorInfo.tag_ne_of_ofTag? hinfo⟩
  | some info =>
    rw [hinfo] at h
    dsimp only at h
    rw [Reader.bind_of_ok hbyte] at h
    cases h

/-- The length of a data block is not declared, or its bytes run out. -/
theorem Reader.failsFrom_payloadLength {source : PayloadSource} {declared : Option UInt32}
    {name : String} {tagOffset : Nat} {c d : Cursor} {f : Fault} {P : List UInt8 → Nat → Prop}
    (hP : P [] source.lengthWidth)
    (h : payloadLength source declared name tagOffset c = .error (.fault f) d) :
    (source = .vendorLength ∧ f = .missingAttribute tagOffset name vendorLengthName ∧ d = c) ∨
      c.FailsAt f d P := by
  cases source with
  | inlineUInt32 => exact .inr (failsFrom_word hP f d h)
  | inlineUByte => exact .inr (failsFrom_word hP f d h)
  | vendorLength =>
    cases declared with
    | some length => cases h
    | none =>
      cases h
      exact .inl ⟨rfl, rfl, rfl⟩

/-- The body of a data block lacks bytes behind its length. -/
theorem Reader.failsFrom_payload {source : PayloadSource} {declared : Option UInt32}
    {name : String} {tagOffset : Nat} {c d : Cursor} {f : Fault} {P : List UInt8 → Nat → Prop}
    (hlength : P [] source.lengthWidth)
    (hbody : ∀ n, source.Allows declared n → P (source.lengthField c.order n) n)
    (h : payload source declared name tagOffset c = .error (.fault f) d) :
    (source = .vendorLength ∧ f = .missingAttribute tagOffset name vendorLengthName ∧ d = c) ∨
      c.FailsAt f d P := by
  rcases bind_eq_error_iff.1 h with hshort | ⟨n, c', hn, h⟩
  · exact failsFrom_payloadLength hlength hshort
  · obtain ⟨hallows, hfield, hc'⟩ := payloadLength_eq_ok_iff.1 hn
    rw [fileOffset_bind] at h
    rcases bind_eq_error_iff.1 h with hshort | ⟨bytes, d', -, h⟩
    · have hraw : (takeRaw n).FailsFrom c' fun x width =>
          P (source.lengthField c.order n ++ x) width :=
        failsFrom_takeRaw (by
          rw [List.append_nil]
          exact hbody n hallows)
      have hfails := hraw f d hshort
      rw [hc', ← PayloadSource.length_lengthField c.order source n] at hfails
      exact .inr (hfails.behind hfield fun _ _ hP => hP)
    · cases h

/-- The tag of an operator whose data block has no length stands at the end of its heading. -/
theorem Heading.failsAt_missingAttribute {c : Cursor} {g : Heading} {P : List UInt8 → Nat → Prop}
    (hstem : c.Holds (g.stem c.order)) (hsource : g.info.payload = some .vendorLength) :
    c.FailsAt (.missingAttribute
      (c.fileOffset + g.space.bytes.length + (g.listBytes c.order).length) g.info.name
        vendorLengthName) (c.advance (g.stem c.order).length) P := by
  obtain ⟨htag, hname⟩ := OperatorInfo.eq_of_vendorLength (List.mem_of_find?_eq_some g.known) hsource
  have hlength := g.length_stem c.order
  have hsplit : c.Holds ((g.space.bytes ++ g.listBytes c.order) ++ [g.info.tag]) := by
    rw [List.append_assoc]
    exact hstem
  have hstands := (holds_append.1 hsplit).2.getElem?_zero
  rw [rest_advance, List.getElem?_drop, List.length_append, htag] at hstands
  refine ⟨g.stem c.order, rfl, hstem, ⟨g.space.bytes.length + (g.listBytes c.order).length,
    by omega, ?_, hname, rfl, hstands⟩, fun hstays => ?_, fun offset needed hf => ?_⟩
  · rw [← Nat.add_assoc]
    rfl
  · cases hstays
  · cases hf

namespace Session

/-- Behind the tag of an operator a session fails in its data block. -/
theorem failsAt_of_passPayload {s : Session} {g : Heading} {f : Fault} {tagOffset : Nat}
    {ts : List Token} (hstem : s.cursor.Holds (g.stem s.cursor.order))
    (htag : tagOffset =
      s.cursor.fileOffset + g.space.bytes.length + (g.listBytes s.cursor.order).length)
    (h : (passPayload (s.behindTag g) g.info tagOffset ts).interrupt = some (.fault f)) :
    s.cursor.FailsAt f (passPayload (s.behindTag g) g.info tagOffset ts).session.cursor
      (Sequence.Awaits s.cursor.order) := by
  unfold passPayload readPayload at h ⊢
  cases hsource : g.info.payload with
  | none =>
    rw [hsource] at h
    cases h
  | some source =>
    rw [hsource] at h
    dsimp only at h ⊢
    cases hread : Reader.payload source (s.behindTag g).declared g.info.name tagOffset
        (s.behindTag g).cursor with
    | ok p c =>
      rw [hread] at h
      cases h
    | error i c =>
      rw [hread] at h
      cases h
      have hlength : Sequence.Awaits s.cursor.order (g.stem s.cursor.order ++ [])
          source.lengthWidth := by
        rw [List.append_nil]
        exact .length g source hsource
      have hpayload := Reader.failsFrom_payload (c := (s.behindTag g).cursor) (P := fun x width =>
        Sequence.Awaits s.cursor.order (g.stem s.cursor.order ++ x) width) hlength
        (fun n hallows => .body g source n hsource hallows) hread
      rcases hpayload with ⟨hvendor, hf, hc⟩ | hfails
      · -- The fault names the tag of the operator, which lies in front of the data block.
        rw [hvendor] at hsource
        rw [hf, hc, htag]
        exact Heading.failsAt_missingAttribute hstem hsource
      · exact hfails.behind hstem fun _ _ hP => hP

/-- A session fails at a place of the operator that it reads. Where its attribute list ended in
front of a byte that is not white space, only that byte itself can be wrong. -/
theorem failsAt_of_pass {s : Session} {f : Fault}
    (h : s.skipSpace.pass.interrupt = some (.fault f)) :
    s.cursor.FailsAt f s.skipSpace.pass.session.cursor (Sequence.Awaits s.cursor.order) := by
  obtain ⟨space, hspace, hskip, -⟩ := s.cursor.exists_space
  have hlist : ∀ d, (s.cursor.skipWhile Reader.isWhiteSpace).FailsAt f d
      (AttributeList.Awaits s.cursor.order) →
      s.cursor.FailsAt f d (Sequence.Awaits s.cursor.order) := by
    intro d hfails
    rw [hskip] at hfails
    exact hfails.behind hspace fun _ _ hawait => .list (hawait.behindSpace space)
  cases hread : AttributeList.read s.skipSpace.cursor with
  | mk as interrupt c₁ =>
    cases interrupt with
    | some i =>
      rw [pass_eq_of_interrupt hread] at h ⊢
      cases h
      have hfails := AttributeList.failsAt_of_read (c := s.skipSpace.cursor) (by rw [hread])
      rw [hread] at hfails
      exact hlist c₁ hfails
    | none =>
      cases htag : operatorTag c₁ with
      | error i c₂ =>
        rw [pass_eq hread] at h ⊢
        unfold passOperator at h ⊢
        dsimp only at h ⊢
        rw [htag] at h ⊢
        cases h
        obtain ⟨gap, ws, b, hheld, hblank, -, -, hcursor⟩ :=
          AttributeList.exists_written_of_read s.skipSpace.cursor (by rw [hread])
        rw [← List.append_assoc] at hheld
        obtain ⟨hfront, hb⟩ := holds_append.1 hheld
        rw [hread, ← List.length_append] at hcursor
        dsimp only at hcursor
        rw [hcursor] at htag
        have hfails := failsFrom_operatorTag hb hblank _ _ htag
        exact hlist c₂ (hfails.behind hfront fun _ _ hP => hP.elim)
      | ok entry c₂ =>
        obtain ⟨g, hstem⟩ := exists_stem_of_reads hread htag
        rw [pass_of_stem hstem] at h ⊢
        exact failsAt_of_passPayload hstem rfl h

/-- A run ends with a fault only if it was interrupted by that fault. -/
theorem fault_of_ofInterrupt {atBoundary : Bool} {i : Interrupt} {f : Fault}
    (h : (Ending.ofInterrupt atBoundary i).fault? = some f) : i = .fault f := by
  unfold Ending.ofInterrupt at h
  split at h
  · cases h
  · cases h
    rfl
  · cases h
    rfl

/-- A step that fails leaves its session where it failed. -/
theorem failsAt_of_step {s s' : Session} {e : Ending} {f : Fault} (hphase : s.phase = .scanning)
    (h : s.step = (.ended e, s')) (hfault : e.fault? = some f) :
    s.cursor.FailsAt f s'.cursor (Sequence.Awaits s.cursor.order) := by
  obtain ⟨i, hi, he, hs'⟩ := exists_interrupt_of_step hphase h
  have hkept : s'.cursor = s.skipSpace.pass.session.cursor := by
    rw [hs']
    cases e with
    | jobEnd offset => cases hfault
    | exhausted offset needed atBoundary => rfl
    | failed fault => rfl
  rw [he] at hfault
  rw [fault_of_ofInterrupt hfault] at hi
  rw [hkept]
  exact failsAt_of_pass hi

end Session

/-- A diagnosis shows the bytes of a file up to and including a place, at most 25 of them and none
in front of `first`. -/
structure Diagnosis.Shows (g : Diagnosis) (data : List UInt8) (first place : Nat) : Prop where
  /-- The file offset of the first byte that is shown. -/
  contextOffset_eq : g.contextOffset = max first (min (place + 1) data.length - 25)
  /-- The bytes from there on. -/
  context_eq : g.context = (data.take (min (place + 1) data.length)).drop g.contextOffset

/-- A fault for which a file does not open. -/
structure Fault.InHeader (f : Fault) (data : List UInt8) (place : Nat) : Prop where
  /-- What stands at the place is what the fault says, in either order. -/
  shown : ∀ order, f.ShownIn order data place
  /-- Where a byte is lacking, it is the line feed that should end the header line. -/
  lacks : ∀ offset needed, f = .endOfStream offset needed → place = data.length ∧ needed = 1 ∧
    ∃ n, Header.locate data = .ok n ∧ (0x0A : UInt8) ∉ data.drop (n + 1)

/-- A fault that ends the session on a file. -/
structure Fault.InRun (f : Fault) (s : Session) (data : List UInt8) (place : Nat) : Prop where
  /-- What stands at the place is what the fault says. -/
  shown : f.ShownIn s.header.order data place
  /-- An unknown code and the end of the bytes lie where the session has stopped. -/
  stays : f.stays = true → s.run.session.fileOffset = place
  /-- Where bytes are lacking, the step that ends the session finds the beginning of an operator, up
  to the place. Its next field goes beyond the end of the file by as many bytes as are needed. -/
  lacks : ∀ offset needed, f = .endOfStream offset needed → ∃ k atBoundary front width,
    (s.after k).phase = .scanning ∧
    (s.after k).step.1 = .ended (.exhausted offset needed atBoundary) ∧
    StandsAt data (s.after k).fileOffset front ∧
    (s.after k).fileOffset + front.length = place ∧
    Sequence.Awaits s.header.order front width ∧ width = data.length - place + needed

/-- A fault in a part of a file is shown with the bytes of that part. -/
theorem Diagnosis.shows_ofFault {f : Fault} {tokens : List Token} {data : List UInt8}
    {base place : Nat} (hplace : f.offset? = some place) (hbase : base ≤ place)
    (hle : place ≤ data.length) : (ofFault f tokens (data.drop base) base).Shows data base place := by
  have hstop : min (place - base + 1) (data.drop base).length =
      min (place + 1) data.length - base := by
    rw [List.length_drop]
    omega
  have hwindow : contextWindow (data.drop base) (place - base) =
      (min (place + 1) data.length - base - 25,
        ((data.drop base).drop (min (place + 1) data.length - base - 25)).take
          (min (place + 1) data.length - base - (min (place + 1) data.length - base - 25))) := by
    unfold contextWindow
    rw [hstop]
    rfl
  have hfirst : base + (min (place + 1) data.length - base - 25) =
      max base (min (place + 1) data.length - 25) := by
    omega
  have hlength : min (place + 1) data.length - base - (min (place + 1) data.length - base - 25) =
      min (place + 1) data.length - max base (min (place + 1) data.length - 25) := by
    omega
  unfold ofFault
  rw [hplace]
  dsimp only
  rw [hwindow]
  refine ⟨hfirst, ?_⟩
  dsimp only
  rw [List.drop_drop, hfirst, hlength, List.drop_take]

namespace Header

/-- A file that starts with the name of the language has a space where a mark should stand. -/
theorem inHeader_of_locate {data : List UInt8} {f : Fault} {place : Nat}
    (h : locate data = .error f) (hplace : f.offset? = some place) :
    place ≤ data.length ∧ f.InHeader data place := by
  unfold locate at h
  cases hsearch : Bytes.firstWithin? languageMarker data.length data with
  | none =>
    rw [hsearch] at h
    cases h
    cases hplace
  | some i =>
    rw [hsearch] at h
    cases i with
    | succ n => cases h
    | zero =>
      obtain ⟨-, -, ⟨tail, htail⟩, -⟩ := Bytes.firstWithin?_eq_some_iff.1 hsearch
      rw [List.drop_zero] at htail
      cases h
      cases hplace
      refine ⟨Nat.zero_le _, fun order => ⟨?_, by decide⟩, fun offset needed hf => ?_⟩
      · rw [← htail]
        rfl
      · cases hf

/-- Where the header of a stream is at fault, its mark is none or its line feed is lacking. -/
theorem inHeader_of_read {data : List UInt8} {n : Nat} {f : Fault} {place : Nat}
    (hlocate : locate data = .ok n) (h : read (data.drop n) n = .error f)
    (hplace : f.offset? = some place) : place ≤ data.length ∧ f.InHeader data place := by
  have hlength := (locate_eq_ok_iff.1 hlocate).1.length_le
  have hmarker : languageMarker.length = 11 := rfl
  rw [List.length_drop, hmarker] at hlength
  have hfirst : data.drop n = data[n] :: data.drop (n + 1) := List.drop_eq_getElem_cons (by omega)
  rw [hfirst] at h
  unfold read at h
  dsimp only at h
  cases hmark : ByteOrder.ofMark? data[n] with
  | none =>
    rw [hmark] at h
    cases h
    cases hplace
    refine ⟨by omega, fun order => ⟨List.getElem?_eq_getElem (by omega), hmark⟩,
      fun offset needed hf => ?_⟩
    cases hf
  | some order =>
    rw [hmark] at h
    dsimp only at h
    split at h
    · rename_i hall
      have hsame := (List.takeWhile_prefix (l := data.drop (n + 1)) (· != 0x0A)).eq_of_length hall
      have hline : (0x0A : UInt8) ∉ data.drop (n + 1) := by
        intro hmem
        rw [← hsame] at hmem
        exact absurd (List.all_eq_true.1 List.all_takeWhile _ hmem) (by decide)
      have hend : n + (data[n] :: data.drop (n + 1)).length = data.length := by
        rw [List.length_cons, List.length_drop]
        omega
      rw [hend] at h
      cases h
      cases hplace
      refine ⟨Nat.le_refl _, fun order => ⟨Nat.le_refl _, Nat.le_refl 1⟩, fun offset needed hf => ?_⟩
      cases hf
      exact ⟨rfl, rfl, n, hlocate, hline⟩
    · split at h
      · cases h
        cases hplace
      · cases h

end Header

namespace Session

/-- Where a file does not open, its header is at fault. -/
theorem inHeader_of_openFile {data : List UInt8} {f : Fault} {place : Nat}
    (h : openFile data = .error f) (hplace : f.offset? = some place) :
    place ≤ data.length ∧ f.InHeader data place := by
  unfold openFile start at h
  cases hlocate : Header.locate data with
  | error fault =>
    rw [hlocate] at h
    cases h
    exact Header.inHeader_of_locate hlocate hplace
  | ok n =>
    cases hread : Header.read (data.drop n) n with
    | error fault =>
      simp only [hlocate, bind, Except.bind, hread] at h
      cases h
      exact Header.inHeader_of_read hlocate hread hplace
    | ok header =>
      simp only [hlocate, bind, Except.bind, hread] at h
      cases h

/-- A session that goes on stands in the stream that it was opened on. -/
theorem base_after {s : Session} {k : Nat} (h : (s.after k).phase = .scanning) :
    (s.after k).cursor.base = s.cursor.base :=
  invariant_after (P := fun t => t.cursor.base = s.cursor.base) rfl (fun _ _ ht _ => ht) h

/-- A run that ends with a fault fails behind some complete operators. -/
theorem exists_failsAt_of_run {data : List UInt8} {s : Session} {f : Fault}
    (hopen : openFile data = .ok s) (hfault : s.run.ending.fault? = some f) :
    ∃ k, (s.after k).phase = .scanning ∧
      (s.after k).step = (.ended s.run.ending, s.run.session) ∧
      (s.after k).cursor.order = s.header.order ∧
      (s.after k).cursor.FailsAt f s.run.session.cursor (Sequence.Awaits s.header.order) := by
  have hstart : (s.after 0).phase = .scanning := (on_of_openFile hopen).2
  obtain ⟨k, e, s', hphase, hstep⟩ := exists_step_ended hstart
  obtain ⟨hon, hheader⟩ := on_after hopen hphase
  have horder : (s.after k).cursor.order = s.header.order := by
    rw [hon.order_eq, hheader]
  rw [run_of_step_ended hphase hstep] at hfault ⊢
  have hfails := failsAt_of_step hphase hstep hfault
  rw [horder] at hfails
  exact ⟨k, hphase, hstep, horder, hfails⟩

/-- Where the run on a file ends with a fault that has a place, the fault is one in the run. -/
theorem inRun_of_run {data : List UInt8} {s : Session} {f : Fault} {place : Nat}
    (hopen : openFile data = .ok s) (hfault : s.run.ending.fault? = some f)
    (hplace : f.offset? = some place) :
    s.cursor.base ≤ place ∧ place ≤ data.length ∧ f.InRun s data place := by
  obtain ⟨k, hphase, hstep, horder, front, hcursor, hfront, ⟨i, hi, hoffset, hshown⟩, hstays,
    hawaits⟩ := exists_failsAt_of_run hopen hfault
  obtain ⟨hon, -⟩ := on_after hopen hphase
  have hsum := hon.fileOffset_add_length
  have hheld := hfront.length_le
  have hbase := base_after hphase
  have hfrom : (s.after k).fileOffset = (s.after k).cursor.base + (s.after k).cursor.position := rfl
  rw [hplace] at hoffset hstays
  have hat : place = (s.after k).fileOffset + i := Option.some.inj hoffset
  rw [horder, hon.rest_eq] at hshown
  have hshown := hshown.of_drop (by omega)
  rw [← hat] at hshown
  refine ⟨by omega, by omega, hshown, fun hf => ?_, fun offset needed hf => ?_⟩
  · rw [Option.some.inj (hstays hf), ← hfront.fileOffset, ← hcursor]
    rfl
  · obtain ⟨width, hwidth, hneeded⟩ := hawaits offset needed hf
    have hend : place = (s.after k).fileOffset + front.length :=
      Option.some.inj (hstays (by rw [hf]; rfl))
    obtain ⟨j, -, hending, -⟩ := exists_interrupt_of_step hphase hstep
    rw [hending] at hfault
    have hj := fault_of_ofInterrupt hfault
    rw [hj, hf] at hending
    refine ⟨k, (s.after k).skipSpace.cursor.atEnd, front, width, hphase, ?_, ?_, hend.symm, hwidth,
      by omega⟩
    · rw [hstep, hending]
      rfl
    · rw [StandsAt, ← hon.rest_eq]
      exact hfront.1

/-- A run that ends with a fault leaves its session on the stream of the file. -/
theorem stream_of_run {data : List UInt8} {s : Session} {f : Fault}
    (hopen : openFile data = .ok s) (hfault : s.run.ending.fault? = some f) :
    s.run.session.cursor.data = data.drop s.cursor.base ∧
      s.run.session.cursor.base = s.cursor.base := by
  obtain ⟨k, hphase, -, -, front, hcursor, -⟩ := exists_failsAt_of_run hopen hfault
  have hdata := (on_after hopen hphase).1.data_eq
  have hbase := base_after hphase
  rw [hcursor, data_advance, base_advance, hdata, hbase]
  exact ⟨rfl, rfl⟩

end Session

/-- Every fault with a place is found where the diagnosis says. The place lies in the file or at its
end, what stands there is what the fault says, and the bytes that are shown lead up to it, from the
start of the stream at the earliest if the file opens. A session that finds an unknown code or lacks
bytes stops at the place; where it lacks bytes, they are those of the next field of an operator. -/
theorem Disassembly.fault_localised {data : List UInt8} {g : Diagnosis} {place : Nat}
    (h : ofFile data = .error g) (hplace : g.fault.offset? = some place) :
    place ≤ data.length ∧
    (∀ f, Session.openFile data = .error f →
      g.fault.InHeader data place ∧ g.Shows data 0 place) ∧
    (∀ s, Session.openFile data = .ok s → Header.locate data = .ok s.cursor.base ∧
      g.fault.InRun s data place ∧ g.Shows data s.cursor.base place) := by
  unfold ofFile at h
  cases hopen : Session.openFile data with
  | error f =>
    rw [hopen] at h
    cases h
    obtain ⟨hle, hheader⟩ := Session.inHeader_of_openFile hopen hplace
    refine ⟨hle, fun f' _ => ⟨hheader, ?_⟩, fun s hs => by cases hs⟩
    exact Diagnosis.shows_ofFault hplace (Nat.zero_le _) hle
  | ok s =>
    rw [hopen] at h
    dsimp only at h
    cases hfault : s.run.ending.fault? with
    | none =>
      rw [hfault] at h
      cases h
    | some f =>
      rw [hfault] at h
      cases h
      obtain ⟨hbase, hle, hrun⟩ := Session.inRun_of_run hopen hfault hplace
      obtain ⟨hdata, hkept⟩ := Session.stream_of_run hopen hfault
      refine ⟨hle, fun f' hf' => (by cases hf'), fun s' hs' => ?_⟩
      cases hs'
      obtain ⟨n, header, hlocate, -, hs⟩ := Session.openFile_eq_ok_iff_read.1 hopen
      refine ⟨?_, hrun, ?_⟩
      · rw [hlocate, hs]
        rfl
      · unfold Session.diagnose
        rw [hdata, hkept]
        exact Diagnosis.shows_ofFault hplace hbase hle

/-- A stream behind one other byte that ends inside the number of an attribute. -/
def numberFile : List UInt8 :=
  0x40 :: (WrittenHeader.sample.bytes ++ [0xC1, 0x05, 0x00, 0xF9, 0x00])

/-- One byte of two is lacking where a file ends inside the number of an attribute. A file that starts
with the name of the language has no mark in front of it. -/
theorem Disassembly.fault_localised_numberFile :
    (∃ g s, ofFile numberFile = .error g ∧ g.fault = .endOfStream 21 1 ∧
      Session.openFile numberFile = .ok s ∧ g.fault.InRun s numberFile 21 ∧
      g.Shows numberFile 1 21) ∧
    ∃ g, ofFile Header.languageMarker = .error g ∧ g.fault = .unsupportedBinding 0 0x20 ∧
      g.fault.InHeader Header.languageMarker 0 ∧ g.Shows Header.languageMarker 0 0 := by
  have hopen : Session.openFile numberFile = .ok (Session.behindHeader WrittenHeader.sample.header
      (WrittenHeader.sample.bytes ++ [0xC1, 0x05, 0x00, 0xF9, 0x00]) 1) :=
    Session.openFile_eq_ok_iff.2 ⟨[0x40], WrittenHeader.sample, _, rfl, by decide, rfl⟩
  have hfault : (Session.behindHeader WrittenHeader.sample.header
      (WrittenHeader.sample.bytes ++ [0xC1, 0x05, 0x00, 0xF9, 0x00]) 1).run.ending.fault? =
        some (.endOfStream 21 1) := by decide +kernel
  have hrun : ∃ g, ofFile numberFile = .error g ∧ g.fault = .endOfStream 21 1 := by
    unfold ofFile
    rw [hopen]
    dsimp only
    rw [hfault]
    exact ⟨_, rfl, rfl⟩
  have hmark : Session.openFile Header.languageMarker = .error (.unsupportedBinding 0 0x20) := rfl
  have hheader : ∃ g, ofFile Header.languageMarker = .error g ∧
      g.fault = .unsupportedBinding 0 0x20 := by
    unfold ofFile
    rw [hmark]
    exact ⟨_, rfl, rfl⟩
  obtain ⟨g, hg, hend⟩ := hrun
  obtain ⟨g', hg', hbinding⟩ := hheader
  obtain ⟨-, -, hin⟩ := fault_localised hg (by rw [hend]; rfl : g.fault.offset? = some 21)
  obtain ⟨-, hbefore, -⟩ := fault_localised hg' (by rw [hbinding]; rfl : g'.fault.offset? = some 0)
  obtain ⟨-, hplace, hshows⟩ := hin _ hopen
  obtain ⟨hplace', hshows'⟩ := hbefore _ hmark
  exact ⟨⟨g, _, hg, hend, hopen, hplace, hshows⟩, g', hg', hbinding, hplace', hshows'⟩

end PclXl
