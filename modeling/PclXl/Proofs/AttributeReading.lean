import PclXl.Proofs.OperandReading

/-!
# Attributes read back

An attribute is read exactly where one is written, and an attribute list exactly where attributes
are written one behind the other up to a byte that starts no further one. White space in front of a
part is never mistaken for the part, because no tag is a byte of white space.
-/

namespace PclXl

open Cursor Vocabulary

/-- No tag of a data type is white space. -/
theorem isWhiteSpace_dataTypeTag (t : DataType) : Reader.isWhiteSpace t.tag = false := by
  obtain ⟨form, element⟩ := t
  cases form <;> cases element <;> decide

/-- Nor is the tag in front of the number of an attribute. -/
theorem isWhiteSpace_numberTag (w : FieldWidth) : Reader.isWhiteSpace w.numberTag = false := by
  cases w <;> decide

/-- The tag of an operator is neither white space nor a data-type tag nor a byte of the job-end
marker. -/
theorem operator_tag_apart {info : OperatorInfo} (h : OperatorInfo.ofTag? info.tag = some info) :
    Reader.isWhiteSpace info.tag = false ∧ DataType.ofTag? info.tag = none ∧
      info.tag ∉ jobEndMarker := by
  have hmem : info ∈ operators := List.mem_of_find?_eq_some h
  have hall : ∀ i ∈ operators, Reader.isWhiteSpace i.tag = false ∧ DataType.ofTag? i.tag = none ∧
      i.tag ∉ jobEndMarker := by decide
  exact hall info hmem

/-- The tag in front of an attribute's number announces one of the two widths. -/
theorem attributeNumberWidth?_eq_some_iff {tag : UInt8} {n : Nat} :
    attributeNumberWidth? tag = some n ↔ ∃ w : FieldWidth, tag = w.numberTag ∧ n = w.size := by
  unfold attributeNumberWidth?
  constructor
  · intro h
    split at h
    · rename_i htag
      exact ⟨.one, htag, (Option.some.inj h).symm⟩
    · split at h
      · rename_i htag
        exact ⟨.two, htag, (Option.some.inj h).symm⟩
      · cases h
  · intro h
    obtain ⟨w, htag, hn⟩ := h
    rw [htag, hn]
    cases w <;> decide

/-- White space in front of another byte is skipped exactly. -/
theorem Cursor.skipWhile_of_holds {c : Cursor} {s : Space} {b : UInt8} {bs : List UInt8}
    (h : c.Holds (s.bytes ++ b :: bs)) (hb : Reader.isWhiteSpace b = false) :
    c.skipWhile Reader.isWhiteSpace = c.advance s.bytes.length := by
  obtain ⟨hs, hrest⟩ := holds_append.1 h
  have hhead := hrest.head?
  rw [rest_advance] at hhead
  refine skipWhile_eq hs.1 s.blank fun d hd => ?_
  rw [hhead] at hd
  rw [← Option.some.inj hd]
  exact hb

/-- A byte that is held behind white space is not white space. -/
theorem Cursor.exists_space_of_holds {c : Cursor} {b : UInt8}
    (h : (c.skipWhile Reader.isWhiteSpace).Holds [b]) :
    ∃ s : Space, c.Holds (s.bytes ++ [b]) ∧ Reader.isWhiteSpace b = false ∧
      c.skipWhile Reader.isWhiteSpace = c.advance s.bytes.length := by
  obtain ⟨s, hs, hskip, hnot⟩ := c.exists_space
  rw [hskip] at h
  have hhead := h.head?
  rw [rest_advance] at hhead
  have hb := hnot b (by rw [hhead]; rfl)
  exact ⟨s, holds_append.2 ⟨hs, h⟩, hb, hskip⟩

namespace Reader

/-- White space is passed as far as it goes. -/
theorem skipWhiteSpace_eq (c : Cursor) :
    skipWhiteSpace c = .ok (c.rest.takeWhile isWhiteSpace).length (c.skipWhile isWhiteSpace) :=
  rfl

/-- The number of an attribute is read where it is written. -/
theorem attrNumber_of_holds {w : FieldWidth} {number : UInt16} {name : String} {c : Cursor}
    (hname : attributeName? number = some name) (hfits : number.toNat < ByteOrder.limit w.size)
    (h : c.Holds (w.numberTag :: c.order.bytes w.size number.toNat)) :
    attrNumber c = .ok (number, name)
      (c.advance (w.numberTag :: c.order.bytes w.size number.toNat).length) := by
  obtain ⟨htag, hnumber⟩ := holds_cons.1 h
  have hpeek : peek c = .ok w.numberTag c := peek_eq_ok_iff.2 ⟨htag, rfl⟩
  have hwidth : attributeNumberWidth? w.numberTag = some w.size :=
    attributeNumberWidth?_eq_some_iff.2 ⟨w, rfl, rfl⟩
  have hbyte : byte c = .ok w.numberTag (c.advance 1) := byte_eq_ok_iff.2 ⟨htag, rfl⟩
  have hget : (get : Reader Cursor) (c.advance 1) = .ok (c.advance 1) (c.advance 1) :=
    get_eq_ok_iff.2 ⟨rfl, rfl⟩
  have hword : (UInt16.ofNat <$> word w.size) (c.advance 1) =
      .ok number ((c.advance 1).advance w.size) :=
    map_eq_ok_iff.2 ⟨number.toNat, word_eq_ok_iff.2 ⟨hfits, hnumber, rfl⟩, UInt16.ofNat_toNat⟩
  unfold attrNumber
  rw [fileOffset_bind, bind_of_ok hpeek, hwidth]
  dsimp only
  rw [bind_of_ok hbyte, bind_of_ok hget, bind_of_ok hword, hname, ByteOrder.length_cons_bytes,
    ← advance_advance]
  rfl

/-- Where the number of an attribute is read, it is written in one of its widths. -/
theorem holds_of_attrNumber {number : UInt16} {name : String} {c c' : Cursor}
    (h : attrNumber c = .ok (number, name) c') : ∃ w : FieldWidth,
      attributeName? number = some name ∧ number.toNat < ByteOrder.limit w.size ∧
      c.Holds (w.numberTag :: c.order.bytes w.size number.toNat) ∧
      c' = c.advance (w.numberTag :: c.order.bytes w.size number.toNat).length := by
  unfold attrNumber at h
  rw [fileOffset_bind] at h
  obtain ⟨tag, d, hpeek, h⟩ := bind_eq_ok_iff.1 h
  obtain ⟨htag, rfl⟩ := peek_eq_ok_iff.1 hpeek
  cases hwidth : attributeNumberWidth? tag with
  | none =>
    rw [hwidth] at h
    exact absurd h fail_ne_ok
  | some n =>
    rw [hwidth] at h
    obtain ⟨w, rfl, rfl⟩ := attributeNumberWidth?_eq_some_iff.1 hwidth
    obtain ⟨b, d, hbyte, h⟩ := bind_eq_ok_iff.1 h
    obtain ⟨-, rfl⟩ := byte_eq_ok_iff.1 hbyte
    obtain ⟨place, d, hget, h⟩ := bind_eq_ok_iff.1 h
    obtain ⟨rfl, rfl⟩ := get_eq_ok_iff.1 hget
    obtain ⟨k, d, hword, h⟩ := bind_eq_ok_iff.1 h
    obtain ⟨m, hm, rfl⟩ := map_eq_ok_iff.1 hword
    obtain ⟨hlt, hholds, rfl⟩ := word_eq_ok_iff.1 hm
    have hle : ByteOrder.limit w.size ≤ 2 ^ 16 := by cases w <;> decide
    have hk : (UInt16.ofNat m).toNat = m := by
      rw [UInt16.toNat_ofNat']
      omega
    cases hname : attributeName? (UInt16.ofNat m) with
    | none =>
      rw [hname] at h
      obtain ⟨u, d, -, h⟩ := bind_eq_ok_iff.1 h
      exact absurd h fail_ne_ok
    | some name' =>
      rw [hname] at h
      obtain ⟨hpair, rfl⟩ := pure_eq_ok_iff.1 h
      cases hpair
      refine ⟨w, hname, ?_, ?_, ?_⟩
      · rwa [hk]
      · rw [hk]
        exact holds_cons.2 ⟨htag, hholds⟩
      · rw [ByteOrder.length_cons_bytes, ← advance_advance]

/-- Where the parts of an attribute are written, its operand is checked behind them: the declared
length must be a number of type `uint32`. -/
theorem attr_of_parts {o : Operand} {gap : Space} {w : FieldWidth} {number : UInt16} {name : String}
    {c : Cursor} (hname : attributeName? number = some name)
    (hfits : number.toNat < ByteOrder.limit w.size)
    (h : c.Holds (o.dataType.tag :: (o.bytes c.order ++ (gap.bytes ++
      w.numberTag :: c.order.bytes w.size number.toNat)))) :
    let a : Attribute := ⟨number, name, o.value (c.fileOffset + 1),
      (o.value (c.fileOffset + 1)).scalar?.bind (·.toUInt32?) |>.bind (label? name), c.fileOffset⟩
    attr o.dataType c = (if number = vendorLengthNumber ∧ a.vendorLength? = none then
        fail (.typeMismatch c.fileOffset name ElementType.uint32.name o.dataType.name)
      else pure a : Reader Attribute)
        (c.advance (o.dataType.tag :: (o.bytes c.order ++ (gap.bytes ++
          w.numberTag :: c.order.bytes w.size number.toNat))).length) := by
  obtain ⟨htag, h₁⟩ := holds_cons.1 h
  obtain ⟨hoperand, h₂⟩ := holds_append.1 h₁
  obtain ⟨hgap, hnumber⟩ := holds_append.1 h₂
  have hfirst : (c.advance 1).fileOffset = c.fileOffset + 1 := htag.fileOffset
  have hbyte : byte c = .ok o.dataType.tag (c.advance 1) := byte_eq_ok_iff.2 ⟨htag, rfl⟩
  have hvalue : value o.dataType (c.advance 1) = .ok (o.value (c.fileOffset + 1))
      ((c.advance 1).advance (o.bytes c.order).length) :=
    value_eq_ok_iff.2 ⟨o, rfl, by rw [hfirst], hoperand, rfl⟩
  have hskip := skipWhile_of_holds h₂ (isWhiteSpace_numberTag w)
  have hspace := skipWhiteSpace_eq ((c.advance 1).advance (o.bytes c.order).length)
  rw [hskip] at hspace
  have hread := attrNumber_of_holds hname hfits hnumber
  have hbehind : ((((c.advance 1).advance (o.bytes c.order).length).advance
      gap.bytes.length).advance (w.numberTag :: c.order.bytes w.size number.toNat).length) =
        c.advance (o.dataType.tag :: (o.bytes c.order ++ (gap.bytes ++
          w.numberTag :: c.order.bytes w.size number.toNat))).length := by
    simp only [advance_advance, List.length_cons, List.length_append]
    congr 1
    omega
  intro a
  unfold attr
  rw [fileOffset_bind, bind_of_ok hbyte, bind_of_ok hvalue, bind_of_ok hspace, bind_of_ok hread,
    Operand.dataType_value]
  exact congrArg _ hbehind

/-- An attribute is read where it is written. -/
theorem attr_of_holds {a : WrittenAttribute} {c : Cursor} (h : c.Holds (a.stem c.order)) :
    attr a.operand.dataType c = .ok (a.token c.fileOffset)
      (c.advance (a.stem c.order).length) := by
  have hcheck : ¬ (a.number = vendorLengthNumber ∧
      (a.token c.fileOffset).vendorLength? = none) := by
    intro hboth
    obtain ⟨n, hn⟩ := a.declares hboth.1
    have hnone := hboth.2
    rw [WrittenAttribute.vendorLength?_token, WrittenAttribute.declared?, hn] at hnone
    dsimp only at hnone
    rw [if_pos hboth.1] at hnone
    cases hnone
  refine (attr_of_parts a.known a.fits h).trans ?_
  exact congrFun (if_neg hcheck) _

/-- Where an attribute is read behind its data-type tag, one is written. -/
theorem exists_written_of_attr {t : DataType} {a : Attribute} {c c' : Cursor}
    (htag : c.Holds [t.tag]) (h : attr t c = .ok a c') : ∃ w : WrittenAttribute,
      w.operand.dataType = t ∧ w.token c.fileOffset = a ∧ c.Holds (w.stem c.order) ∧
      c' = c.advance (w.stem c.order).length := by
  have hfirst : (c.advance 1).fileOffset = c.fileOffset + 1 := htag.fileOffset
  have hbyte : byte c = .ok t.tag (c.advance 1) := byte_eq_ok_iff.2 ⟨htag, rfl⟩
  unfold attr at h
  rw [fileOffset_bind, bind_of_ok hbyte] at h
  obtain ⟨v, d, hvalue, h⟩ := bind_eq_ok_iff.1 h
  obtain ⟨o, rfl, rfl, hoperand, rfl⟩ := value_eq_ok_iff.1 hvalue
  obtain ⟨gap, hgap, hskip, -⟩ :=
    ((c.advance 1).advance (o.bytes (c.advance 1).order).length).exists_space
  have hspace := skipWhiteSpace_eq ((c.advance 1).advance (o.bytes (c.advance 1).order).length)
  rw [hskip] at hspace
  rw [bind_of_ok hspace] at h
  obtain ⟨⟨number, name⟩, d, hread, h⟩ := bind_eq_ok_iff.1 h
  obtain ⟨w, hname, hfits, hnumber, rfl⟩ := holds_of_attrNumber hread
  dsimp only at h
  rw [hfirst] at h
  split at h
  · exact absurd h fail_ne_ok
  · rename_i hcheck
    obtain ⟨rfl, rfl⟩ := pure_eq_ok_iff.1 h
    have hdeclares : number = vendorLengthNumber → ∃ n, o = .scalar (.uint32 n) := by
      intro hvendor
      cases o with
      | scalar x =>
        cases x with
        | uint32 n => exact ⟨n, rfl⟩
        | _ => exact absurd ⟨hvendor, rfl⟩ hcheck
      | _ => exact absurd ⟨hvendor, rfl⟩ hcheck
    refine ⟨⟨o, gap, w, number, name, .none, hname, hfits, hdeclares⟩, rfl, rfl,
      holds_cons.2 ⟨htag, holds_append.2 ⟨hoperand, holds_append.2 ⟨hgap, hnumber⟩⟩⟩, ?_⟩
    simp only [advance_advance, order_advance, WrittenAttribute.stem, List.length_cons,
      List.length_append]
    congr 1
    omega

/-- Behind white space, a data-type tag starts the next attribute. -/
theorem attr?_of_tag {s : Space} {t : DataType} {bs : List UInt8} {c : Cursor}
    (h : c.Holds (s.bytes ++ t.tag :: bs)) :
    attr? c = (attr t >>= fun a => pure (some a)) (c.advance s.bytes.length) := by
  have hspace := skipWhiteSpace_eq c
  rw [skipWhile_of_holds h (isWhiteSpace_dataTypeTag t)] at hspace
  have hpeek : peek (c.advance s.bytes.length) = .ok t.tag (c.advance s.bytes.length) :=
    peek_eq_ok_iff.2 ⟨(holds_cons.1 (holds_append.1 h).2).1, rfl⟩
  unfold attr?
  rw [bind_of_ok hspace, bind_of_ok hpeek, DataType.ofTag?_tag]

/-- The next attribute is read behind white space. -/
theorem attr?_of_holds {s : Space} {a : WrittenAttribute} {c : Cursor}
    (h : c.Holds (s.bytes ++ a.stem c.order)) :
    attr? c = .ok (some (a.token (c.fileOffset + s.bytes.length)))
      (c.advance (s.bytes.length + (a.stem c.order).length)) := by
  obtain ⟨hs, hstem⟩ := holds_append.1 h
  have hread := attr_of_holds hstem
  rw [hs.fileOffset, advance_advance] at hread
  rw [attr?_of_tag h, bind_of_ok hread]
  rfl

/-- No attribute is read in front of a byte that is no data-type tag. -/
theorem attr?_eq_none_of_holds {s : Space} {b : UInt8} {c : Cursor} (h : c.Holds (s.bytes ++ [b]))
    (hb : isWhiteSpace b = false) (htag : DataType.ofTag? b = none) :
    attr? c = .ok none (c.advance s.bytes.length) := by
  have hskip := skipWhile_of_holds h hb
  have hspace := skipWhiteSpace_eq c
  rw [hskip] at hspace
  have hpeek : peek (c.advance s.bytes.length) = .ok b (c.advance s.bytes.length) :=
    peek_eq_ok_iff.2 ⟨(holds_append.1 h).2, rfl⟩
  unfold attr?
  rw [bind_of_ok hspace, bind_of_ok hpeek, htag]
  rfl

/-- No byte is seen in front of the job-end marker. -/
theorem peek_of_jobEnd {c : Cursor} (h : jobEndMarker <+: c.rest) :
    peek c = .error (.jobEnd c.fileOffset) c := by
  have hmarker : c.atJobEnd = true := List.isPrefixOf_iff_prefix.2 h
  unfold peek
  rw [if_pos hmarker]

/-- No attribute is read in front of the job-end marker. -/
theorem attr?_of_jobEnd {c : Cursor} (h : jobEndMarker <+: c.rest) :
    attr? c = .error (.jobEnd c.fileOffset) c := by
  obtain ⟨tail, htail⟩ := h
  have hskip : c.skipWhile isWhiteSpace = c := by
    have hnone : c.rest.takeWhile isWhiteSpace = [] := by
      rw [← htail]
      rfl
    rw [Cursor.skipWhile, hnone, List.length_nil, advance_zero]
  have hspace := skipWhiteSpace_eq c
  rw [hskip] at hspace
  have hpeek := peek_of_jobEnd ⟨tail, htail⟩
  unfold attr?
  rw [bind_of_ok hspace]
  exact bind_eq_error_iff.2 (.inl hpeek)

/-- What stands at a cursor where the next attribute is read, or where there is none. -/
theorem exists_of_attr? {c c' : Cursor} {a? : Option Attribute} (h : attr? c = .ok a? c') :
    (∃ (s : Space) (w : WrittenAttribute), a? = some (w.token (c.fileOffset + s.bytes.length)) ∧
      c.Holds (s.bytes ++ w.stem c.order) ∧
      c' = c.advance (s.bytes.length + (w.stem c.order).length)) ∨
    (∃ (s : Space) (b : UInt8), a? = none ∧ c.Holds (s.bytes ++ [b]) ∧ isWhiteSpace b = false ∧
      DataType.ofTag? b = none ∧ c' = c.advance s.bytes.length) := by
  unfold attr? at h
  rw [bind_of_ok (skipWhiteSpace_eq c)] at h
  obtain ⟨b, d, hpeek, h⟩ := bind_eq_ok_iff.1 h
  obtain ⟨hb, rfl⟩ := peek_eq_ok_iff.1 hpeek
  obtain ⟨s, hholds, hnot, hskip⟩ := exists_space_of_holds hb
  rw [hskip] at hb h
  have hs := (holds_append.1 hholds).1
  cases htag : DataType.ofTag? b with
  | none =>
    rw [htag] at h
    obtain ⟨rfl, rfl⟩ := pure_eq_ok_iff.1 h
    exact .inr ⟨s, b, rfl, hholds, hnot, htag, rfl⟩
  | some t =>
    rw [htag] at h
    obtain ⟨a, d, hread, h⟩ := bind_eq_ok_iff.1 h
    obtain ⟨rfl, rfl⟩ := pure_eq_ok_iff.1 h
    rw [DataType.ofTag?_eq_some_iff.1 htag] at hb
    obtain ⟨w, -, rfl, hstem, rfl⟩ := exists_written_of_attr hb hread
    refine .inl ⟨s, w, by rw [hs.fileOffset], holds_append.2 ⟨hs, hstem⟩, ?_⟩
    rw [advance_advance, order_advance]

end Reader

namespace AttributeList

open WrittenAttribute

/-- Attributes that are written one behind the other are read, and then what stands behind them ends
the list, if it would end a list without attributes too. -/
theorem read_of_end {order : ByteOrder} {tail : List UInt8} {interrupt : Nat → Option Interrupt}
    {n : Nat} (hend : ∀ (s : Space) (c : Cursor), c.order = order → c.Holds (s.bytes ++ tail) →
      read c = ⟨[], interrupt (c.fileOffset + s.bytes.length), c.advance (s.bytes.length + n)⟩)
    {s : Space} {as : List WrittenAttribute} {c : Cursor} (horder : c.order = order)
    (h : c.Holds (s.bytes ++ (listBytes order as ++ tail))) :
    read c = ⟨listTokens order (c.fileOffset + s.bytes.length) as,
      interrupt (c.fileOffset + s.bytes.length + (listBytes order as).length),
      c.advance (s.bytes.length + (listBytes order as).length + n)⟩ := by
  induction as generalizing s c with
  | nil => exact hend s c horder h
  | cons a as ih =>
    have hparts : c.Holds ((s.bytes ++ a.stem order) ++
        (a.space.bytes ++ (listBytes order as ++ tail))) := by
      simpa only [listBytes, List.flatMap_cons, WrittenAttribute.bytes, List.append_assoc] using h
    obtain ⟨hfirst, hrest⟩ := holds_append.1 hparts
    rw [← horder] at hfirst
    have hread := Reader.attr?_of_holds hfirst
    have hoffset := hfirst.fileOffset
    rw [horder] at hread hoffset
    rw [List.length_append] at hrest hoffset
    have hlist := ih (c := c.advance (s.bytes.length + (a.stem order).length)) horder hrest
    rw [read, hread]
    dsimp only
    rw [hlist]
    simp only [listTokens, advance_advance, hoffset, listBytes, List.flatMap_cons,
      WrittenAttribute.bytes, List.length_append, Nat.add_assoc]

/-- Attributes that are written one behind the other are read up to a byte that starts no further
one. -/
theorem read_of_holds {s : Space} {as : List WrittenAttribute} {b : UInt8} {c : Cursor}
    (h : c.Holds (s.bytes ++ (listBytes c.order as ++ [b]))) (hb : Reader.isWhiteSpace b = false)
    (htag : DataType.ofTag? b = none) :
    read c = ⟨listTokens c.order (c.fileOffset + s.bytes.length) as, none,
      c.advance (s.bytes.length + (listBytes c.order as).length)⟩ := by
  refine @read_of_end c.order [b] (fun _ => none) 0 (fun s d _ hd => ?_) s as c rfl h
  rw [read, Reader.attr?_eq_none_of_holds hd hb htag]
  rfl

/-- No attributes are read in front of the job-end marker. -/
theorem read_of_jobEnd {c : Cursor} (h : jobEndMarker <+: c.rest) :
    read c = ⟨[], some (.jobEnd c.fileOffset), c⟩ := by
  rw [read, Reader.attr?_of_jobEnd h]

/-- Where an attribute list is read to its end, attributes are written one behind the other. -/
theorem exists_written_of_read (c : Cursor) (h : (read c).interrupt = none) :
    ∃ (s : Space) (as : List WrittenAttribute) (b : UInt8),
      c.Holds (s.bytes ++ (listBytes c.order as ++ [b])) ∧ Reader.isWhiteSpace b = false ∧
      DataType.ofTag? b = none ∧
      (read c).attributes = listTokens c.order (c.fileOffset + s.bytes.length) as ∧
      (read c).cursor = c.advance (s.bytes.length + (listBytes c.order as).length) := by
  fun_induction read c with
  | case1 c i c' found => cases h
  | case2 c c' found =>
    rcases Reader.exists_of_attr? found with ⟨s, w, hsome, -⟩ | ⟨s, b, -, hholds, hb, htag, rfl⟩
    · cases hsome
    · exact ⟨s, [], b, hholds, hb, htag, rfl, rfl⟩
  | case3 c a c' found list ih =>
    rcases Reader.exists_of_attr? found with ⟨s, w, hsome, hfirst, rfl⟩ | ⟨s, b, hnone, -⟩
    · obtain ⟨s', as, b, hholds, hb, htag, hattributes, hcursor⟩ := ih h
      have hoffset := hfirst.fileOffset
      rw [List.length_append] at hoffset
      have hbytes : listBytes c.order (w.withSpace s' :: as) =
          w.stem c.order ++ (s'.bytes ++ listBytes c.order as) := by
        rw [listBytes, List.flatMap_cons, bytes_withSpace, List.append_assoc]
        rfl
      refine ⟨s, w.withSpace s' :: as, b, ?_, hb, htag, ?_, ?_⟩
      · have hparts : c.Holds ((s.bytes ++ w.stem c.order) ++
            (s'.bytes ++ (listBytes c.order as ++ [b]))) := by
          refine holds_append.2 ⟨hfirst, ?_⟩
          rw [List.length_append]
          exact hholds
        rw [hbytes]
        simpa only [List.append_assoc] using hparts
      · have hnext : c.fileOffset + (s.bytes.length + (w.stem c.order).length) + s'.bytes.length =
            c.fileOffset + s.bytes.length + ((w.stem c.order).length + s'.bytes.length) := by omega
        rw [Option.some.inj hsome, hattributes, listTokens, hoffset, order_advance,
          token_withSpace, bytes_withSpace, List.length_append, hnext]
      · rw [hcursor, advance_advance, order_advance, hbytes]
        simp only [List.length_append]
        congr 1
        omega
    · cases hnone

/-- Each attribute that is read is written at its place behind the cursor, also if the list is
interrupted. -/
theorem exists_written_of_mem (c : Cursor) : ∀ a ∈ (read c).attributes,
    ∃ (w : WrittenAttribute) (n : Nat), a = w.token (c.fileOffset + n) ∧
      w.stem c.order <+: c.rest.drop n := by
  fun_induction read c with
  | case1 c i c' found =>
    intro a ha
    cases ha
  | case2 c c' found =>
    intro a ha
    cases ha
  | case3 c a c' found list ih =>
    rcases Reader.exists_of_attr? found with ⟨s, w, hsome, hfirst, rfl⟩ | ⟨s, b, hnone, -⟩
    · intro b hb
      rcases List.mem_cons.1 hb with rfl | hmem
      · have hstem := (holds_append.1 hfirst).2.1
        rw [rest_advance] at hstem
        exact ⟨w, s.bytes.length, Option.some.inj hsome, hstem⟩
      · obtain ⟨w', n, hb', hstands⟩ := ih b hmem
        have hoffset := hfirst.fileOffset
        rw [List.length_append] at hoffset
        rw [hoffset, Nat.add_assoc] at hb'
        rw [order_advance, rest_advance, List.drop_drop] at hstands
        exact ⟨w', _, hb', hstands⟩
    · cases hnone

end AttributeList

end PclXl
