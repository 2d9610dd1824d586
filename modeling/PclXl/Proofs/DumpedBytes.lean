import PclXl.Proofs.ArrayDumps
import PclXl.Proofs.ByteAccounting
import PclXl.Proofs.Progress

/-!
# Dumps and the file

The addresses in a dump are places of the file. What a session gives to dump, a data block or an
array of bytes, stands in the file at the offset that goes with it, also if the operator was never
completed. In a listing the rows of its dumps are the only lines that start with an address. So
whichever line is read as a row, the byte of a cell is the byte of the file as far behind the address
of the row.
-/

namespace PclXl

open Cursor Text

/-- The bytes of a token that can be dumped, and the file offset of the first of them. -/
def Token.dumped? : Token → Option (List UInt8 × Nat)
  | attr a =>
    match a.value with
    | .array v => v.raw.map fun raw => (raw, v.dataOffset)
    | _ => none
  | payload p => some (p.bytes, p.offset)
  | _ => none

/-- What a token can be dumped with stands in the file. -/
def Token.FoundIn (data : List UInt8) (t : Token) : Prop :=
  ∀ bs place, t.dumped? = some (bs, place) → StandsAt data place bs

/-- The bytes behind a cursor are those of a file from its file offset on. -/
def Cursor.LiesIn (c : Cursor) (data : List UInt8) : Prop :=
  c.rest = data.drop c.fileOffset

/-- A cursor that moves on stays in the file. -/
theorem Cursor.LiesIn.reaches {c d : Cursor} {data : List UInt8} (h : c.LiesIn data)
    (hd : c.Reaches d) : d.LiesIn data := by
  obtain ⟨n, hn, rfl⟩ := hd
  rw [LiesIn, rest_advance, fileOffset_advance hn, h, List.drop_drop]

/-- The bytes of an array stand behind its count. -/
theorem WrittenAttribute.foundIn_token {order : ByteOrder} {data : List UInt8} {offset : Nat}
    {a : WrittenAttribute} (h : StandsAt data offset (a.stem order)) :
    (Token.attr (a.token offset)).FoundIn data := by
  have hoperand := (standsAt_append.1 (standsAt_cons.1 h).2).1
  intro bs place hdumped
  unfold Token.dumped? token at hdumped
  dsimp only at hdumped
  cases ho : a.operand with
  | byteArray width raw fits =>
    have hitems := Operand.standsAt_items (v := ⟨.ubyte, width.countType, raw.map .ubyte, some raw,
      offset + 1 + 1 + width.size⟩) hoperand (by rw [ho]; rfl)
    rw [flatMap_bytes_ubyte] at hitems
    rw [ho] at hdumped
    cases hdumped
    exact hitems
  | _ =>
    rw [ho] at hdumped
    cases hdumped

/-- Attributes that are read have their bytes in the file, also if the list is interrupted. -/
theorem AttributeList.foundIn_attributes {c : Cursor} {data : List UInt8} (h : c.LiesIn data) :
    ∀ a ∈ (read c).attributes, (Token.attr a).FoundIn data := by
  intro a ha
  obtain ⟨w, n, rfl, hstands⟩ := exists_written_of_mem c a ha
  rw [h, List.drop_drop] at hstands
  exact WrittenAttribute.foundIn_token hstands

/-- A data block that is read stands in the file. -/
theorem Reader.foundIn_payload {source : PayloadSource} {declared : Option UInt32}
    {name : String} {tagOffset : Nat} {c c' : Cursor} {p : Payload} {data : List UInt8}
    (h : c.LiesIn data) (hread : payload source declared name tagOffset c = .ok p c') :
    (Token.payload p).FoundIn data := by
  obtain ⟨b, rfl, -, hblock, rfl, -⟩ := payload_eq_ok_iff.1 hread
  intro bs place hdumped
  cases hdumped
  rw [StandsAt, ← List.drop_drop, ← h]
  exact hblock.body

namespace Session

variable {s : Session} {data : List UInt8} {ts : List Token}

/-- A data block that a pass reads stands in the file as the tokens in front of it do. -/
theorem foundIn_passPayload {info : OperatorInfo} {tagOffset : Nat} (h : s.cursor.LiesIn data)
    (hts : ∀ t ∈ ts, t.FoundIn data) :
    ∀ t ∈ (passPayload s info tagOffset ts).tokens, t.FoundIn data := by
  unfold passPayload readPayload
  cases info.payload with
  | none => exact hts
  | some source =>
    dsimp only
    cases hread : Reader.payload source s.declared info.name tagOffset s.cursor with
    | error i c => exact hts
    | ok p c =>
      intro t ht
      rcases List.mem_append.1 ht with hfront | hblock
      · exact hts t hfront
      · rw [List.mem_singleton.1 hblock]
        exact Reader.foundIn_payload h hread

/-- So does what follows the attributes of an operator. -/
theorem foundIn_passOperator {offset : Nat} (h : s.cursor.LiesIn data)
    (hts : ∀ t ∈ ts, t.FoundIn data) :
    ∀ t ∈ (passOperator s offset ts).tokens, t.FoundIn data := by
  unfold passOperator
  cases htag : operatorTag s.cursor with
  | error i c => exact hts
  | ok entry c =>
    obtain ⟨info, tagOffset⟩ := entry
    have hmoves := scans_operatorTag.movesOn s.cursor
    rw [Reader.behind_of_ok htag] at hmoves
    refine foundIn_passPayload (s := s.afterOperator info c) (h.reaches hmoves) fun t ht => ?_
    rcases List.mem_append.1 ht with hfront | hoperator
    · exact hts t hfront
    · rw [List.mem_singleton.1 hoperator]
      intro bs place hdumped
      cases hdumped

/-- What a step has read stands in the file, whether it completed an operator or not. -/
theorem foundIn_pass (h : s.cursor.LiesIn data) : ∀ t ∈ s.pass.tokens, t.FoundIn data := by
  have hattrs : ∀ t ∈ (AttributeList.read s.cursor).attributes.map Token.attr, t.FoundIn data := by
    intro t ht
    obtain ⟨a, ha, rfl⟩ := List.mem_map.1 ht
    exact AttributeList.foundIn_attributes h a ha
  unfold pass
  dsimp only
  cases hi : (AttributeList.read s.cursor).interrupt with
  | some i => exact hattrs
  | none =>
    exact foundIn_passOperator (s := s.afterAttributes _)
      (h.reaches (AttributeList.read_takes s.cursor).1) hattrs

end Session

/-- The name of an operator does not start with the digits of an address. -/
theorem Vocabulary.leadingDigits_operatorName {info : OperatorInfo} (h : info ∈ operators) :
    DumpRow.leadingDigits info.name.toList < 8 := by
  have hall : ∀ info ∈ operators, DumpRow.leadingDigits info.name.toList < 8 := by decide +kernel
  exact hall info h

namespace Options

variable {o : Options} {data : List UInt8}

/-- Lines show a file: whichever of them can be read as a row of a dump, and however it is indented,
the byte of each cell is the byte of the file as far behind the address of the row. -/
def ShowsFile (o : Options) (data : List UInt8) (ls : List String) : Prop :=
  ∀ l ∈ ls, ∀ indent r, DumpRow.ofLine? indent o.rowWidth l = some r →
    ∀ j b, r.cells[j]? = some (some b) → data[r.address + j]? = some b

/-- Lines that show a file may stand behind each other. -/
theorem ShowsFile.append {ls ms : List String} (hls : o.ShowsFile data ls)
    (hms : o.ShowsFile data ms) : o.ShowsFile data (ls ++ ms) := by
  intro l hl
  rcases List.mem_append.1 hl with hfront | hbehind
  · exact hls l hfront
  · exact hms l hbehind

/-- So may those of several dumps. -/
theorem ShowsFile.flatMap {α : Type} {xs : List α} {f : α → List String}
    (h : ∀ x ∈ xs, o.ShowsFile data (f x)) : o.ShowsFile data (xs.flatMap f) := by
  intro l hl
  obtain ⟨x, hx, hmem⟩ := List.mem_flatMap.1 hl
  exact h x hx l hmem

/-- A line that has no address shows nothing. -/
theorem showsFile_of_leadingDigits {l : String} (h : DumpRow.leadingDigits l.toList < 8) :
    o.ShowsFile data [l] := by
  intro m hm indent r hread
  rw [List.mem_singleton.1 hm, DumpRow.ofLine?_eq_none h] at hread
  cases hread

/-- A dump of bytes that stand in the file, at the place where they stand, shows it. -/
theorem showsFile_lines {bytes : List UInt8} {offset : Nat} (h : StandsAt data offset bytes)
    (level : Int) : o.ShowsFile data (HexDump.lines o bytes offset level) := by
  intro l hl indent r hread j b hb
  obtain ⟨tail, htail⟩ := h
  obtain ⟨m, haddress, hbyte⟩ := getElem?_of_dumpRows (mem_dumpRows_of_line hl hread) hb
  have hm := (List.getElem?_eq_some_iff.1 hbyte).1
  rw [haddress, ← List.getElem?_drop, ← htail, List.getElem?_append_left hm]
  exact hbyte

/-- A data block is dumped, or has one line without an address. -/
theorem payloadLines_cases (o : Options) (level : Int) (p : Payload) :
    ((o.dumpHex && !p.bytes.isEmpty) = true ∧
        o.payloadLines level p = HexDump.lines o p.bytes p.offset level) ∨
      (o.dumpHex && !p.bytes.isEmpty) = false ∧
        ∃ l, o.payloadLines level p = [l] ∧ DumpRow.leadingDigits l.toList = 0 := by
  unfold payloadLines
  cases o.dumpHex && !p.bytes.isEmpty with
  | true => exact .inl ⟨rfl, rfl⟩
  | false =>
    refine .inr ⟨rfl, _, rfl, ?_⟩
    rw [String.append_assoc, String.append_assoc, String.append_assoc, leadingDigits_indent]
    exact DumpRow.leadingDigits_append rfl (by decide) (by decide) _

/-- The lines of a data block show the file that it was found in. -/
theorem showsFile_payloadLines {p : Payload} (h : (Token.payload p).FoundIn data) (level : Int) :
    o.ShowsFile data (o.payloadLines level p) := by
  rcases o.payloadLines_cases level p with ⟨-, hlines⟩ | ⟨-, l, hline, hdigits⟩
  · rw [hlines]
    exact showsFile_lines (h _ _ rfl) level
  · rw [hline]
    exact showsFile_of_leadingDigits (by rw [hdigits]; decide)

/-- So does the dump of an attribute. -/
theorem showsFile_arrayDump {a : Attribute} (h : (Token.attr a).FoundIn data) (level : Int) :
    o.ShowsFile data (o.arrayDump level a) := by
  unfold arrayDump
  split
  · rename_i hvalue
    split
    · refine showsFile_lines (h _ _ ?_) level
      simp only [Token.dumped?, hvalue, Option.map_some]
    · intro l hl
      cases hl
  · intro l hl
    cases hl

/-- The text of an attribute starts with the keyword of a data type. -/
theorem leadingDigits_attributeText (a : Attribute) (rest : String) :
    DumpRow.leadingDigits (o.attributeText a ++ rest).toList = 0 := by
  have hname : ∀ t : DataType, ∃ c cs, t.name.toList = c :: cs ∧ hexDigit? c = none ∧ c ≠ ' ' := by
    rintro ⟨form, element⟩
    cases form <;> cases element <;> exact ⟨_, _, rfl, by decide, by decide⟩
  obtain ⟨c, cs, htext, hc, hspace⟩ := hname a.value.dataType
  unfold attributeText
  simp only [String.append_assoc]
  exact DumpRow.leadingDigits_append htext hc hspace _

/-- The three lines of an operator have no address, and the dumps of its attributes show the file. -/
theorem showsFile_operatorLines {op : Operator} {as : List Attribute}
    (hname : DumpRow.leadingDigits op.name.toList < 8)
    (has : ∀ a ∈ as, (Token.attr a).FoundIn data) : o.ShowsFile data (o.operatorLines op as) := by
  have hcomment : DumpRow.leadingDigits (o.operatorComment op).toList = 0 := by
    unfold operatorComment
    simp only [String.append_assoc]
    rw [leadingDigits_indent]
    exact DumpRow.leadingDigits_append rfl (by decide) (by decide) _
  have hline : DumpRow.leadingDigits (o.indent op.level ++
      String.join (as.map fun a => o.attributeText a ++ " ") ++ op.name).toList < 8 := by
    rw [String.append_assoc, leadingDigits_indent]
    cases as with
    | nil => rwa [List.map_nil, String.join_nil, String.empty_append]
    | cons a as =>
      rw [List.map_cons, String.join_cons, String.append_assoc, String.append_assoc,
        leadingDigits_attributeText]
      decide
  have hempty : o.ShowsFile data [""] := showsFile_of_leadingDigits (by decide)
  have hfront : o.ShowsFile data [o.operatorComment op] :=
    showsFile_of_leadingDigits (by rw [hcomment]; decide)
  exact ((hempty.append hfront).append (showsFile_of_leadingDigits hline)).append
    (ShowsFile.flatMap fun a ha => showsFile_arrayDump (has a ha) op.level)

/-- Nor has the line of left-over attributes. -/
theorem showsFile_leftoverLines (level : Int) (as : List Attribute) :
    o.ShowsFile data (o.leftoverLines level as) := by
  unfold leftoverLines
  cases as with
  | nil =>
    intro l hl
    cases hl
  | cons a as =>
    refine showsFile_of_leadingDigits ?_
    rw [leadingDigits_indent]
    cases as with
    | nil =>
      have halone := leadingDigits_attributeText (o := o) a ""
      rw [String.append_empty] at halone
      rw [List.map_singleton, String.intercalate_singleton, halone]
      decide
    | cons b as =>
      rw [List.map_cons, List.map_cons, String.intercalate_cons_cons, String.append_assoc,
        leadingDigits_attributeText]
      decide

/-- Nor has the line for the end of the job. -/
theorem showsFile_ending (e : Ending) : o.ShowsFile data (o.lines e.tokens) := by
  cases e with
  | jobEnd offset => exact showsFile_of_leadingDigits (by decide)
  | exhausted offset needed atBoundary =>
    intro l hl
    cases hl
  | failed fault =>
    intro l hl
    cases hl

/-- What a pass has read is listed so that it shows the file, in front of the end of the run or not. -/
theorem showsFile_of_pass {s : Session} (h : s.cursor.LiesIn data) (e : Ending) :
    o.ShowsFile data (o.lines (s.pass.tokens ++ e.tokens)) := by
  have hfound := Session.foundIn_pass h
  rcases s.pass_tokens with ⟨-, htokens⟩ | ⟨info, hinfo, tagOffset, ps, htokens⟩
  · rw [htokens, lines, linesAfter_leftover]
    exact (showsFile_leftoverLines 0 _).append (showsFile_ending e)
  · have hattrs : ∀ a ∈ (AttributeList.read s.cursor).attributes, (Token.attr a).FoundIn data :=
      AttributeList.foundIn_attributes h
    have hpayloads : ∀ p ∈ ps, (Token.payload p).FoundIn data := fun p hp =>
      hfound _ (by
        rw [htokens]
        exact List.mem_append_right _ (List.mem_cons_of_mem _ (List.mem_map_of_mem hp)))
    have hname : DumpRow.leadingDigits
        (s.nextOperator info s.fileOffset tagOffset).name.toList < 8 :=
      Vocabulary.leadingDigits_operatorName hinfo
    have hblocks : o.ShowsFile data
        (ps.flatMap (o.payloadLines (s.nextOperator info s.fileOffset tagOffset).level)) :=
      ShowsFile.flatMap fun p hp => showsFile_payloadLines (hpayloads p hp) _
    rw [htokens, lines, linesAfter_operator, linesAfter_tokens]
    exact (showsFile_operatorLines hname hattrs).append (hblocks.append (showsFile_ending e))

/-- The dumps of the attributes of an operator and its data blocks are whole parts of its listing, in
front of the end of the run or not. -/
theorem infix_lines_of_belongTo {op last : Operator} {ts : List Token} (h : BelongTo last ts)
    (e : Ending) (hop : .operator op ∈ ts ++ e.tokens) :
    (∀ a, .attr a ∈ ts ++ e.tokens → o.arrayDump op.level a <:+: o.lines (ts ++ e.tokens)) ∧
    ∀ p, .payload p ∈ ts ++ e.tokens → o.payloadLines op.level p <:+: o.lines (ts ++ e.tokens) := by
  obtain ⟨as, ps, rfl⟩ := h
  obtain rfl : op = last := by cases e <;> simpa [Ending.tokens] using hop
  unfold lines
  rw [linesAfter_operator]
  constructor
  · intro a ha
    have hmem : a ∈ as := by cases e <;> simpa [Ending.tokens] using ha
    have hdump : o.arrayDump op.level a <:+: as.flatMap (o.arrayDump op.level) :=
      List.infix_of_mem_flatten (List.mem_map_of_mem hmem)
    exact (hdump.trans (List.suffix_append _ _).isInfix).trans (List.prefix_append _ _).isInfix
  · intro p hp
    have hmem : p ∈ ps := by cases e <;> simpa [Ending.tokens] using hp
    have hblock : o.payloadLines op.level p <:+: ps.flatMap (o.payloadLines op.level) :=
      List.infix_of_mem_flatten (List.mem_map_of_mem hmem)
    exact (hblock.trans (List.prefix_append _ _).isInfix).trans (List.suffix_append _ _).isInfix

/-- No bytes have no rows. -/
theorem dumpRows_nil (o : Options) (offset : Nat) : o.dumpRows [] offset = [] := by
  unfold dumpRows
  rw [List.take_nil, Bytes.chunks_nil]
  rfl

/-- Of a data block just its own bytes are dumped, at its own place, if there are to be dumps. -/
theorem rowsAmong_payloadLines (o : Options) (level : Int) (p : Payload) :
    o.rowsAmong level (o.payloadLines level p) =
      if o.dumpHex then o.dumpRows p.bytes p.offset else [] := by
  rcases o.payloadLines_cases level p with ⟨hdumped, hlines⟩ | ⟨hdumped, l, hline, hdigits⟩
  · rw [hlines, rowsAmong_lines, if_pos (Bool.and_eq_true_iff.1 hdumped).1]
  · have hnone : o.rowsAmong level [l] = [] := by
      unfold rowsAmong
      rw [List.filterMap_cons_none (DumpRow.ofLine?_eq_none (by rw [hdigits]; decide) _ _)]
      rfl
    rw [hline, hnone]
    rcases Bool.and_eq_false_iff.1 hdumped with hoff | hempty
    · rw [hoff]
      rfl
    · have hnil : p.bytes = [] := by simpa using hempty
      rw [hnil, dumpRows_nil, ite_self]

/-- Of an array of bytes likewise, unless it is shown as text. -/
theorem rowsAmong_arrayDump (o : Options) (level : Int) {a : Attribute} {v : ArrayValue}
    {raw : List UInt8} (hvalue : a.value = .array v) (helement : v.element = .ubyte)
    (hraw : v.raw = some raw) : o.rowsAmong level (o.arrayDump level a) =
      if o.dumpHex && !(o.textArrays && isQuotable raw) then o.dumpRows raw v.dataOffset else [] := by
  obtain ⟨element, countType, items, raw', dataOffset⟩ := v
  obtain rfl : element = .ubyte := helement
  obtain rfl : raw' = some raw := hraw
  unfold arrayDump
  rw [hvalue]
  dsimp only
  rw [Bool.and_assoc]
  cases raw with
  | nil =>
    rw [dumpRows_nil, ite_self]
    rfl
  | cons b raw =>
    rw [List.isEmpty_cons, Bool.not_false, Bool.true_and]
    split
    · exact rowsAmong_lines _ _ _
    · rfl

end Options

/-- Tokens that are listed together: those of an operator that a step completes, or those that the
step leaves that ends a session, with the end of the job. -/
def Session.ListsTogether (s : Session) (k : Nat) (ts : List Token) : Prop :=
  (∃ s', (s.after k).step = (.sequence ts, s')) ∨
    ∃ e s', s.EndsAt k e s' ∧ ts = s'.unfinished ++ e.tokens

namespace Options

variable {o : Options} {data : List UInt8}

/-- Whatever is listed together while a file is taken apart shows the file. -/
theorem showsFile_of_openFile {s : Session} (hopen : Session.openFile data = .ok s) {k : Nat}
    {ts : List Token} (h : s.ListsTogether k ts) : o.ShowsFile data (o.lines ts) := by
  have hlies : (s.after k).phase = .scanning → (s.after k).skipSpace.cursor.LiesIn data := by
    intro hphase
    have hon := (Session.on_after hopen hphase).1.rest_eq
    exact Cursor.LiesIn.reaches hon ((s.after k).cursor.reaches_skipWhile _)
  rcases h with ⟨s', hstep⟩ | ⟨e, s', ⟨hphase, hstep⟩, rfl⟩
  · obtain ⟨hphase, -, rfl, -⟩ := Session.step_eq_sequence_iff.1 hstep
    have hshows := showsFile_of_pass (o := o) (hlies hphase) (.exhausted 0 0 true)
    have htokens : (Ending.exhausted 0 0 true).tokens = [] := rfl
    rwa [htokens, List.append_nil] at hshows
  · rw [Session.unfinished_of_step hphase hstep]
    exact showsFile_of_pass (hlies hphase) e

/-- Where an operator is among them, so are the lines of its dumps and data blocks. -/
theorem infix_lines_of_listsTogether {s : Session} {k : Nat} {ts : List Token}
    (h : s.ListsTogether k ts) {op : Operator} (hop : .operator op ∈ ts) :
    (∀ a, .attr a ∈ ts → o.arrayDump op.level a <:+: o.lines ts) ∧
    ∀ p, .payload p ∈ ts → o.payloadLines op.level p <:+: o.lines ts := by
  rcases h with ⟨s', hstep⟩ | ⟨e, s', ⟨hphase, hstep⟩, rfl⟩
  · obtain ⟨last, hlast⟩ := Session.belongTo_of_step hstep
    have htokens : ts ++ (Ending.exhausted 0 0 true).tokens = ts := List.append_nil ts
    rw [← htokens] at hop ⊢
    exact infix_lines_of_belongTo hlast (.exhausted 0 0 true) hop
  · rcases Session.unfinished_of_step_ended hphase hstep with ⟨as, hattrs⟩ | ⟨last, hlast⟩
    · rw [hattrs] at hop
      rcases List.mem_append.1 hop with hattr | hend
      · obtain ⟨a, -, heq⟩ := List.mem_map.1 hattr
        cases heq
      · obtain ⟨offset, heq⟩ := e.exists_of_mem_tokens hend
        cases heq
    · exact infix_lines_of_belongTo hlast e hop

/-- Hexadecimal dumps are faithful. A dump of bytes consists of rows that show just the bytes that it
should, and of one line more where it leaves bytes out. Of a data block, and of an array of bytes that
is not shown as text, the lines have the rows of such a dump from its place on. While a file is taken
apart, the lines of each data block and of each array stand among those of its operator, and whichever
line of a listing can be read as a row shows at every cell the byte of the file that stands so far
behind the address of the row. -/
theorem dump_faithful (o : Options) :
    (∀ bytes offset level, o.Dumps bytes offset level (o.dumpRows bytes offset)) ∧
    (∀ level p, o.rowsAmong level (o.payloadLines level p) =
      if o.dumpHex then o.dumpRows p.bytes p.offset else []) ∧
    (∀ level a v raw, a.value = .array v → v.element = .ubyte → v.raw = some raw →
      o.rowsAmong level (o.arrayDump level a) =
        if o.dumpHex && !(o.textArrays && isQuotable raw) then o.dumpRows raw v.dataOffset else []) ∧
    ∀ data s, Session.openFile data = .ok s → ∀ k ts, s.ListsTogether k ts →
      o.ShowsFile data (o.lines ts) ∧
      ∀ op, .operator op ∈ ts →
        (∀ a, .attr a ∈ ts → o.arrayDump op.level a <:+: o.lines ts) ∧
        ∀ p, .payload p ∈ ts → o.payloadLines op.level p <:+: o.lines ts := by
  refine ⟨o.dumps_dumpRows, o.rowsAmong_payloadLines,
    fun level a v raw hvalue helement hraw => ?_, fun data s hopen k ts hlists => ?_⟩
  · exact o.rowsAmong_arrayDump level hvalue helement hraw
  · have hshows := showsFile_of_openFile (o := o) hopen hlists
    exact ⟨hshows, fun op hop => infix_lines_of_listsTogether hlists hop⟩

end Options

/-- A data block of two bytes. -/
def Payload.twoBytes : Payload :=
  ⟨.inlineUByte, [0x07, 0x08], 19, 2⟩

/-- Its operator, and the block. -/
def Session.dumpedTokens : List Token :=
  [.operator ⟨0xFB, "embedded_data_byte", 17, 17, 0, none⟩, .payload .twoBytes]

/-- The block is listed with a row behind the line of its operator. The second cell of the row shows
the byte at 20, one behind the address. -/
theorem Options.dump_faithful_blockFile :
    ∃ s, Session.openFile Session.blockFile = .ok s ∧ s.ListsTogether 0 Session.dumpedTokens ∧
      ({ dumpWidth := 2 } : Options).lines Session.dumpedTokens =
        ["", "// Data Block File Offset: 17 (0x11) Tag: 0xfb Level: 0", "embedded_data_byte",
          "00000013: 07 08 |..|"] ∧
      ({ dumpWidth := 2 } : Options).rowsAmong 0 (({ dumpWidth := 2 } : Options).payloadLines 0
        .twoBytes) = [⟨19, [some 0x07, some 0x08], ['.', '.']⟩] ∧
      Session.blockFile[19 + 1]? = some 0x08 := by
  have hopen : Session.openFile Session.blockFile =
      .ok (Session.behindHeader WrittenHeader.sample.header Session.blockFile 0) :=
    Session.openFile_eq_ok_iff.2 ⟨[], .sample, _, rfl, by decide, rfl⟩
  have hstep : ((Session.behindHeader WrittenHeader.sample.header Session.blockFile 0).after 0).step =
      (.sequence Session.dumpedTokens, _) :=
    Prod.ext (by decide +kernel) rfl
  have hlines : ({ dumpWidth := 2 } : Options).lines Session.dumpedTokens =
      ["", "// Data Block File Offset: 17 (0x11) Tag: 0xfb Level: 0", "embedded_data_byte",
        "00000013: 07 08 |..|"] := by
    decide +kernel
  have hread : DumpRow.ofLine? 0 2 "00000013: 07 08 |..|" =
      some ⟨19, [some 0x07, some 0x08], ['.', '.']⟩ := by
    decide +kernel
  obtain ⟨-, hrows, -, hfile⟩ := dump_faithful { dumpWidth := 2 }
  have hshows := (hfile _ _ hopen 0 _ (.inl ⟨_, hstep⟩)).1
  refine ⟨_, hopen, .inl ⟨_, hstep⟩, hlines, (hrows 0 _).trans (by decide +kernel), ?_⟩
  exact hshows "00000013: 07 08 |..|" (by simp [hlines]) 0 _ hread 1 0x08 rfl

end PclXl
