import PclXl.Proofs.DumpRows
import PclXl.Proofs.ListingLines
import PclXl.Proofs.StreamedListing

/-!
# Dumps of abbreviated arrays

An array of bytes that is not shown as text stands in the line of its attribute by its number of
bytes only; the bytes themselves follow in a dump. The dumps are written behind the line of the
operator that the attributes belong to, in the order of the attributes. Attributes whose operator
never came take a line as well, with the same abbreviation, but no dump follows that line: there the
bytes are lost.
-/

namespace PclXl

open Text

/-- An attribute that can be read from the bytes of an attribute. -/
def Attribute.IsRead (a : Attribute) : Prop :=
  ∃ (w : WrittenAttribute) (offset : Nat), a = w.token offset

/-- The text of an attribute that is read is printable. -/
theorem Attribute.IsRead.printable_text {a : Attribute} (h : a.IsRead) (o : Options) :
    Printable (o.attributeText a) := by
  obtain ⟨w, offset, rfl⟩ := h
  have hname := (Vocabulary.word_attributeName w.known).printable
  refine o.printable_attributeText hname fun label hlabel => ?_
  obtain ⟨value, -, hlabel⟩ := Option.bind_eq_some_iff.1 hlabel
  exact (Vocabulary.label_spelling hlabel).1.printable

/-- The attributes of a list are read, also if it is interrupted. -/
theorem AttributeList.isRead_attributes (c : Cursor) : ∀ a ∈ (read c).attributes, a.IsRead := by
  intro a ha
  obtain ⟨w, n, heq, -⟩ := exists_written_of_mem c a ha
  exact ⟨w, _, heq⟩

/-- The attributes among the tokens of a pass are those of its list. -/
theorem Session.mem_attributes_of_mem_pass {s : Session} {a : Attribute}
    (h : .attr a ∈ s.pass.tokens) : a ∈ (AttributeList.read s.cursor).attributes := by
  have hattrs : Token.attr a ∈ (AttributeList.read s.cursor).attributes.map .attr := by
    rcases s.pass_tokens with ⟨-, htokens⟩ | ⟨info, -, tagOffset, ps, htokens⟩
    · rwa [htokens] at h
    · rw [htokens] at h
      rcases List.mem_append.1 h with hlist | hbehind
      · exact hlist
      · simp at hbehind
  obtain ⟨b, hb, heq⟩ := List.mem_map.1 hattrs
  exact Token.attr.inj heq ▸ hb

/-- The end of a run has no attributes. -/
theorem Ending.attr_notMem_tokens (e : Ending) (a : Attribute) : .attr a ∉ e.tokens := by
  intro hmem
  obtain ⟨offset, heq⟩ := e.exists_of_mem_tokens hmem
  cases heq

namespace Options

variable (o : Options)

/-- The bytes of an array of bytes that is shown by their number only, and the file offset of the
first of them. -/
def abbreviatedArray? (v : ArrayValue) : Option (List UInt8 × Nat) :=
  v.raw.bind fun raw =>
    if v.element = .ubyte ∧ o.arrayText v = "[ " ++ decimal raw.length ++ " bytes ]" then
      some (raw, v.dataOffset)
    else none

/-- The array that the listing of a token abbreviates. -/
def abbreviated? : Token → Option (List UInt8 × Nat)
  | .attr a =>
    match a.value with
    | .array v => o.abbreviatedArray? v
    | _ => none
  | _ => none

/-- A text has dumps of these bytes in this order, each as a block of whole lines at some level. -/
def HasDumps : List (List UInt8 × Nat) → String → Prop
  | [], _ => True
  | (raw, place) :: arrays, text => ∃ level before behind,
    text = unlines before ++ (o.hexDump raw place level ++ behind) ∧ HasDumps arrays behind

/-- The listing of tokens dumps the arrays that it abbreviates. -/
def DumpsArrays (ts : List Token) : Prop :=
  o.HasDumps (ts.filterMap o.abbreviated?) (o.listing ts)

/-- The arrays that the listing of attributes abbreviates. -/
def abbreviatedOf (as : List Attribute) : List (List UInt8 × Nat) :=
  as.filterMap fun a => o.abbreviated? (.attr a)

variable {o : Options}

/-- Dumps at one level, one after the other, are what a text has to have. -/
theorem hasDumps_flatMap (arrays : List (List UInt8 × Nat)) (level : Int)
    (front behind : List String) : o.HasDumps arrays (unlines (front ++
      (arrays.flatMap (fun x => HexDump.lines o x.1 x.2 level) ++ behind))) := by
  induction arrays generalizing front with
  | nil => trivial
  | cons x arrays ih =>
    obtain ⟨raw, place⟩ := x
    have hrest := ih []
    rw [List.nil_append] at hrest
    refine ⟨level, front, _, ?_, hrest⟩
    rw [List.flatMap_cons, List.append_assoc, unlines_append, unlines_append, hexDump]

/-- The text of an array of bytes is its abbreviation, unless it is quoted or has no bytes. -/
theorem arrayText_eq_abbreviation_iff (hhex : o.dumpHex = true) {v : ArrayValue} {raw : List UInt8}
    (hraw : v.raw = some raw) (hitems : v.items = raw.map .ubyte) :
    o.arrayText v = "[ " ++ decimal raw.length ++ " bytes ]" ↔
      (!raw.isEmpty && !(o.textArrays && isQuotable raw)) = true := by
  unfold arrayText
  rw [hraw]
  dsimp only
  cases hquoted : (o.textArrays && isQuotable raw) with
  | true =>
    rw [if_pos rfl, Bool.not_true, Bool.and_false]
    refine iff_of_false (fun heq => ?_) Bool.false_ne_true
    have hfirst := congrArg (fun text => text.toList.head?) heq
    simp at hfirst
  | false =>
    rw [if_neg Bool.false_ne_true, hhex, Bool.true_and, Bool.not_false, Bool.and_true]
    cases raw with
    | nil =>
      rw [hitems]
      decide
    | cons b raw => exact iff_of_true rfl rfl

/-- So an array of bytes is abbreviated if it has bytes and is not quoted. -/
theorem abbreviatedArray?_eq (hhex : o.dumpHex = true) {v : ArrayValue} {raw : List UInt8}
    (helement : v.element = .ubyte) (hraw : v.raw = some raw) (hitems : v.items = raw.map .ubyte) :
    o.abbreviatedArray? v =
      if !raw.isEmpty && !(o.textArrays && isQuotable raw) then some (raw, v.dataOffset)
      else none := by
  unfold abbreviatedArray?
  rw [hraw, Option.bind_some]
  simp only [helement, true_and, arrayText_eq_abbreviation_iff hhex hraw hitems]

/-- An array that was read is dumped if and only if it is abbreviated. -/
theorem arrayDump_eq (hhex : o.dumpHex = true) (level : Int) {a : Attribute} (ha : a.IsRead) :
    o.arrayDump level a =
      ((o.abbreviated? (.attr a)).map fun x => HexDump.lines o x.1 x.2 level).getD [] := by
  obtain ⟨w, offset, rfl⟩ := ha
  unfold arrayDump abbreviated? WrittenAttribute.token
  dsimp only
  cases w.operand with
  | byteArray width raw fits =>
    dsimp only [Operand.value]
    rw [abbreviatedArray?_eq hhex rfl rfl rfl, hhex, Bool.and_true]
    split <;> rfl
  | array width element other items typed fits => cases element <;> rfl
  | scalar x => rfl
  | pair x y same => rfl
  | quad p q r s same => rfl

/-- An array that was read and is abbreviated has bytes. -/
theorem ne_nil_of_abbreviated? (hhex : o.dumpHex = true) {a : Attribute} (ha : a.IsRead)
    {x : List UInt8 × Nat} (hx : o.abbreviated? (.attr a) = some x) : x.1 ≠ [] := by
  obtain ⟨w, offset, rfl⟩ := ha
  unfold abbreviated? WrittenAttribute.token at hx
  dsimp only at hx
  cases hw : w.operand with
  | byteArray width raw fits =>
    rw [hw] at hx
    dsimp only [Operand.value] at hx
    rw [abbreviatedArray?_eq hhex rfl rfl rfl] at hx
    split at hx
    · rename_i hdumped
      obtain ⟨hbytes, -⟩ := Bool.and_eq_true_iff.1 hdumped
      rw [← Option.some.inj hx]
      simpa using hbytes
    · cases hx
  | _ =>
    rw [hw] at hx
    cases hx

/-- The dumps of attributes are those of the arrays that are abbreviated. -/
theorem flatMap_arrayDump (hhex : o.dumpHex = true) (level : Int) {as : List Attribute}
    (has : ∀ a ∈ as, a.IsRead) : as.flatMap (o.arrayDump level) =
      (o.abbreviatedOf as).flatMap fun x => HexDump.lines o x.1 x.2 level := by
  induction as with
  | nil => rfl
  | cons a as ih =>
    have hrest := ih fun b hb => has b (List.mem_cons_of_mem _ hb)
    rw [List.flatMap_cons, arrayDump_eq hhex level (has a List.mem_cons_self), hrest,
      abbreviatedOf, abbreviatedOf, List.filterMap_cons]
    cases o.abbreviated? (.attr a) with
    | none => rfl
    | some x => rfl

/-- Only attributes are abbreviated. -/
theorem filterMap_abbreviated?_append (as : List Attribute) {ts : List Token}
    (hts : ∀ a, .attr a ∉ ts) :
    (as.map Token.attr ++ ts).filterMap o.abbreviated? = o.abbreviatedOf as := by
  have hnone : ts.filterMap o.abbreviated? = [] := by
    refine List.filterMap_eq_nil_iff.2 fun t ht => ?_
    cases t with
    | attr a => exact absurd ht (hts a)
    | operator op => rfl
    | payload p => rfl
    | jobEnd offset => rfl
  rw [List.filterMap_append, hnone, List.append_nil, List.filterMap_map]
  rfl

/-- The tokens of an operator, in front of the end of a run or not, have their arrays dumped. -/
theorem dumpsArrays_of_belongTo (hhex : o.dumpHex = true) {op : Operator} {ts us : List Token}
    (h : BelongTo op ts) (hread : ∀ a, .attr a ∈ ts → a.IsRead) (hus : ∀ a, .attr a ∉ us) :
    o.DumpsArrays (ts ++ us) := by
  obtain ⟨as, ps, rfl⟩ := h
  have has : ∀ a ∈ as, a.IsRead := fun a ha =>
    hread a (List.mem_append_left _ (List.mem_map_of_mem ha))
  have harrays : (as.map Token.attr ++ Token.operator op :: ps.map Token.payload ++ us).filterMap
      o.abbreviated? = o.abbreviatedOf as := by
    rw [List.append_assoc]
    exact filterMap_abbreviated?_append as fun a hmem => by simp [hus] at hmem
  have hlines : o.lines (as.map .attr ++ .operator op :: ps.map .payload ++ us) =
      ["", o.operatorComment op, o.indent op.level ++
        String.join (as.map fun a => o.attributeText a ++ " ") ++ op.name] ++
      (((o.abbreviatedOf as).flatMap fun x => HexDump.lines o x.1 x.2 op.level) ++
        (ps.flatMap (o.payloadLines op.level) ++ o.linesAfter [] op.level us)) := by
    unfold lines
    rw [linesAfter_operator, operatorLines, flatMap_arrayDump hhex op.level has, List.append_assoc]
  unfold DumpsArrays listing
  rw [harrays, hlines]
  exact hasDumps_flatMap _ _ _ _

/-- The characters that a line of a dump can start with: a space, a dot or a digit of an address. -/
def isDumpStart (c : Char) : Bool :=
  c == ' ' || c == '.' || (hexDigit? c).isSome

/-- A text that starts as a line of a dump can. -/
def StartsDump (cs : List Char) : Prop :=
  ∃ c, cs.head? = some c ∧ isDumpStart c = true

/-- How a text starts does not depend on what follows it. -/
theorem StartsDump.append {cs : List Char} (h : StartsDump cs) (ds : List Char) :
    StartsDump (cs ++ ds) := by
  obtain ⟨c, hc, hstart⟩ := h
  exact ⟨c, by rw [List.head?_append, hc, Option.some_or], hstart⟩

/-- Spaces in front leave it the start of a line of a dump. -/
theorem StartsDump.behind_spaces {cs : List Char} (h : StartsDump cs) (n : Nat) :
    StartsDump (List.replicate n ' ' ++ cs) := by
  cases n with
  | zero => exact h
  | succ n => exact ⟨' ', rfl, rfl⟩

/-- An address is such a start. -/
theorem startsDump_hex (n : Nat) : StartsDump (hex 8 n).toList := by
  have hdigits := isSome_hexDigit? (hexNumber?_hex 8 n)
  cases hchars : (hex 8 n).toList with
  | nil =>
    have hlength := le_length_hex 8 n
    rw [hchars] at hlength
    cases hlength
  | cons c cs =>
    have hc := hdigits c (by rw [hchars]; exact List.mem_cons_self)
    exact ⟨c, rfl, by rw [isDumpStart, hc, Bool.or_true]⟩

/-- Every line of a dump starts so. -/
theorem startsDump_of_mem_lines (raw : List UInt8) (place : Nat) (level : Int) :
    ∀ line ∈ HexDump.lines o raw place level, StartsDump line.toList := by
  have hindent : (o.indent level).toList = List.replicate (level.toNat * o.indentWidth) ' ' :=
    String.toList_ofList
  intro line hline
  rw [lines_eq] at hline
  rcases List.mem_append.1 hline with hrow | hmore
  · obtain ⟨r, -, rfl⟩ := List.mem_map.1 hrow
    rw [indent, DumpRow.toList_line]
    exact ((startsDump_hex r.address).append _).behind_spaces _
  · split at hmore
    · cases hmore
    · have hdots : StartsDump "... ".toList := ⟨'.', by decide, rfl⟩
      rw [List.mem_singleton.1 hmore]
      simp only [String.toList_append, hindent, List.append_assoc]
      exact (hdots.append _).behind_spaces _

/-- A dump of bytes has a line, if only the one that counts what is left out. -/
theorem hexDump_lines_ne_nil {raw : List UInt8} (hraw : raw ≠ []) (place : Nat) (level : Int) :
    HexDump.lines o raw place level ≠ [] := by
  intro hnil
  have hlength := List.length_pos_iff.2 hraw
  have hwidth : 0 < o.rowWidth := Nat.le_max_left _ _
  have hcount := length_lines (o := o) raw place level
  rw [hnil, List.length_nil, dumpLineCount] at hcount
  obtain ⟨hrows, hmore⟩ := Nat.add_eq_zero_iff.1 hcount.symm
  have hsmall := (Nat.div_eq_zero_iff_lt hwidth).1 hrows
  split at hmore
  · cases hmore
  · omega

/-- So the text of a dump of some bytes starts as a line of a dump. -/
theorem startsDump_hexDump {raw : List UInt8} (hraw : raw ≠ []) (place : Nat) (level : Int) :
    StartsDump (o.hexDump raw place level).toList := by
  have hstarts := startsDump_of_mem_lines (o := o) raw place level
  unfold hexDump
  cases hlines : HexDump.lines o raw place level with
  | nil => exact absurd hlines (hexDump_lines_ne_nil hraw place level)
  | cons line lines =>
    rw [toList_unlines_cons]
    exact (hstarts line (by rw [hlines]; exact List.mem_cons_self)).append _

/-- Lines that do not start so have no dump among them. -/
theorem not_hasDumps {arrays : List (List UInt8 × Nat)} {ls : List String}
    (hlines : ∀ l ∈ ls, OneLine l ∧ ∀ cs, ¬ StartsDump (l.toList ++ cs))
    (hbytes : ∀ x ∈ arrays, x.1 ≠ []) (harrays : arrays ≠ []) :
    ¬ o.HasDumps arrays (unlines ls) := by
  cases arrays with
  | nil => exact absurd rfl harrays
  | cons x arrays =>
    obtain ⟨raw, place⟩ := x
    rintro ⟨level, before, behind, htext, -⟩
    obtain ⟨k, hk⟩ := exists_drop_of_unlines_append (fun l hl => (hlines l hl).1) htext
    have hstarts := (startsDump_hexDump (o := o) (hbytes _ List.mem_cons_self) place level).append
      behind.toList
    rw [← String.toList_append, hk] at hstarts
    cases hdrop : ls.drop k with
    | nil =>
      rw [hdrop] at hstarts
      obtain ⟨c, hc, -⟩ := hstarts
      cases hc
    | cons l rest =>
      rw [hdrop, toList_unlines_cons] at hstarts
      exact (hlines l (List.mem_of_mem_drop (hdrop ▸ List.mem_cons_self))).2 _ hstarts

/-- A text with another character in front does not start so, whatever follows it. -/
theorem not_startsDump_append {as : List Char} {c : Char} (has : as.head? = some c)
    (hc : isDumpStart c = false) (cs : List Char) : ¬ StartsDump (as ++ cs) := by
  rintro ⟨d, hd, hstart⟩
  rw [List.head?_append, has, Option.some_or] at hd
  rw [← Option.some.inj hd, hc] at hstart
  cases hstart

/-- The line of attributes starts with the keyword of a data type. -/
theorem not_startsDump_attributeText (a : Attribute) (cs : List Char) :
    ¬ StartsDump ((o.attributeText a).toList ++ cs) := by
  have hname : ∀ t : DataType, ∃ c, t.name.toList.head? = some c ∧ isDumpStart c = false := by
    rintro ⟨form, element⟩
    cases form <;> cases element <;> exact ⟨_, rfl, by decide⟩
  obtain ⟨c, hc, hnot⟩ := hname a.value.dataType
  unfold attributeText
  simp only [String.toList_append, List.append_assoc]
  exact not_startsDump_append hc hnot _

/-- The lines of left-over attributes and the end of a run are not those of a dump. -/
theorem not_startsDump_leftover {as : List Attribute} (hread : ∀ a ∈ as, a.IsRead) (e : Ending) :
    ∀ l ∈ o.leftoverLines 0 as ++ o.lines e.tokens,
      OneLine l ∧ ∀ cs, ¬ StartsDump (l.toList ++ cs) := by
  intro l hl
  rcases List.mem_append.1 hl with hattrs | hend
  · cases as with
    | nil => cases hattrs
    | cons a as =>
      have hline : l = o.indent 0 ++ " ".intercalate ((a :: as).map o.attributeText) :=
        List.mem_singleton.1 hattrs
      have hindent : o.indent 0 = "" := by
        rw [indent, Int.toNat_zero, Nat.zero_mul]
        rfl
      rw [hindent, String.empty_append] at hline
      rw [hline]
      refine ⟨(Printable.intercalate (by decide) fun text htext => ?_).oneLine, fun cs => ?_⟩
      · obtain ⟨b, hb, rfl⟩ := List.mem_map.1 htext
        exact (hread b hb).printable_text o
      · cases as with
        | nil => exact not_startsDump_attributeText a cs
        | cons b as =>
          rw [List.map_cons, List.map_cons, String.intercalate_cons_cons]
          simp only [String.toList_append, List.append_assoc]
          exact not_startsDump_attributeText a _
  · cases e with
    | jobEnd offset =>
      rw [List.mem_singleton.1 hend]
      exact ⟨by decide, not_startsDump_append rfl (by decide)⟩
    | exhausted offset needed atBoundary => cases hend
    | failed fault => cases hend

/-- Left-over attributes in front of the end of a run have none of their arrays dumped. -/
theorem dumpsArrays_leftover_iff (hhex : o.dumpHex = true) {as : List Attribute}
    (hread : ∀ a ∈ as, a.IsRead) (e : Ending) :
    o.DumpsArrays (as.map .attr ++ e.tokens) ↔ o.abbreviatedOf as = [] := by
  have harrays : (as.map Token.attr ++ e.tokens).filterMap o.abbreviated? = o.abbreviatedOf as :=
    filterMap_abbreviated?_append as e.attr_notMem_tokens
  have hlines : o.lines (as.map .attr ++ e.tokens) = o.leftoverLines 0 as ++ o.lines e.tokens :=
    o.linesAfter_leftover 0 as e
  unfold DumpsArrays listing
  rw [harrays, hlines]
  by_cases hnil : o.abbreviatedOf as = []
  · rw [hnil]
    exact iff_of_true trivial rfl
  · refine iff_of_false (not_hasDumps (not_startsDump_leftover hread e) (fun x hx => ?_) hnil) hnil
    obtain ⟨a, ha, hx⟩ := List.mem_filterMap.1 hx
    exact ne_nil_of_abbreviated? hhex (hread a ha) hx

/-- Of what an interrupted step leaves, the arrays that are abbreviated are dumped if and only if the
operator was read. -/
theorem dumpsArrays_of_unfinished (hhex : o.dumpHex = true) {ts : List Token}
    (hts : (∃ as : List Attribute, ts = as.map .attr) ∨ ∃ op, BelongTo op ts)
    (hread : ∀ a, .attr a ∈ ts → a.IsRead) (e : Ending) : o.DumpsArrays (ts ++ e.tokens) ↔
      (∃ op, .operator op ∈ ts ++ e.tokens) ∨ (ts ++ e.tokens).filterMap o.abbreviated? = [] := by
  rcases hts with ⟨as, rfl⟩ | ⟨op, hop⟩
  · have has : ∀ a ∈ as, a.IsRead := fun a ha => hread a (List.mem_map_of_mem ha)
    have hnone : ¬ ∃ op, Token.operator op ∈ as.map Token.attr ++ e.tokens := by
      rintro ⟨op, hop⟩
      rcases List.mem_append.1 hop with hattr | hend
      · obtain ⟨a, -, heq⟩ := List.mem_map.1 hattr
        cases heq
      · obtain ⟨offset, heq⟩ := e.exists_of_mem_tokens hend
        cases heq
    rw [dumpsArrays_leftover_iff hhex has, or_iff_right hnone,
      filterMap_abbreviated?_append as e.attr_notMem_tokens]
  · have hdumps := dumpsArrays_of_belongTo hhex hop hread e.attr_notMem_tokens
    have hoperator : Token.operator op ∈ ts := by
      obtain ⟨as, ps, rfl⟩ := hop
      exact List.mem_append_right _ List.mem_cons_self
    exact iff_of_true hdumps (.inl ⟨op, List.mem_append_left _ hoperator⟩)

/-- A listing dumps the arrays that it abbreviates wherever their operator was read: for every
complete step, and for a step that was cut off behind its operator. What a step leaves that was cut
off in front of its operator has no dump at all. -/
theorem dumpsArrays_of_step (o : Options) (hhex : o.dumpHex = true) (s : Session) :
    (∀ ts s', s.step = (.sequence ts, s') → o.DumpsArrays ts) ∧
    ∀ e s', s.phase = .scanning → s.step = (.ended e, s') →
      ∀ ts, ts = s'.unfinished ∨ ts = s'.unfinished ++ e.tokens →
        (o.DumpsArrays ts ↔
          (∃ op, .operator op ∈ ts) ∨ ts.filterMap o.abbreviated? = []) := by
  have hread : ∀ a, .attr a ∈ s.skipSpace.pass.tokens → a.IsRead := fun a ha =>
    AttributeList.isRead_attributes _ a (Session.mem_attributes_of_mem_pass ha)
  constructor
  · intro ts s' hstep
    obtain ⟨op, hop⟩ := Session.belongTo_of_step hstep
    obtain ⟨-, -, rfl, -⟩ := Session.step_eq_sequence_iff.1 hstep
    have hdumps : o.DumpsArrays (s.skipSpace.pass.tokens ++ []) :=
      dumpsArrays_of_belongTo hhex hop hread fun a ha => by cases ha
    rwa [List.append_nil] at hdumps
  · intro e s' hphase hstep ts hts
    have hleft := Session.unfinished_of_step_ended hphase hstep
    rw [← Session.unfinished_of_step hphase hstep] at hread
    rcases hts with rfl | rfl
    · -- Without the end of the run the tokens are as at the end of the bytes, which gives none.
      have hbare := dumpsArrays_of_unfinished hhex hleft hread (.exhausted 0 0 true)
      have htokens : (Ending.exhausted 0 0 true).tokens = [] := rfl
      rwa [htokens, List.append_nil] at hbare
    · exact dumpsArrays_of_unfinished hhex hleft hread e

/-- A palette of three bytes that are not all printable. -/
def shortPalette : List UInt8 :=
  [0xC8, 0xC0, 0x03, 0x00, 0xFF, 0x01, 0xF8, 0x06]

/-- The palette is dumped in front of `SetColorSpace`, and in front of a data block that is cut
off. -/
theorem dumpsArrays_of_step_shortPalette :
    (∃ ts s', (Session.onSample (shortPalette ++ [0x6A])).step = (.sequence ts, s') ∧
      ts.filterMap ({} : Options).abbreviated? = [([0x00, 0xFF, 0x01], 19)] ∧
      ({} : Options).DumpsArrays ts) ∧
    ∃ s', (Session.onSample (shortPalette ++ [0xFB, 0x09])).step =
        (.ended (.exhausted 26 9 false), s') ∧
      s'.unfinished.filterMap ({} : Options).abbreviated? = [([0x00, 0xFF, 0x01], 19)] ∧
      ({} : Options).DumpsArrays s'.unfinished := by
  constructor
  · have hstep : (Session.onSample (shortPalette ++ [0x6A])).step =
        (.sequence [.attr ⟨6, "PaletteData", .array ⟨.ubyte, .ubyte, [.ubyte 0x00, .ubyte 0xFF,
          .ubyte 0x01], some [0x00, 0xFF, 0x01], 19⟩, none, 16⟩,
          .operator ⟨0x6A, "SetColorSpace", 16, 24, 0, some 1⟩], _) :=
      Prod.ext (by decide +kernel) rfl
    exact ⟨_, _, hstep, by decide +kernel, (dumpsArrays_of_step {} rfl _).1 _ _ hstep⟩
  · have hstep : (Session.onSample (shortPalette ++ [0xFB, 0x09])).step =
        (.ended (.exhausted 26 9 false), _) := Prod.ext (by decide +kernel) rfl
    have hoperator : Token.operator ⟨0xFB, "embedded_data_byte", 16, 24, 0, none⟩ ∈
        (Session.onSample (shortPalette ++ [0xFB, 0x09])).step.2.unfinished := by decide +kernel
    have hdumps := (dumpsArrays_of_step {} rfl _).2 _ _ rfl hstep _ (.inl rfl)
    exact ⟨_, hstep, by decide +kernel, hdumps.2 (.inl ⟨_, hoperator⟩)⟩

/-- In front of the end of the job its bytes are not in the listing. -/
theorem shortPalette_not_dumped :
    ∃ s', (Session.onSample (shortPalette ++ jobEndMarker)).phase = .scanning ∧
      (Session.onSample (shortPalette ++ jobEndMarker)).step = (.ended (.jobEnd 24), s') ∧
      s'.unfinished.filterMap ({} : Options).abbreviated? = [([0x00, 0xFF, 0x01], 19)] ∧
      ({} : Options).listing (s'.unfinished ++ [.jobEnd 24]) =
        "ubyte_array [ 3 bytes ] PaletteData\nstring* \\x1B%-12345X\n" ∧
      ¬ ({} : Options).DumpsArrays s'.unfinished ∧
      ¬ ({} : Options).DumpsArrays (s'.unfinished ++ [.jobEnd 24]) := by
  have hstep : (Session.onSample (shortPalette ++ jobEndMarker)).step =
      (.ended (.jobEnd 24), _) := Prod.ext (by decide +kernel) rfl
  have hunfinished : (Session.onSample (shortPalette ++ jobEndMarker)).step.2.unfinished =
      (AttributeList.read (Session.onSample (shortPalette ++ jobEndMarker)).cursor).attributes.map
        .attr := by decide +kernel
  have hread := AttributeList.isRead_attributes
    (Session.onSample (shortPalette ++ jobEndMarker)).cursor
  have harrays : ({} : Options).abbreviatedOf
      (AttributeList.read (Session.onSample (shortPalette ++ jobEndMarker)).cursor).attributes ≠
        [] := by decide +kernel
  have hnone := fun e => mt (dumpsArrays_leftover_iff (o := {}) rfl hread e).1 harrays
  refine ⟨_, rfl, hstep, by decide +kernel, by decide +kernel, ?_, ?_⟩
  · have hbare := hnone (.exhausted 24 1 false)
    have htokens : (Ending.exhausted 24 1 false).tokens = [] := rfl
    rwa [← hunfinished, htokens, List.append_nil] at hbare
  · have hend := hnone (.jobEnd 24)
    rwa [← hunfinished] at hend

end Options

end PclXl
