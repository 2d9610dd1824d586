import Mathlib.Algebra.GroupWithZero.Nat
import PclXl.Proofs.ArrayDumps

/-!
# Line counts

No byte of a stream breaks a line of its listing or adds one. Bytes reach a listing as digits, as
characters between quotes or as characters between bars, and all of them are printable there. So how
many lines the listing of a step has can be told from its tokens: three for an operator, those of
each dump, one for a data block that is not dumped, for attributes whose operator never came, and for
the end of the job.
-/

namespace PclXl

open Text

/-- Printable lines make up a text of printable characters, with a line feed for each of the lines. -/
theorem unlines_of_printable {ls : List String} (h : ∀ l ∈ ls, Printable l) :
    (∀ c ∈ (unlines ls).toList, c = '\n' ∨ 0x20 ≤ c.toNat ∧ c.toNat ≤ 0x7E) ∧
      (unlines ls).toList.count '\n' = ls.length := by
  induction ls with
  | nil =>
    refine ⟨fun c hc => ?_, rfl⟩
    cases hc
  | cons l ls ih =>
    have hfirst := h l List.mem_cons_self
    obtain ⟨hchars, hcount⟩ := ih fun m hm => h m (List.mem_cons_of_mem _ hm)
    rw [toList_unlines_cons]
    constructor
    · intro c hc
      rcases List.mem_append.1 hc with hline | hbehind
      · exact .inr (hfirst c hline)
      · rcases List.mem_cons.1 hbehind with hfeed | hrest
        · exact .inl hfeed
        · exact hchars c hrest
    · rw [List.count_append, List.count_eq_zero.2 hfirst.oneLine, List.count_cons_self, hcount,
        List.length_cons, Nat.zero_add]

/-- The name of an operator is a word. -/
theorem Vocabulary.word_operatorName {info : OperatorInfo} (h : info ∈ operators) :
    Word info.name := by
  have hall : ∀ info ∈ operators, Word info.name := by decide +kernel
  exact hall info h

namespace Options

variable (o : Options)

/-- Indentation is printable. -/
theorem printable_indent (level : Int) : Printable (o.indent level) :=
  printable_spaces _

/-- Dumped bytes are shown by digits and by printable characters. -/
theorem printable_hexDumpLines (bytes : List UInt8) (offset : Nat) (level : Int) :
    ∀ l ∈ HexDump.lines o bytes offset level, Printable l := by
  have hcell : ∀ cell, Printable (DumpRow.cellText cell) := by
    rintro (_ | b)
    · decide
    · exact (printable_hex 2 _).append (by decide)
  have hrow : ∀ r ∈ o.dumpRows bytes offset, Printable (r.line (o.indent level)) := by
    intro r hr
    have hcolon : Printable ": " := by decide
    have hbar : Printable "|" := by decide
    have hcells : Printable (String.join (r.cells.map DumpRow.cellText)) :=
      printable_join fun t ht => by
        obtain ⟨cell, -, rfl⟩ := List.mem_map.1 ht
        exact hcell cell
    have hshown : Printable (String.ofList r.shown) := by
      intro c hc
      rw [String.toList_ofList, (o.dumps_dumpRows bytes offset level).shown_eq r hr] at hc
      obtain ⟨b, -, rfl⟩ := List.mem_map.1 hc
      split
      · rename_i hprintable
        exact printable_ofNat_byte (isPrintable_iff.2 hprintable)
      · decide
    have haddress := ((o.printable_indent level).append (printable_hex 8 r.address)).append hcolon
    exact (((haddress.append hcells).append hbar).append hshown).append hbar
  intro l hl
  rw [lines_eq] at hl
  rcases List.mem_append.1 hl with hmem | hmore
  · obtain ⟨r, hr, rfl⟩ := List.mem_map.1 hmem
    exact hrow r hr
  · split at hmore
    · cases hmore
    · have hdots : Printable "... " := by decide
      rw [List.mem_singleton.1 hmore]
      exact (((o.printable_indent level).append hdots).append (printable_decimal _)).append
        (by decide)

/-- So is the comment in front of an operator. -/
theorem printable_operatorComment (op : Operator) : Printable (o.operatorComment op) := by
  have hslashes : Printable "//" := by decide
  have htag : Printable " Tag: 0x" := by decide
  have hlevel : Printable " Level: " := by decide
  unfold operatorComment
  refine (((((((o.printable_indent op.level).append hslashes).append ?position).append
    ?offset).append htag).append (printable_hex 2 _)).append hlevel).append
    (printable_signedDecimal _)
  case position =>
    have hposition : Printable " Operator Position: " := by decide
    split
    · exact hposition.append (printable_decimal _)
    · decide
  case offset =>
    have hoffset : Printable " File Offset: " := by decide
    have hopen : Printable " (0x" := by decide
    split
    · exact (((hoffset.append (printable_decimal _)).append hopen).append (printable_hex _ _)).append
        (by decide)
    · decide

/-- So are the lines of the dump of an attribute. -/
theorem printable_arrayDump (level : Int) (a : Attribute) :
    ∀ l ∈ o.arrayDump level a, Printable l := by
  unfold arrayDump
  split
  · split
    · exact o.printable_hexDumpLines _ _ _
    · intro l hl
      cases hl
  · intro l hl
    cases hl

/-- The lines of an operator of the language with attributes that were read are printable. -/
theorem printable_operatorLines {op : Operator} {as : List Attribute} (hname : Word op.name)
    (hread : ∀ a ∈ as, a.IsRead) : ∀ l ∈ o.operatorLines op as, Printable l := by
  have hattrs : Printable (String.join (as.map fun a => o.attributeText a ++ " ")) :=
    printable_join fun t ht => by
      obtain ⟨a, ha, rfl⟩ := List.mem_map.1 ht
      exact ((hread a ha).printable_text o).append (by decide)
  intro l hl
  rcases List.mem_append.1 hl with hthree | hdump
  · simp only [List.mem_cons, List.not_mem_nil, or_false] at hthree
    rcases hthree with rfl | rfl | rfl
    · decide
    · exact o.printable_operatorComment op
    · exact ((o.printable_indent op.level).append hattrs).append hname.printable
  · obtain ⟨a, -, hl⟩ := List.mem_flatMap.1 hdump
    exact o.printable_arrayDump op.level a l hl

/-- So are the lines of a data block. -/
theorem printable_payloadLines (level : Int) (p : Payload) :
    ∀ l ∈ o.payloadLines level p, Printable l := by
  have hslashes : Printable "// " := by decide
  have hbytes : Printable " bytes of data" := by decide
  have hplace : Printable " at 0x" := by decide
  unfold payloadLines
  split
  · exact o.printable_hexDumpLines _ _ _
  · intro l hl
    rw [List.mem_singleton.1 hl]
    refine ((((o.printable_indent level).append hslashes).append (printable_decimal _)).append
      hbytes).append ?_
    split
    · exact hplace.append (printable_hex _ _)
    · decide

/-- So is the line of attributes that were read and left over. -/
theorem printable_leftoverLines (level : Int) {as : List Attribute} (hread : ∀ a ∈ as, a.IsRead) :
    ∀ l ∈ o.leftoverLines level as, Printable l := by
  unfold leftoverLines
  split
  · intro l hl
    cases hl
  · intro l hl
    rw [List.mem_singleton.1 hl]
    refine (o.printable_indent level).append (Printable.intercalate (by decide) fun t ht => ?_)
    obtain ⟨a, ha, rfl⟩ := List.mem_map.1 ht
    exact (hread a ha).printable_text o

/-- So is the line for the end of the job. -/
theorem printable_ending (e : Ending) : ∀ l ∈ o.lines e.tokens, Printable l := by
  intro l hl
  cases e with
  | jobEnd offset =>
    rw [List.mem_singleton.1 hl]
    decide
  | exhausted offset needed atBoundary => cases hl
  | failed fault => cases hl

/-- How many lines the dump of an attribute's value has: none, unless the value is an array of some
bytes that is not shown as text. -/
def arrayLineCount (a : Attribute) : Nat :=
  match a.value with
  | .array ⟨.ubyte, _, _, some raw, _⟩ =>
    if o.dumpHex = true ∧ raw ≠ [] ∧ ¬ (o.textArrays = true ∧ isQuotable raw = true) then
      o.dumpLineCount raw
    else 0
  | _ => 0

/-- How many lines a token has of its own. Attributes have dumps only if their operator came. -/
def tokenLineCount (complete : Bool) : Token → Nat
  | .attr a => if complete then o.arrayLineCount a else 0
  | .operator _ => 3
  | .payload p => if o.dumpHex = true ∧ p.bytes ≠ [] then o.dumpLineCount p.bytes else 1
  | .jobEnd _ => 1

/-- How many lines the tokens of a step have: those of each token, and one for attributes whose
operator never came. -/
def lineCount (ts : List Token) : Nat :=
  let complete := ts.any fun t => t.operator?.isSome
  let leftover := !complete && ts.any fun t => match t with
    | .attr _ => true
    | _ => false
  (ts.map (o.tokenLineCount complete)).sum + if leftover then 1 else 0

/-- The dump of an attribute has as many lines as are counted for it. -/
theorem length_arrayDump (level : Int) (a : Attribute) :
    (o.arrayDump level a).length = o.arrayLineCount a := by
  unfold arrayDump arrayLineCount
  cases a.value with
  | array v =>
    obtain ⟨element, countType, items, raw, dataOffset⟩ := v
    cases element with
    | ubyte =>
      cases raw with
      | none => rfl
      | some raw =>
        have htest : (!raw.isEmpty && o.dumpHex && !(o.textArrays && isQuotable raw)) = true ↔
            o.dumpHex = true ∧ raw ≠ [] ∧ ¬ (o.textArrays = true ∧ isQuotable raw = true) := by
          simp only [Bool.and_eq_true, Bool.not_eq_true', Bool.and_eq_false_iff,
            List.isEmpty_eq_false_iff]
          grind
        dsimp only
        simp only [htest]
        split
        · exact length_lines raw dataOffset level
        · rfl
    | _ => rfl
  | _ => rfl

/-- So has a data block. -/
theorem length_payloadLines (complete : Bool) (level : Int) (p : Payload) :
    (o.payloadLines level p).length = o.tokenLineCount complete (.payload p) := by
  have htest : (o.dumpHex && !p.bytes.isEmpty) = true ↔ o.dumpHex = true ∧ p.bytes ≠ [] := by
    simp
  unfold payloadLines tokenLineCount
  simp only [htest]
  split
  · exact length_lines p.bytes p.offset level
  · rfl

/-- Left-over attributes take one line, if there are any. -/
theorem length_leftoverLines (level : Int) (as : List Attribute) :
    (o.leftoverLines level as).length = if as.isEmpty then 0 else 1 := by
  unfold leftoverLines
  split <;> rfl

/-- The end of the job takes the line that is counted for it. -/
theorem length_ending (complete : Bool) (e : Ending) :
    (o.lines e.tokens).length = (e.tokens.map (o.tokenLineCount complete)).sum := by
  cases e with
  | jobEnd offset => rfl
  | exhausted offset needed atBoundary => rfl
  | failed fault => rfl

/-- An operator, its attributes and its data blocks have as many lines as they are counted with. -/
theorem length_lines_operator (as : List Attribute) (op : Operator) (ps : List Payload)
    (e : Ending) : (o.lines (as.map .attr ++ .operator op :: ps.map .payload ++ e.tokens)).length =
      o.lineCount (as.map .attr ++ .operator op :: ps.map .payload ++ e.tokens) := by
  have hcomplete : (as.map Token.attr ++ Token.operator op :: ps.map Token.payload ++
      e.tokens).any (fun t => t.operator?.isSome) = true :=
    List.any_eq_true.2 ⟨.operator op, by simp, rfl⟩
  have hattrs : (as.map fun a => (o.arrayDump op.level a).length) =
      as.map fun a => o.tokenLineCount true (.attr a) :=
    List.map_congr_left fun a _ => o.length_arrayDump op.level a
  have hpayloads : (ps.map fun p => (o.payloadLines op.level p).length) =
      ps.map fun p => o.tokenLineCount true (.payload p) :=
    List.map_congr_left fun p _ => o.length_payloadLines true op.level p
  have hend := o.length_ending true e
  rw [← o.linesAfter_tokens op.level e] at hend
  unfold lines lineCount
  rw [linesAfter_operator, hcomplete]
  simp only [operatorLines, List.length_append, List.length_flatMap, hattrs, hpayloads, hend,
    List.map_append, List.map_cons, List.map_map, List.sum_append, List.sum_cons, List.length_cons,
    List.length_nil, Bool.not_true, Bool.false_and, Bool.false_eq_true, if_false, Function.comp_def]
  have hthree : o.tokenLineCount true (.operator op) = 3 := rfl
  omega

/-- Attributes without an operator have one line. -/
theorem length_lines_leftover (as : List Attribute) (e : Ending) :
    (o.lines (as.map .attr ++ e.tokens)).length = o.lineCount (as.map .attr ++ e.tokens) := by
  have hnone : (as.map Token.attr ++ e.tokens).any (fun t => t.operator?.isSome) = false := by
    refine List.any_eq_false.2 fun t ht => ?_
    rcases List.mem_append.1 ht with hattr | hend
    · obtain ⟨a, -, rfl⟩ := List.mem_map.1 hattr
      exact Bool.false_ne_true
    · obtain ⟨offset, rfl⟩ := e.exists_of_mem_tokens hend
      exact Bool.false_ne_true
  have hattrs : ∀ as : List Attribute,
      ((as.map Token.attr).map (o.tokenLineCount false)).sum = 0 := by
    intro as
    induction as with
    | nil => rfl
    | cons a as ih =>
      rw [List.map_cons, List.map_cons, List.sum_cons, ih]
      rfl
  have hsome : ((as.map Token.attr ++ e.tokens).any fun t => match t with
      | .attr _ => true
      | _ => false) = !as.isEmpty := by
    have hrest : (e.tokens.any fun t => match t with
        | .attr _ => true
        | _ => false) = false := by
      cases e <;> rfl
    rw [List.any_append, hrest, Bool.or_false]
    cases as <;> rfl
  have hlines : o.lines (as.map .attr ++ e.tokens) = o.leftoverLines 0 as ++ o.lines e.tokens :=
    o.linesAfter_leftover 0 as e
  unfold lineCount
  rw [hlines, hnone, hsome, List.length_append, length_leftoverLines, o.length_ending false]
  dsimp only
  rw [List.map_append, List.sum_append, hattrs]
  cases as with
  | nil => rfl
  | cons a as =>
    change 1 + _ = 0 + _ + 1
    omega

/-- The listing of tokens is made of whole lines of printable characters, as many as the tokens
have. -/
structure ListsLines (ts : List Token) : Prop where
  /-- Every character is printable or a line feed. -/
  printable : ∀ c ∈ (o.listing ts).toList, c = '\n' ∨ 0x20 ≤ c.toNat ∧ c.toNat ≤ 0x7E
  /-- The text is empty or ends in a line feed. -/
  whole : (o.listing ts).toList = [] ∨ ∃ cs, (o.listing ts).toList = cs ++ ['\n']
  /-- There are as many line feeds as lines. -/
  count_eq : (o.listing ts).toList.count '\n' = o.lineCount ts

variable {o}

/-- Printable lines of the right number are listed as they should be. -/
theorem listsLines_of_lines {ts : List Token} (hprintable : ∀ l ∈ o.lines ts, Printable l)
    (hlength : (o.lines ts).length = o.lineCount ts) : o.ListsLines ts := by
  obtain ⟨hchars, hcount⟩ := unlines_of_printable hprintable
  exact ⟨hchars, toList_unlines_eq_nil_or_concat _, hcount.trans hlength⟩

/-- What a pass has read is listed so, whether it completed an operator or not, also in front of the
end of a run. -/
theorem listsLines_of_pass (s : Session) (e : Ending) :
    o.ListsLines (s.pass.tokens ++ e.tokens) := by
  have hread := AttributeList.isRead_attributes s.cursor
  rcases s.pass_tokens with ⟨-, htokens⟩ | ⟨info, hinfo, tagOffset, ps, htokens⟩
  · rw [htokens]
    refine listsLines_of_lines (fun l hl => ?_) (o.length_lines_leftover _ e)
    unfold lines at hl
    rw [linesAfter_leftover] at hl
    rcases List.mem_append.1 hl with hattrs | hend
    · exact o.printable_leftoverLines 0 hread l hattrs
    · exact o.printable_ending e l hend
  · rw [htokens]
    refine listsLines_of_lines (fun l hl => ?_) (o.length_lines_operator _ _ ps e)
    unfold lines at hl
    rw [linesAfter_operator, linesAfter_tokens] at hl
    rcases List.mem_append.1 hl with hoperator | hbehind
    · exact o.printable_operatorLines (Vocabulary.word_operatorName hinfo) hread l hoperator
    · rcases List.mem_append.1 hbehind with hpayload | hend
      · obtain ⟨p, -, hl⟩ := List.mem_flatMap.1 hpayload
        exact o.printable_payloadLines _ p l hl
      · exact o.printable_ending e l hend

/-- So without the end of the run: the end of the bytes gives no token. -/
theorem listsLines_of_pass_bare (s : Session) : o.ListsLines s.pass.tokens := by
  have hbare := listsLines_of_pass (o := o) s (.exhausted 0 0 true)
  have htokens : (Ending.exhausted 0 0 true).tokens = [] := rfl
  rwa [htokens, List.append_nil] at hbare

/-- No byte of a stream breaks or forges a line of its listing. The listing of a step, complete or
not, in front of the end of the run or not, consists of printable characters and line feeds, is empty
or ends in a line feed, and has exactly the lines that its tokens are counted with. -/
theorem listsLines_of_step (o : Options) (s : Session) :
    (∀ ts s', s.step = (.sequence ts, s') → o.ListsLines ts) ∧
    ∀ e s', s.phase = .scanning → s.step = (.ended e, s') →
      ∀ ts, ts = s'.unfinished ∨ ts = s'.unfinished ++ e.tokens → o.ListsLines ts := by
  constructor
  · intro ts s' hstep
    obtain ⟨-, -, rfl, -⟩ := Session.step_eq_sequence_iff.1 hstep
    exact listsLines_of_pass_bare s.skipSpace
  · intro e s' hphase hstep ts hts
    rw [Session.unfinished_of_step hphase hstep] at hts
    rcases hts with rfl | rfl
    · exact listsLines_of_pass_bare s.skipSpace
    · exact listsLines_of_pass s.skipSpace e

/-- In front of `SetColorSpace` a palette is dumped in one row. In front of the end of the job it
has a line of its own, without a dump. -/
theorem listsLines_of_step_shortPalette :
    (∃ ts s', (Session.onSample (shortPalette ++ [0x6A])).step = (.sequence ts, s') ∧
      ({} : Options).lineCount ts = 4 ∧ ({} : Options).ListsLines ts) ∧
    ∃ s', (Session.onSample (shortPalette ++ jobEndMarker)).step = (.ended (.jobEnd 24), s') ∧
      ({} : Options).lineCount (s'.unfinished ++ [.jobEnd 24]) = 2 ∧
      ({} : Options).ListsLines (s'.unfinished ++ [.jobEnd 24]) := by
  constructor
  · have hstep : (Session.onSample (shortPalette ++ [0x6A])).step =
        (.sequence [.attr ⟨6, "PaletteData", .array ⟨.ubyte, .ubyte, [.ubyte 0x00, .ubyte 0xFF,
          .ubyte 0x01], some [0x00, 0xFF, 0x01], 19⟩, none, 16⟩,
          .operator ⟨0x6A, "SetColorSpace", 16, 24, 0, some 1⟩], _) :=
      Prod.ext (by decide +kernel) rfl
    exact ⟨_, _, hstep, by decide +kernel, (listsLines_of_step {} _).1 _ _ hstep⟩
  · have hstep : (Session.onSample (shortPalette ++ jobEndMarker)).step =
        (.ended (.jobEnd 24), _) := Prod.ext (by decide +kernel) rfl
    exact ⟨_, hstep, by decide +kernel,
      (listsLines_of_step {} _).2 _ _ rfl hstep _ (.inr rfl)⟩

end Options

end PclXl
