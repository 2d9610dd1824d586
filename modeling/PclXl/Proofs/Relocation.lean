import PclXl.Proofs.JobEndPrecedence

/-!
# Bytes in front of a stream

What stands in front of a stream in its file only moves the file offsets. Every reader commutes with
a move of its cursor: it gives the same result with all offsets moved, or the same interrupt moved.
So does a step of a session, and so does a whole run. A stream with the name of the language and a
line feed always opens, and it is found behind whatever does not hold that name.
-/

namespace PclXl

open Cursor Text

/-- A value that stands further back in its file. -/
def Value.shift (n : Nat) : Value → Value
  | scalar x => scalar x
  | pair x y => pair x y
  | quad a b c d => quad a b c d
  | array v => array { v with dataOffset := v.dataOffset + n }

/-- An attribute that stands further back in its file. -/
def Attribute.shift (n : Nat) (a : Attribute) : Attribute :=
  { a with value := a.value.shift n, offset := a.offset + n }

/-- An operator that stands further back in its file. -/
def Operator.shift (n : Nat) (op : Operator) : Operator :=
  { op with offset := op.offset + n, tagOffset := op.tagOffset + n }

/-- A data block that stands further back in its file. -/
def Payload.shift (n : Nat) (p : Payload) : Payload :=
  { p with offset := p.offset + n }

/-- A token that stands further back in its file. -/
def Token.shift (n : Nat) : Token → Token
  | attr a => attr (a.shift n)
  | operator op => operator (op.shift n)
  | payload p => payload (p.shift n)
  | jobEnd offset => jobEnd (offset + n)

/-- A fault that shows further back in its file. -/
def Fault.shift (n : Nat) : Fault → Fault
  | missingHeader => missingHeader
  | unsupportedBinding offset found => unsupportedBinding (offset + n) found
  | unknownCode offset code kind => unknownCode (offset + n) code kind
  | typeMismatch offset name expected found => typeMismatch (offset + n) name expected found
  | missingAttribute offset operatorName name => missingAttribute (offset + n) operatorName name
  | endOfStream offset needed => endOfStream (offset + n) needed

/-- What stops a read further back in its file. -/
def Interrupt.shift (n : Nat) : Interrupt → Interrupt
  | jobEnd offset => jobEnd (offset + n)
  | fault f => fault (f.shift n)

/-- An ending further back in its file. -/
def Ending.shift (n : Nat) : Ending → Ending
  | jobEnd offset => jobEnd (offset + n)
  | exhausted offset needed atBoundary => exhausted (offset + n) needed atBoundary
  | failed f => failed (f.shift n)

/-- What a step gives further back in its file. -/
def Step.shift (n : Nat) : Step → Step
  | sequence tokens => sequence (tokens.map (Token.shift n))
  | ended ending => ended (ending.shift n)

/-- A phase of a session further back in its file. -/
def Phase.shift (n : Nat) : Phase → Phase
  | scanning => scanning
  | ended ending unfinished => ended (ending.shift n) (unfinished.map (Token.shift n))

/-- A cursor on a stream that stands further back in its file. -/
def Cursor.shift (n : Nat) (c : Cursor) : Cursor :=
  { c with base := c.base + n }

/-- What reading an attribute list further back in its file led to. -/
def AttributeList.shift (n : Nat) (list : AttributeList) : AttributeList where
  attributes := list.attributes.map (Attribute.shift n)
  interrupt := list.interrupt.map (Interrupt.shift n)
  cursor := list.cursor.shift n

/-- A session on a stream that stands further back in its file. -/
def Session.shift (n : Nat) (s : Session) : Session :=
  { s with cursor := s.cursor.shift n, phase := s.phase.shift n }

/-- What reading one operator further back in its file led to. -/
def Session.Pass.shift (n : Nat) (p : Session.Pass) : Session.Pass where
  tokens := p.tokens.map (Token.shift n)
  interrupt := p.interrupt.map (Interrupt.shift n)
  session := p.session.shift n

/-- A transcript of a stream that stands further back in its file. -/
def Transcript.shift (n : Nat) (t : Transcript) : Transcript where
  sequences := t.sequences.map (List.map (Token.shift n))
  ending := t.ending.shift n
  session := t.session.shift n

/-- A diagnosis of a stream that stands further back in its file. The bytes that it shows are the
same. -/
def Diagnosis.shift (n : Nat) (d : Diagnosis) : Diagnosis where
  fault := d.fault.shift n
  tokens := d.tokens.map (Token.shift n)
  contextOffset := d.contextOffset + n
  context := d.context

/-- A stream further back in its file, taken apart. The header has no offsets. -/
def Disassembly.shift (n : Nat) (d : Disassembly) : Disassembly where
  header := d.header
  tokens := d.tokens.map (Token.shift n)

namespace Cursor

@[simp] theorem rest_shift (n : Nat) (c : Cursor) : (c.shift n).rest = c.rest := rfl

/-- Moving on and shifting commute. -/
theorem advance_shift (n k : Nat) (c : Cursor) :
    (c.shift n).advance k = (c.advance k).shift n := rfl

/-- A shift adds to the place in the file. -/
theorem fileOffset_shift (n : Nat) (c : Cursor) :
    (c.shift n).fileOffset = c.fileOffset + n := by
  change c.base + n + c.position = c.base + c.position + n
  omega

/-- Passing a job-end marker and shifting commute. -/
theorem skipJobEnd_shift (n : Nat) (c : Cursor) :
    (c.shift n).skipJobEnd = c.skipJobEnd.shift n := by
  by_cases hmarker : c.atJobEnd = true
  · have hmoved : (c.shift n).atJobEnd = true := hmarker
    rw [skipJobEnd, skipJobEnd, if_pos hmarker, if_pos hmoved, advance_shift]
  · have hmoved : ¬ (c.shift n).atJobEnd = true := hmarker
    rw [skipJobEnd, skipJobEnd, if_neg hmarker, if_neg hmoved]

end Cursor

@[simp] theorem Value.scalar?_shift (n : Nat) (v : Value) : (v.shift n).scalar? = v.scalar? := by
  cases v <;> rfl

@[simp] theorem Value.dataType_shift (n : Nat) (v : Value) :
    (v.shift n).dataType = v.dataType := by
  cases v <;> rfl

/-- A shifted attribute declares the same length. -/
@[simp] theorem Attribute.vendorLength?_shift (n : Nat) (a : Attribute) :
    (a.shift n).vendorLength? = a.vendorLength? := by
  unfold vendorLength?
  cases hv : a.value <;> simp [Attribute.shift, Value.shift, hv]

/-- Moved attributes declare the same length of a data block. -/
theorem AttributeList.vendorLength?_shift (n : Nat) (list : AttributeList) :
    (list.shift n).vendorLength? = list.vendorLength? := by
  have hsame : Attribute.vendorLength? ∘ Attribute.shift n = Attribute.vendorLength? :=
    funext fun a => a.vendorLength?_shift n
  unfold vendorLength? AttributeList.shift
  rw [List.filterMap_map, hsame]

namespace Reader

/-- From a moved cursor the second reader gives what the first one gives, moved. -/
def Shifts {α β : Type} (n : Nat) (m : α → β) (r : Reader α) (r' : Reader β) : Prop :=
  ∀ c, r' (c.shift n) = match r c with
    | .ok a d => .ok (m a) (d.shift n)
    | .error i d => .error (i.shift n) (d.shift n)

section Composition

variable {α β γ δ : Type} {n : Nat}

/-- Readers one behind the other are moved one by one. -/
theorem Shifts.bind {m : α → β} {m' : γ → δ} {r : Reader α} {r' : Reader β} {f : α → Reader γ}
    {f' : β → Reader δ} (hr : Shifts n m r r') (hf : ∀ a, Shifts n m' (f a) (f' (m a))) :
    Shifts n m' (r >>= f) (r' >>= f') := by
  intro c
  have hfirst := hr c
  change EStateM.bind r' f' (c.shift n) = match EStateM.bind r f c with
    | .ok a d => .ok (m' a) (d.shift n)
    | .error i d => .error (i.shift n) (d.shift n)
  unfold EStateM.bind
  cases hc : r c with
  | ok a d =>
    rw [hc] at hfirst
    rw [hfirst]
    exact hf a d
  | error i d =>
    rw [hc] at hfirst
    rw [hfirst]

/-- A constant shifts to the shifted constant. -/
theorem shifts_pure {m : α → β} {a : α} {b : β} (h : b = m a) :
    Shifts n m (pure a) (pure b) := by
  intro c
  rw [h]
  rfl

/-- Functions that agree on shifted results keep readers apart by the shift. -/
theorem Shifts.map {m : α → β} {m' : γ → δ} {g : α → γ} {g' : β → δ} {r : Reader α}
    {r' : Reader β} (hr : Shifts n m r r') (hg : ∀ a, g' (m a) = m' (g a)) :
    Shifts n m' (g <$> r) (g' <$> r') := by
  rw [map_eq_pure_bind, map_eq_pure_bind]
  exact hr.bind fun a => shifts_pure (hg a)

/-- A failure shifts to the shifted fault. -/
theorem shifts_fail (m : α → β) (f : Fault) : Shifts n m (fail f) (fail (f.shift n)) :=
  fun _ => rfl

theorem shifts_get : Shifts n (Cursor.shift n) get get :=
  fun _ => rfl

theorem shifts_set (c : Cursor) : Shifts n id (set c : Reader PUnit) (set (c.shift n)) :=
  fun _ => rfl

end Composition

section Readers

variable {n : Nat}

/-- The place in the file grows by the shift. -/
theorem shifts_fileOffset : Shifts n (· + n) fileOffset fileOffset :=
  shifts_get.bind fun c => shifts_pure (c.fileOffset_shift n)

/-- The next byte is the same further back. -/
theorem shifts_peek : Shifts n id peek peek := by
  intro c
  have hoffset := c.fileOffset_shift n
  unfold peek
  by_cases hmarker : c.atJobEnd = true
  · have hmoved : (c.shift n).atJobEnd = true := hmarker
    rw [if_pos hmarker, if_pos hmoved, hoffset]
    rfl
  · have hmoved : ¬ (c.shift n).atJobEnd = true := hmarker
    rw [if_neg hmarker, if_neg hmoved, hoffset, rest_shift]
    cases c.rest with
    | nil => rfl
    | cons b bs => rfl

/-- A job-end marker stops the reader further back just as well. -/
theorem shifts_stopAtJobEnd (k : Nat) : Shifts n id (stopAtJobEnd k) (stopAtJobEnd k) := by
  intro c
  have hfirst : (c.shift n).jobEndWithin? k = c.jobEndWithin? k := rfl
  unfold stopAtJobEnd
  rw [hfirst]
  cases c.jobEndWithin? k with
  | none => rfl
  | some i =>
    have hplace : c.fileOffset + n + i = c.fileOffset + i + n := by omega
    simp only [fileOffset_shift, hplace]
    rfl

/-- Raw bytes are the same further back. -/
theorem shifts_takeRaw (k : Nat) : Shifts n id (takeRaw k) (takeRaw k) := by
  intro c
  have hoffset := c.fileOffset_shift n
  unfold takeRaw
  rw [rest_shift, hoffset]
  by_cases hshort : (c.rest.take k).length < k
  · rw [if_pos hshort, if_pos hshort]
    rfl
  · rw [if_neg hshort, if_neg hshort]
    rfl

/-- Bytes without a marker among them are the same further back. -/
theorem shifts_take (k : Nat) : Shifts n id (take k) (take k) :=
  (shifts_stopAtJobEnd k).bind fun _ => shifts_takeRaw k

theorem shifts_word (width : Nat) : Shifts n id (word width) (word width) :=
  (shifts_take width).bind fun _ => shifts_get.bind fun _ => shifts_pure rfl

theorem shifts_byte : Shifts n id byte byte :=
  (shifts_word 1).bind fun _ => shifts_pure rfl

theorem shifts_number (t : ElementType) : Shifts n id (number t) (number t) :=
  (shifts_word t.width).bind fun _ => shifts_pure rfl

/-- Runs of numbers are the same further back. -/
theorem shifts_numbers (t : ElementType) (k : Nat) : Shifts n id (numbers t k) (numbers t k) := by
  induction k with
  | zero => exact shifts_pure rfl
  | succ k ih => exact (shifts_number t).bind fun x => ih.bind fun xs => shifts_pure rfl

/-- As many bytes are skipped further back. -/
theorem shifts_skipWhile (p : UInt8 → Bool) : Shifts n id (skipWhile p) (skipWhile p) :=
  fun _ => rfl

/-- The elements of an array are the same further back, but for their place. -/
theorem shifts_elements (element countType : ElementType) (count : Nat) :
    Shifts n (fun v : ArrayValue => { v with dataOffset := v.dataOffset + n })
      (elements element countType count) (elements element countType count) := by
  refine shifts_fileOffset.bind fun dataOffset => ?_
  by_cases hbyte : element = .ubyte
  · rw [if_pos hbyte, if_pos hbyte]
    exact (shifts_take count).bind fun raw => shifts_pure rfl
  · rw [if_neg hbyte, if_neg hbyte]
    exact (shifts_numbers element count).bind fun items => shifts_pure rfl

/-- Arrays are the same further back, but for their place. -/
theorem shifts_array (element : ElementType) :
    Shifts n (fun v : ArrayValue => { v with dataOffset := v.dataOffset + n })
      (array element) (array element) := by
  refine shifts_fileOffset.bind fun sizeOffset => shifts_peek.bind fun sizeTag => ?_
  dsimp only [id]
  cases countType? sizeTag with
  | none => exact shifts_fail _ _
  | some countType =>
    exact shifts_byte.bind fun _ => (shifts_word countType.width).bind fun count =>
      shifts_elements element countType count

/-- Values are the same further back, but for the places of arrays. -/
theorem shifts_value (t : DataType) : Shifts n (Value.shift n) (value t) (value t) := by
  have one : Shifts n id (number t.element) (number t.element) := shifts_number t.element
  unfold value
  cases t.form with
  | scalar => exact one.bind fun x => shifts_pure rfl
  | pair => exact one.bind fun x => one.bind fun y => shifts_pure rfl
  | quad =>
    exact one.bind fun a => one.bind fun b => one.bind fun c => one.bind fun d => shifts_pure rfl
  | array => exact (shifts_array t.element).bind fun v => shifts_pure rfl

/-- Attribute numbers are the same further back. -/
theorem shifts_attrNumber : Shifts n id attrNumber attrNumber := by
  refine shifts_fileOffset.bind fun tagOffset => shifts_peek.bind fun tag => ?_
  dsimp only [id]
  cases attributeNumberWidth? tag with
  | none => exact shifts_fail _ _
  | some width =>
    have hnumber : Shifts n id (UInt16.ofNat <$> word width) (UInt16.ofNat <$> word width) :=
      (shifts_word width).map fun _ => rfl
    refine shifts_byte.bind fun _ => shifts_get.bind fun place => hnumber.bind fun number => ?_
    dsimp only [id]
    cases Vocabulary.attributeName? number with
    | none =>
      have hfault : Fault.unknownCode (place.shift n).fileOffset number .attributeNumber =
          (Fault.unknownCode place.fileOffset number .attributeNumber).shift n := by
        rw [fileOffset_shift]
        rfl
      rw [hfault]
      exact (shifts_set place).bind fun _ => shifts_fail _ _
    | some name => exact shifts_pure rfl

/-- Attributes are the same further back, but for their places. The label and the declared length
come from a single number, which has no offset. -/
theorem shifts_attr (t : DataType) : Shifts n (Attribute.shift n) (attr t) (attr t) := by
  refine shifts_fileOffset.bind fun offset => shifts_byte.bind fun _ => ?_
  refine (shifts_value t).bind fun v => (shifts_skipWhile isWhiteSpace).bind fun _ => ?_
  refine shifts_attrNumber.bind fun entry => ?_
  obtain ⟨number, name⟩ := entry
  have hmoved : (⟨number, name, v.shift n, (v.shift n).scalar?.bind (·.toUInt32?) |>.bind
      (Vocabulary.label? name), offset + n⟩ : Attribute) = Attribute.shift n ⟨number, name, v,
        v.scalar?.bind (·.toUInt32?) |>.bind (Vocabulary.label? name), offset⟩ := by
    rw [Value.scalar?_shift]
    rfl
  dsimp only [id]
  rw [hmoved, Attribute.vendorLength?_shift, Value.dataType_shift]
  split
  · exact shifts_fail _ _
  · exact shifts_pure rfl

/-- An attribute is found further back just where one is found here. -/
theorem shifts_attr? : Shifts n (Option.map (Attribute.shift n)) attr? attr? := by
  refine (shifts_skipWhile isWhiteSpace).bind fun _ => shifts_peek.bind fun tag => ?_
  dsimp only [id]
  cases DataType.ofTag? tag with
  | none => exact shifts_pure rfl
  | some t => exact (shifts_attr t).bind fun a => shifts_pure rfl

/-- The length of a data block is the same further back. -/
theorem shifts_payloadLength (source : PayloadSource) (declared : Option UInt32) (name : String)
    (tagOffset : Nat) : Shifts n id (payloadLength source declared name tagOffset)
      (payloadLength source declared name (tagOffset + n)) := by
  cases source with
  | inlineUInt32 => exact shifts_word 4
  | inlineUByte => exact shifts_word 1
  | vendorLength =>
    cases declared with
    | none => exact shifts_fail _ _
    | some length => exact shifts_pure rfl

/-- Data blocks are the same further back, but for their place. -/
theorem shifts_payload (source : PayloadSource) (declared : Option UInt32) (name : String)
    (tagOffset : Nat) : Shifts n (Payload.shift n) (payload source declared name tagOffset)
      (payload source declared name (tagOffset + n)) := by
  refine (shifts_payloadLength source declared name tagOffset).bind fun length => ?_
  refine shifts_fileOffset.bind fun offset => (shifts_takeRaw length).bind fun bytes => ?_
  exact (shifts_skipWhile isPadding).bind fun padding => shifts_pure rfl

end Readers

end Reader

/-- An attribute list further back is read with its offsets moved. -/
theorem AttributeList.read_shift (n : Nat) (c : Cursor) :
    read (c.shift n) = (read c).shift n := by
  induction hlength : c.rest.length using Nat.strongRecOn generalizing c with
  | _ length ih =>
    have hmoved := Reader.shifts_attr? (n := n) c
    rw [read, read]
    cases hc : Reader.attr? c with
    | error i d =>
      rw [hc] at hmoved
      rw [hmoved]
      rfl
    | ok a? d =>
      rw [hc] at hmoved
      rw [hmoved]
      cases a? with
      | none => rfl
      | some a =>
        have hless := Reader.attr?_consumes hc
        have hrest := ih _ (by omega) d rfl
        dsimp only [Option.map_some]
        rw [hrest]
        rfl

namespace Session

/-- A shifted session stands further back in the file. -/
theorem fileOffset_shift (n : Nat) (s : Session) : (s.shift n).fileOffset = s.fileOffset + n :=
  s.cursor.fileOffset_shift n

/-- Operator tags are the same further back, but for their place. -/
theorem shifts_operatorTag {n : Nat} :
    Reader.Shifts n (Prod.map id (· + n)) operatorTag operatorTag := by
  refine (Reader.shifts_skipWhile Reader.isWhiteSpace).bind fun _ => ?_
  refine Reader.shifts_fileOffset.bind fun tagOffset => Reader.shifts_peek.bind fun tag => ?_
  dsimp only [id]
  cases OperatorInfo.ofTag? tag with
  | none => exact Reader.shifts_fail _ _
  | some info => exact Reader.shifts_byte.bind fun _ => Reader.shifts_pure rfl

/-- Numbering an operator and shifting commute. -/
theorem nextOperator_shift (n : Nat) (s : Session) (info : OperatorInfo) (offset tagOffset : Nat) :
    (s.shift n).nextOperator info (offset + n) (tagOffset + n) =
      (s.nextOperator info offset tagOffset).shift n :=
  rfl

/-- Reading the block of an operator and shifting commute. -/
theorem passPayload_shift (n : Nat) (s : Session) (info : OperatorInfo) (tagOffset : Nat)
    (tokens : List Token) :
    passPayload (s.shift n) info (tagOffset + n) (tokens.map (Token.shift n)) =
      (passPayload s info tagOffset tokens).shift n := by
  unfold passPayload readPayload
  cases info.payload with
  | none => rfl
  | some source =>
    have hmoved := Reader.shifts_payload (n := n) source s.declared info.name tagOffset s.cursor
    change Reader.payload source (s.shift n).declared info.name (tagOffset + n)
      (s.shift n).cursor = _ at hmoved
    dsimp only
    rw [hmoved]
    cases Reader.payload source s.declared info.name tagOffset s.cursor with
    | ok p c =>
      dsimp only [Pass.shift]
      rw [List.map_append]
      rfl
    | error i c => rfl

/-- Reading an operator behind its attributes and shifting commute. -/
theorem passOperator_shift (n : Nat) (s : Session) (offset : Nat) (tokens : List Token) :
    passOperator (s.shift n) (offset + n) (tokens.map (Token.shift n)) =
      (passOperator s offset tokens).shift n := by
  have hmoved := shifts_operatorTag (n := n) s.cursor
  change operatorTag (s.shift n).cursor = _ at hmoved
  unfold passOperator
  rw [hmoved]
  cases operatorTag s.cursor with
  | error i c => rfl
  | ok entry c =>
    obtain ⟨info, tagOffset⟩ := entry
    have hrest := passPayload_shift n (s.afterOperator info c) info tagOffset
      (tokens ++ [.operator (s.nextOperator info offset tagOffset)])
    dsimp only [Prod.map]
    rw [← hrest, List.map_append, nextOperator_shift]
    rfl

/-- Reading a whole operator and shifting commute. -/
theorem pass_shift (n : Nat) (s : Session) : (s.shift n).pass = s.pass.shift n := by
  have hlist : AttributeList.read (s.shift n).cursor = (AttributeList.read s.cursor).shift n :=
    AttributeList.read_shift n s.cursor
  have hdeclared := (AttributeList.read s.cursor).vendorLength?_shift n
  have hafter : (s.shift n).afterAttributes ((AttributeList.read s.cursor).shift n) =
      (s.afterAttributes (AttributeList.read s.cursor)).shift n := by
    unfold afterAttributes
    rw [hdeclared]
    rfl
  have htokens : ((AttributeList.read s.cursor).shift n).attributes.map Token.attr =
      ((AttributeList.read s.cursor).attributes.map Token.attr).map (Token.shift n) := by
    simp only [AttributeList.shift, List.map_map, List.map_inj_left, Function.comp_apply]
    exact fun a _ => rfl
  unfold pass
  dsimp only
  rw [hlist, hafter, htokens, fileOffset_shift]
  cases hi : (AttributeList.read s.cursor).interrupt with
  | some i =>
    simp only [AttributeList.shift, hi, Option.map_some]
    rfl
  | none =>
    simp only [AttributeList.shift, hi, Option.map_none]
    exact passOperator_shift n _ _ _

/-- Ending a session and shifting commute. -/
theorem finish_shift (n : Nat) (s : Session) (ending : Ending) (unfinished : List Token) :
    (s.shift n).finish (ending.shift n) (unfinished.map (Token.shift n)) =
      (s.finish ending unfinished).shift n := by
  cases ending with
  | jobEnd offset =>
    have hskip : (s.shift n).cursor.skipJobEnd = s.cursor.skipJobEnd.shift n :=
      s.cursor.skipJobEnd_shift n
    unfold finish
    dsimp only [Ending.shift]
    rw [hskip]
    rfl
  | exhausted offset needed atBoundary => rfl
  | failed fault => rfl

/-- The ending that an interrupt leads to shifts with it. -/
theorem ofInterrupt_shift (n : Nat) (atBoundary : Bool) (i : Interrupt) :
    Ending.ofInterrupt atBoundary (i.shift n) = (Ending.ofInterrupt atBoundary i).shift n := by
  cases i with
  | jobEnd offset => rfl
  | fault f => cases f <;> rfl

/-- A step further back in the file gives the same with its offsets moved. -/
theorem step_shift (n : Nat) (s : Session) :
    (s.shift n).step = (s.step.1.shift n, s.step.2.shift n) := by
  cases hphase : s.phase with
  | ended ending unfinished =>
    have hmoved : (s.shift n).phase = (Phase.ended ending unfinished).shift n := by
      rw [← hphase]
      rfl
    rw [step_of_ended hphase, step_of_ended hmoved]
    rfl
  | scanning =>
    have hmoved : (s.shift n).phase = .scanning := by
      change s.phase.shift n = _
      rw [hphase]
      rfl
    have hpass : (s.shift n).skipSpace.pass = s.skipSpace.pass.shift n := pass_shift n s.skipSpace
    rw [step_of_scanning hphase, step_of_scanning hmoved, hpass]
    cases hi : s.skipSpace.pass.interrupt with
    | none =>
      simp only [Pass.shift, hi, Option.map_none]
      rfl
    | some i =>
      have hend : (s.shift n).skipSpace.cursor.atEnd = s.skipSpace.cursor.atEnd := rfl
      simp only [Pass.shift, hi, Option.map_some, hend, ofInterrupt_shift, finish_shift]
      rfl

/-- A run further back in the file leaves the same transcript with its offsets moved. -/
theorem run_shift (n : Nat) (s : Session) : (s.shift n).run = s.run.shift n := by
  induction hlength : s.cursor.rest.length using Nat.strongRecOn generalizing s with
  | _ length ih =>
    have hmoved := step_shift n s
    cases hstep : s.step with
    | mk outcome s' =>
      rw [hstep] at hmoved
      cases outcome with
      | ended ending =>
        rw [run_of_ended hstep, run_of_ended hmoved]
        rfl
      | sequence tokens =>
        have hless := step_rest_lt hstep
        rw [run_of_sequence hstep, run_of_sequence hmoved, ih _ (by omega) s' rfl]
        rfl

/-- Shifting the session behind a header is the same as giving it a later base. -/
theorem behindHeader_shift (n : Nat) (header : Header) (stream : List UInt8) (base : Nat) :
    (behindHeader header stream base).shift n = behindHeader header stream (base + n) :=
  rfl

/-- Behind a preamble a stream opens as it does alone, further back. -/
theorem openFile_behind {preamble stream : List UInt8} {order : ByteOrder}
    (hpreamble : ¬ Header.languageMarker <:+: preamble)
    (hname : order.mark :: Header.languageMarker <+: stream) (hline : (0x0A : UInt8) ∈ stream) :
    ∃ s, openFile stream = .ok s ∧ openFile (preamble ++ stream) = .ok (s.shift preamble.length) := by
  obtain ⟨w, rest, hstream⟩ := Header.exists_written_of_name hname hline
  have hempty : ¬ Header.languageMarker <:+: [] := by decide
  refine ⟨behindHeader w.header stream 0, ?_, ?_⟩
  · exact openFile_eq_ok_iff.2 ⟨[], w, rest, hstream, hempty, by rw [hstream]; rfl⟩
  · rw [behindHeader_shift, Nat.zero_add, hstream]
    exact openFile_eq_ok_iff.2 ⟨preamble, w, rest, rfl, hpreamble, rfl⟩

end Session

/-- The fault of an ending shifts with it. -/
theorem Ending.fault?_shift (n : Nat) (e : Ending) :
    (e.shift n).fault? = e.fault?.map (Fault.shift n) := by
  cases e <;> rfl

/-- The tokens of an ending shift with it. -/
theorem Ending.tokens_shift (n : Nat) (e : Ending) :
    (e.shift n).tokens = e.tokens.map (Token.shift n) := by
  cases e <;> rfl

/-- The tokens of an operator that was cut off shift with the session. -/
theorem Session.unfinished_shift (n : Nat) (s : Session) :
    (s.shift n).unfinished = s.unfinished.map (Token.shift n) := by
  unfold unfinished Session.shift
  cases s.phase <;> rfl

/-- The tokens of a transcript shift with it. -/
theorem Transcript.tokens_shift (n : Nat) (t : Transcript) :
    (t.shift n).tokens = t.tokens.map (Token.shift n) := by
  unfold tokens Transcript.shift
  dsimp only
  rw [Session.unfinished_shift, Ending.tokens_shift, List.map_append, List.map_append,
    List.map_flatten]

/-- A fault that has an offset shows it further back. -/
theorem Fault.offset?_shift (n : Nat) (f : Fault) :
    (f.shift n).offset? = f.offset?.map (· + n) := by
  cases f <;> rfl

/-- The bytes that a diagnosis shows are found by their place in the stream. -/
theorem Diagnosis.ofFault_shift (n : Nat) (f : Fault) (tokens : List Token) (data : List UInt8)
    (base : Nat) : ofFault (f.shift n) (tokens.map (Token.shift n)) data (base + n) =
      (ofFault f tokens data base).shift n := by
  have hplace : ∀ start, base + n + start = base + start + n := fun start => by omega
  unfold ofFault
  rw [Fault.offset?_shift]
  cases f.offset? with
  | none =>
    dsimp only [Option.map_none]
    rw [hplace]
    rfl
  | some offset =>
    have hposition : offset + n - (base + n) = offset - base := Nat.add_sub_add_right offset n base
    dsimp only [Option.map_some]
    rw [hposition, hplace]
    rfl

/-- A preamble only moves the offsets. Whatever stands in front of a stream, as long as it does not
hold the name of the language, the file is taken apart as the stream is alone, or fails as it does,
with every offset greater by the length of the preamble. The stream must have that name behind the
mark of an order, and a line feed. -/
theorem Disassembly.ofFile_behind_preamble {preamble stream : List UInt8} {order : ByteOrder}
    (hpreamble : ¬ Header.languageMarker <:+: preamble)
    (hname : order.mark :: Header.languageMarker <+: stream) (hline : (0x0A : UInt8) ∈ stream) :
    ofFile (preamble ++ stream) = ((ofFile stream).map (Disassembly.shift preamble.length)).mapError
      (Diagnosis.shift preamble.length) := by
  obtain ⟨s, hopen, hbehind⟩ := Session.openFile_behind hpreamble hname hline
  have hrun := s.run_shift preamble.length
  have hfault : (s.run.shift preamble.length).ending.fault? =
      s.run.ending.fault?.map (Fault.shift preamble.length) :=
    Ending.fault?_shift preamble.length s.run.ending
  have htokens := s.run.tokens_shift preamble.length
  unfold ofFile
  rw [hopen, hbehind]
  dsimp only
  rw [hrun, hfault, htokens]
  cases s.run.ending.fault? with
  | none => rfl
  | some f =>
    have hdiagnosis := Diagnosis.ofFault_shift preamble.length f s.run.tokens
      s.run.session.cursor.data s.run.session.cursor.base
    exact congrArg Except.error hdiagnosis

/-- A preamble may hold the end of a job, a line feed and a mark. A block that is complete and a
block that is not are both reported eleven bytes further back. -/
theorem Disassembly.ofFile_behind_preamble_sample :
    ofFile (jobEndMarker ++ [0x0A, 0x28] ++
        (WrittenHeader.sample.bytes ++ ([0xFB, 0x01, 0x1B] ++ jobEndMarker))) =
      .ok ⟨WrittenHeader.sample.header, [.operator ⟨0xFB, "embedded_data_byte", 27, 27, 0, none⟩,
        .payload ⟨.inlineUByte, [0x1B], 29, 0⟩, .jobEnd 30]⟩ ∧
    ofFile (jobEndMarker ++ [0x0A, 0x28] ++ (WrittenHeader.sample.bytes ++ [0xFB, 0x02, 0x1B])) =
      .error ⟨.endOfStream 29 1, [.operator ⟨0xFB, "embedded_data_byte", 27, 27, 0, none⟩], 11,
        WrittenHeader.sample.bytes ++ [0xFB, 0x02, 0x1B]⟩ := by
  have hpreamble : ¬ Header.languageMarker <:+: jobEndMarker ++ [0x0A, 0x28] := by decide
  have hcomplete : ofFile (WrittenHeader.sample.bytes ++ ([0xFB, 0x01, 0x1B] ++ jobEndMarker)) =
      .ok ⟨WrittenHeader.sample.header, [.operator ⟨0xFB, "embedded_data_byte", 16, 16, 0, none⟩,
        .payload ⟨.inlineUByte, [0x1B], 18, 0⟩, .jobEnd 19]⟩ :=
    ofFile_eq_ok_iff.2 ⟨_, Session.openFile_onSample _, by decide +kernel, by decide +kernel⟩
  have hshort : ofFile (WrittenHeader.sample.bytes ++ [0xFB, 0x02, 0x1B]) =
      .error ⟨.endOfStream 18 1, [.operator ⟨0xFB, "embedded_data_byte", 16, 16, 0, none⟩], 0,
        WrittenHeader.sample.bytes ++ [0xFB, 0x02, 0x1B]⟩ := by
    have hfault : (Session.onSample [0xFB, 0x02, 0x1B]).run.ending.fault? =
        some (.endOfStream 18 1) := by decide +kernel
    unfold ofFile
    rw [Session.openFile_onSample]
    dsimp only
    rw [hfault]
    exact congrArg Except.error (by decide +kernel)
  have hname : ∀ rest, ByteOrder.lowFirst.mark :: Header.languageMarker <+:
      WrittenHeader.sample.bytes ++ rest := fun rest => ⟨[0x32, 0x3B, 0x30, 0x0A] ++ rest, rfl⟩
  refine ⟨?_, ?_⟩
  · rw [ofFile_behind_preamble hpreamble (hname _) (by decide), hcomplete]
    rfl
  · rw [ofFile_behind_preamble hpreamble (hname _) (by decide), hshort]
    rfl

end PclXl
