import PclXl.Proofs.FaultPlaces
import PclXl.Proofs.Resumption
import PclXl.Proofs.Truncation

/-!
# How many bytes are needed

Where a file ends too early, the diagnosis says how many bytes are needed. With fewer behind the file
the rest of them is lacking at the same place, unless they complete a job-end marker; with as many
nothing is lacking there any more. It holds for a step since it holds for each of its readers, and
for a file since complete operators stay complete, but for padding that goes on.
-/

namespace PclXl

open Cursor

namespace Reader

/-- The elements of an array are steady, read at once or one by one. -/
theorem steady_elements (element countType : ElementType) (count : Nat) :
    Steady (elements element countType count) := by
  refine steady_fileOffset.bind fun dataOffset => ?_
  by_cases hbyte : element = .ubyte
  · rw [if_pos hbyte]
    exact (steady_take count).bind fun raw => steady_pure _
  · rw [if_neg hbyte]
    exact (steady_numbers element count).bind fun items => steady_pure _

/-- So is an array with its size in front. -/
theorem steady_array (element : ElementType) : Steady (array element) := by
  refine steady_fileOffset.bind fun sizeOffset => steady_peek_bind fun tag => ?_
  cases countType? tag with
  | none => exact eager_fail fun _ _ => Fault.noConfusion
  | some countType =>
    exact eager_byte_bind fun _ =>
      (steady_word countType.width).bind (steady_elements element countType)

/-- So is any value. -/
theorem steady_value (t : DataType) : Steady (value t) := by
  have one := steady_number t.element
  unfold value
  cases t.form with
  | scalar => exact one.bind fun x => steady_pure _
  | pair => exact one.bind fun x => one.bind fun y => steady_pure _
  | quad =>
    exact one.bind fun a => one.bind fun b => one.bind fun c => one.bind fun d => steady_pure _
  | array => exact (steady_array t.element).bind fun v => steady_pure _

/-- Two readers do the same, but for faults that are no lack of bytes. -/
def Alike {α : Type} (r r' : Reader α) : Prop :=
  ∀ c, r c = r' c ∨ ∃ f d f' d', (∀ place needed, f ≠ .endOfStream place needed) ∧
    (∀ place needed, f' ≠ .endOfStream place needed) ∧
    r c = .error (.fault f) d ∧ r' c = .error (.fault f') d'

section Alike

variable {α : Type} {r r' : Reader α} {c : Cursor}

/-- Readers that are alike succeed alike. -/
theorem Alike.ok_iff (h : Alike r r') {a : α} {c' : Cursor} : r c = .ok a c' ↔ r' c = .ok a c' := by
  rcases h c with hsame | ⟨f, d, f', d', -, -, hr, hr'⟩
  · rw [hsame]
  · rw [hr, hr']
    simp

/-- They come to the end of the job alike. -/
theorem Alike.endsJob_iff (h : Alike r r') : r.EndsJob c ↔ r'.EndsJob c := by
  unfold EndsJob
  rcases h c with hsame | ⟨f, d, f', d', -, -, hr, hr'⟩
  · rw [hsame]
  · rw [hr, hr']
    simp

/-- They lack the same bytes. -/
theorem Alike.lacks_iff (h : Alike r r') {place needed : Nat} :
    r.Lacks c place needed ↔ r'.Lacks c place needed := by
  unfold Lacks
  rcases h c with hsame | ⟨f, d, f', d', hf, hf', hr, hr'⟩
  · rw [hsame]
  · rw [hr, hr']
    simp [hf, hf']

/-- So one of them is steady if the other is. -/
theorem Steady.of_alike (hr : Steady r') (h : Alike r r') : Steady r := by
  refine ⟨⟨⟨fun hok => hr.ok (h.ok_iff.1 hok), fun hlack => hr.toOnward.lacks (h.lacks_iff.1 hlack)⟩,
    fun hmore hlack => ?_⟩, fun c d more hmore a d' hok => ?_⟩
  · cases hr.resumes hmore (h.lacks_iff.1 hlack) with
    | ends hend => exact .ends (h.endsJob_iff.2 hend)
    | lacks few hlack => exact .lacks few (h.lacks_iff.2 hlack)
    | passes enough hpasses =>
      exact .passes enough ⟨fun hok => hpasses.ok (h.ok_iff.1 hok),
        fun hlack => hpasses.lacks (h.lacks_iff.1 hlack)⟩
  · rcases hr.keeps c d more hmore a d' (h.ok_iff.1 hok) with hend | ⟨n, hn, hd, hc⟩
    · exact .inl (h.endsJob_iff.2 hend)
    · exact .inr ⟨n, hn, hd, h.ok_iff.2 hc⟩

end Alike

/-- The number of an attribute is looked up before the cursor is put back to it, which only matters
for the fault. -/
theorem steady_numberBehindTag (width : Nat) : Steady ((do
      let place ← get
      let number ← UInt16.ofNat <$> word width
      match Vocabulary.attributeName? number with
      | none =>
        set place
        fail (.unknownCode place.fileOffset number .attributeNumber)
      | some name => return (number, name)) : Reader (UInt16 × String)) := by
  have hplain : Steady ((word width >>= fun n =>
      match Vocabulary.attributeName? (UInt16.ofNat n) with
      | none => fail .missingHeader
      | some name => pure (UInt16.ofNat n, name)) : Reader (UInt16 × String)) := by
    refine (steady_word width).bind fun n => ?_
    cases Vocabulary.attributeName? (UInt16.ofNat n) with
    | none => exact steady_fail fun _ _ => Fault.noConfusion
    | some name => exact steady_pure _
  refine hplain.of_alike fun c => ?_
  have hget : (get : Reader Cursor) c = .ok c c := get_eq_ok_iff.2 ⟨rfl, rfl⟩
  rw [bind_of_ok hget, map_eq_pure_bind, bind_assoc]
  cases hword : word width c with
  | error i d =>
    refine .inl ?_
    rw [(bind_eq_error_iff (f := _)).2 (.inl hword), (bind_eq_error_iff (f := _)).2 (.inl hword)]
  | ok n d =>
    rw [bind_of_ok hword, bind_of_ok hword, pure_bind]
    cases Vocabulary.attributeName? (UInt16.ofNat n) with
    | none =>
      exact .inr ⟨_, c, _, d, fun _ _ => Fault.noConfusion, fun _ _ => Fault.noConfusion, rfl, rfl⟩
    | some name => exact .inl rfl

/-- The number of an attribute is steady. -/
theorem steady_attrNumber : Steady attrNumber := by
  refine steady_fileOffset.bind fun tagOffset => steady_peek_bind fun tag => ?_
  cases attributeNumberWidth? tag with
  | none => exact eager_fail fun _ _ => Fault.noConfusion
  | some width => exact eager_byte_bind fun _ => steady_numberBehindTag width

/-- An attribute asks for its first byte before anything else. -/
theorem eager_attr (t : DataType) : Eager (attr t) := by
  refine eager_fileOffset_bind fun offset => eager_byte_bind fun _ => (steady_value t).bind fun v => ?_
  refine (steady_attrNumber.bind fun entry => ?_).behindSpace
    (needsByte_bind (needsByte_fileOffset_bind fun _ => needsByte_peek_bind _) _)
  dsimp only
  split
  · exact steady_fail fun _ _ => Fault.noConfusion
  · exact steady_pure _

/-- Where no attribute follows, the cursor stays in front of the byte that was seen. -/
theorem resumable_attr? : Resumable attr? (· = none) := by
  refine Resumable.behindSpace (resumable_peek_bind (fun tag => ?_) fun tag c hb => ?_)
    (needsByte_peek_bind _)
  · cases DataType.ofTag? tag with
    | none => exact resumable_pure none
    | some t => exact (eager_attr t).bind_resumable fun a => resumable_pure (some a)
  · cases DataType.ofTag? tag with
    | none =>
      refine passes_pure rfl fun hnil => ?_
      have hlength := hb.length_le
      rw [hnil] at hlength
      cases hlength
    | some t =>
      exact ((eager_attr t).passes hb).bind (fun a => (steady_pure (some a)).toOnward)
        fun _ hnever => hnever.elim

/-- So does an attribute that may be missing. -/
theorem needsByte_attr? : NeedsByte attr? :=
  needsByte_behindSpace (needsByte_peek_bind _)

/-- It keeps the cursor where it finds none. -/
theorem keeps_attr? : Keeps attr? := by
  refine Keeps.behindSpace (keeps_peek.bind fun tag => ?_) (needsByte_peek_bind _)
  cases DataType.ofTag? tag with
  | none => exact (steady_pure none).keeps
  | some t => exact Keeps.bind (eager_attr t).keeps fun a => (steady_pure (some a)).keeps

/-- The tag of an operator is taken, or it is none. -/
theorem eager_behindTag (tagOffset : Nat) (tag : UInt8) : Eager (
    match OperatorInfo.ofTag? tag with
    | none => fail (.unknownCode tagOffset tag.toUInt16 .operatorTag)
    | some info => byte >>= fun _ => pure (info, tagOffset)) := by
  cases OperatorInfo.ofTag? tag with
  | none => exact eager_fail fun _ _ => Fault.noConfusion
  | some info => exact eager_byte_bind fun _ => steady_pure _

/-- The tag of an operator is steady. -/
theorem steady_operatorTag : Steady Session.operatorTag :=
  Steady.behindSpace
    (steady_fileOffset.bind fun tagOffset => steady_peek_bind (eager_behindTag tagOffset))
    (needsByte_fileOffset_bind fun _ => needsByte_peek_bind _)

/-- Where a byte follows, the tag is passed, or there is none. -/
theorem passes_operatorTag {c : Cursor} (hrest : c.rest ≠ []) :
    Session.operatorTag.Passes (fun _ => False) c c.fileOffset := by
  refine Passes.behindSpace hrest (steady_fileOffset.bind fun tagOffset => ?_).toOnward
    fun d hd => ?_
  · exact steady_peek_bind (eager_behindTag tagOffset)
  · have hsame := fileOffset_bind (fun tagOffset => peek >>= fun tag =>
      match OperatorInfo.ofTag? tag with
      | none => fail (.unknownCode tagOffset tag.toUInt16 .operatorTag)
      | some info => byte >>= fun _ => pure (info, tagOffset)) d
    have hpasses := passes_peek_bind hd (eager_behindTag d.fileOffset)
    exact ⟨fun h => hpasses.ok (hsame.symm.trans h),
      fun ⟨c', h⟩ => hpasses.lacks ⟨c', hsame.symm.trans h⟩⟩

/-- It needs a byte, too. -/
theorem needsByte_operatorTag : NeedsByte Session.operatorTag :=
  needsByte_behindSpace (needsByte_fileOffset_bind fun _ => needsByte_peek_bind _)

/-- The length of a data block is steady, wherever it comes from. -/
theorem steady_payloadLength (source : PayloadSource) (declared : Option UInt32) (name : String)
    (tagOffset : Nat) : Steady (payloadLength source declared name tagOffset) := by
  cases source with
  | inlineUInt32 => exact steady_word 4
  | inlineUByte => exact steady_word 1
  | vendorLength =>
    cases declared with
    | none => exact steady_fail fun _ _ => Fault.noConfusion
    | some length => exact steady_pure length.toNat

/-- The padding behind a data block may go on, but lacks nothing. -/
theorem resumable_payload (source : PayloadSource) (declared : Option UInt32) (name : String)
    (tagOffset : Nat) : Resumable (payload source declared name tagOffset) fun _ => False := by
  refine (steady_payloadLength source declared name tagOffset).bind_resumable fun length =>
    steady_fileOffset.bind_resumable fun offset => (steady_takeRaw length).bind_resumable
      fun bytes => ?_
  have honward := (onward_skipWhile isPadding).bind fun padding =>
    (steady_pure (⟨source, bytes, offset, padding⟩ : Payload)).toOnward
  refine resumable_of_not_lacks honward.ok fun c place needed h => ?_
  rcases lacks_bind_iff.1 h with ⟨c', hnever⟩ | ⟨padding, d, -, c', hnever⟩
  · cases hnever
  · cases hnever

/-- At most so many attributes, one behind the other. -/
def attrs : Nat → Reader (List Attribute)
  | 0 => return []
  | rounds + 1 => do
    match ← attr? with
    | none => return []
    | some a => return a :: (← attrs rounds)

/-- As many attributes are read as the list has, if there are rounds enough. -/
theorem attrs_eq {rounds : Nat} {c : Cursor} (h : c.rest.length < 4 * rounds) :
    attrs rounds c = match (AttributeList.read c).interrupt with
      | none => .ok (AttributeList.read c).attributes (AttributeList.read c).cursor
      | some i => .error i (AttributeList.read c).cursor := by
  induction rounds generalizing c with
  | zero => omega
  | succ rounds ih =>
    rw [attrs, AttributeList.read]
    cases hread : attr? c with
    | error i c' => exact bind_eq_error_iff.2 (.inl hread)
    | ok a? c' =>
      rw [bind_of_ok hread]
      cases a? with
      | none => rfl
      | some a =>
        have hless := attr?_consumes hread
        have hrest := ih (c := c') (by omega)
        dsimp only
        cases hi : (AttributeList.read c').interrupt with
        | none =>
          rw [hi] at hrest
          rw [bind_of_ok hrest]
          rfl
        | some i =>
          rw [hi] at hrest
          exact bind_eq_error_iff.2 (.inl hrest)

/-- A list of attributes keeps the cursor where it ends. -/
theorem keeps_attrs (rounds : Nat) : Keeps (attrs rounds) := by
  induction rounds with
  | zero => exact (steady_pure []).keeps
  | succ rounds ih =>
    refine keeps_attr?.bind fun a? => ?_
    cases a? with
    | none => exact (steady_pure []).keeps
    | some a => exact ih.bind fun as => (steady_pure (a :: as)).keeps

/-- The list ends in front of the byte that ends it. -/
theorem resumable_attrs (rounds : Nat) : Resumable (attrs rounds) fun _ => True := by
  induction rounds with
  | zero => exact resumable_pure []
  | succ rounds ih =>
    refine Resumable.bind keeps_attr? resumable_attr? (fun a? => ?_) fun a? hnone d hrest => ?_
    · cases a? with
      | none => exact resumable_pure []
      | some a =>
        exact Resumable.bind (keeps_attrs rounds) ih (fun as => resumable_pure (a :: as))
          fun as _ d hrest => passes_pure trivial hrest
    · rw [hnone]
      exact passes_pure trivial hrest

/-- The data block that an operator announces, if it does. -/
def block (info : OperatorInfo) (declared : Option UInt32) (tagOffset : Nat) : Reader Unit :=
  match info.payload with
  | none => return ()
  | some source => do
    let _ ← payload source declared info.name tagOffset

/-- An operator with white space and at most so many attributes in front, and its data block. -/
def operator (rounds : Nat) : Reader Unit := do
  let _ ← skipWhiteSpace
  let as ← attrs rounds
  let entry ← Session.operatorTag
  block entry.1 (as.filterMap Attribute.vendorLength?).getLast? entry.2

/-- The lack of bytes in an operator is resumed when more of them come. -/
theorem resumable_operator (rounds : Nat) : Resumable (operator rounds) fun _ => False := by
  have hblock : ∀ (as : List Attribute) (entry : OperatorInfo × Nat),
      Resumable (block entry.1 (as.filterMap Attribute.vendorLength?).getLast? entry.2)
        fun _ => False := by
    intro as entry
    unfold block
    split
    · exact resumable_pure ()
    · exact (resumable_payload _ _ _ _).map fun _ => ()
  have htag : ∀ as : List Attribute, Resumable (Session.operatorTag >>= fun entry =>
      block entry.1 (as.filterMap Attribute.vendorLength?).getLast? entry.2) fun _ => False :=
    fun as => steady_operatorTag.bind_resumable (hblock as)
  refine Resumable.behindSpace (Resumable.bind (keeps_attrs rounds) (resumable_attrs rounds) htag
    fun as _ d hrest => ?_) ?_
  · exact (passes_operatorTag hrest).bind (fun entry => (hblock as entry).toOnward)
      fun _ hnever => hnever.elim
  · cases rounds with
    | zero => exact needsByte_bind needsByte_operatorTag _
    | succ rounds => exact needsByte_bind (needsByte_bind needsByte_attr? _) _

end Reader

/-- No more padding is no change. -/
theorem Sequence.pad_zero (q : Sequence) : q.pad 0 = q := by
  have hblock : q.block.map (fun b => { b with padding := b.padding + 0 }) = q.block := by
    cases q.block <;> rfl
  unfold pad
  simp only [hblock]

namespace Session

/-- A data block is read as the one of a session. -/
theorem block_eq (s : Session) (info : OperatorInfo) (tagOffset : Nat) (ts : List Token) :
    Reader.block info s.declared tagOffset s.cursor =
      match (passPayload s info tagOffset ts).interrupt with
      | none => .ok () (passPayload s info tagOffset ts).session.cursor
      | some i => .error i (passPayload s info tagOffset ts).session.cursor := by
  unfold Reader.block passPayload readPayload
  cases info.payload with
  | none => rfl
  | some source =>
    dsimp only
    cases hread : Reader.payload source s.declared info.name tagOffset s.cursor with
    | error i c => exact Reader.bind_eq_error_iff.2 (.inl hread)
    | ok p c =>
      rw [Reader.bind_of_ok hread]
      rfl

/-- So are a tag and a data block. -/
theorem operatorTag_bind_block_eq (s : Session) (offset : Nat) (ts : List Token) :
    (operatorTag >>= fun entry => Reader.block entry.1 s.declared entry.2) s.cursor =
      match (passOperator s offset ts).interrupt with
      | none => .ok () (passOperator s offset ts).session.cursor
      | some i => .error i (passOperator s offset ts).session.cursor := by
  unfold passOperator
  cases htag : operatorTag s.cursor with
  | error i c => exact Reader.bind_eq_error_iff.2 (.inl htag)
  | ok entry c =>
    obtain ⟨info, tagOffset⟩ := entry
    rw [Reader.bind_of_ok htag]
    exact block_eq (s.afterOperator info c) info tagOffset _

/-- An operator is read as in a step of a session. -/
theorem operator_eq {s : Session} {rounds : Nat} (h : s.skipSpace.cursor.rest.length < 4 * rounds) :
    Reader.operator rounds s.cursor = match s.skipSpace.pass.interrupt with
      | none => .ok () s.skipSpace.pass.session.cursor
      | some i => .error i s.skipSpace.pass.session.cursor := by
  have hlist := Reader.attrs_eq h
  unfold Reader.operator
  rw [Reader.bind_of_ok (Reader.skipWhiteSpace_eq s.cursor)]
  change (Reader.attrs rounds >>= _) s.skipSpace.cursor = _
  cases hread : AttributeList.read s.skipSpace.cursor with
  | mk as i? c =>
    rw [hread] at hlist
    cases i? with
    | some i =>
      rw [pass_eq_of_interrupt hread]
      exact Reader.bind_eq_error_iff.2 (.inl hlist)
    | none =>
      rw [pass_eq hread, Reader.bind_of_ok hlist]
      exact operatorTag_bind_block_eq { s.skipSpace with
        cursor := c
        declared := (as.filterMap Attribute.vendorLength?).getLast? } _ _

/-- A step gives an operator, and then the reader has come as far as the session, or an ending. -/
theorem operator_of_step {s s' : Session} {outcome : Step} {rounds : Nat}
    (hphase : s.phase = .scanning) (hrounds : s.cursor.rest.length < 4 * rounds)
    (h : s.step = (outcome, s')) :
    (∃ ts, outcome = .sequence ts ∧ Reader.operator rounds s.cursor = .ok () s'.cursor) ∨
    ∃ i c, outcome = .ended (.ofInterrupt s.skipSpace.cursor.atEnd i) ∧
      Reader.operator rounds s.cursor = .error i c := by
  have hless : s.skipSpace.cursor.rest.length ≤ s.cursor.rest.length := by
    change (s.cursor.rest.drop _).length ≤ _
    rw [List.length_drop]
    exact Nat.sub_le _ _
  have hread := operator_eq (Nat.lt_of_le_of_lt hless hrounds)
  cases outcome with
  | sequence ts =>
    obtain ⟨-, hnone, -, hs'⟩ := step_eq_sequence_iff.1 h
    rw [hnone, hs'] at hread
    exact .inl ⟨ts, rfl, hread⟩
  | ended e =>
    obtain ⟨i, hi, he, -⟩ := exists_interrupt_of_step hphase h
    rw [hi] at hread
    exact .inr ⟨i, _, by rw [he], hread⟩

/-- Bytes are never lacking in front of where a session stands. -/
theorem le_of_run_exhausted {s : Session} {place needed : Nat} {atBoundary : Bool}
    (hphase : s.phase = .scanning) (h : s.run.ending = .exhausted place needed atBoundary) :
    s.fileOffset ≤ place := by
  induction hlength : s.cursor.rest.length using Nat.strongRecOn generalizing s with
  | _ length ih =>
    have honward := (Reader.resumable_operator (s.cursor.rest.length + 1)).toOnward
    cases hstep : s.step with
    | mk outcome s' =>
      have hrounds : s.cursor.rest.length < 4 * (s.cursor.rest.length + 1) := by omega
      have hread := operator_of_step hphase hrounds hstep
      rcases hread with ⟨ts, rfl, hok⟩ | ⟨i, c, rfl, herror⟩
      · have hscanning := phase_of_step_sequence hstep
        rw [run_of_sequence hstep] at h
        have hless := step_rest_lt hstep
        exact Nat.le_trans (honward.ok hok) (ih _ (by omega) hscanning h rfl)
      · rw [run_of_ended hstep] at h
        rw [ofInterrupt_eq_exhausted h] at herror
        exact honward.lacks ⟨c, herror⟩

/-- How a session ends if more bytes follow where it lacked some. -/
inductive Resumed (more : List UInt8) (place needed : Nat) : Ending → Prop where
  /-- Its job ends at a marker. -/
  | jobEnd (offset : Nat) : Resumed more place needed (.jobEnd offset)
  /-- There are too few, and the rest is lacking. -/
  | exhausted (few : more.length < needed) (atBoundary : Bool) :
      Resumed more place needed (.exhausted place (needed - more.length) atBoundary)
  /-- There are enough, so that bytes are only lacking behind the place. -/
  | behind {e : Ending} (enough : needed ≤ more.length)
      (h : ∀ place' n atBoundary, e = .exhausted place' n atBoundary → place < place') :
      Resumed more place needed e

section More

variable {s t : Session} {more : List UInt8} {place needed : Nat} {atBoundary : Bool}

/-- Where an operator that lacked bytes is completed with more of them, there were enough, and what
is lacking later lies behind the operator. -/
theorem resumed_of_sequence {s' : Session} {ts : List Token} {rounds : Nat}
    (hstep : s.step = (.sequence ts, s'))
    (hok : Reader.operator rounds s.cursor = .ok () s'.cursor)
    (h : (Reader.operator rounds).Resumes (fun _ => False) s.cursor more place needed) :
    Resumed more place needed s.run.ending := by
  rw [run_of_sequence hstep]
  cases h with
  | ends hend =>
    obtain ⟨offset, c, hend⟩ := hend
    rw [hok] at hend
    cases hend
  | lacks few hlack =>
    obtain ⟨c, hlack⟩ := hlack
    rw [hok] at hlack
    cases hlack
  | passes enough hpasses =>
    have hscanning := phase_of_step_sequence hstep
    have hlt : place < s'.fileOffset := by
      rcases hpasses.ok hok with hlt | ⟨hnever, -⟩
      · exact hlt
      · exact hnever.elim
    exact .behind enough fun place' n b he =>
      Nat.lt_of_lt_of_le hlt (le_of_run_exhausted hscanning he)

/-- Where it is interrupted again, the session ends as the reading of the operator does. -/
theorem resumed_of_ended {s' : Session} {i : Interrupt} {c : Cursor} {rounds : Nat} {boundary : Bool}
    (hstep : s.step = (.ended (.ofInterrupt boundary i), s'))
    (herror : Reader.operator rounds s.cursor = .error i c)
    (h : (Reader.operator rounds).Resumes (fun _ => False) s.cursor more place needed) :
    Resumed more place needed s.run.ending := by
  rw [run_of_ended hstep]
  cases h with
  | ends hend =>
    obtain ⟨offset, c', hend⟩ := hend
    rw [herror] at hend
    cases hend
    exact .jobEnd offset
  | lacks few hlack =>
    obtain ⟨c', hlack⟩ := hlack
    rw [herror] at hlack
    cases hlack
    exact .exhausted few _
  | passes enough hpasses =>
    refine .behind enough fun place' n b he => ?_
    rw [ofInterrupt_eq_exhausted he] at herror
    exact hpasses.lacks ⟨c, herror⟩

/-- The step in which the bytes ran out, with more of them. -/
theorem CutFrom.resumed_of_step {t' : Session} (h : t.CutFrom s)
    (hmore : s.cursor.rest = t.cursor.rest ++ more) (hphase : t.phase = .scanning)
    (hstep : t.step = (.ended (.exhausted place needed atBoundary), t')) :
    Resumed more place needed s.run.ending := by
  have hother : s.phase = .scanning := h.agrees.phase_eq.trans hphase
  have hextends : s.cursor.Extends t.cursor more := ⟨h.order_eq, h.agrees.fileOffset_eq, hmore⟩
  have hlength := hextends.length_eq
  have hlack : (Reader.operator (s.cursor.rest.length + 1)).Lacks t.cursor place needed := by
    have hrounds : t.cursor.rest.length < 4 * (s.cursor.rest.length + 1) := by omega
    have hread := operator_of_step hphase hrounds hstep
    rcases hread with ⟨ts, hnever, -⟩ | ⟨i, c, he, herror⟩
    · cases hnever
    · rw [ofInterrupt_eq_exhausted (Step.ended.inj he).symm] at herror
      exact ⟨c, herror⟩
  have hresumes := (Reader.resumable_operator _).resumes hextends hlack
  cases hs : s.step with
  | mk outcome s' =>
    have hrounds : s.cursor.rest.length < 4 * (s.cursor.rest.length + 1) := by omega
    rcases operator_of_step hother hrounds hs with ⟨ts, rfl, hok⟩ | ⟨i, c, rfl, herror⟩
    · exact resumed_of_sequence hs hok hresumes
    · exact resumed_of_ended hs herror hresumes

/-- Where no byte is left, one is needed. -/
theorem exhausted_of_nil (hphase : s.phase = .scanning) (hnil : s.cursor.rest = []) :
    ∃ b, s.run.ending = .exhausted s.fileOffset 1 b := by
  have hspace : s.skipSpace.cursor = s.cursor := by
    change s.cursor.skipWhile _ = _
    rw [Cursor.skipWhile, hnil]
    exact advance_zero _
  have hlack := (pass_of_nil (s := s.skipSpace) (by rw [hspace]; exact hnil)).1
  have hstep := step_of_scanning hphase
  rw [hlack] at hstep
  have hplace : s.skipSpace.fileOffset = s.fileOffset := congrArg Cursor.fileOffset hspace
  rw [hplace] at hstep
  rw [run_of_ended hstep]
  exact ⟨_, rfl⟩

/-- Where padding goes on in the bytes that follow, the place where one was needed lies behind it. -/
theorem CutFrom.resumed_of_pad {q : Sequence} {b : WrittenBlock} {n : Nat} (h : t.CutFrom s)
    (hmore : s.cursor.rest = t.cursor.rest ++ more) (hphase : t.phase = .scanning)
    (hholds : t.cursor.HoldsSequence q) (hb : q.block = some b)
    (hall : t.cursor.rest.length = (q.bytes t.cursor.order).length)
    (hpad : s.cursor.HoldsSequence (q.pad (n + 1)))
    (hend : (t.afterSequence q).run.ending = .exhausted place needed atBoundary) :
    Resumed more place needed s.run.ending := by
  have hother : s.phase = .scanning := h.agrees.phase_eq.trans hphase
  have hnil : (t.afterSequence q).cursor.rest = [] := by
    change t.cursor.rest.drop (q.bytes t.cursor.order).length = []
    rw [← hall, List.drop_length]
  obtain ⟨b', hexhausted⟩ := exhausted_of_nil (s := t.afterSequence q) hphase hnil
  rw [hexhausted] at hend
  cases hend
  have hplace := fileOffset_afterSequence hholds
  have hplace' := fileOffset_afterSequence hpad
  have hlength : ((q.pad (n + 1)).bytes s.cursor.order).length =
      (q.bytes t.cursor.order).length + (n + 1) := by
    rw [Sequence.bytes_pad _ _ hb, List.length_append, List.length_replicate, h.order_eq]
  have hfits := hpad.stands.length_le
  rw [hmore, List.length_append, hlength] at hfits
  have hsame := h.agrees.fileOffset_eq
  rw [run_of_sequence (step_of_holdsSequence hother hpad)]
  refine .behind (by omega) fun place' m b'' he => ?_
  have hle := le_of_run_exhausted (s := s.afterSequence (q.pad (n + 1))) hother he
  omega

/-- The run in which the bytes ran out, with more of them. Complete operators are the same, but
padding at the end of the bytes may go on; then that place lies behind. -/
theorem CutFrom.resumed (h : t.CutFrom s) (hmore : s.cursor.rest = t.cursor.rest ++ more)
    (hphase : t.phase = .scanning) (hend : t.run.ending = .exhausted place needed atBoundary) :
    Resumed more place needed s.run.ending := by
  induction hlength : t.cursor.rest.length using Nat.strongRecOn generalizing s t with
  | _ length ih =>
    cases hstep : t.step with
    | mk outcome t' =>
      cases outcome with
      | ended e =>
        rw [run_of_ended hstep] at hend
        dsimp only at hend
        rw [hend] at hstep
        exact h.resumed_of_step hmore hphase hstep
      | sequence ts =>
        have hother : s.phase = .scanning := h.agrees.phase_eq.trans hphase
        have hless := step_rest_lt hstep
        obtain ⟨-, q, hholds, -, ht'⟩ := exists_of_step hstep
        have hstands := hholds.stands.length_le
        have hscanning := phase_of_step_sequence hstep
        rw [run_of_sequence hstep] at hend
        have hsame : s.cursor.HoldsSequence q → Resumed more place needed s.run.ending := by
          intro hq
          have hcut := h.afterSequence hholds hq
          rw [← ht'] at hcut
          rw [run_of_sequence (step_of_holdsSequence hother hq)]
          refine ih _ (by omega) hcut ?_ hscanning hend rfl
          rw [ht']
          change s.cursor.rest.drop (q.bytes s.cursor.order).length =
            t.cursor.rest.drop (q.bytes t.cursor.order).length ++ more
          rw [hmore, h.order_eq, List.drop_append_of_le_length hstands]
        rcases hholds.of_prefix h.order_eq h.more with hq | ⟨b, n, hb, hall, hpad⟩
        · exact hsame hq
        · cases n with
          | zero => exact hsame (q.pad_zero ▸ hpad)
          | succ n =>
            rw [ht'] at hend
            exact h.resumed_of_pad hmore hphase hholds hb hall hpad hend

end More

/-- The session on a file with more bytes has all of them in front of it. -/
theorem exists_cutFrom_append {data : List UInt8} {t : Session} (hopen : openFile data = .ok t)
    (more : List UInt8) : ∃ s, openFile (data ++ more) = .ok s ∧ t.CutFrom s ∧
      s.cursor.rest = t.cursor.rest ++ more := by
  have hon := (on_of_openFile hopen).1
  have hlength := hon.fileOffset_add_length
  have hshared : (data ++ more).take t.fileOffset = data.take t.fileOffset :=
    List.take_append_of_le_length (by omega)
  obtain ⟨s, hother, hheader, hagrees⟩ := openFile_of_take_eq hopen hshared
  have hon' := (on_of_openFile hother).1
  have hrest : s.cursor.rest = t.cursor.rest ++ more := by
    rw [hon'.rest_eq, hon.rest_eq, hagrees.fileOffset_eq, List.drop_append_of_le_length (by omega)]
  refine ⟨s, hother, ⟨hagrees, ?_, ?_⟩, hrest⟩
  · rw [hon'.order_eq, hon.order_eq, hheader]
  · rw [hrest]
    exact List.prefix_append _ _

/-- A file that opens only with more bytes does so behind those that it has. -/
theorem lt_of_openFile_append {data more : List UInt8} {f : Fault} {s : Session}
    (hnot : openFile data = .error f) (hopen : openFile (data ++ more) = .ok s) :
    data.length < s.fileOffset := by
  refine Nat.lt_of_not_le fun hle => ?_
  have hshared : data.take s.fileOffset = (data ++ more).take s.fileOffset :=
    (List.take_append_of_le_length hle).symm
  obtain ⟨t, hother, -⟩ := openFile_of_take_eq hopen hshared
  rw [hnot] at hother
  cases hother

end Session

namespace Disassembly

/-- The bytes of a file run out in its header or in its run. -/
theorem exhausted_of_ofFile {data : List UInt8} {g : Diagnosis} {place needed : Nat}
    (h : ofFile data = .error g) (hlack : g.fault = .endOfStream place needed) :
    Session.openFile data = .error (.endOfStream place needed) ∨
    ∃ s atBoundary, Session.openFile data = .ok s ∧
      s.run.ending = .exhausted place needed atBoundary := by
  unfold ofFile at h
  cases hopen : Session.openFile data with
  | error f =>
    rw [hopen] at h
    cases h
    exact .inl (congrArg Except.error hlack)
  | ok s =>
    rw [hopen] at h
    dsimp only at h
    cases hend : s.run.ending with
    | jobEnd offset =>
      rw [hend] at h
      cases h
    | exhausted place' needed' atBoundary =>
      rw [hend] at h
      cases h
      cases hlack
      exact .inr ⟨s, atBoundary, rfl, hend⟩
    | failed f =>
      rw [hend] at h
      cases h
      cases hlack
      obtain ⟨k, e, s', hphase, hstep⟩ := Session.exists_step_ended (s := s) (k := 0)
        (Session.on_of_openFile hopen).2
      obtain ⟨i, -, he, -⟩ := Session.exists_interrupt_of_step hphase hstep
      rw [Session.run_of_step_ended hphase hstep] at hend
      dsimp only at hend
      rw [hend] at he
      rw [Session.ofInterrupt_eq_failed he.symm] at he
      cases he

/-- A run that comes to the end of the job takes the file apart. -/
theorem ofFile_of_jobEnd {data : List UInt8} {s : Session} {offset : Nat}
    (hopen : Session.openFile data = .ok s) (hend : s.run.ending = .jobEnd offset) :
    ofFile data = .ok ⟨s.header, s.run.tokens⟩ ∧ s.run.tokens.getLast? = some (.jobEnd offset) := by
  constructor
  · unfold ofFile
    rw [hopen]
    dsimp only
    rw [hend]
    rfl
  · rw [Transcript.tokens, hend]
    exact List.getLast?_concat

/-- One that runs out of bytes fails for the bytes that it lacks. -/
theorem ofFile_of_exhausted {data : List UInt8} {s : Session} {place needed : Nat}
    {atBoundary : Bool} (hopen : Session.openFile data = .ok s)
    (hend : s.run.ending = .exhausted place needed atBoundary) :
    ∃ g, ofFile data = .error g ∧ g.fault = .endOfStream place needed := by
  unfold ofFile
  rw [hopen]
  dsimp only
  rw [hend]
  exact ⟨_, rfl, rfl⟩

/-- The number of needed bytes is exact. With fewer of them behind it a file is taken apart up to a
job-end marker, or the rest is lacking at the same place. With as many nothing is lacking there. -/
theorem needed_exact {data : List UInt8} {g : Diagnosis} {place needed : Nat}
    (h : ofFile data = .error g) (hlack : g.fault = .endOfStream place needed)
    (more : List UInt8) :
    (more.length < needed →
      (∃ d offset, ofFile (data ++ more) = .ok d ∧ d.tokens.getLast? = some (.jobEnd offset)) ∨
      ∃ g', ofFile (data ++ more) = .error g' ∧
        g'.fault = .endOfStream place (needed - more.length)) ∧
    (needed ≤ more.length → ∀ g' n, ofFile (data ++ more) = .error g' →
      g'.fault ≠ .endOfStream place n) := by
  rcases exhausted_of_ofFile h hlack with hopen | ⟨t, atBoundary, hopen, hend⟩
  · -- The header line is not complete, so that one byte is lacking at the end of the file.
    obtain ⟨-, hheader⟩ := Session.inHeader_of_openFile hopen rfl
    obtain ⟨rfl, rfl, -⟩ := hheader.lacks _ _ rfl
    refine ⟨fun hfew => ?_, fun henough g' n hother hlack' => ?_⟩
    · rw [List.length_eq_zero_iff.1 (Nat.lt_one_iff.1 hfew), List.append_nil]
      exact .inr ⟨g, h, hlack⟩
    · rcases exhausted_of_ofFile hother hlack' with hopen' | ⟨s, atBoundary, hopen', hend⟩
      · obtain ⟨-, hheader'⟩ := Session.inHeader_of_openFile hopen' rfl
        have hplace := (hheader'.lacks _ _ rfl).1
        rw [List.length_append] at hplace
        omega
      · have hlt := Session.lt_of_openFile_append hopen hopen'
        have hle := Session.le_of_run_exhausted (Session.on_of_openFile hopen').2 hend
        omega
  · obtain ⟨s, hopen', hcut, hmore⟩ := Session.exists_cutFrom_append hopen more
    have hresumed := hcut.resumed hmore (Session.on_of_openFile hopen).2 hend
    refine ⟨fun hfew => ?_, fun henough g' n hother hlack' => ?_⟩
    · cases hending : s.run.ending with
      | jobEnd offset => exact .inl ⟨_, offset, ofFile_of_jobEnd hopen' hending⟩
      | exhausted place' n b =>
        rw [hending] at hresumed
        cases hresumed with
        | exhausted few => exact .inr (ofFile_of_exhausted hopen' hending)
        | behind enough => omega
      | failed f =>
        rw [hending] at hresumed
        cases hresumed with
        | behind enough => omega
    · rcases exhausted_of_ofFile hother hlack' with hnot | ⟨s', b, hsame, hending⟩
      · rw [hopen'] at hnot
        cases hnot
      · rw [hopen'] at hsame
        cases hsame
        rw [hending] at hresumed
        cases hresumed with
        | exhausted few => omega
        | behind enough hbehind => exact Nat.lt_irrefl _ (hbehind _ _ _ rfl)

/-- A file that ends in the count of an array lacks one byte of two. Another byte gives the count, and
then the elements are lacking, behind the place. -/
theorem needed_exact_onSample :
    (∃ g, ofFile (WrittenHeader.sample.bytes ++ [0xC9, 0xC1, 0x02]) = .error g ∧
      g.fault = .endOfStream 18 1) ∧
    ∀ g' n, ofFile (WrittenHeader.sample.bytes ++ [0xC9, 0xC1, 0x02] ++ [0x00]) = .error g' →
      g'.fault ≠ .endOfStream 18 n := by
  have hending : (Session.onSample [0xC9, 0xC1, 0x02]).run.ending = .exhausted 18 1 false := by
    decide +kernel
  obtain ⟨g, hg, hlack⟩ := ofFile_of_exhausted (Session.openFile_onSample _) hending
  exact ⟨⟨g, hg, hlack⟩, (needed_exact hg hlack [0x00]).2 (by decide)⟩

end Disassembly

end PclXl
