import PclXl.Proofs.DeclaredLength

/-!
# Endings stay

Steps may be mixed with direct readings of attribute lists and data blocks. The first step that does
not complete an operator ends the session. From then on every step gives the same ending, and all that
a session tells stays as it is, although direct readings still move the cursor. What an ending leaves
are attributes, and behind them at most one operator whose data block was interrupted.
-/

namespace PclXl

open Cursor Vocabulary

/-- Where the length of the data block stands that follows an operator. -/
def Operator.payload? (op : Operator) : Option PayloadSource :=
  (OperatorInfo.ofTag? op.tag).bind (·.payload)

/-- What an ending may leave of an operator: attributes, and perhaps the operator itself in front of
its data block. The end of a job leaves only operators that merely carry data. -/
def LeftBy (e : Ending) (ts : List Token) : Prop :=
  ∃ as : List Attribute, ts = as.map .attr ∨
    ∃ op source, ts = as.map .attr ++ [.operator op] ∧ op.payload? = some source ∧
      ∀ offset, e = .jobEnd offset → op.name = "embedded_data" ∨ op.name = "embedded_data_byte"

/-- The operators with a length in front of their data block merely carry data. -/
theorem OperatorInfo.name_of_inline {info : OperatorInfo} {source : PayloadSource}
    (hknown : ofTag? info.tag = some info) (hpayload : info.payload = some source)
    (hinline : source ≠ .vendorLength) :
    info.name = "embedded_data" ∨ info.name = "embedded_data_byte" := by
  have hmem : info ∈ operators := List.mem_of_find?_eq_some hknown
  have hall : ∀ i ∈ operators, i.payload ≠ none → i.payload ≠ some .vendorLength →
      i.name = "embedded_data" ∨ i.name = "embedded_data_byte" := by decide
  refine hall info hmem ?_ ?_
  · rw [hpayload]
    exact Option.some_ne_none source
  · rw [hpayload]
    exact fun heq => hinline (Option.some.inj heq)

/-- No marker is looked for where an attribute declares the length of a data block. -/
theorem Reader.payload_vendorLength_ne_jobEnd {declared : Option UInt32} {name : String}
    {tagOffset offset : Nat} {c d : Cursor} :
    payload .vendorLength declared name tagOffset c ≠ .error (.jobEnd offset) d := by
  intro h
  cases declared with
  | none =>
    have hfail : payload .vendorLength none name tagOffset c =
        .error (.fault (.missingAttribute tagOffset name vendorLengthName)) c := rfl
    rw [hfail] at h
    cases h
  | some n =>
    have hlength : payloadLength .vendorLength (some n) name tagOffset c = .ok n.toNat c := rfl
    rcases payload_of_length hlength with ⟨p, c', hread⟩ | ⟨needed, hread⟩
    · rw [hread] at h
      cases h
    · rw [hread] at h
      cases h

namespace Session

/-- An interrupted data block leaves the tokens in front of it. -/
theorem passPayload_of_interrupted {s : Session} {info : OperatorInfo} {tagOffset : Nat}
    {ts : List Token} {i : Interrupt} (h : (passPayload s info tagOffset ts).interrupt = some i) :
    (passPayload s info tagOffset ts).tokens = ts ∧ ∃ source, info.payload = some source ∧
      ∀ offset, i = .jobEnd offset → source ≠ .vendorLength := by
  unfold passPayload readPayload at *
  cases hsource : info.payload with
  | none =>
    rw [hsource] at h
    cases h
  | some source =>
    dsimp only
    rw [hsource] at h
    dsimp only at h
    cases hread : Reader.payload source s.declared info.name tagOffset s.cursor with
    | ok p c =>
      rw [hread] at h
      cases h
    | error j c =>
      rw [hread] at h
      cases h
      refine ⟨rfl, source, rfl, fun offset hjob hvendor => ?_⟩
      rw [hjob, hvendor] at hread
      exact Reader.payload_vendorLength_ne_jobEnd hread

/-- What is read of an interrupted operator is what the ending may leave. -/
theorem leftBy_of_pass {s : Session} {i : Interrupt} (h : s.pass.interrupt = some i)
    (atBoundary : Bool) : LeftBy (.ofInterrupt atBoundary i) s.pass.tokens := by
  cases hread : AttributeList.read s.cursor with
  | mk as interrupt c =>
    cases interrupt with
    | some j =>
      rw [pass_eq_of_interrupt hread]
      exact ⟨as, .inl rfl⟩
    | none =>
      rw [pass_eq hread] at h ⊢
      unfold passOperator at h ⊢
      cases htag : operatorTag c with
      | error j c' => exact ⟨as, .inl rfl⟩
      | ok entry c' =>
        obtain ⟨info, tagOffset⟩ := entry
        obtain ⟨space, hknown, -⟩ := exists_of_operatorTag htag
        dsimp only at h hknown ⊢
        rw [htag] at h
        obtain ⟨htokens, source, hpayload, hjob⟩ := passPayload_of_interrupted h
        rw [htokens]
        refine ⟨as, .inr ⟨_, source, rfl, ?_, fun offset he => ?_⟩⟩
        · change (OperatorInfo.ofTag? info.tag).bind (·.payload) = some source
          rw [hknown]
          exact hpayload
        · exact OperatorInfo.name_of_inline hknown hpayload
            (hjob offset (ofInterrupt_eq_jobEnd he))

/-- The session behind some actions. -/
def afterActions (s : Session) (actions : List Action) : Session :=
  actions.foldl act s

/-- Actions may be taken in two parts. -/
theorem afterActions_append (s : Session) (past later : List Action) :
    s.afterActions (past ++ later) = (s.afterActions past).afterActions later :=
  List.foldl_append

/-- Two sessions tell the same, wherever their cursors stand. -/
structure TellsAs (s t : Session) : Prop where
  /-- The stream has the same header. -/
  header_eq : s.header = t.header
  /-- As many graphics states are saved. -/
  level_eq : s.level = t.level
  /-- As many operators were counted. -/
  operatorCount_eq : s.operatorCount = t.operatorCount
  /-- Both go on, or both ended alike with the same tokens of an unfinished operator. -/
  phase_eq : s.phase = t.phase

/-- Sessions that tell the same as a third tell the same as each other. -/
theorem TellsAs.trans {s t u : Session} (h : s.TellsAs t) (h' : t.TellsAs u) : s.TellsAs u :=
  ⟨h.header_eq.trans h'.header_eq, h.level_eq.trans h'.level_eq,
    h.operatorCount_eq.trans h'.operatorCount_eq, h.phase_eq.trans h'.phase_eq⟩

/-- A session has ended exactly where its phase says so. -/
theorem isFinished_iff {s : Session} :
    s.isFinished = true ↔ ∃ e ts, s.phase = .ended e ts := by
  unfold isFinished
  cases s.phase with
  | scanning => simp
  | ended e ts => simp

/-- A direct reading changes nothing that a session tells, however it ends. -/
theorem tellsAs_act {a : Action} (ha : a ≠ .step) (s : Session) : (s.act a).TellsAs s := by
  cases a with
  | step => exact absurd rfl ha
  | attributes => exact ⟨rfl, rfl, rfl, rfl⟩
  | payload source name tagOffset =>
    unfold act Call.after readPayload
    dsimp only
    cases Reader.payload source s.declared name tagOffset s.cursor with
    | ok p c => exact ⟨rfl, rfl, rfl, rfl⟩
    | error i c => exact ⟨rfl, rfl, rfl, rfl⟩

/-- No action changes what an ended session tells. -/
theorem tellsAs_act_of_ended {s : Session} {e : Ending} {ts : List Token}
    (h : s.phase = .ended e ts) (a : Action) : (s.act a).TellsAs s := by
  by_cases ha : a = .step
  · have hsame : s.act a = s := by
      rw [ha]
      exact congrArg Prod.snd (step_of_ended h)
    rw [hsame]
    exact ⟨rfl, rfl, rfl, rfl⟩
  · exact tellsAs_act ha s

/-- Nor do several. -/
theorem tellsAs_afterActions {s : Session} {e : Ending} {ts : List Token}
    (h : s.phase = .ended e ts) (actions : List Action) : (s.afterActions actions).TellsAs s := by
  induction actions generalizing s with
  | nil => exact ⟨rfl, rfl, rfl, rfl⟩
  | cons a actions ih =>
    have hfirst := tellsAs_act_of_ended h a
    exact (ih (hfirst.phase_eq.trans h)).trans hfirst

/-- One action of a session that goes on: it goes on behind it, or the action is a step that gives
the ending. -/
theorem phase_act {s : Session} (h : s.phase = .scanning) (a : Action) :
    ((s.act a).phase = .scanning ∧ ∀ e, a = .step → s.step.1 ≠ .ended e) ∨
      ∃ e ts, a = .step ∧ s.step.1 = .ended e ∧ (s.act a).phase = .ended e ts := by
  by_cases ha : a = .step
  · rw [ha]
    cases hstep : s.step with
    | mk outcome s' =>
      have hact : s.act .step = s' := congrArg Prod.snd hstep
      rw [hact]
      cases outcome with
      | sequence ts => exact .inl ⟨phase_of_step_sequence hstep, fun e _ heq => by cases heq⟩
      | ended e =>
        obtain ⟨ts, hphase⟩ := phase_of_step_ended hstep
        exact .inr ⟨e, ts, rfl, rfl, hphase⟩
  · exact .inl ⟨(tellsAs_act ha s).phase_eq.trans h, fun e hstep => absurd hstep ha⟩

/-- A session that went on has ended exactly if one of the actions was a step that gave an ending. -/
theorem isFinished_afterActions_iff {s : Session} (h : s.phase = .scanning)
    (actions : List Action) : (s.afterActions actions).isFinished = true ↔
      ∃ past later e, actions = past ++ .step :: later ∧ (s.afterActions past).step.1 = .ended e := by
  induction actions generalizing s with
  | nil =>
    rw [isFinished_iff]
    constructor
    · rintro ⟨e, ts, hended⟩
      change s.phase = .ended e ts at hended
      rw [h] at hended
      cases hended
    · rintro ⟨past, later, e, hactions, -⟩
      exact absurd hactions (by simp)
  | cons a actions ih =>
    rcases phase_act h a with ⟨hphase, hother⟩ | ⟨e, ts, ha, hstep, hphase⟩
    · refine (ih hphase).trans ⟨?_, ?_⟩
      · rintro ⟨past, later, e, hactions, hended⟩
        exact ⟨a :: past, later, e, congrArg (a :: ·) hactions, hended⟩
      · rintro ⟨past, later, e, hactions, hended⟩
        cases past with
        | nil => exact absurd hended (hother e (List.cons.inj hactions).1)
        | cons b past =>
          obtain ⟨rfl, hrest⟩ := List.cons.inj hactions
          exact ⟨past, later, e, hrest, hended⟩
    · have hkept := (tellsAs_afterActions hphase actions).phase_eq.trans hphase
      refine ⟨fun _ => ⟨[], actions, e, by rw [ha]; rfl, hstep⟩, fun _ => ?_⟩
      exact isFinished_iff.2 ⟨e, ts, hkept⟩

/-- Whatever is done with a session, its ending leaves what an ending may leave. -/
theorem leftBy_afterActions {s : Session} (h : ∀ e ts, s.phase = .ended e ts → LeftBy e ts)
    (actions : List Action) :
    ∀ e ts, (s.afterActions actions).phase = .ended e ts → LeftBy e ts := by
  induction actions generalizing s with
  | nil => exact h
  | cons a actions ih =>
    refine ih fun e ts hended => ?_
    cases hphase : s.phase with
    | ended e' ts' =>
      rw [(tellsAs_act_of_ended hphase a).phase_eq] at hended
      exact h e ts hended
    | scanning =>
      rcases phase_act hphase a with ⟨hscanning, -⟩ | ⟨e', ts', ha, hstep, hphase'⟩
      · rw [hscanning] at hended
        cases hended
      · rw [ha] at hended
        have hpair : s.step = (.ended e', s.step.2) := Prod.ext hstep rfl
        obtain ⟨i, hi, he, hs'⟩ := exists_interrupt_of_step hphase hpair
        change s.step.2.phase = .ended e ts at hended
        rw [hs'] at hended
        obtain ⟨he', hts⟩ := Phase.ended.inj hended
        rw [← he', ← hts, he]
        exact leftBy_of_pass hi _

/-- A session starts out going on. -/
theorem phase_of_start {stream : List UInt8} {base : Nat} {s : Session}
    (h : start stream base = .ok s) : s.phase = .scanning := by
  obtain ⟨header, -, rfl⟩ := start_eq_ok_iff.1 h
  rfl

/-- A session starts behind the sample of a header line. -/
theorem start_onSample (rest : List UInt8) :
    start (WrittenHeader.sample.bytes ++ rest) 0 = .ok (onSample rest) :=
  start_eq_ok_iff.2 ⟨_, Header.read_of_written .sample rest 0, rfl⟩

/-- An ending stays. In whatever order steps and direct readings follow each other, a session is
finished exactly behind the first step that does not complete an operator. From then on every step
gives the ending of that step and leaves the session as it is, and nothing that the session tells
changes. Direct readings never change it. Until the end no tokens are unfinished; what an ending
leaves are attributes, or attributes and an operator with a data block. -/
theorem ending_absorbs {stream : List UInt8} {base : Nat} {s : Session}
    (hstart : start stream base = .ok s) (actions : List Action) :
    ((s.afterActions actions).isFinished = true ↔ ∃ past later e,
      actions = past ++ .step :: later ∧ (s.afterActions past).step.1 = .ended e) ∧
    (∀ past later e, actions = past ++ .step :: later →
      (s.afterActions past).step.1 = .ended e →
      (s.afterActions actions).step = (.ended e, s.afterActions actions) ∧
      (s.afterActions actions).TellsAs (s.afterActions past).step.2 ∧
      (s.afterActions actions).isFinished = true ∧
      (s.afterActions actions).unfinished = (s.afterActions past).step.2.unfinished) ∧
    (∀ a, a ≠ .step → ((s.afterActions actions).act a).TellsAs (s.afterActions actions)) ∧
    ((s.afterActions actions).isFinished = false → (s.afterActions actions).unfinished = []) ∧
    ∀ e ts, (s.afterActions actions).phase = .ended e ts →
      (s.afterActions actions).unfinished = ts ∧ LeftBy e ts := by
  have hphase := phase_of_start hstart
  refine ⟨isFinished_afterActions_iff hphase actions, fun past later e hactions hstep => ?_,
    fun a ha => tellsAs_act ha _, fun hgoes => ?_, fun e ts hended => ⟨?_, ?_⟩⟩
  · obtain ⟨ts, hended⟩ := phase_of_step_ended (s := s.afterActions past) (Prod.ext hstep rfl)
    have hsplit : s.afterActions actions = (s.afterActions past).step.2.afterActions later := by
      rw [hactions, afterActions_append]
      rfl
    have hsame := tellsAs_afterActions hended later
    rw [← hsplit] at hsame
    have hstays := hsame.phase_eq.trans hended
    refine ⟨step_of_ended hstays, hsame, isFinished_iff.2 ⟨e, ts, hstays⟩, ?_⟩
    unfold unfinished
    rw [hsame.phase_eq]
  · cases hgoing : (s.afterActions actions).phase with
    | scanning => exact unfinished_of_scanning hgoing
    | ended e ts =>
      rw [isFinished_iff.2 ⟨e, ts, hgoing⟩] at hgoes
      cases hgoes
  · unfold unfinished
    rw [hended]
  · refine leftBy_afterActions (fun e ts hnone => ?_) actions e ts hended
    rw [hphase] at hnone
    cases hnone

/-- A data block whose length is cut off by the end of the job, and a further attribute behind. -/
def cutLength : List UInt8 :=
  [0xFB] ++ jobEndMarker ++ [0xC0, 0x02, 0xF8, 0x25, 0xFB]

/-- The first step gives the end of the job and leaves the operator. An attribute list and a data
block that are read behind move the cursor, but the next step gives the same ending. -/
theorem ending_absorbs_cutLength :
    (onSample cutLength).step.1 = .ended (.jobEnd 17) ∧
    ((onSample cutLength).afterActions [.step, .attributes]).fileOffset = 30 ∧
    ((onSample cutLength).afterActions
      [.step, .attributes, .payload .inlineUByte "embedded_data_byte" 30]).step.1 =
        .ended (.jobEnd 17) ∧
    ((onSample cutLength).afterActions
      [.step, .attributes, .payload .inlineUByte "embedded_data_byte" 30]).unfinished =
        [.operator ⟨0xFB, "embedded_data_byte", 16, 16, 0, none⟩] ∧
    LeftBy (.jobEnd 17) [.operator ⟨0xFB, "embedded_data_byte", 16, 16, 0, none⟩] := by
  have hstep : (onSample cutLength).step.1 = .ended (.jobEnd 17) := by decide +kernel
  have hleft : (onSample cutLength).step.2.unfinished =
      [.operator ⟨0xFB, "embedded_data_byte", 16, 16, 0, none⟩] := by decide +kernel
  obtain ⟨-, hlater, -, -, hended⟩ := ending_absorbs (start_onSample cutLength)
    [.step, .attributes, .payload .inlineUByte "embedded_data_byte" 30]
  obtain ⟨hagain, hsame, -, hunfinished⟩ := hlater [] _ _ rfl hstep
  obtain ⟨ts, hphase⟩ := phase_of_step_ended (s := onSample cutLength) (Prod.ext hstep rfl)
  obtain ⟨htokens, hleftBy⟩ := hended _ _ (hsame.phase_eq.trans hphase)
  rw [hunfinished] at htokens
  refine ⟨hstep, by decide +kernel, congrArg Prod.fst hagain, hunfinished.trans hleft, ?_⟩
  rw [← hleft]
  rwa [← htokens] at hleftBy

end Session

end PclXl
