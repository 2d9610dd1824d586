import PclXl.Proofs.Runs
import PclXl.Proofs.Twins

/-!
# Steps that are interrupted

What interrupts a step, by the place of the first job-end marker in front of its session. In front
of the body of a data block a step is part of the grammar, so that twins are interrupted alike. The
body itself is read whatever it holds and can only be too long.
-/

namespace PclXl

open Cursor

/-- Two sessions that have read the same until then and stand at twin cursors. -/
structure Session.Twins (s t : Session) (room : Nat) : Prop where
  /-- The cursors are twins. -/
  cursor : s.cursor.Twins t.cursor room
  /-- As many graphics states are saved. -/
  level_eq : t.level = s.level
  /-- As many operators were counted. -/
  operatorCount_eq : t.operatorCount = s.operatorCount

/-- The file offset of the body of a data block, by the tokens in front of it: where the last of
them is an operator that a data block follows, its body stands behind the tag and the length. -/
def bodyOffset? (tokens : List Token) : Option Nat :=
  match tokens.getLast? with
  | some (.operator op) => ((OperatorInfo.ofTag? op.tag).bind (·.payload)).map fun source =>
      op.tagOffset + 1 + source.lengthWidth
  | _ => none

/-- The body of a data block stands behind the tag and the length. -/
theorem Heading.bodyOffset?_leadTokens {order : ByteOrder} {offset : Nat} {t : Tally} {g : Heading}
    {source : PayloadSource} (h : g.info.payload = some source) :
    bodyOffset? (g.leadTokens order offset t) =
      some (offset + (g.listBytes order).length + 1 + source.lengthWidth) := by
  unfold bodyOffset? leadTokens
  rw [List.getLast?_concat]
  dsimp only [operator]
  rw [g.known]
  dsimp only [Option.bind_some]
  rw [h]
  rfl

/-- Behind its length a data block is read to its end, or the bytes run out. -/
theorem Reader.payload_of_length {source : PayloadSource} {declared : Option UInt32} {name : String}
    {tagOffset n : Nat} {c c₁ : Cursor}
    (h : payloadLength source declared name tagOffset c = .ok n c₁) :
    (∃ p c', payload source declared name tagOffset c = .ok p c') ∨
    ∃ needed, payload source declared name tagOffset c =
      .error (.fault (.endOfStream c₁.fileOffset needed)) c₁ := by
  unfold payload
  rw [bind_of_ok h, fileOffset_bind]
  by_cases hshort : (c₁.rest.take n).length < n
  · have hraw : takeRaw n c₁ =
        .error (.fault (.endOfStream c₁.fileOffset (n - (c₁.rest.take n).length))) c₁ := by
      unfold takeRaw
      rw [if_pos hshort]
    exact .inr ⟨_, bind_eq_error_iff.2 (.inl hraw)⟩
  · have hraw : takeRaw n c₁ = .ok (c₁.rest.take n) (c₁.advance n) := by
      unfold takeRaw
      rw [if_neg hshort]
    rw [bind_of_ok hraw]
    exact .inl ⟨_, _, rfl⟩

namespace Session

/-- Behind its length a session reads a data block to its end, or the bytes run out in its body. -/
theorem passPayload_of_length {s : Session} {info : OperatorInfo} {source : PayloadSource}
    {tagOffset n : Nat} {c : Cursor} (hsource : info.payload = some source)
    (h : Reader.payloadLength source s.declared info.name tagOffset s.cursor = .ok n c)
    (ts : List Token) :
    (passPayload s info tagOffset ts).interrupt = none ∨
    ((passPayload s info tagOffset ts).tokens = ts ∧ ∃ needed,
      (passPayload s info tagOffset ts).interrupt =
        some (.fault (.endOfStream c.fileOffset needed))) := by
  unfold passPayload readPayload
  rw [hsource]
  dsimp only
  rcases Reader.payload_of_length h with ⟨p, c', hread⟩ | ⟨needed, hread⟩
  · rw [hread]
    exact .inl rfl
  · rw [hread]
    exact .inr ⟨rfl, needed, rfl⟩

/-- A session whose data block has no length that can be read stops there. -/
theorem passPayload_of_error {s : Session} {info : OperatorInfo} {source : PayloadSource}
    {tagOffset : Nat} {i : Interrupt} {c : Cursor} (hsource : info.payload = some source)
    (h : Reader.payloadLength source s.declared info.name tagOffset s.cursor = .error i c)
    (ts : List Token) : passPayload s info tagOffset ts =
      ⟨ts, some i, { s with cursor := c, declared := source.declaredAfter s.declared }⟩ := by
  have hread : Reader.payload source s.declared info.name tagOffset s.cursor = .error i c :=
    Reader.bind_eq_error_iff.2 (.inl h)
  unfold passPayload readPayload
  rw [hsource]
  dsimp only
  rw [hread]

/-- Twin sessions read the length of a data block alike. What comes behind is read by each alone. -/
theorem passPayload_twins {s t : Session} {room : Nat} (ht : s.cursor.Twins t.cursor room)
    {source : PayloadSource} {info : OperatorInfo} (hsource : info.payload = some source)
    (hdeclared : t.declared = s.declared) (tagOffset : Nat) (ts : List Token) :
    (∃ n i declared, n ≤ room ∧ i.Meets s.cursor n room ∧
      passPayload s info tagOffset ts =
        ⟨ts, some i, { s with cursor := s.cursor.advance n, declared }⟩ ∧
      passPayload t info tagOffset ts =
        ⟨ts, some i, { t with cursor := t.cursor.advance n, declared }⟩) ∨
    (passPayload s info tagOffset ts).interrupt = none ∨
    (source.lengthWidth ≤ room ∧ (passPayload s info tagOffset ts).tokens = ts ∧ ∃ needed,
      (passPayload s info tagOffset ts).interrupt =
        some (.fault (.endOfStream (s.cursor.fileOffset + source.lengthWidth) needed))) := by
  rcases (Reader.scans_payloadLength source s.declared info.name tagOffset).alike ht with
    ⟨n, length, hn, hs, -⟩ | ⟨n, i, hn, hs, ht', hmeets⟩
  · obtain ⟨-, hfield, hcursor⟩ := payloadLength_eq_ok_iff.1 hs
    have hle := ht.length_le hfield
    have hoffset := hfield.fileOffset
    rw [PayloadSource.length_lengthField] at hle hoffset
    rcases passPayload_of_length hsource hs ts with hnone | ⟨htokens, needed, hlack⟩
    · exact .inr (.inl hnone)
    · rw [hcursor, hoffset] at hlack
      exact .inr (.inr ⟨hle, htokens, needed, hlack⟩)
  · have hother := ht'
    rw [← hdeclared] at hother
    have hsame := passPayload_of_error hsource hother ts
    rw [hdeclared] at hsame
    exact .inl ⟨n, i, _, hn, hmeets, passPayload_of_error hsource hs ts, hsame⟩

/-- White space leaves cursors twins. -/
theorem skipSpace_twins {c d : Cursor} {room : Nat} (ht : c.Twins d room) : ∃ n, n ≤ room ∧
    c.skipWhile Reader.isWhiteSpace = c.advance n ∧
    d.skipWhile Reader.isWhiteSpace = d.advance n := by
  rcases ht.toShares.skipSpace with hboth | ⟨hend, hd⟩
  · exact hboth
  · have hsame := ht.eq_of_length hend
    rw [hsame] at hd ⊢
    exact ⟨room, Nat.le_refl _, hd, hd⟩

/-- A session that moved on by `n` bytes. -/
def moved (s : Session) (n : Nat) (declared : Option UInt32) (t : Tally) : Session :=
  { s with cursor := s.cursor.advance n, declared, level := t.level, operatorCount := t.count }

/-- An attribute list that is interrupted behind white space ends the reading. -/
theorem pass_of_list {s : Session} {w n : Nat} {as : List Attribute} {i : Interrupt}
    (hskip : s.cursor.skipWhile Reader.isWhiteSpace = s.cursor.advance w)
    (hread : AttributeList.read (s.cursor.advance w) =
      ⟨as, some i, (s.cursor.advance w).advance n⟩) :
    s.skipSpace.pass = ⟨as.map .attr, some i,
      s.moved (w + n) (as.filterMap Attribute.vendorLength?).getLast? s.tally⟩ := by
  rw [advance_advance] at hread
  rw [← hskip] at hread
  rw [pass_eq_of_interrupt (s := s.skipSpace) hread]
  rfl

/-- So does the tag of an operator behind an attribute list. -/
theorem pass_of_tag {s : Session} {w n m : Nat} {as : List Attribute} {i : Interrupt}
    (hskip : s.cursor.skipWhile Reader.isWhiteSpace = s.cursor.advance w)
    (hread : AttributeList.read (s.cursor.advance w) = ⟨as, none, (s.cursor.advance w).advance n⟩)
    (htag : operatorTag ((s.cursor.advance w).advance n) =
      .error i (((s.cursor.advance w).advance n).advance m)) :
    s.skipSpace.pass = ⟨as.map .attr, some i,
      s.moved (w + n + m) (as.filterMap Attribute.vendorLength?).getLast? s.tally⟩ := by
  rw [← hskip] at hread
  rw [pass_eq (s := s.skipSpace) hread]
  unfold passOperator
  dsimp only
  rw [hskip, htag, advance_advance, advance_advance, ← Nat.add_assoc]
  rfl

/-- Twins have counted the same. -/
theorem Twins.tally_eq {s t : Session} {room : Nat} (ht : s.Twins t room) : t.tally = s.tally := by
  rw [tally, tally, ht.level_eq, ht.operatorCount_eq]

/-- Twin sessions are interrupted alike. -/
def InterruptedAlike (s t : Session) (room : Nat) : Prop :=
  ∃ n i ts declared tally, n ≤ room ∧ i.Meets s.cursor n room ∧
    s.skipSpace.pass = ⟨ts, some i, s.moved n declared tally⟩ ∧
    t.skipSpace.pass = ⟨ts, some i, t.moved n declared tally⟩

/-- Twin sessions are interrupted alike before the tag of an operator is read, or an operator is
written up to its tag at the first of them. -/
theorem lead_twins {s t : Session} {room : Nat} (ht : s.Twins t room) :
    s.InterruptedAlike t room ∨ ∃ g : Heading, s.cursor.Holds (g.stem s.cursor.order) := by
  obtain ⟨w, hw, hs, ht'⟩ := skipSpace_twins ht.cursor
  have hroom := ht.cursor.room_le.1
  have htally := ht.tally_eq
  obtain ⟨n, as, i?, hn, hread, hread', hmeets⟩ :=
    AttributeList.read_twins (ht.cursor.advance hw)
  cases i? with
  | some i =>
    have hpass := pass_of_list ht' hread'
    rw [htally] at hpass
    exact .inl ⟨w + n, i, _, _, _, by omega, Interrupt.meets_advance hw hroom (hmeets i rfl),
      pass_of_list hs hread, hpass⟩
  | none =>
    have hbehind := (ht.cursor.advance hw).advance hn
    rcases scans_operatorTag.alike hbehind with ⟨m, entry, -, htag, -⟩ | ⟨m, i, hm, htag, htag', hi⟩
    · rw [← hs] at hread htag
      exact .inr (exists_stem_of_reads hread htag)
    · have hpass := pass_of_tag ht' hread' htag'
      rw [htally] at hpass
      rw [advance_advance, Nat.sub_sub] at hi
      exact .inl ⟨w + n + m, i, _, _, _, by omega,
        Interrupt.meets_advance (by omega) hroom hi, pass_of_tag hs hread htag, hpass⟩

/-- Behind the tag of an operator that a data block follows, twin sessions are interrupted alike, or
the block is read or too long. -/
theorem pass_twins_of_stem {s t : Session} {room : Nat} {g : Heading} {source : PayloadSource}
    (ht : s.Twins t room) (hstem : s.cursor.Holds (g.stem s.cursor.order))
    (hsource : g.info.payload = some source) :
    s.InterruptedAlike t room ∨ s.skipSpace.pass.interrupt = none ∨
    ∃ n needed, n ≤ room ∧
      s.skipSpace.pass.interrupt = some (.fault (.endOfStream (s.cursor.fileOffset + n) needed)) ∧
      bodyOffset? s.skipSpace.pass.tokens = some (s.cursor.fileOffset + n) := by
  have horder := ht.cursor.order_eq
  have hle := ht.cursor.length_le hstem
  have hroom := ht.cursor.room_le.1
  have hend := hstem.fileOffset
  have hlength := g.length_stem s.cursor.order
  have hother : t.cursor.Holds (g.stem t.cursor.order) := by
    rw [horder]
    exact (ht.cursor.holds hle hstem.1).2
  have hbehind : (s.behindTag g).cursor.Twins (t.behindTag g).cursor
      (room - (g.stem s.cursor.order).length) := by
    unfold behindTag
    dsimp only
    rw [horder]
    exact ht.cursor.advance hle
  rw [InterruptedAlike, pass_of_stem hstem, pass_of_stem hother, horder, ht.cursor.fileOffset_eq,
    ht.tally_eq]
  rcases passPayload_twins hbehind hsource rfl (s.cursor.fileOffset + g.space.bytes.length +
      (g.listBytes s.cursor.order).length) (g.leadTokens s.cursor.order
        (s.cursor.fileOffset + g.space.bytes.length) s.tally) with
    ⟨n, i, declared, hn, hmeets, hs, ht'⟩ | hnone | ⟨hwidth, htokens, needed, hs⟩
  · have hmoved : (s.behindTag g).cursor.advance n =
        s.cursor.advance ((g.stem s.cursor.order).length + n) := advance_advance _ _ _
    have hmoved' : (t.behindTag g).cursor.advance n =
        t.cursor.advance ((g.stem s.cursor.order).length + n) := by
      rw [← horder]
      exact advance_advance _ _ _
    rw [hs, ht', hmoved, hmoved']
    refine .inl ⟨_, i, _, declared, s.tally.after g.info, by omega,
      Interrupt.meets_advance hle hroom hmeets, rfl, ?_⟩
    rw [← ht.tally_eq]
    rfl
  · exact .inr (.inl hnone)
  · have hplace : s.cursor.fileOffset + g.space.bytes.length +
        (g.listBytes s.cursor.order).length + 1 + source.lengthWidth =
          s.cursor.fileOffset + ((g.stem s.cursor.order).length + source.lengthWidth) := by
      omega
    refine .inr (.inr ⟨(g.stem s.cursor.order).length + source.lengthWidth, needed, by omega, ?_,
      ?_⟩)
    · rw [hs, ← Nat.add_assoc, ← hend]
      rfl
    · rw [htokens, Heading.bodyOffset?_leadTokens hsource, hplace]

/-- How a step is interrupted: alike for a twin session, not at all, or by a data block that is
longer than what is left of the bytes. In the last case no marker starts in front of the body. -/
theorem pass_twins {s t : Session} {room : Nat} (ht : s.Twins t room) :
    s.InterruptedAlike t room ∨ s.skipSpace.pass.interrupt = none ∨
    ∃ n needed, n ≤ room ∧
      s.skipSpace.pass.interrupt = some (.fault (.endOfStream (s.cursor.fileOffset + n) needed)) ∧
      bodyOffset? s.skipSpace.pass.tokens = some (s.cursor.fileOffset + n) := by
  rcases lead_twins ht with hsame | ⟨g, hstem⟩
  · exact .inl hsame
  · cases hpayload : g.info.payload with
    | none =>
      refine .inr (.inl ?_)
      rw [pass_of_stem hstem]
      unfold passPayload
      rw [hpayload]
    | some source => exact pass_twins_of_stem ht hstem hpayload

/-- A step that ends a session was interrupted. -/
theorem exists_interrupt_of_step {s s' : Session} {e : Ending} (hphase : s.phase = .scanning)
    (h : s.step = (.ended e, s')) : ∃ i, s.skipSpace.pass.interrupt = some i ∧
      e = .ofInterrupt s.skipSpace.cursor.atEnd i ∧
      s' = s.skipSpace.pass.session.finish e s.skipSpace.pass.tokens := by
  rw [step_of_scanning hphase] at h
  cases hi : s.skipSpace.pass.interrupt with
  | none =>
    rw [hi] at h
    cases h
  | some i =>
    rw [hi] at h
    have hpair := Prod.mk.inj h
    have hending := Step.ended.inj hpair.1
    rw [← hending]
    exact ⟨i, rfl, rfl, hpair.2.symm⟩

/-- What the step leaves is what was read until then. -/
theorem unfinished_of_step {s s' : Session} {e : Ending} (hphase : s.phase = .scanning)
    (h : s.step = (.ended e, s')) : s'.unfinished = s.skipSpace.pass.tokens := by
  obtain ⟨i, -, -, hs'⟩ := exists_interrupt_of_step hphase h
  rw [hs']
  rfl

/-- What holds of the tokens that a pass reads wherever a session comes to, and of the end of a job,
holds of the tokens of a run. -/
theorem forall_mem_run (Reached : Session → Prop) {P : Token → Prop}
    (onward : ∀ s ts s', Reached s → s.step = (.sequence ts, s') → Reached s')
    (pass : ∀ s, Reached s → ∀ t ∈ s.skipSpace.pass.tokens, P t)
    (jobEnd : ∀ offset, P (.jobEnd offset)) {s : Session} (hphase : s.phase = .scanning)
    (hs : Reached s) : ∀ t ∈ s.run.tokens, P t := by
  induction hlength : s.cursor.rest.length using Nat.strongRecOn generalizing s with
  | _ length ih =>
    intro t ht
    cases hstep : s.step with
    | mk outcome s' =>
      cases outcome with
      | sequence ts =>
        obtain ⟨-, -, htokens, -⟩ := step_eq_sequence_iff.1 hstep
        have hless := step_rest_lt hstep
        rw [tokens_run_of_sequence hstep] at ht
        rcases List.mem_append.1 ht with hfront | hbehind
        · exact pass s hs t (htokens ▸ hfront)
        · exact ih _ (by omega) (phase_of_step_sequence hstep) (onward s ts s' hs hstep) rfl t hbehind
      | ended e =>
        rw [run_of_ended hstep, Transcript.tokens, unfinished_of_step hphase hstep] at ht
        rcases List.mem_append.1 ht with hfront | hend
        · exact pass s hs t hfront
        · obtain ⟨offset, rfl⟩ := e.exists_of_mem_tokens hend
          exact jobEnd offset

/-- Only the end of a job ends a run as such. -/
theorem ofInterrupt_eq_jobEnd {atBoundary : Bool} {i : Interrupt} {offset : Nat}
    (h : Ending.ofInterrupt atBoundary i = .jobEnd offset) : i = .jobEnd offset := by
  unfold Ending.ofInterrupt at h
  split at h
  · rw [Ending.jobEnd.inj h]
  · cases h
  · cases h

/-- Only the end of the bytes leaves a run without more of them. -/
theorem ofInterrupt_eq_exhausted {atBoundary b : Bool} {i : Interrupt} {offset needed : Nat}
    (h : Ending.ofInterrupt atBoundary i = .exhausted offset needed b) :
    i = .fault (.endOfStream offset needed) := by
  unfold Ending.ofInterrupt at h
  split at h
  · cases h
  · have hparts := Ending.exhausted.inj h
    rw [hparts.1, hparts.2.1]
  · cases h

/-- Only other faults let a run fail. -/
theorem ofInterrupt_eq_failed {atBoundary : Bool} {i : Interrupt} {fault : Fault}
    (h : Ending.ofInterrupt atBoundary i = .failed fault) : i = .fault fault := by
  unfold Ending.ofInterrupt at h
  split at h
  · cases h
  · cases h
  · rw [Ending.failed.inj h]

/-- Behind the end of a job the marker was stepped over. -/
theorem fileOffset_finish_jobEnd {s : Session} {n offset : Nat} {declared : Option UInt32}
    {t : Tally} {ts : List Token} (hmarker : jobEndMarker <+: s.cursor.rest.drop n) :
    ((s.moved n declared t).finish (.jobEnd offset) ts).fileOffset =
      s.fileOffset + n + jobEndMarker.length := by
  have hle := length_of_marker hmarker
  have hat : (s.cursor.advance n).atJobEnd = true := List.isPrefixOf_iff_prefix.2 hmarker
  have hskip : (s.cursor.advance n).skipJobEnd =
      (s.cursor.advance n).advance jobEndMarker.length := by
    unfold Cursor.skipJobEnd
    rw [if_pos hat]
  change (s.cursor.advance n).skipJobEnd.fileOffset = s.cursor.fileOffset + n + _
  rw [hskip, advance_advance, fileOffset_advance hle, Nat.add_assoc]

/-- A session that ends at a job end has read up to the first marker in front of it. A twin session
ends there as well. -/
theorem step_twins_jobEnd {s t s' : Session} {room offset : Nat} (ht : s.Twins t room)
    (hs : s.phase = .scanning) (hphase : t.phase = .scanning)
    (h : s.step = (.ended (.jobEnd offset), s')) :
    jobEndMarker <+: s.cursor.rest.drop room ∧ offset = s.fileOffset + room ∧
      s'.fileOffset = offset + jobEndMarker.length ∧ ∃ t', t.step = (.ended (.jobEnd offset), t') ∧
        t'.phase = s'.phase ∧ t'.level = s'.level ∧ t'.operatorCount = s'.operatorCount ∧
        t'.fileOffset = s'.fileOffset := by
  obtain ⟨i, hi, hending, hs'⟩ := exists_interrupt_of_step hs h
  have hjob := ofInterrupt_eq_jobEnd hending.symm
  rw [hjob] at hi
  rcases pass_twins ht with ⟨n, j, ts, declared, tl, hn, hmeets, hpass, hpass'⟩ | hnone | hbody
  · rw [hpass] at hi
    rw [Option.some.inj hi] at hmeets hpass'
    obtain ⟨hroom, hoffset, hmarker⟩ := hmeets
    rw [hroom] at hpass hpass'
    have hother := ht.cursor.marker hmarker
    have hplace : t.fileOffset = s.fileOffset := ht.cursor.fileOffset_eq
    have hstep : t.step = (.ended (.jobEnd offset),
        (t.moved room declared tl).finish (.jobEnd offset) ts) := by
      rw [step_of_scanning hphase, hpass']
      rfl
    rw [hs', hpass, fileOffset_finish_jobEnd hmarker]
    refine ⟨hmarker, hoffset, ?_, _, hstep, rfl, rfl, rfl, ?_⟩
    · rw [hoffset]
      rfl
    · rw [fileOffset_finish_jobEnd hother, hplace]
  · rw [hnone] at hi
    cases hi
  · obtain ⟨n, needed, -, hfault, -⟩ := hbody
    rw [hfault] at hi
    cases hi

/-- Every session is its own twin. -/
theorem exists_twins (s : Session) : ∃ room, s.Twins s room := by
  obtain ⟨room, hroom⟩ := s.cursor.exists_twins
  exact ⟨room, hroom, rfl, rfl⟩

/-- A session that ends at a job end has read up to the first marker in front of it and stands
behind that marker. -/
theorem exists_room_of_jobEnd {s s' : Session} {offset : Nat} (hphase : s.phase = .scanning)
    (h : s.step = (.ended (.jobEnd offset), s')) : ∃ room, s.cursor.Clear room ∧
      jobEndMarker <+: s.cursor.rest.drop room ∧ offset = s.fileOffset + room ∧
      s'.fileOffset = offset + jobEndMarker.length := by
  obtain ⟨room, ht⟩ := s.exists_twins
  obtain ⟨hmarker, hoffset, hend, -⟩ := step_twins_jobEnd ht hphase hphase h
  exact ⟨room, ht.cursor.clear, hmarker, hoffset, hend⟩

/-- Where the bytes run out, no marker follows at all, or the body of a data block is too long and
no marker starts in front of it. -/
theorem clear_of_step_exhausted {s s' : Session} {offset needed : Nat} {atBoundary : Bool}
    (hphase : s.phase = .scanning)
    (h : s.step = (.ended (.exhausted offset needed atBoundary), s')) :
    s.cursor.Clear s.cursor.rest.length ∨ ∃ n, offset = s.fileOffset + n ∧ s.cursor.Clear n ∧
      bodyOffset? s'.unfinished = some offset := by
  obtain ⟨room, ht⟩ := s.exists_twins
  obtain ⟨i, hi, hending, hs'⟩ := exists_interrupt_of_step hphase h
  have hfault := ofInterrupt_eq_exhausted hending.symm
  rw [hfault] at hi
  rcases pass_twins ht with ⟨n, j, ts, declared, tl, hn, hmeets, hpass, -⟩ | hnone | hbody
  · rw [hpass] at hi
    rw [Option.some.inj hi] at hmeets
    have hroom : room = s.cursor.rest.length := hmeets
    rw [← hroom]
    exact .inl ht.cursor.clear
  · rw [hnone] at hi
    cases hi
  · obtain ⟨n, lack, hn, hbytes, hoffset⟩ := hbody
    rw [hbytes] at hi
    have hplace : s.cursor.fileOffset + n = offset := by
      cases hi
      rfl
    rw [hplace] at hoffset
    refine .inr ⟨n, hplace.symm, ht.cursor.clear.mono hn, ?_⟩
    rw [hs']
    exact hoffset

/-- An unknown code is reported only where no marker starts up to it. -/
theorem clear_of_step_unknownCode {s s' : Session} {offset : Nat} {code : UInt16} {kind : CodeKind}
    (hphase : s.phase = .scanning)
    (h : s.step = (.ended (.failed (.unknownCode offset code kind)), s')) :
    ∃ n, offset = s.fileOffset + n ∧ s.cursor.Clear (n + 1) := by
  obtain ⟨room, ht⟩ := s.exists_twins
  obtain ⟨i, hi, hending, -⟩ := exists_interrupt_of_step hphase h
  have hfault := ofInterrupt_eq_failed hending.symm
  rw [hfault] at hi
  rcases pass_twins ht with ⟨n, j, ts, declared, tl, -, hmeets, hpass, -⟩ | hnone | hbody
  · rw [hpass] at hi
    rw [Option.some.inj hi] at hmeets
    obtain ⟨hoffset, hn⟩ := hmeets
    exact ⟨n, hoffset, ht.cursor.clear.mono hn⟩
  · rw [hnone] at hi
    cases hi
  · obtain ⟨n, needed, -, hbytes, -⟩ := hbody
    rw [hbytes] at hi
    cases hi

end Session

end PclXl
