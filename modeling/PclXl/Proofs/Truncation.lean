import PclXl.Proofs.Locality

/-!
# Streams that are cut short

A stream that loses its end is noticed. The session on what is left does the same as the one on the
whole stream, operator by operator, until the bytes run out: in front of an operator, inside one, or
in the padding of a data block, which then is only shorter. Nothing else can be reported, since a
read that stays within the bytes that are left does the same on both.
-/

namespace PclXl

open Cursor

/-- Tokens are the first of others, but the data block that they end in may have less padding. -/
def BeginsUpToPadding (ts us : List Token) : Prop :=
  ts <+: us ∨ ∃ front p n, ts = front ++ [.payload p] ∧
    front ++ [.payload { p with padding := p.padding + n }] <+: us

/-- More tokens in front of both. -/
theorem BeginsUpToPadding.append {ts us : List Token} (front : List Token)
    (h : BeginsUpToPadding ts us) : BeginsUpToPadding (front ++ ts) (front ++ us) := by
  rcases h with hprefix | ⟨lead, p, n, hts, hprefix⟩
  · exact .inl ((List.prefix_append_right_inj front).2 hprefix)
  · refine .inr ⟨front ++ lead, p, n, by rw [hts, List.append_assoc], ?_⟩
    rw [List.append_assoc]
    exact (List.prefix_append_right_inj front).2 hprefix

/-- An operator at a cursor stands where more bytes follow, or its data block ends with the bytes and
takes more padding there. -/
theorem Cursor.HoldsSequence.of_prefix {c d : Cursor} {q : Sequence} (h : c.HoldsSequence q)
    (horder : d.order = c.order) (hmore : c.rest <+: d.rest) :
    d.HoldsSequence q ∨ ∃ b n, q.block = some b ∧ c.rest.length = (q.bytes c.order).length ∧
      d.HoldsSequence (q.pad n) := by
  have hstands := h.stands.length_le
  obtain ⟨behind, hbehind⟩ := hmore
  have hshared : d.rest.take (q.bytes c.order).length = c.rest.take (q.bytes c.order).length := by
    rw [← hbehind, List.take_append_of_le_length hstands]
  by_cases hended : q.block.isSome → (d.rest.drop (q.bytes c.order).length).head? ≠ some 0
  · exact .inl (h.of_take_eq horder hshared hended)
  · obtain ⟨hblock, hzero⟩ := Classical.not_imp.1 hended
    have hzero := Decidable.not_not.1 hzero
    obtain ⟨b, hb⟩ := Option.isSome_iff_exists.1 hblock
    have hnil : c.rest.drop (q.bytes c.order).length = [] := by
      have hnot := h.ended hblock
      rw [← hbehind, List.drop_append_of_le_length hstands] at hzero
      cases hdrop : c.rest.drop (q.bytes c.order).length with
      | nil => rfl
      | cons x xs =>
        rw [hdrop] at hzero hnot
        exact absurd hzero hnot
    have hlength := List.drop_eq_nil_iff.1 hnil
    obtain ⟨⟨tail, htail⟩, hclear⟩ := h.clear_of_take_eq hshared
    have hpadding := List.takeWhile_append_dropWhile (p := Reader.isPadding) (l := tail)
    have hzeros : tail.takeWhile Reader.isPadding =
        List.replicate (tail.takeWhile Reader.isPadding).length 0 :=
      List.eq_replicate_of_mem fun x hx =>
        isPadding_iff.1 (List.all_eq_true.1 (List.all_takeWhile (p := Reader.isPadding)) x hx)
    refine .inr ⟨b, (tail.takeWhile Reader.isPadding).length, hb, by omega, ?_⟩
    rw [← horder] at htail hclear
    have hrest : d.rest = (q.pad (tail.takeWhile Reader.isPadding).length).bytes d.order ++
        tail.dropWhile Reader.isPadding := by
      rw [Sequence.bytes_pad _ _ hb, ← hzeros, List.append_assoc, hpadding, htail]
    refine holdsSequence_of_rest hrest ?_ fun _ hhead => ?_
    · rw [Sequence.head_pad]
      exact hclear
    · have hnot := List.head?_dropWhile_not Reader.isPadding tail
      rw [hhead] at hnot
      exact absurd hnot (by decide)

namespace Session

/-- Reading a data block keeps the tokens in front. -/
theorem prefix_passPayload (s : Session) (info : OperatorInfo) (tagOffset : Nat)
    (ts : List Token) : ts <+: (passPayload s info tagOffset ts).tokens := by
  unfold passPayload
  split
  · exact List.prefix_rfl
  · split
    · exact List.prefix_append _ _
    · exact List.prefix_rfl

/-- Reading an operator keeps its attributes. -/
theorem attributes_prefix_pass (s : Session) :
    (AttributeList.read s.cursor).attributes.map .attr <+: s.pass.tokens := by
  unfold pass passOperator
  dsimp only
  split
  · exact List.prefix_rfl
  · split
    · exact List.prefix_rfl
    · exact (List.prefix_append _ _).trans (prefix_passPayload _ _ _ _)

/-- Where no byte is left, no operator is read. -/
theorem pass_of_nil {s : Session} (h : s.cursor.rest = []) :
    s.pass.interrupt = some (.fault (.endOfStream s.fileOffset 1)) ∧ s.pass.tokens = [] := by
  have hskip : s.cursor.skipWhile Reader.isWhiteSpace = s.cursor := by
    rw [Cursor.skipWhile, h]
    exact advance_zero _
  have hspace := Reader.skipWhiteSpace_eq s.cursor
  rw [hskip] at hspace
  have hnone : Reader.attr? s.cursor =
      .error (.fault (.endOfStream s.fileOffset 1)) s.cursor := by
    unfold Reader.attr?
    rw [Reader.bind_of_ok hspace]
    exact Reader.needsByte_peek_bind _ _ h
  have hread : AttributeList.read s.cursor =
      ⟨[], some (.fault (.endOfStream s.fileOffset 1)), s.cursor⟩ := by
    rw [AttributeList.read, hnone]
  rw [pass_eq_of_interrupt hread]
  exact ⟨rfl, rfl⟩

/-- The bytes ran out while an operator was read, and the tokens until then are the first of some.
-/
def Pass.Lacks (p : Pass) (ts : List Token) : Prop :=
  (∃ offset needed, p.interrupt = some (.fault (.endOfStream offset needed))) ∧ p.tokens <+: ts

/-- Behind the tag of an operator, a session on fewer bytes reads the data block, is interrupted as
the other one is, or lacks bytes. -/
theorem passPayload_shares {s t : Session} {room : Nat} {info : OperatorInfo} {tagOffset : Nat}
    (h : s.cursor.Shares t.cursor room) (hdeclared : t.declared = s.declared) (ts : List Token) :
    (passPayload t info tagOffset ts).interrupt = none ∨
    (∃ i, (passPayload s info tagOffset ts).interrupt = some i ∧
      (passPayload t info tagOffset ts).interrupt = some i) ∨
    (passPayload t info tagOffset ts).Lacks (passPayload s info tagOffset ts).tokens := by
  have hkept := prefix_passPayload s info tagOffset ts
  cases hsource : info.payload with
  | none =>
    refine .inl ?_
    unfold passPayload
    rw [hsource]
  | some source =>
    have hlength := Reader.scans_payloadLength source s.declared info.name tagOffset _ _ _ h
    cases hlength with
    | gives n length hn hs ht =>
      rw [← hdeclared] at ht
      rcases passPayload_of_length hsource ht ts with hnone | ⟨htokens, needed, hlack⟩
      · exact .inl hnone
      · refine .inr (.inr ⟨⟨_, needed, hlack⟩, ?_⟩)
        rw [htokens]
        exact hkept
    | stops n i hn hs ht hmeets =>
      rw [← hdeclared] at ht
      refine .inr (.inl ⟨i, ?_, ?_⟩)
      · rw [passPayload_of_error hsource hs]
      · rw [passPayload_of_error hsource ht]
    | lacks n offset needed hn hend ht =>
      rw [← hdeclared] at ht
      refine .inr (.inr ⟨⟨offset, needed, ?_⟩, ?_⟩)
      · rw [passPayload_of_error hsource ht]
      · rw [passPayload_of_error hsource ht]
        exact hkept

/-- The same for an operator that is written up to its tag at both sessions. -/
theorem pass_shares_of_stem {s t : Session} {room : Nat} {g : Heading}
    (h : s.cursor.Shares t.cursor room) (htally : t.tally = s.tally)
    (hstem : t.cursor.Holds (g.stem t.cursor.order)) :
    t.skipSpace.pass.interrupt = none ∨
    (∃ i, s.skipSpace.pass.interrupt = some i ∧ t.skipSpace.pass.interrupt = some i) ∨
    t.skipSpace.pass.Lacks s.skipSpace.pass.tokens := by
  have hle := h.length_le hstem
  have hother : g.stem t.cursor.order <+: s.cursor.rest.drop 0 :=
    (h.prefix_iff (by omega)).1 hstem.1
  have hfirst := (h.holds hle hother).1
  have hadvanced := h.advance hle
  rw [h.order_eq] at hfirst hadvanced
  have hbehind : (s.behindTag g).cursor.Shares (t.behindTag g).cursor
      (room - (g.stem s.cursor.order).length) := by
    unfold behindTag
    rw [h.order_eq]
    exact hadvanced
  rw [pass_of_stem hfirst, pass_of_stem hstem, h.order_eq, h.fileOffset_eq, htally]
  exact passPayload_shares hbehind rfl _

/-- An operator whose tag cannot be read is interrupted behind its attributes. -/
theorem pass_of_operatorTag_error {s : Session} {as : List Attribute} {c c' : Cursor}
    {i : Interrupt} (hread : AttributeList.read s.cursor = ⟨as, none, c⟩)
    (htag : operatorTag c = .error i c') :
    s.pass.interrupt = some i ∧ s.pass.tokens = as.map .attr := by
  rw [pass_eq hread]
  unfold passOperator
  dsimp only
  rw [htag]
  exact ⟨rfl, rfl⟩

/-- A session on fewer bytes reads an operator to its end, is interrupted as the other one is, or
lacks bytes. -/
theorem pass_shares {s t : Session} {room : Nat} (h : s.cursor.Shares t.cursor room)
    (htally : t.tally = s.tally) :
    t.skipSpace.pass.interrupt = none ∨
    (∃ i, s.skipSpace.pass.interrupt = some i ∧ t.skipSpace.pass.interrupt = some i) ∨
    t.skipSpace.pass.Lacks s.skipSpace.pass.tokens := by
  rcases h.skipSpace with ⟨w, hw, hs, ht⟩ | ⟨hend, ht⟩
  · have hspace : s.skipSpace.cursor.Shares t.skipSpace.cursor (room - w) := by
      change (s.cursor.skipWhile _).Shares (t.cursor.skipWhile _) _
      rw [hs, ht]
      exact h.advance hw
    have hkept := s.skipSpace.attributes_prefix_pass
    obtain ⟨n, as, i?, hn, hread', hread⟩ := AttributeList.read_shares hspace
    rcases hread with ⟨hread, -⟩ | ⟨-, has, offset, needed, hi⟩
    · rw [hread] at hkept
      cases i? with
      | some i =>
        refine .inr (.inl ⟨i, ?_, ?_⟩)
        · rw [pass_eq_of_interrupt hread]
        · rw [pass_eq_of_interrupt hread']
      | none =>
        cases scans_operatorTag _ _ _ (hspace.advance hn) with
        | gives m entry hm htag htag' =>
          obtain ⟨g, hstem⟩ := exists_stem_of_reads hread' htag'
          exact pass_shares_of_stem h htally hstem
        | stops m i hm htag htag' hmeets =>
          exact .inr (.inl ⟨i, (pass_of_operatorTag_error hread htag).1,
            (pass_of_operatorTag_error hread' htag').1⟩)
        | lacks m offset needed hm hend htag' =>
          obtain ⟨hlack, htokens⟩ := pass_of_operatorTag_error hread' htag'
          refine .inr (.inr ⟨⟨offset, needed, hlack⟩, ?_⟩)
          rw [htokens]
          exact hkept
    · rw [hi] at hread'
      have hpass := pass_eq_of_interrupt hread'
      refine .inr (.inr ⟨⟨offset, needed, by rw [hpass]⟩, ?_⟩)
      rw [hpass]
      exact (has.map Token.attr).trans hkept
  · have hnil : t.skipSpace.cursor.rest = [] := by
      change (t.cursor.skipWhile _).rest = []
      rw [ht, rest_advance, ← hend, List.drop_length]
    obtain ⟨hlack, htokens⟩ := pass_of_nil hnil
    refine .inr (.inr ⟨⟨_, 1, hlack⟩, ?_⟩)
    rw [htokens]
    exact List.nil_prefix

/-- A session has come as far as another one, whose bytes go on where its own end. -/
structure CutFrom (t s : Session) : Prop where
  /-- Both have come equally far. -/
  agrees : t.Agrees s
  /-- Numbers are read in the same byte order. -/
  order_eq : s.cursor.order = t.cursor.order
  /-- The other session has all bytes of the first in front of it. -/
  more : t.cursor.rest <+: s.cursor.rest

section Cut

variable {s t : Session}

/-- A session that was cut has counted as far as the whole one. -/
theorem CutFrom.tally_eq (h : t.CutFrom s) : t.tally = s.tally := by
  rw [tally, tally, h.agrees.level_eq, h.agrees.operatorCount_eq]

/-- Where no marker starts in the bytes that are left, the sessions share them. -/
theorem CutFrom.shares (h : t.CutFrom s) (hclear : s.cursor.Clear t.cursor.rest.length) :
    s.cursor.Shares t.cursor t.cursor.rest.length := by
  refine ⟨h.order_eq.symm, h.agrees.fileOffset_eq.symm, hclear, ?_, .inr rfl⟩
  rw [List.take_length]
  exact List.prefix_iff_eq_take.1 h.more

/-- Where all is left that is scanned of an operator, it is read to its end or its data block lacks
bytes. -/
theorem CutFrom.pass_of_head {q : Sequence} (h : t.CutFrom s) (hholds : s.cursor.HoldsSequence q)
    (hlong : (q.head s.cursor.order).length ≤ t.cursor.rest.length) :
    t.skipSpace.pass.interrupt = none ∨ t.skipSpace.pass.Lacks s.skipSpace.pass.tokens := by
  have hhead : t.cursor.Holds (q.head t.cursor.order) := by
    rw [← h.order_eq]
    refine ⟨List.prefix_of_prefix_length_le hholds.head.1 h.more hlong, fun i hi hmarker => ?_⟩
    obtain ⟨behind, hbehind⟩ := h.more
    refine hholds.head.2 i hi ?_
    rw [← hbehind, List.drop_append_of_le_length (by omega)]
    exact hmarker.trans (List.prefix_append _ _)
  obtain ⟨hstem, hfield⟩ := holds_append.1 hhead
  have hpayload := q.source_eq
  have hplace : t.cursor.fileOffset = s.cursor.fileOffset := h.agrees.fileOffset_eq.symm
  rw [pass_of_holdsSequence hholds, pass_of_stem hstem, ← h.order_eq, hplace, h.tally_eq]
  cases hb : q.block with
  | none =>
    rw [hb] at hpayload
    refine .inl ?_
    unfold passPayload
    rw [← hpayload]
    rfl
  | some b =>
    rw [hb] at hpayload
    rw [Sequence.lengthField, hb] at hfield
    have hlength : Reader.payloadLength b.source (t.behindTag q.toHeading).declared q.info.name
        (s.cursor.fileOffset + q.space.bytes.length + (q.listBytes s.cursor.order).length)
        (t.behindTag q.toHeading).cursor = .ok b.body.length
          ((t.behindTag q.toHeading).cursor.advance b.source.lengthWidth) :=
      payloadLength_eq_ok_iff.2 ⟨q.sized b hb, hfield, rfl⟩
    rcases passPayload_of_length hpayload.symm hlength
      (q.leadTokens s.cursor.order (s.cursor.fileOffset + q.space.bytes.length) s.tally) with
      hnone | ⟨htokens, needed, hlack⟩
    · exact .inl hnone
    · refine .inr ⟨⟨_, needed, hlack⟩, ?_⟩
      rw [htokens]
      exact List.prefix_append _ _

/-- Where the other session goes on or ends its job behind the bytes that are left, a session is only
interrupted by a lack of bytes. -/
theorem CutFrom.pass_lacks {i : Interrupt} (h : t.CutFrom s) (hphase : t.phase = .scanning)
    (hdecodes : s.step.1.Decodes)
    (hlate : ∀ offset s', s.step = (.ended (.jobEnd offset), s') →
      t.fileOffset + t.cursor.rest.length ≤ offset)
    (hi : t.skipSpace.pass.interrupt = some i) :
    t.skipSpace.pass.Lacks s.skipSpace.pass.tokens := by
  have hother : s.phase = .scanning := h.agrees.phase_eq.trans hphase
  rcases cases_of_decodes hdecodes with ⟨ts, s', hstep⟩ | ⟨offset, s', hstep⟩
  · obtain ⟨-, hnone, -, -⟩ := step_eq_sequence_iff.1 hstep
    obtain ⟨-, q, hholds, -, -⟩ := exists_of_step hstep
    by_cases hshort : t.cursor.rest.length < (q.head s.cursor.order).length
    · have hclear := hholds.head.2.mono (Nat.le_of_lt hshort)
      rcases pass_shares (h.shares hclear) h.tally_eq with hcomplete | ⟨j, hj, -⟩ | hlacks
      · rw [hi] at hcomplete
        cases hcomplete
      · rw [hnone] at hj
        cases hj
      · exact hlacks
    · rcases h.pass_of_head hholds (Nat.le_of_not_lt hshort) with hcomplete | hlacks
      · rw [hi] at hcomplete
        cases hcomplete
      · exact hlacks
  · obtain ⟨room, hclear, -, hoffset, -⟩ := exists_room_of_jobEnd hother hstep
    have hplace := h.agrees.fileOffset_eq
    have hle := hlate offset s' hstep
    have hfront : s.cursor.Clear t.cursor.rest.length := hclear.mono (by omega)
    rcases pass_shares (h.shares hfront) h.tally_eq with hcomplete | ⟨j, hj, hj'⟩ | hlacks
    · rw [hi] at hcomplete
      cases hcomplete
    · -- The job would end here as well, at a marker in the bytes that are left.
      obtain ⟨m, hm, hending, -⟩ := exists_interrupt_of_step hother hstep
      rw [hj] at hm
      rw [Option.some.inj hm, ofInterrupt_eq_jobEnd hending.symm] at hj'
      have hstep' := step_of_scanning hphase
      rw [hj'] at hstep'
      obtain ⟨room', -, hmarker, -, -⟩ := exists_room_of_jobEnd hphase hstep'
      have hlength := length_of_marker hmarker
      have hmarkerLength : jobEndMarker.length = 9 := rfl
      obtain ⟨behind, hbehind⟩ := h.more
      refine absurd ?_ (hfront room' (by omega))
      rw [← hbehind, List.drop_append_of_le_length (by omega)]
      exact hmarker.trans (List.prefix_append _ _)
    · exact hlacks

/-- Both sessions stay as they are behind an operator that stands at both. -/
theorem CutFrom.afterSequence {q : Sequence} (h : t.CutFrom s) (hholds : t.cursor.HoldsSequence q)
    (hother : s.cursor.HoldsSequence q) : (t.afterSequence q).CutFrom (s.afterSequence q) := by
  have horder := h.order_eq
  refine ⟨⟨?_, ?_, h.agrees.phase_eq, ?_⟩, horder, ?_⟩
  · change (s.tally.after q.info).level = (t.tally.after q.info).level
    rw [h.tally_eq]
  · change (s.tally.after q.info).count = (t.tally.after q.info).count
    rw [h.tally_eq]
  · rw [fileOffset_afterSequence hholds, fileOffset_afterSequence hother, h.agrees.fileOffset_eq,
      horder]
  · obtain ⟨behind, hbehind⟩ := h.more
    change t.cursor.rest.drop (q.bytes t.cursor.order).length <+:
      s.cursor.rest.drop (q.bytes s.cursor.order).length
    rw [← hbehind, horder, List.drop_append_of_le_length hholds.stands.length_le]
    exact List.prefix_append _ _

end Cut

/-- The bytes run out at a boundary exactly where only white space is left, and then behind it, for
want of one byte and with no tokens. -/
theorem boundary_of_step {s s' : Session} {offset needed : Nat} {atBoundary : Bool}
    (hphase : s.phase = .scanning)
    (h : s.step = (.ended (.exhausted offset needed atBoundary), s')) :
    (atBoundary = true ↔ ∀ b ∈ s.cursor.rest, Reader.isWhiteSpace b = true) ∧
    (atBoundary = true → offset = s.fileOffset + s.cursor.rest.length ∧ needed = 1 ∧
      s'.unfinished = []) := by
  obtain ⟨i, hi, hending, hs'⟩ := exists_interrupt_of_step hphase h
  have hfault := ofInterrupt_eq_exhausted hending.symm
  rw [hfault] at hi hending
  have hat : atBoundary = s.skipSpace.cursor.atEnd := (Ending.exhausted.inj hending).2.2
  have hend : atBoundary = true ↔ s.skipSpace.cursor.rest = [] := by
    rw [hat]
    exact List.isEmpty_iff
  have hspace : s.skipSpace.cursor.rest =
      s.cursor.rest.drop (s.cursor.rest.takeWhile Reader.isWhiteSpace).length := rfl
  refine ⟨?_, fun hb => ?_⟩
  · rw [hend, hspace, List.drop_eq_nil_iff]
    constructor
    · intro hle b hb
      have hall := List.IsPrefix.eq_of_length_le (List.takeWhile_prefix Reader.isWhiteSpace) hle
      rw [← hall] at hb
      exact List.all_eq_true.1 List.all_takeWhile b hb
    · intro hall
      have hwhole := takeWhile_eq List.prefix_rfl hall (by simp)
      exact Nat.le_of_eq (congrArg List.length hwhole.symm)
  · have hnil := hend.1 hb
    obtain ⟨hlack, htokens⟩ := pass_of_nil hnil
    rw [hlack] at hi
    cases hi
    have hlength := List.drop_eq_nil_iff.1 (hspace.symm.trans hnil)
    have htake := (List.takeWhile_prefix (l := s.cursor.rest) Reader.isWhiteSpace).length_le
    refine ⟨?_, rfl, ?_⟩
    · change (s.cursor.advance _).fileOffset = s.cursor.fileOffset + _
      rw [fileOffset_advance htake]
      omega
    · rw [hs']
      exact htokens

/-- The tokens of a run start with those that its next step has read, complete or not. -/
theorem pass_prefix_run {s : Session} (hphase : s.phase = .scanning) :
    s.skipSpace.pass.tokens <+: s.run.tokens := by
  cases hstep : s.step with
  | mk outcome s' =>
    cases outcome with
    | sequence ts =>
      obtain ⟨-, -, hts, -⟩ := step_eq_sequence_iff.1 hstep
      rw [tokens_run_of_sequence hstep, hts]
      exact List.prefix_append _ _
    | ended e =>
      obtain ⟨i, -, -, hs'⟩ := exists_interrupt_of_step hphase hstep
      rw [run_of_ended hstep, Transcript.tokens, hs']
      exact List.prefix_append _ _

/-- Steps may be counted from the second one on. -/
theorem after_succ (s : Session) (k : Nat) : s.after (k + 1) = s.step.2.after k := by
  induction k with
  | zero => rfl
  | succ k ih =>
    change (s.after (k + 1)).step.2 = (s.step.2.after k).step.2
    rw [ih]

/-- After some steps that complete operators the bytes run out. -/
def RunsOut (s : Session) (k : Nat) : Prop :=
  (s.after k).phase = .scanning ∧ ∃ offset needed atBoundary,
    (s.after k).step.1 = .ended (.exhausted offset needed atBoundary)

/-- Counted from a step earlier that completes operators, the bytes run out a step later. -/
theorem RunsOut.succ {s s' : Session} {ts : List Token} {k : Nat}
    (hstep : s.step = (.sequence ts, s')) (h : s'.RunsOut k) : s.RunsOut (k + 1) := by
  unfold RunsOut
  rw [after_succ, hstep]
  exact h

/-- Where no byte is left, a session runs out at once. -/
theorem runsOut_of_nil {s : Session} (hphase : s.phase = .scanning) (hnil : s.cursor.rest = []) :
    s.RunsOut 0 ∧ s.run.tokens = [] := by
  have hspace : s.skipSpace.cursor.rest = [] := by
    change s.cursor.rest.drop _ = []
    rw [hnil, List.drop_nil]
  obtain ⟨hlack, htokens⟩ := pass_of_nil hspace
  have hstep := step_of_scanning hphase
  rw [hlack] at hstep
  have hrun := run_of_ended hstep
  refine ⟨⟨hphase, _, 1, _, congrArg Prod.fst hstep⟩, ?_⟩
  rw [hrun, Transcript.tokens]
  change [] ++ s.skipSpace.pass.tokens ++ [] = []
  rw [htokens]
  rfl

/-- Where the other run ends its job behind the bytes that are left, a step that ends a session finds
that the bytes run out. -/
theorem CutFrom.run_of_step_ended {s t t' : Session} {e : Ending} {offset : Nat} (h : t.CutFrom s)
    (hphase : t.phase = .scanning) (hend : s.run.ending = .jobEnd offset)
    (hle : t.fileOffset + t.cursor.rest.length ≤ offset) (hstep : t.step = (.ended e, t')) :
    t.RunsOut 0 ∧ t.run.tokens <+: s.run.tokens := by
  have hother : s.phase = .scanning := h.agrees.phase_eq.trans hphase
  have hending : ∀ e' s', s.step = (.ended e', s') → e' = .jobEnd offset := by
    intro e' s' hs
    rwa [run_of_ended hs] at hend
  have hdecodes : s.step.1.Decodes := by
    cases hs : s.step with
    | mk outcome s' =>
      cases outcome with
      | sequence ts => trivial
      | ended e' =>
        rw [hending e' s' hs]
        trivial
  have hlate : ∀ offset' s', s.step = (.ended (.jobEnd offset'), s') →
      t.fileOffset + t.cursor.rest.length ≤ offset' := by
    intro offset' s' hs
    rw [Ending.jobEnd.inj (hending _ s' hs)]
    exact hle
  obtain ⟨i, hi, he, ht'⟩ := exists_interrupt_of_step hphase hstep
  obtain ⟨⟨place, needed, hlack⟩, hprefix⟩ := h.pass_lacks hphase hdecodes hlate hi
  rw [hi] at hlack
  rw [Option.some.inj hlack] at he
  have he' : e = .exhausted place needed t.skipSpace.cursor.atEnd := he
  have htokens : t.run.tokens = t.skipSpace.pass.tokens := by
    rw [run_of_ended hstep, Transcript.tokens, ht', he']
    exact List.append_nil _
  refine ⟨⟨hphase, place, needed, t.skipSpace.cursor.atEnd, ?_⟩, ?_⟩
  · change t.step.1 = _
    rw [hstep, he']
  · rw [htokens]
    exact hprefix.trans (pass_prefix_run hother)

/-- Where the padding of a data block is cut, or all that follows it, the bytes run out right behind
it. The other run reads the same operator with all of its padding. -/
theorem CutFrom.run_of_pad {s t t' : Session} {ts : List Token} {q : Sequence} {b : WrittenBlock}
    {n : Nat} (h : t.CutFrom s) (hstep : t.step = (.sequence ts, t'))
    (hts : ts = q.tokens t.cursor.order (t.fileOffset + q.space.bytes.length) t.tally)
    (hscanning : t'.phase = .scanning) (hnil : t'.cursor.rest = []) (hb : q.block = some b)
    (hpad : s.cursor.HoldsSequence (q.pad n)) :
    t.RunsOut 1 ∧ BeginsUpToPadding t.run.tokens s.run.tokens := by
  have hother : s.phase = .scanning :=
    h.agrees.phase_eq.trans (step_eq_sequence_iff.1 hstep).1
  obtain ⟨hout, hnone⟩ := runsOut_of_nil hscanning hnil
  have hstep' := step_of_holdsSequence hother hpad
  have hbpad : (q.pad n).block = some { b with padding := b.padding + n } := by
    rw [Sequence.block_pad, hb]
    rfl
  refine ⟨hout.succ hstep, .inr ⟨q.leadTokens t.cursor.order (t.fileOffset + q.space.bytes.length)
    t.tally, b.token (t.fileOffset + q.space.bytes.length + (q.listBytes t.cursor.order).length), n,
    ?_, ?_⟩⟩
  · rw [tokens_run_of_sequence hstep, hnone, List.append_nil, hts, Sequence.tokens_of_some _ _ _ hb]
  · rw [tokens_run_of_sequence hstep', Sequence.tokens_of_some _ _ _ hbpad, h.order_eq,
      h.agrees.fileOffset_eq, ← h.tally_eq]
    exact List.prefix_append _ _

/-- The run on fewer bytes. Where the other run ends its job behind the bytes that are left, the bytes
run out, and the tokens until then are the first of the other run, but for padding. -/
theorem CutFrom.run {s t : Session} {offset : Nat} (h : t.CutFrom s) (hphase : t.phase = .scanning)
    (hend : s.run.ending = .jobEnd offset) (hle : t.fileOffset + t.cursor.rest.length ≤ offset) :
    (∃ k, t.RunsOut k) ∧ BeginsUpToPadding t.run.tokens s.run.tokens := by
  induction hlength : t.cursor.rest.length using Nat.strongRecOn generalizing s t with
  | _ length ih =>
    cases hstep : t.step with
    | mk outcome t' =>
      cases outcome with
      | ended e =>
        obtain ⟨hout, hprefix⟩ := h.run_of_step_ended hphase hend hle hstep
        exact ⟨⟨0, hout⟩, .inl hprefix⟩
      | sequence ts =>
        have hother : s.phase = .scanning := h.agrees.phase_eq.trans hphase
        have hless := step_rest_lt hstep
        obtain ⟨-, q, hholds, hts, ht'⟩ := exists_of_step hstep
        have hstands := hholds.stands.length_le
        have hplace := fileOffset_afterSequence hholds
        rw [← ht'] at hplace
        have hbehind : t'.cursor.rest = t.cursor.rest.drop (q.bytes t.cursor.order).length := by
          rw [ht']
          rfl
        have hscanning := phase_of_step_sequence hstep
        rcases hholds.of_prefix h.order_eq h.more with hsame | ⟨b, n, hb, hall, hpad⟩
        · have hcut := h.afterSequence hholds hsame
          rw [← ht'] at hcut
          have hstep' : s.step = (.sequence ts, s.afterSequence q) := by
            rw [step_of_holdsSequence hother hsame, hts, h.order_eq, h.agrees.fileOffset_eq,
              h.tally_eq]
          rw [run_of_sequence hstep'] at hend
          have hnext : t'.fileOffset + t'.cursor.rest.length ≤ offset := by
            rw [hbehind, List.length_drop]
            omega
          obtain ⟨⟨k, hk⟩, htokens⟩ := ih _ (by omega) hcut hscanning hend hnext rfl
          refine ⟨⟨k + 1, hk.succ hstep⟩, ?_⟩
          rw [tokens_run_of_sequence hstep, tokens_run_of_sequence hstep']
          exact htokens.append ts
        · have hnil : t'.cursor.rest = [] := by
            rw [hbehind, ← hall, List.drop_length]
          obtain ⟨hout, htokens⟩ := h.run_of_pad hstep hts hscanning hnil hb hpad
          exact ⟨⟨1, hout⟩, htokens⟩

/-- Sessions agree with each other either way around. -/
theorem Agrees.symm {s t : Session} (h : s.Agrees t) : t.Agrees s :=
  ⟨h.level_eq.symm, h.operatorCount_eq.symm, h.phase_eq.symm, h.fileOffset_eq.symm⟩

/-- What is left of a file opens like the file, and its session is cut from that on the file. -/
theorem exists_cutFrom {data : List UInt8} {s : Session} {c : Nat} (hopen : openFile data = .ok s)
    (hc : s.fileOffset ≤ c) :
    ∃ t, openFile (data.take c) = .ok t ∧ t.header = s.header ∧ t.CutFrom s := by
  have hshared : (data.take c).take s.fileOffset = data.take s.fileOffset := by
    rw [List.take_take, Nat.min_eq_left hc]
  obtain ⟨t, hother, hheader, hagrees⟩ := openFile_of_take_eq hopen hshared
  have hon := (on_of_openFile hopen).1
  have hon' := (on_of_openFile hother).1
  refine ⟨t, hother, hheader, hagrees.symm, ?_, ?_⟩
  · rw [hon.order_eq, hon'.order_eq, hheader]
  · rw [hon.rest_eq, hon'.rest_eq, hagrees.fileOffset_eq, List.drop_take]
    exact List.take_prefix _ _

/-- A file that is taken apart has one end of its job, at which the run ended. -/
theorem ending_of_ofFile {data : List UInt8} {d : Disassembly} {s : Session} {offset : Nat}
    (h : Disassembly.ofFile data = .ok d) (hend : .jobEnd offset ∈ d.tokens)
    (hopen : openFile data = .ok s) :
    d = ⟨s.header, s.run.tokens⟩ ∧ s.run.ending = .jobEnd offset ∧ MarkerAt data offset := by
  obtain ⟨s', hopen', -, hd⟩ := Disassembly.ofFile_eq_ok_iff.1 h
  rw [hopen] at hopen'
  rw [← Except.ok.inj hopen'] at hd
  rw [hd] at hend
  obtain ⟨k, t, hphase, hstep⟩ := ending_of_jobEnd_mem (on_of_openFile hopen).2 hend
  refine ⟨hd, ?_, (endedFirst_of_step hopen hphase hstep).marker⟩
  rw [run_of_step_ended hphase hstep]

/-- No part of a file that ends in front of the end of its job or inside the marker is taken apart:
it would end its job at the same place as the whole file. -/
theorem ofFile_take_ne_ok {data : List UInt8} {d e : Disassembly} {offset c : Nat}
    (h : Disassembly.ofFile data = .ok d) (hend : .jobEnd offset ∈ d.tokens)
    (hc : c < offset + jobEndMarker.length) : Disassembly.ofFile (data.take c) ≠ .ok e := by
  intro hcut
  obtain ⟨t, hopen', hfault, he⟩ := Disassembly.ofFile_eq_ok_iff.1 hcut
  obtain ⟨s, hopen, -, -⟩ := Disassembly.ofFile_eq_ok_iff.1 h
  obtain ⟨-, hending, -⟩ := ending_of_ofFile h hend hopen
  cases hending' : t.run.ending with
  | exhausted place needed atBoundary =>
    rw [hending'] at hfault
    cases hfault
  | failed fault =>
    rw [hending'] at hfault
    cases hfault
  | jobEnd place =>
    have hmem : .jobEnd place ∈ e.tokens := by
      rw [he, Transcript.tokens, hending']
      exact List.mem_append_right _ (List.mem_singleton_self _)
    have hlength := length_of_marker (ending_of_ofFile hcut hmem hopen').2.2
    rw [List.length_take] at hlength
    have hwhole := ofFile_take_append hcut hmem (data.drop (place + jobEndMarker.length))
    rw [List.take_take, Nat.min_eq_left (by omega), List.take_append_drop] at hwhole
    obtain ⟨-, hsame, -⟩ := ending_of_ofFile hwhole hmem hopen
    rw [hending] at hsame
    have hplace := Ending.jobEnd.inj hsame
    omega

/-- How a session ends on the first `c` bytes of a file. -/
structure CutShort (t : Session) (data : List UInt8) (c k offset needed : Nat)
    (atBoundary : Bool) : Prop where
  /-- The first `k` steps complete operators. -/
  completed : (t.after k).phase = .scanning
  /-- In the next step the bytes run out. -/
  ended : (t.after k).step.1 = .ended (.exhausted offset needed atBoundary)
  /-- This is at a boundary exactly where only white space is left behind the last operator. -/
  boundary_iff : atBoundary = true ↔
    ∀ b ∈ (data.take c).drop (t.after k).fileOffset, Reader.isWhiteSpace b = true
  /-- Then the bytes run out at the cut, for want of one byte and with no tokens left over. -/
  boundary : atBoundary = true → offset = c ∧ needed = 1 ∧ (t.after (k + 1)).unfinished = []

/-- Where the bytes of a file run out, it is known how, and the file is not taken apart. -/
theorem RunsOut.cutShort {t : Session} {data : List UInt8} {c k : Nat} (h : t.RunsOut k)
    (hopen : openFile (data.take c) = .ok t) (hc : c ≤ data.length) :
    ∃ offset needed atBoundary g, t.CutShort data c k offset needed atBoundary ∧
      Disassembly.ofFile (data.take c) = .error g ∧ g.fault = .endOfStream offset needed ∧
      g.tokens = t.run.tokens := by
  obtain ⟨hphase, offset, needed, atBoundary, hfirst⟩ := h
  have hstep : (t.after k).step = (.ended (.exhausted offset needed atBoundary), t.after (k + 1)) :=
    Prod.ext hfirst rfl
  have hon := (on_after hopen hphase).1
  have hlength := hon.fileOffset_add_length
  rw [List.length_take, Nat.min_eq_left hc] at hlength
  obtain ⟨hiff, hat⟩ := boundary_of_step hphase hstep
  rw [hon.rest_eq] at hiff
  rw [hlength] at hat
  have hending : t.run.ending = .exhausted offset needed atBoundary := by
    rw [run_of_step_ended hphase hstep]
  refine ⟨offset, needed, atBoundary, t.run.session.diagnose (.endOfStream offset needed)
    t.run.tokens, ⟨hphase, hfirst, hiff, hat⟩, ?_, rfl, rfl⟩
  unfold Disassembly.ofFile
  rw [hopen]
  dsimp only
  rw [hending]
  rfl

/-- Truncation is always noticed. Where a file is taken apart up to the end of its job, its first
bytes are not, if they end in front of the marker or inside it. If they end between the header and
the marker, the header is the same and the bytes run out; the tokens until then are the first of the
whole file, but the data block that they end in may have less padding. -/
theorem truncation_noticed {data : List UInt8} {d : Disassembly} {offset : Nat}
    (h : Disassembly.ofFile data = .ok d) (hend : .jobEnd offset ∈ d.tokens) :
    (∀ (s : Session) (c : Nat), openFile data = .ok s → s.fileOffset ≤ c → c ≤ offset →
      ∃ t k place needed atBoundary g, openFile (data.take c) = .ok t ∧ t.header = d.header ∧
        t.CutShort data c k place needed atBoundary ∧
        Disassembly.ofFile (data.take c) = .error g ∧ g.fault = .endOfStream place needed ∧
        BeginsUpToPadding g.tokens d.tokens) ∧
    (∀ c < offset + jobEndMarker.length, ∀ e, Disassembly.ofFile (data.take c) ≠ .ok e) := by
  refine ⟨fun s c hopen hfrom hto => ?_, fun c hc e => ofFile_take_ne_ok h hend hc⟩
  obtain ⟨hd, hending, hmarker⟩ := ending_of_ofFile h hend hopen
  have hlength := length_of_marker hmarker
  obtain ⟨t, hother, hheader, hcut⟩ := exists_cutFrom hopen hfrom
  obtain ⟨hon, hphase⟩ := on_of_openFile hother
  have hleft := hon.fileOffset_add_length
  rw [List.length_take] at hleft
  obtain ⟨⟨k, hout⟩, htokens⟩ := hcut.run hphase hending (by omega)
  obtain ⟨place, needed, atBoundary, g, hshort, herror, hfault, hg⟩ :=
    hout.cutShort hother (by omega)
  refine ⟨t, k, place, needed, atBoundary, g, hother, ?_, hshort, herror, hfault, ?_⟩
  · rw [hheader, hd]
  · rw [hg, hd]
    exact htokens

/-- A file that is cut in the padding of its data block, behind one of two bytes, and one that is cut
inside the marker. -/
theorem truncation_noticed_onSample :
    (∃ g place needed,
      Disassembly.ofFile (WrittenHeader.sample.bytes ++ [0xFB, 0x01, 0x1B, 0x00]) = .error g ∧
      g.fault = .endOfStream place needed ∧
      BeginsUpToPadding g.tokens [.operator ⟨0xFB, "embedded_data_byte", 16, 16, 0, none⟩,
        .payload ⟨.inlineUByte, [0x1B], 18, 2⟩, .jobEnd 21]) ∧
    ∀ e, Disassembly.ofFile (WrittenHeader.sample.bytes ++
      [0xFB, 0x01, 0x1B, 0x00, 0x00, 0x1B, 0x25]) ≠ .ok e := by
  have hfile : Disassembly.ofFile (WrittenHeader.sample.bytes ++
      ([0xFB, 0x01, 0x1B, 0x00, 0x00] ++ jobEndMarker)) = .ok ⟨WrittenHeader.sample.header,
        [.operator ⟨0xFB, "embedded_data_byte", 16, 16, 0, none⟩,
          .payload ⟨.inlineUByte, [0x1B], 18, 2⟩, .jobEnd 21]⟩ :=
    Disassembly.ofFile_eq_ok_iff.2 ⟨_, openFile_onSample _, by decide +kernel, by decide +kernel⟩
  obtain ⟨hcut, hinside⟩ := truncation_noticed hfile (by decide : Token.jobEnd 21 ∈ _)
  obtain ⟨t, k, place, needed, atBoundary, g, -, -, -, herror, hfault, htokens⟩ :=
    hcut _ 20 (openFile_onSample _) (by decide +kernel) (by decide)
  exact ⟨⟨g, place, needed, herror, hfault, htokens⟩, hinside 23 (by decide)⟩

end Session

end PclXl
