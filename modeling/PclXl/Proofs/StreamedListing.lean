import PclXl.Listing.Layout
import PclXl.Proofs.Nesting

/-!
# Listings in pieces

The tokens of a stream can be listed step by step or all at once. From one token to the next a
listing carries the attributes whose operator has not come yet and the level of the last operator. A
complete operator leaves no attributes behind, and the next one brings its own level before any line
is indented by it. So the two texts can differ in a single line only, that of attributes whose
operator never came: in one piece with the rest it is indented by the level of an operator of an
earlier step.
-/

namespace PclXl

open Text

/-- Lines in two runs are joined run by run. -/
theorem unlines_append (as bs : List String) : unlines (as ++ bs) = unlines as ++ unlines bs := by
  unfold unlines
  rw [List.map_append, String.join_append]

/-- The level of the last operator among tokens, or another level if there is none. -/
def levelBehind (level : Int) (ts : List Token) : Int :=
  ((ts.filterMap Token.operator?).getLast?.map Operator.level).getD level

/-- Tokens of one operator with its attributes in front and its data blocks behind. -/
def BelongTo (op : Operator) (ts : List Token) : Prop :=
  ∃ (as : List Attribute) (ps : List Payload), ts = as.map .attr ++ .operator op :: ps.map .payload

/-- Tokens that belong to an operator have it as their only one. -/
theorem BelongTo.filterMap_operator? {op : Operator} {ts : List Token} (h : BelongTo op ts) :
    ts.filterMap Token.operator? = [op] := by
  obtain ⟨as, ps, rfl⟩ := h
  have hpayloads : (ps.map Token.payload).filterMap Token.operator? = [] := by
    rw [List.filterMap_map]
    exact List.filterMap_eq_nil_iff.2 fun p _ => rfl
  rw [List.filterMap_append, Session.filterMap_operator?_attr, List.filterMap_cons, hpayloads]
  rfl

/-- Behind the tokens of an operator the level is that of the operator, until another one comes. -/
theorem BelongTo.levelBehind_append {op : Operator} {ts : List Token} (h : BelongTo op ts)
    (level : Int) (us : List Token) : levelBehind level (ts ++ us) = levelBehind op.level us := by
  unfold levelBehind
  rw [List.filterMap_append, h.filterMap_operator?]
  cases hlast : (us.filterMap Token.operator?).getLast? with
  | none =>
    rw [List.getLast?_eq_none_iff.1 hlast]
    rfl
  | some last =>
    rw [List.getLast?_append, hlast]
    rfl

/-- Attributes without an operator and the end of a run leave the level as it is. -/
theorem levelBehind_leftover (level : Int) (ts : List Token) (as : List Attribute) (e : Ending) :
    levelBehind level (ts ++ (as.map .attr ++ e.tokens)) = levelBehind level ts := by
  have hend : e.tokens.filterMap Token.operator? = [] := by
    cases e with
    | jobEnd offset => rfl
    | exhausted offset needed atBoundary => rfl
    | failed fault => rfl
  unfold levelBehind
  rw [List.filterMap_append, List.filterMap_append, Session.filterMap_operator?_attr, hend,
    List.append_nil, List.append_nil]

namespace Options

variable (o : Options)

/-- Attributes are held back. -/
theorem linesAfter_attrs (pending : List Attribute) (level : Int) (as : List Attribute)
    (ts : List Token) :
    o.linesAfter pending level (as.map .attr ++ ts) = o.linesAfter (pending ++ as) level ts := by
  induction as generalizing pending with
  | nil => rw [List.map_nil, List.nil_append, List.append_nil]
  | cons a as ih =>
    rw [List.map_cons, List.cons_append, linesAfter, ih, List.append_assoc]
    rfl

/-- Data blocks leave the level as it is. -/
theorem linesAfter_payloads (level : Int) (ps : List Payload) (ts : List Token) :
    o.linesAfter [] level (ps.map .payload ++ ts) =
      ps.flatMap (o.payloadLines level) ++ o.linesAfter [] level ts := by
  induction ps with
  | nil => rfl
  | cons p ps ih =>
    rw [List.map_cons, List.cons_append, linesAfter, ih, List.flatMap_cons, List.append_assoc]

/-- The lines of an operator with its attributes and its data blocks, in front of other tokens. -/
theorem linesAfter_operator (level : Int) (as : List Attribute) (op : Operator) (ps : List Payload)
    (us : List Token) :
    o.linesAfter [] level (as.map .attr ++ .operator op :: ps.map .payload ++ us) =
      o.operatorLines op as ++ (ps.flatMap (o.payloadLines op.level) ++
        o.linesAfter [] op.level us) := by
  rw [List.append_assoc, List.cons_append, linesAfter_attrs, List.nil_append, linesAfter,
    linesAfter_payloads]

/-- The lines of an operator do not depend on what came before, and leave its level only. -/
theorem linesAfter_of_belongTo {op : Operator} {ts : List Token} (h : BelongTo op ts) (level : Int)
    (us : List Token) :
    o.linesAfter [] level (ts ++ us) = o.lines ts ++ o.linesAfter [] op.level us := by
  obtain ⟨as, ps, rfl⟩ := h
  have halone := o.linesAfter_operator 0 as op ps []
  rw [List.append_nil] at halone
  unfold lines
  rw [linesAfter_operator, halone]
  simp only [linesAfter, leftoverLines, List.isEmpty_nil, if_true, List.append_nil,
    List.append_assoc]

/-- The lines of complete operators are those of each of them, one after the other. -/
theorem linesAfter_flatten {tss : List (List Token)} (h : ∀ ts ∈ tss, ∃ op, BelongTo op ts)
    (level : Int) (us : List Token) : o.linesAfter [] level (tss.flatten ++ us) =
      tss.flatMap o.lines ++ o.linesAfter [] (levelBehind level tss.flatten) us := by
  induction tss generalizing level with
  | nil => rfl
  | cons ts tss ih =>
    obtain ⟨op, hop⟩ := h ts (List.mem_cons_self ..)
    have hrest := ih fun us hus => h us (List.mem_cons_of_mem _ hus)
    rw [List.flatten_cons, List.append_assoc, o.linesAfter_of_belongTo hop, hrest,
      hop.levelBehind_append, List.flatMap_cons, List.append_assoc]

/-- The end of a run without left-over attributes is listed without regard to levels. -/
theorem linesAfter_tokens (level : Int) (e : Ending) :
    o.linesAfter [] level e.tokens = o.lines e.tokens := by
  cases e with
  | jobEnd offset => rfl
  | exhausted offset needed atBoundary => rfl
  | failed fault => rfl

/-- Left-over attributes take one line in front of the end of a run. -/
theorem linesAfter_leftover (level : Int) (as : List Attribute) (e : Ending) :
    o.linesAfter [] level (as.map .attr ++ e.tokens) =
      o.leftoverLines level as ++ o.lines e.tokens := by
  rw [linesAfter_attrs, List.nil_append]
  cases e with
  | jobEnd offset =>
    rw [Ending.tokens, linesAfter, List.append_assoc]
    rfl
  | exhausted offset needed atBoundary => exact (List.append_nil _).symm
  | failed fault => exact (List.append_nil _).symm

end Options

namespace Session

/-- The step behind so many steps is the one that ends a session. -/
def EndsAt (s : Session) (k : Nat) (e : Ending) (s' : Session) : Prop :=
  (s.after k).phase = .scanning ∧ (s.after k).step = (.ended e, s')

/-- A data block adds at most itself to the tokens in front of it. -/
theorem passPayload_tokens (s : Session) (info : OperatorInfo) (tagOffset : Nat)
    (ts : List Token) : ∃ ps : List Payload,
      (passPayload s info tagOffset ts).tokens = ts ++ ps.map .payload := by
  unfold passPayload
  cases info.payload with
  | none => exact ⟨[], (List.append_nil ts).symm⟩
  | some source =>
    dsimp only
    cases s.readPayload source info.name tagOffset with
    | error i t => exact ⟨[], (List.append_nil ts).symm⟩
    | ok p t => exact ⟨[p], rfl⟩

/-- The tokens of a pass are the attributes of its list. An operator of the language and its data
blocks stand behind them, unless the pass was interrupted in front of it. -/
theorem pass_tokens (s : Session) :
    (s.pass.interrupt ≠ none ∧
        s.pass.tokens = (AttributeList.read s.cursor).attributes.map .attr) ∨
      ∃ info ∈ Vocabulary.operators, ∃ (tagOffset : Nat) (ps : List Payload),
        s.pass.tokens = (AttributeList.read s.cursor).attributes.map .attr ++
          .operator (s.nextOperator info s.fileOffset tagOffset) :: ps.map .payload := by
  cases hread : AttributeList.read s.cursor with
  | mk as interrupt c =>
    cases interrupt with
    | some i =>
      rw [pass_eq_of_interrupt hread]
      exact .inl ⟨Option.some_ne_none i, rfl⟩
    | none =>
      rw [pass_eq hread]
      unfold passOperator
      dsimp only
      cases htag : operatorTag c with
      | error i c' => exact .inl ⟨Option.some_ne_none i, rfl⟩
      | ok entry c' =>
        obtain ⟨info, tagOffset⟩ := entry
        obtain ⟨-, hinfo, -⟩ := exists_of_operatorTag htag
        obtain ⟨ps, htokens⟩ := passPayload_tokens
          (({ s with cursor := c, declared := (as.filterMap Attribute.vendorLength?).getLast? } :
            Session).afterOperator info c') info tagOffset
          (as.map .attr ++ [.operator (s.nextOperator info s.fileOffset tagOffset)])
        rw [List.append_assoc] at htokens
        exact .inr ⟨info, List.mem_of_find?_eq_some hinfo, tagOffset, ps, htokens⟩

/-- The tokens of a step that completes an operator belong to it. -/
theorem belongTo_of_step {s s' : Session} {ts : List Token} (h : s.step = (.sequence ts, s')) :
    ∃ op, BelongTo op ts := by
  obtain ⟨-, hnone, htokens, -⟩ := step_eq_sequence_iff.1 h
  rcases s.skipSpace.pass_tokens with ⟨hsome, -⟩ | ⟨info, -, tagOffset, ps, heq⟩
  · exact absurd hnone hsome
  · exact ⟨_, _, ps, htokens.symm.trans heq⟩

/-- So do those of each of the steps of a session that goes on. -/
theorem belongTo_of_mem_outcomes {s : Session} {k : Nat} (h : (s.after k).phase = .scanning) :
    ∀ ts ∈ (s.outcomes k).map Step.tokens, ∃ op, BelongTo op ts := by
  induction k with
  | zero =>
    intro ts hts
    cases hts
  | succ k ih =>
    obtain ⟨ts, hstep⟩ := step_of_phase h
    intro us hus
    rw [outcomes, List.map_append] at hus
    rcases List.mem_append.1 hus with hold | hnew
    · exact ih (exists_of_step hstep).1 us hold
    · have hus : us = ts := by
        rw [List.mem_singleton.1 hnew, hstep]
        rfl
      rw [hus]
      exact belongTo_of_step hstep

/-- What a step that ends a session leaves are attributes only, or it belongs to an operator. -/
theorem unfinished_of_step_ended {s s' : Session} {e : Ending} (hphase : s.phase = .scanning)
    (h : s.step = (.ended e, s')) :
    (∃ as : List Attribute, s'.unfinished = as.map .attr) ∨ ∃ op, BelongTo op s'.unfinished := by
  rw [unfinished_of_step hphase h]
  rcases s.skipSpace.pass_tokens with ⟨-, hattrs⟩ | ⟨info, -, tagOffset, ps, heq⟩
  · exact .inl ⟨_, hattrs⟩
  · exact .inr ⟨_, _, ps, heq⟩

end Session

/-- The tokens that a file is taken apart into, also where that fails. -/
def Disassembly.tokensOf (data : List UInt8) : List Token :=
  match ofFile data with
  | .ok d => d.tokens
  | .error g => g.tokens

/-- Whether a file is taken apart or not, its tokens are those of the run. -/
theorem Disassembly.tokensOf_eq {data : List UInt8} {s : Session}
    (hopen : Session.openFile data = .ok s) : tokensOf data = s.run.tokens := by
  unfold tokensOf ofFile
  rw [hopen]
  dsimp only
  cases s.run.ending.fault? with
  | none => rfl
  | some fault => rfl

/-- The texts of the tokens that steps gave, one after the other, and the text of the tokens that
the step behind them left. -/
def Options.streamed (o : Options) (steps : List Step) (last : List Token) : String :=
  String.join (steps.map fun step => o.listing step.tokens) ++ o.listing last

namespace Options

variable (o : Options)

/-- The pieces of a listing, one behind the other, have the lines of each piece. -/
theorem streamed_eq (steps : List Step) (last : List Token) :
    o.streamed steps last = unlines ((steps.map Step.tokens).flatMap o.lines ++ o.lines last) := by
  have hsteps : String.join (steps.map fun step => o.listing step.tokens) =
      unlines ((steps.map Step.tokens).flatMap o.lines) := by
    induction steps with
    | nil => rfl
    | cons step steps ih =>
      rw [List.map_cons, String.join_cons, ih, List.map_cons, List.flatMap_cons, unlines_append]
      rfl
  rw [unlines_append, ← hsteps]
  rfl

/-- The step that ends a session does not see the level of the steps before, unless it leaves
attributes without an operator. -/
theorem linesAfter_of_complete {last : List Token}
    (hlast : (∃ as : List Attribute, last = as.map .attr) ∨ ∃ op, BelongTo op last)
    (hcomplete : ∀ as : List Attribute, as ≠ [] → last ≠ as.map .attr) (level : Int) (e : Ending) :
    o.linesAfter [] level (last ++ e.tokens) = o.lines (last ++ e.tokens) := by
  rcases hlast with ⟨as, has⟩ | ⟨op, hop⟩
  · cases as with
    | nil =>
      rw [has]
      exact o.linesAfter_tokens level e
    | cons a as => exact absurd has (hcomplete (a :: as) (List.cons_ne_nil a as))
  · unfold lines
    rw [o.linesAfter_of_belongTo hop, o.linesAfter_of_belongTo hop]

/-- The text of left-over attributes in front of the end of a run. -/
theorem unlines_leftover (level : Int) {as : List Attribute} (has : as ≠ []) (e : Ending) :
    unlines (o.linesAfter [] level (as.map .attr ++ e.tokens)) =
      spaces (level.toNat * o.indentWidth) ++
        (" ".intercalate (as.map o.attributeText) ++ "\n" ++ o.listing e.tokens) := by
  have hlines : o.leftoverLines level as =
      [spaces (level.toNat * o.indentWidth) ++ " ".intercalate (as.map o.attributeText)] := by
    unfold leftoverLines
    rw [if_neg (by simpa using has)]
    rfl
  have hlast : unlines (o.lines e.tokens) = o.listing e.tokens := rfl
  rw [linesAfter_leftover, unlines_append, hlines, hlast, unlines, List.map_singleton,
    String.join_cons, String.join_nil, String.append_empty]
  simp only [String.append_assoc]

/-- The listing of all tokens of a file is made of the listings of its steps and of what the last
step left, in the same order. There is one exception: attributes that the last step left without an
operator stand in a line that is indented, in the listing of all tokens, by the level of the last
operator of the file, and not indented in that of the last step. -/
theorem listing_streamed {data : List UInt8} {s : Session}
    (hopen : Session.openFile data = .ok s) (o : Options) :
    (∃ k e s', s.EndsAt k e s') ∧ ∀ k e s', s.EndsAt k e s' →
      ((∀ as : List Attribute, as ≠ [] → s'.unfinished ≠ as.map .attr) →
        o.listing (Disassembly.tokensOf data) =
          o.streamed (s.outcomes k) (s'.unfinished ++ e.tokens)) ∧
      ∀ as : List Attribute, as ≠ [] → s'.unfinished = as.map .attr →
        ∃ line, line = " ".intercalate (as.map o.attributeText) ++ "\n" ∧
          o.streamed (s.outcomes k) (s'.unfinished ++ e.tokens) =
            o.streamed (s.outcomes k) [] ++ (line ++ o.listing e.tokens) ∧
          o.listing (Disassembly.tokensOf data) =
            o.streamed (s.outcomes k) [] ++
              (spaces ((levelBehind 0 (Disassembly.tokensOf data)).toNat * o.indentWidth) ++
                (line ++ o.listing e.tokens)) := by
  have hstart : (s.after 0).phase = .scanning := (Session.on_of_openFile hopen).2
  obtain ⟨k, e, s', hends⟩ := Session.exists_step_ended hstart
  refine ⟨⟨k, e, s', hends⟩, fun k e s' ⟨hphase, hstep⟩ => ?_⟩
  have hsteps := Session.belongTo_of_mem_outcomes hphase
  have hlast := Session.unfinished_of_step_ended hphase hstep
  have htokens : Disassembly.tokensOf data =
      ((s.outcomes k).map Step.tokens).flatten ++ (s'.unfinished ++ e.tokens) := by
    rw [Disassembly.tokensOf_eq hopen, Session.run_of_step_ended hphase hstep, Transcript.tokens,
      List.append_assoc]
  have hwhole : o.listing (Disassembly.tokensOf data) =
      unlines (((s.outcomes k).map Step.tokens).flatMap o.lines) ++
        unlines (o.linesAfter [] (levelBehind 0 ((s.outcomes k).map Step.tokens).flatten)
          (s'.unfinished ++ e.tokens)) := by
    rw [htokens, ← unlines_append, ← o.linesAfter_flatten hsteps]
    rfl
  refine ⟨fun hcomplete => ?_, fun as has hunfinished => ?_⟩
  · rw [hwhole, o.linesAfter_of_complete hlast hcomplete, ← unlines_append, streamed_eq]
  · have hlevel : levelBehind 0 (Disassembly.tokensOf data) =
        levelBehind 0 ((s.outcomes k).map Step.tokens).flatten := by
      rw [htokens, hunfinished]
      exact levelBehind_leftover 0 _ as e
    have hfront : o.streamed (s.outcomes k) [] =
        unlines (((s.outcomes k).map Step.tokens).flatMap o.lines) := by
      rw [streamed_eq]
      exact congrArg unlines (List.append_nil _)
    refine ⟨_, rfl, ?_, ?_⟩
    · have hplain := o.unlines_leftover 0 has e
      rw [Int.toNat_zero, Nat.zero_mul] at hplain
      rw [hfront, streamed_eq, unlines_append, hunfinished]
      exact congrArg _ (hplain.trans String.empty_append)
    · rw [hfront, hwhole, hunfinished, hlevel, o.unlines_leftover _ has]

/-- A stream that breaks off behind an attribute at the second level. -/
def brokenOff : List UInt8 :=
  [0x61, 0x61, 0xC0, 0x05, 0xF8, 0x02]

/-- The attribute without an operator is indented in the listing of all tokens only. -/
theorem listing_streamed_brokenOff :
    ∃ front,
      ({} : Options).streamed ((Session.onSample brokenOff).outcomes 2)
          [.attr ⟨2, "PaletteDepth", .scalar (.ubyte 5), none, 18⟩] =
        front ++ "ubyte 5 PaletteDepth\n" ∧
      ({} : Options).listing (Disassembly.tokensOf (WrittenHeader.sample.bytes ++ brokenOff)) =
        front ++ "    ubyte 5 PaletteDepth\n" := by
  have hopen := Session.openFile_onSample brokenOff
  have hends : (Session.onSample brokenOff).EndsAt 2 (.exhausted 22 1 false) _ :=
    ⟨by decide +kernel, Prod.ext (by decide +kernel) rfl⟩
  have hlevel : levelBehind 0 (Disassembly.tokensOf (WrittenHeader.sample.bytes ++ brokenOff)) =
      1 := by
    rw [Disassembly.tokensOf_eq hopen, Session.run_of_step_ended hends.1 hends.2]
    decide +kernel
  have hunfinished : ((Session.onSample brokenOff).after 2).step.2.unfinished =
      [.attr ⟨2, "PaletteDepth", .scalar (.ubyte 5), none, 18⟩] := by decide +kernel
  obtain ⟨line, hline, hstreamed, hlisting⟩ := ((listing_streamed hopen {}).2 _ _ _ hends).2
    [⟨2, "PaletteDepth", .scalar (.ubyte 5), none, 18⟩] (by decide) hunfinished
  have htext : line = "ubyte 5 PaletteDepth\n" := hline.trans (by decide +kernel)
  rw [hunfinished, htext] at hstreamed
  rw [hlevel, htext] at hlisting
  exact ⟨_, hstreamed, hlisting⟩

end Options

end PclXl
