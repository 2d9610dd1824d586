import PclXl.Proofs.JobEndPrecedence

/-!
# What comes later changes nothing

What a session has read is settled by the bytes in front of its cursor. The reader looks ahead of
what it takes, for a job-end marker at every place and for padding behind a data block. No marker
can reach into a complete operator from behind, since the tag of an operator is no byte of the
marker, and since a length that has the first byte of the marker in it announces a body that covers
the marker.
-/

namespace PclXl

open Cursor

/-- No byte in front of a data block is greater than its length. -/
theorem PayloadSource.le_of_mem_lengthField {order : ByteOrder} {source : PayloadSource}
    {declared : Option UInt32} {n : Nat} {b : UInt8} (hallows : source.Allows declared n)
    (hb : b ∈ source.lengthField order n) : b.toNat ≤ n := by
  cases source with
  | inlineUInt32 => exact ByteOrder.le_of_mem_bytes hallows hb
  | inlineUByte => exact ByteOrder.le_of_mem_bytes hallows hb
  | vendorLength =>
    rw [lengthField_vendorLength] at hb
    cases hb

/-- No marker that reaches beyond a written operator starts in front of the body of its data block.
-/
theorem Sequence.not_prefix_marker {order : ByteOrder} {q : Sequence} {i : Nat}
    (hi : i < (q.head order).length) (hlong : (q.bytes order).length < i + jobEndMarker.length) :
    ¬ (q.bytes order).drop i <+: jobEndMarker := by
  intro h
  have hmarker : jobEndMarker.length = 9 := rfl
  by_cases hlead : i < (q.stem order).length
  · -- The tag of the operator would be a byte of the marker.
    have hstem := q.length_stem order
    have hsplit : q.bytes order = (q.space.bytes ++ q.listBytes order) ++
        (q.info.tag :: (q.lengthField order ++ q.body)) := by
      simp only [bytes, head, Heading.stem, List.append_assoc, List.cons_append, List.nil_append]
    have hplace : i ≤ (q.space.bytes ++ q.listBytes order).length := by
      rw [List.length_append]
      omega
    rw [hsplit, List.drop_append_of_le_length hplace] at h
    have htag := h.subset (List.mem_append_right _ List.mem_cons_self)
    exact (operator_tag_apart q.known).2.2 htag
  · -- The first byte of the marker would be a byte of the length.
    obtain ⟨j, rfl⟩ := Nat.exists_eq_add_of_le (Nat.le_of_not_lt hlead)
    cases hb : q.block with
    | none =>
      rw [head, lengthField, hb, List.append_nil] at hi
      omega
    | some b =>
      have hlength := length_bytes_of_some order hb
      have hallows := q.sized b hb
      rw [head_of_some order hb, List.length_append] at hi
      have hwidth : j < (b.source.lengthField order b.body.length).length := by omega
      have hsplit : q.bytes order =
          q.stem order ++ (b.source.lengthField order b.body.length ++ q.body) := by
        rw [bytes, head_of_some order hb, List.append_assoc]
      rw [hsplit, ← List.drop_drop, List.drop_left,
        List.drop_append_of_le_length (by omega), List.drop_eq_getElem_cons hwidth] at h
      have hfirst : (b.source.lengthField order b.body.length)[j] = 0x1B :=
        (List.cons_prefix_cons.1 h).1
      have hmem := List.getElem_mem hwidth
      rw [hfirst] at hmem
      have hle : 27 ≤ b.body.length := PayloadSource.le_of_mem_lengthField hallows hmem
      rw [PayloadSource.length_lengthField] at hwidth
      omega

/-- Where the same bytes follow up to the end of an operator, no marker starts in front of the body
of its data block either. -/
theorem Cursor.HoldsSequence.clear_of_take_eq {c d : Cursor} {q : Sequence} (h : c.HoldsSequence q)
    (hshared : d.rest.take (q.bytes c.order).length = c.rest.take (q.bytes c.order).length) :
    q.bytes c.order <+: d.rest ∧ d.Clear (q.head c.order).length := by
  have hsame : ∀ i (bs : List UInt8), i + bs.length ≤ (q.bytes c.order).length →
      (bs <+: d.rest.drop i ↔ bs <+: c.rest.drop i) :=
    fun i bs hle => prefix_drop_iff_of_take_eq hshared hle
  have hstands : q.bytes c.order <+: d.rest := by
    have hall := (hsame 0 (q.bytes c.order) (by omega)).2
    rw [List.drop_zero, List.drop_zero] at hall
    exact hall h.stands
  refine ⟨hstands, fun i hi hmarker => ?_⟩
  by_cases hlong : (q.bytes c.order).length < i + jobEndMarker.length
  · have hle : i ≤ (q.bytes c.order).length := by
      rw [Sequence.bytes, List.length_append]
      omega
    obtain ⟨tail, htail⟩ := hstands
    have hrest : (q.bytes c.order).drop i <+: d.rest.drop i := by
      rw [← htail, List.drop_append_of_le_length hle]
      exact List.prefix_append _ _
    rcases List.prefix_or_prefix_of_prefix hrest hmarker with hshort | hcover
    · exact q.not_prefix_marker hi hlong hshort
    · have hlength := hcover.length_le
      rw [List.length_drop] at hlength
      omega
  · exact h.head.2 i hi ((hsame i jobEndMarker (by omega)).1 hmarker)

/-- An operator at a cursor stands at every cursor that the same bytes follow up to its end, unless
the padding of its data block goes on there. -/
theorem Cursor.HoldsSequence.of_take_eq {c d : Cursor} {q : Sequence} (h : c.HoldsSequence q)
    (horder : d.order = c.order)
    (hshared : d.rest.take (q.bytes c.order).length = c.rest.take (q.bytes c.order).length)
    (hended : q.block.isSome → (d.rest.drop (q.bytes c.order).length).head? ≠ some 0) :
    d.HoldsSequence q := by
  obtain ⟨⟨tail, htail⟩, hclear⟩ := h.clear_of_take_eq hshared
  rw [← htail, List.drop_left] at hended
  rw [← horder] at htail hclear
  exact holdsSequence_of_rest htail.symm hclear hended

/-- The tokens of an operator end in a data block exactly where it has one. -/
theorem Sequence.getLast?_tokens {order : ByteOrder} {offset : Nat} {t : Tally} {q : Sequence} :
    (∃ p, (q.tokens order offset t).getLast? = some (.payload p)) ↔ q.block.isSome := by
  unfold tokens blockTokens
  cases hb : q.block with
  | none =>
    unfold Heading.leadTokens
    simp
  | some b => simp

/-- A step gave the tokens of an operator or the end of the job. -/
def Step.Decodes : Step → Prop
  | sequence _ => True
  | ended (.jobEnd _) => True
  | ended _ => False

namespace Session

/-- A step that decodes gives one of the two. -/
theorem cases_of_decodes {s : Session} (h : s.step.1.Decodes) :
    (∃ ts s', s.step = (.sequence ts, s')) ∨
    (∃ offset s', s.step = (.ended (.jobEnd offset), s')) := by
  cases hstep : s.step with
  | mk outcome s' =>
    rw [hstep] at h
    cases outcome with
    | sequence ts => exact .inl ⟨ts, s', rfl⟩
    | ended e =>
      cases e with
      | jobEnd offset => exact .inr ⟨offset, s', rfl⟩
      | exhausted offset needed atBoundary => exact absurd h id
      | failed fault => exact absurd h id

/-- The last of the first `k` steps gave a data block as its last token. -/
def EndsInBlock (s : Session) (k : Nat) : Prop :=
  ∃ ts p, (s.outcomes k).getLast? = some (.sequence ts) ∧ ts.getLast? = some (.payload p)

/-- Two sessions have come equally far, whatever is to come. -/
structure Agrees (s t : Session) : Prop where
  /-- As many graphics states are saved. -/
  level_eq : t.level = s.level
  /-- As many operators were counted. -/
  operatorCount_eq : t.operatorCount = s.operatorCount
  /-- Both go on, or both ended alike with the same tokens of an unfinished operator. -/
  phase_eq : t.phase = s.phase
  /-- They stand at the same file offset. -/
  fileOffset_eq : t.fileOffset = s.fileOffset

/-- Two sessions do the same in their first `k` steps. -/
structure AgreesUpTo (s t : Session) (k : Nat) : Prop where
  /-- The steps give the same. -/
  outcomes_eq : t.outcomes k = s.outcomes k
  /-- After each of them the sessions have come equally far. -/
  agrees : ∀ j ≤ k, (s.after j).Agrees (t.after j)

/-- One more step that does the same. -/
theorem AgreesUpTo.succ {s t : Session} {k : Nat} (h : s.AgreesUpTo t k)
    (houtcome : (t.after k).step.1 = (s.after k).step.1)
    (hafter : (s.after (k + 1)).Agrees (t.after (k + 1))) : s.AgreesUpTo t (k + 1) := by
  refine ⟨?_, fun j hj => ?_⟩
  · rw [outcomes, outcomes, h.outcomes_eq, houtcome]
  · by_cases hold : j ≤ k
    · exact h.agrees j hold
    · have hnew : j = k + 1 := by omega
      rw [hnew]
      exact hafter

/-- Without a step there is no data block. -/
theorem not_endsInBlock_zero (s : Session) : ¬ s.EndsInBlock 0 := by
  intro h
  obtain ⟨ts, p, hlast, -⟩ := h
  cases hlast

/-- The last step decides whether a data block comes last. -/
theorem endsInBlock_succ {s : Session} {k : Nat} : s.EndsInBlock (k + 1) ↔
    ∃ ts p, (s.after k).step.1 = .sequence ts ∧ ts.getLast? = some (.payload p) := by
  unfold EndsInBlock outcomes
  rw [List.getLast?_concat]
  simp only [Option.some.injEq]

/-- A session whose last step gave a data block goes on, and no padding is left in front of it. -/
theorem of_endsInBlock {s : Session} {k : Nat} (h : s.EndsInBlock k) :
    (s.after k).phase = .scanning ∧ (s.after k).cursor.rest.head? ≠ some 0 := by
  cases k with
  | zero => exact absurd h s.not_endsInBlock_zero
  | succ k =>
    obtain ⟨ts, p, houtcome, hlast⟩ := endsInBlock_succ.1 h
    have hstep : (s.after k).step = (.sequence ts, s.after (k + 1)) := Prod.ext houtcome rfl
    obtain ⟨hphase, q, hholds, hts, hafter⟩ := exists_of_step hstep
    rw [hts] at hlast
    have hblock := Sequence.getLast?_tokens.1 ⟨p, hlast⟩
    rw [hafter]
    exact ⟨hphase, hholds.ended hblock⟩

/-- A file with the same bytes up to where a session opens opens in the same way. -/
theorem openFile_of_take_eq {data other : List UInt8} {s : Session} (hopen : openFile data = .ok s)
    (hshared : other.take s.fileOffset = data.take s.fileOffset) :
    ∃ t, openFile other = .ok t ∧ t.header = s.header ∧ s.Agrees t := by
  obtain ⟨preamble, w, rest, hdata, hpreamble, hs⟩ := openFile_eq_ok_iff.1 hopen
  have hoffset := (cursor_behindHeader w rest preamble.length).2.1
  rw [← hs] at hoffset
  have hfront : other.take s.fileOffset = preamble ++ w.bytes := by
    rw [hshared, hdata, ← List.append_assoc, hoffset, ← List.length_append, List.take_left]
  have hother : other = preamble ++ (w.bytes ++ other.drop s.fileOffset) := by
    rw [← List.append_assoc, ← hfront, List.take_append_drop]
  refine ⟨_, openFile_eq_ok_iff.2 ⟨preamble, w, _, hother, hpreamble, rfl⟩, ?_, ?_⟩
  · rw [hs]
    rfl
  · have hplace := (cursor_behindHeader w (other.drop s.fileOffset) preamble.length).2.1
    refine ⟨?_, ?_, ?_, ?_⟩
    · rw [hs]
      rfl
    · rw [hs]
      rfl
    · rw [hs]
      rfl
    · rw [hplace, hoffset]

section Shared

variable {data other : List UInt8} {s t : Session}

/-- Bytes that two files share are the same in front of the cursors. -/
theorem On.take_rest_eq {n : Nat} (hs : s.On data) (ht : t.On other)
    (hplace : t.fileOffset = s.fileOffset)
    (hshared : other.take (s.fileOffset + n) = data.take (s.fileOffset + n)) :
    t.cursor.rest.take n = s.cursor.rest.take n := by
  have hdrop := congrArg (List.drop s.fileOffset) hshared
  rw [List.drop_take, List.drop_take, Nat.add_sub_cancel_left] at hdrop
  rw [hs.rest_eq, ht.rest_eq, hplace]
  exact hdrop

/-- An operator that is complete in the bytes that two files share is read from both. -/
theorem Agrees.step_of_sequence {s' : Session} {ts : List Token} (h : s.Agrees t) (hs : s.On data)
    (ht : t.On other) (hheader : t.header = s.header) (hstep : s.step = (.sequence ts, s'))
    (hshared : other.take s'.fileOffset = data.take s'.fileOffset)
    (hended : (∃ p, ts.getLast? = some (.payload p)) → other[s'.fileOffset]? ≠ some 0) :
    t.step.1 = .sequence ts ∧ s'.Agrees t.step.2 := by
  obtain ⟨hphase, q, hholds, hts, hs'⟩ := exists_of_step hstep
  have horder : t.cursor.order = s.cursor.order := by
    rw [ht.order_eq, hs.order_eq, hheader]
  have hplace := h.fileOffset_eq
  have hend := fileOffset_afterSequence hholds
  rw [← hs'] at hend
  rw [hend] at hshared hended
  have hother : t.cursor.HoldsSequence q := by
    refine hholds.of_take_eq horder (hs.take_rest_eq ht hplace hshared) fun hblock => ?_
    have hlast : ∃ p, ts.getLast? = some (.payload p) := by
      rw [hts]
      exact Sequence.getLast?_tokens.2 hblock
    rw [ht.rest_eq, List.drop_drop, List.head?_drop, hplace]
    exact hended hlast
  have htally : t.tally = s.tally := by
    rw [tally, tally, h.level_eq, h.operatorCount_eq]
  have hstep' := step_of_holdsSequence (h.phase_eq.trans hphase) hother
  have hend' := fileOffset_afterSequence hother
  rw [horder, hplace, htally, ← hts] at hstep'
  rw [hstep']
  refine ⟨rfl, ?_, ?_, ?_, ?_⟩
  · rw [hs']
    change (t.tally.after q.info).level = (s.tally.after q.info).level
    rw [htally]
  · rw [hs']
    change (t.tally.after q.info).count = (s.tally.after q.info).count
    rw [htally]
  · rw [hs']
    exact h.phase_eq
  · rw [hend', hend, horder, hplace]

/-- A job end in the bytes that two files share is found in both. -/
theorem Agrees.step_of_jobEnd {s' : Session} {offset : Nat} (h : s.Agrees t) (hs : s.On data)
    (ht : t.On other) (hheader : t.header = s.header) (hphase : s.phase = .scanning)
    (hstep : s.step = (.ended (.jobEnd offset), s'))
    (hshared : other.take s'.fileOffset = data.take s'.fileOffset) :
    t.step.1 = .ended (.jobEnd offset) ∧ s'.Agrees t.step.2 := by
  obtain ⟨room, hclear, hmarker, hoffset, hend⟩ := exists_room_of_jobEnd hphase hstep
  have hplace := h.fileOffset_eq
  have horder : t.cursor.order = s.cursor.order := by
    rw [ht.order_eq, hs.order_eq, hheader]
  rw [hend, hoffset, Nat.add_assoc] at hshared
  have htwins : s.Twins t room :=
    ⟨twins_of_take_eq horder hplace hclear hmarker (hs.take_rest_eq ht hplace hshared),
      h.level_eq, h.operatorCount_eq⟩
  obtain ⟨-, -, -, t', hstep', hphase', hlevel, hcount, hoffset'⟩ :=
    step_twins_jobEnd htwins hphase (h.phase_eq.trans hphase) hstep
  rw [hstep']
  exact ⟨rfl, hlevel, hcount, hphase', hoffset'⟩

/-- A step that decodes moves its session forward. -/
theorem fileOffset_lt_of_step (hphase : s.phase = .scanning) (hdecodes : s.step.1.Decodes) :
    s.fileOffset < s.step.2.fileOffset := by
  rcases cases_of_decodes hdecodes with ⟨ts, s', hstep⟩ | ⟨offset, s', hstep⟩
  · obtain ⟨-, q, hholds, -, hs'⟩ := exists_of_step hstep
    have hlength := q.length_stem s.cursor.order
    rw [hstep, hs', fileOffset_afterSequence hholds, Sequence.bytes, Sequence.head,
      List.length_append, List.length_append]
    omega
  · obtain ⟨room, -, -, hoffset, hend⟩ := exists_room_of_jobEnd hphase hstep
    have hmarker : jobEndMarker.length = 9 := rfl
    rw [hstep, hend]
    omega

/-- A step that decodes in the bytes that two files share does the same on both. -/
theorem Agrees.step (h : s.Agrees t) (hs : s.On data) (ht : t.On other)
    (hheader : t.header = s.header) (hphase : s.phase = .scanning) (hdecodes : s.step.1.Decodes)
    (hshared : other.take s.step.2.fileOffset = data.take s.step.2.fileOffset)
    (hended : (∃ ts p, s.step.1 = .sequence ts ∧ ts.getLast? = some (.payload p)) →
      other[s.step.2.fileOffset]? ≠ some 0) :
    t.step.1 = s.step.1 ∧ s.step.2.Agrees t.step.2 := by
  rcases cases_of_decodes hdecodes with ⟨ts, s', hstep⟩ | ⟨offset, s', hstep⟩
  · rw [hstep] at hshared hended ⊢
    refine h.step_of_sequence hs ht hheader hstep hshared fun hlast => ?_
    obtain ⟨p, hp⟩ := hlast
    exact hended ⟨ts, p, rfl, hp⟩
  · rw [hstep] at hshared ⊢
    exact h.step_of_jobEnd hs ht hheader hphase hstep hshared

/-- Sessions that ended alike do the same in the next step. -/
theorem AgreesUpTo.succ_of_ended {k : Nat} {e : Ending} {unfinished : List Token}
    (h : s.AgreesUpTo t k) (hphase : (s.after k).phase = .ended e unfinished) :
    s.AgreesUpTo t (k + 1) := by
  have hagrees := h.agrees k (Nat.le_refl k)
  have hstep := step_of_ended hphase
  have hstep' := step_of_ended (hagrees.phase_eq.trans hphase)
  refine h.succ ?_ ?_
  · rw [hstep, hstep']
  · rw [after_of_step hstep, after_of_step hstep']
    exact hagrees

/-- Sessions that go on alike do the same in the next step if it decodes in the bytes that their
files share. -/
theorem AgreesUpTo.succ_of_scanning {k : Nat} (h : s.AgreesUpTo t k)
    (hopen : openFile data = .ok s) (hother : openFile other = .ok t)
    (hheader : t.header = s.header) (hphase : (s.after k).phase = .scanning)
    (hdecodes : (s.after k).step.1.Decodes)
    (hshared : other.take (s.after (k + 1)).fileOffset = data.take (s.after (k + 1)).fileOffset)
    (hended : s.EndsInBlock (k + 1) → other[(s.after (k + 1)).fileOffset]? ≠ some 0) :
    s.AgreesUpTo t (k + 1) := by
  have hagrees := h.agrees k (Nat.le_refl k)
  obtain ⟨hon, hsame⟩ := on_after hopen hphase
  obtain ⟨hon', hsame'⟩ := on_after hother (hagrees.phase_eq.trans hphase)
  have hheaders : (t.after k).header = (s.after k).header := by
    rw [hsame', hheader, hsame]
  obtain ⟨houtcome, hafter⟩ := hagrees.step hon hon' hheaders hphase hdecodes hshared
    fun hblock => hended (endsInBlock_succ.2 hblock)
  exact h.succ houtcome hafter

/-- Steps that decode in the bytes that two files share do the same on both. Behind a data block the
next step reads the byte that ends its padding, so that this byte has to be shared as well. -/
theorem agreesUpTo_of_take_eq {k : Nat} (hopen : openFile data = .ok s)
    (hother : openFile other = .ok t) (hheader : t.header = s.header) (hstart : s.Agrees t)
    (hdecodes : ∀ o ∈ s.outcomes k, o.Decodes)
    (hshared : other.take (s.after k).fileOffset = data.take (s.after k).fileOffset)
    (hended : s.EndsInBlock k → other[(s.after k).fileOffset]? ≠ some 0) : s.AgreesUpTo t k := by
  induction k with
  | zero =>
    refine ⟨rfl, fun j hj => ?_⟩
    have hzero : j = 0 := by omega
    rw [hzero]
    exact hstart
  | succ k ih =>
    have hbefore : ∀ o ∈ s.outcomes k, o.Decodes :=
      fun o ho => hdecodes o (List.mem_append_left _ ho)
    have hlast : (s.after k).step.1.Decodes :=
      hdecodes _ (List.mem_append_right _ (List.mem_singleton_self _))
    cases hphase : (s.after k).phase with
    | ended e unfinished =>
      rw [after_of_step (step_of_ended hphase)] at hshared
      refine AgreesUpTo.succ_of_ended (ih hbefore hshared fun hblock => ?_) hphase
      have hscanning := (of_endsInBlock hblock).1
      rw [hphase] at hscanning
      cases hscanning
    | scanning =>
      have hlt : (s.after k).fileOffset < (s.after (k + 1)).fileOffset :=
        fileOffset_lt_of_step hphase hlast
      have hfront := take_eq_of_le hshared (Nat.le_of_lt hlt)
      refine AgreesUpTo.succ_of_scanning (ih hbefore hfront fun hblock => ?_) hopen hother hheader
        hphase hlast hshared hended
      have hbyte : other[(s.after k).fileOffset]? = data[(s.after k).fileOffset]? := by
        rw [← List.getElem?_take_of_lt hlt, hshared, List.getElem?_take_of_lt hlt]
      have hnot := (of_endsInBlock hblock).2
      rw [(on_after hopen hphase).1.rest_eq, List.head?_drop] at hnot
      rwa [hbyte]

/-- Steps that decode move their session forward or leave it where it is. -/
theorem fileOffset_le_after {k : Nat} (hdecodes : ∀ o ∈ s.outcomes k, o.Decodes) :
    s.fileOffset ≤ (s.after k).fileOffset := by
  induction k with
  | zero => exact Nat.le_refl _
  | succ k ih =>
    have hbefore := ih fun o ho => hdecodes o (List.mem_append_left _ ho)
    have hlast : (s.after k).step.1.Decodes :=
      hdecodes _ (List.mem_append_right _ (List.mem_singleton_self _))
    cases hphase : (s.after k).phase with
    | ended e unfinished =>
      rw [after_of_step (step_of_ended hphase)]
      exact hbefore
    | scanning =>
      exact Nat.le_trans hbefore (Nat.le_of_lt (fileOffset_lt_of_step hphase hlast))

/-- A file with the same bytes up to where some steps that decode have come opens with the same
header and does the same in these steps. -/
theorem exists_agreesUpTo {k : Nat} (hopen : openFile data = .ok s)
    (hdecodes : ∀ o ∈ s.outcomes k, o.Decodes)
    (hshared : other.take (s.after k).fileOffset = data.take (s.after k).fileOffset)
    (hended : s.EndsInBlock k → other[(s.after k).fileOffset]? ≠ some 0) :
    ∃ t, openFile other = .ok t ∧ t.header = s.header ∧ s.AgreesUpTo t k := by
  have hfront := take_eq_of_le hshared (fileOffset_le_after hdecodes)
  obtain ⟨t, hother, hheader, hstart⟩ := openFile_of_take_eq hopen hfront
  exact ⟨t, hother, hheader,
    agreesUpTo_of_take_eq hopen hother hheader hstart hdecodes hshared hended⟩

end Shared

/-- The end of the job is no token of an operator. -/
theorem jobEnd_notMem_pass (s : Session) (offset : Nat) : .jobEnd offset ∉ s.pass.tokens := by
  have hpayload : ∀ (t : Session) (info : OperatorInfo) (tagOffset : Nat) (ts : List Token),
      .jobEnd offset ∉ ts → .jobEnd offset ∉ (passPayload t info tagOffset ts).tokens := by
    intro t info tagOffset ts hts
    unfold passPayload
    split
    · exact hts
    · split
      · simpa using hts
      · exact hts
  unfold pass passOperator
  dsimp only
  split
  · simp
  · split
    · simp
    · exact hpayload _ _ _ _ (by simp)

/-- Only the end of a run gives the end of the job. -/
theorem jobEnd_notMem_emitted (s : Session) (k offset : Nat) :
    .jobEnd offset ∉ s.emitted k := by
  induction k with
  | zero => exact List.not_mem_nil
  | succ k ih =>
    rw [emitted_succ]
    intro hmem
    rcases List.mem_append.1 hmem with hold | hnew
    · exact ih hold
    · cases hstep : (s.after k).step with
      | mk outcome s' =>
        rw [hstep] at hnew
        cases outcome with
        | sequence ts =>
          obtain ⟨-, -, hts, -⟩ := step_eq_sequence_iff.1 hstep
          change .jobEnd offset ∈ ts at hnew
          rw [← hts] at hnew
          exact jobEnd_notMem_pass _ _ hnew
        | ended e => cases hnew

/-- The steps of a session that goes on decode. -/
theorem decodes_of_phase {s : Session} {k : Nat} (h : (s.after k).phase = .scanning) :
    ∀ o ∈ s.outcomes k, o.Decodes := by
  induction k with
  | zero =>
    intro o ho
    cases ho
  | succ k ih =>
    obtain ⟨ts, hstep⟩ := step_of_phase h
    intro o ho
    rcases List.mem_append.1 ho with hold | hnew
    · exact ih (exists_of_step hstep).1 o hold
    · rw [List.mem_singleton.1 hnew, hstep]
      trivial

/-- The end of the job among the tokens of a run tells how the run ended. -/
theorem ending_of_jobEnd_mem {s : Session} {offset : Nat} (hphase : s.phase = .scanning)
    (h : .jobEnd offset ∈ s.run.tokens) : ∃ k s', (s.after k).phase = .scanning ∧
      (s.after k).step = (.ended (.jobEnd offset), s') := by
  obtain ⟨k, e, s', hk, hstep⟩ := exists_step_ended (s := s) (k := 0) hphase
  refine ⟨k, s', hk, ?_⟩
  rw [run_of_step_ended hk hstep, Transcript.tokens] at h
  rcases List.mem_append.1 h with hbefore | hend
  · rcases List.mem_append.1 hbefore with hold | hunfinished
    · rw [← List.flatMap_def] at hold
      exact absurd hold (s.jobEnd_notMem_emitted k offset)
    · obtain ⟨i, -, -, hs'⟩ := exists_interrupt_of_step hk hstep
      rw [hs'] at hunfinished
      exact absurd hunfinished (jobEnd_notMem_pass _ offset)
  · cases e with
    | jobEnd found =>
      have hfound : offset = found := Token.jobEnd.inj (List.mem_singleton.1 hend)
      rw [hfound, hstep]
    | exhausted found needed atBoundary => cases hend
    | failed fault => cases hend

/-- Sessions that do the same up to the end of one of them end alike and have read the same tokens.
-/
theorem AgreesUpTo.run_eq {s t s' : Session} {k : Nat} {e : Ending} (h : s.AgreesUpTo t (k + 1))
    (hphase : (s.after k).phase = .scanning) (hstep : (s.after k).step = (.ended e, s')) :
    t.run.ending = e ∧ t.run.tokens = s.run.tokens := by
  obtain ⟨houtcomes, houtcome⟩ := List.append_inj' h.outcomes_eq rfl
  rw [hstep] at houtcome
  have hphase' := (h.agrees k (by omega)).phase_eq.trans hphase
  have hsame := (h.agrees (k + 1) (Nat.le_refl _)).phase_eq
  have hafter := after_of_step hstep
  have hstep' : (t.after k).step = (.ended e, t.after (k + 1)) :=
    Prod.ext (List.singleton_inj.1 houtcome) rfl
  have hunfinished : (t.after (k + 1)).unfinished = s'.unfinished := by
    rw [← hafter, unfinished, unfinished, hsame]
  rw [run_of_step_ended hphase hstep, run_of_step_ended hphase' hstep', Transcript.tokens,
    Transcript.tokens, hunfinished, houtcomes]
  exact ⟨rfl, rfl⟩

/-- What stands behind the end of a job does not change what its file is taken apart into. -/
theorem ofFile_take_append {data : List UInt8} {d : Disassembly} {offset : Nat}
    (h : Disassembly.ofFile data = .ok d) (hend : .jobEnd offset ∈ d.tokens)
    (behind : List UInt8) :
    Disassembly.ofFile (data.take (offset + jobEndMarker.length) ++ behind) = .ok d := by
  obtain ⟨s, hopen, -, hd⟩ := Disassembly.ofFile_eq_ok_iff.1 h
  rw [hd] at hend
  obtain ⟨k, s', hphase, hstep⟩ := ending_of_jobEnd_mem (on_of_openFile hopen).2 hend
  obtain ⟨ts, hended⟩ := phase_of_step_ended hstep
  rw [← after_of_step hstep] at hended
  have hfirst := endedFirst_of_phase hopen hended
  have hoffset := hfirst.fileOffset_eq
  have hlength := length_of_marker hfirst.marker
  have hdecodes : ∀ o ∈ s.outcomes (k + 1), o.Decodes := by
    intro o ho
    rcases List.mem_append.1 ho with hold | hnew
    · exact decodes_of_phase hphase o hold
    · rw [List.mem_singleton.1 hnew, hstep]
      trivial
  have hshared : (data.take (offset + jobEndMarker.length) ++ behind).take
      (s.after (k + 1)).fileOffset = data.take (s.after (k + 1)).fileOffset := by
    rw [hoffset, List.take_append_of_le_length (by rw [List.length_take]; omega), List.take_take,
      Nat.min_self]
  have hblock : ¬ s.EndsInBlock (k + 1) := by
    intro hin
    obtain ⟨ts, p, houtcome, -⟩ := endsInBlock_succ.1 hin
    rw [hstep] at houtcome
    cases houtcome
  obtain ⟨t, hother, hheader, hagrees⟩ := exists_agreesUpTo hopen hdecodes hshared
    fun hin => absurd hin hblock
  obtain ⟨hending, htokens⟩ := hagrees.run_eq hphase hstep
  refine Disassembly.ofFile_eq_ok_iff.2 ⟨t, hother, by rw [hending]; rfl, ?_⟩
  rw [hd, hheader, htokens]

/-- What comes later changes nothing. Where two files share the bytes up to the end of some steps of
a session on the first, each of which gave an operator or the end of the job, the second opens with
the same header and its session does the same in these steps. Behind a data block, the second file
must not go on with padding. Whatever stands behind the end of a job, its file is taken apart into
the same. -/
theorem unchanged_by_later_bytes {data : List UInt8} :
    (∀ (other : List UInt8) (s : Session) (k : Nat), openFile data = .ok s →
      (∀ o ∈ s.outcomes k, o.Decodes) →
      other.take (s.after k).fileOffset = data.take (s.after k).fileOffset →
      (s.EndsInBlock k → other[(s.after k).fileOffset]? ≠ some 0) →
      ∃ t, openFile other = .ok t ∧ t.header = s.header ∧ s.AgreesUpTo t k) ∧
    (∀ (d : Disassembly) (offset : Nat) (behind : List UInt8), Disassembly.ofFile data = .ok d →
      .jobEnd offset ∈ d.tokens →
      Disassembly.ofFile (data.take (offset + jobEndMarker.length) ++ behind) = .ok d) := by
  refine ⟨fun other s k hopen hdecodes hshared hended => ?_, fun d offset behind h hend => ?_⟩
  · exact exists_agreesUpTo hopen hdecodes hshared hended
  · exact ofFile_take_append h hend behind

/-- A data block of one byte is read alike whether the end of the job or another operator follows,
and what follows the end of the job may go. -/
theorem unchanged_by_later_bytes_onSample :
    (∃ t, openFile (WrittenHeader.sample.bytes ++ [0xFB, 0x01, 0x1B, 0x42]) = .ok t ∧
      t.header = WrittenHeader.sample.header ∧
      (onSample ([0xFB, 0x01, 0x1B] ++ jobEndMarker ++ [0x20])).AgreesUpTo t 1) ∧
    Disassembly.ofFile (WrittenHeader.sample.bytes ++ ([0xFB, 0x01, 0x1B] ++ jobEndMarker)) =
      .ok ⟨WrittenHeader.sample.header, [.operator ⟨0xFB, "embedded_data_byte", 16, 16, 0, none⟩,
        .payload ⟨.inlineUByte, [0x1B], 18, 0⟩, .jobEnd 19]⟩ := by
  have hfirst : (onSample ([0xFB, 0x01, 0x1B] ++ jobEndMarker ++ [0x20])).outcomes 1 =
      [.sequence [.operator ⟨0xFB, "embedded_data_byte", 16, 16, 0, none⟩,
        .payload ⟨.inlineUByte, [0x1B], 18, 0⟩]] := by decide +kernel
  have hdecodes : ∀ o ∈ (onSample ([0xFB, 0x01, 0x1B] ++ jobEndMarker ++ [0x20])).outcomes 1,
      o.Decodes := by
    intro o ho
    rw [hfirst] at ho
    rw [List.mem_singleton.1 ho]
    trivial
  have hfile : Disassembly.ofFile
      (WrittenHeader.sample.bytes ++ ([0xFB, 0x01, 0x1B] ++ jobEndMarker ++ [0x20])) =
        .ok ⟨WrittenHeader.sample.header, [.operator ⟨0xFB, "embedded_data_byte", 16, 16, 0, none⟩,
          .payload ⟨.inlineUByte, [0x1B], 18, 0⟩, .jobEnd 19]⟩ :=
    Disassembly.ofFile_eq_ok_iff.2 ⟨_, openFile_onSample _, by decide +kernel, by decide +kernel⟩
  refine ⟨?_, ?_⟩
  · exact unchanged_by_later_bytes.1 _ _ 1 (openFile_onSample _) hdecodes (by decide +kernel)
      fun _ => by decide +kernel
  · exact unchanged_by_later_bytes.2 _ 19 [] hfile (by decide)

end Session

end PclXl
