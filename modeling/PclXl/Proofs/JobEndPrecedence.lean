import PclXl.Proofs.InterruptedSteps

/-!
# The end of a job comes first

No step reads over a job-end marker but inside the body of a data block. A job ends at the first
marker that lies in no such body, a lack of bytes or an unknown code is only reported where no
marker comes before it, and a marker inside a complete data block never ends a job.
-/

namespace PclXl

open Cursor

/-- Padding does not start a marker. -/
theorem not_marker_of_padding {bs : List UInt8} {n i : Nat} (hpadding : List.replicate n 0 <+: bs)
    (hi : i < n) : ¬ jobEndMarker <+: bs.drop i := by
  intro hmarker
  obtain ⟨tail, htail⟩ := hpadding
  obtain ⟨m, hm⟩ : ∃ m, n - i = m + 1 := ⟨n - i - 1, by omega⟩
  have hdrop : bs.drop i = 0 :: (List.replicate m 0 ++ tail) := by
    rw [← htail, List.drop_append_of_le_length (by rw [List.length_replicate]; omega),
      List.drop_replicate, hm, List.replicate_succ]
    rfl
  obtain ⟨behind, hbehind⟩ := hmarker
  rw [hdrop] at hbehind
  cases hbehind

/-- A marker among the bytes of an operator lies in the body of its data block. -/
theorem Cursor.HoldsSequence.inBody {c : Cursor} {q : Sequence} {i : Nat} (t : Tally)
    (h : c.HoldsSequence q) (hi : i < (q.bytes c.order).length)
    (hmarker : jobEndMarker <+: c.rest.drop i) :
    InBody (q.tokens c.order (c.fileOffset + q.space.bytes.length) t) (c.fileOffset + i) := by
  have hhead : (q.head c.order).length ≤ i := by
    refine Classical.byContradiction fun hnot => ?_
    exact h.head.2 i (by omega) hmarker
  rw [Sequence.bytes, List.length_append] at hi
  cases hb : q.block with
  | none =>
    rw [Sequence.body, hb, List.length_nil] at hi
    omega
  | some b =>
    have hbody := h.body
    rw [Sequence.body, hb] at hi hbody
    rw [List.length_append, List.length_replicate] at hi
    have hmem : .payload (b.token (c.fileOffset + q.space.bytes.length +
        (q.listBytes c.order).length)) ∈
          q.tokens c.order (c.fileOffset + q.space.bytes.length) t := by
      rw [Sequence.tokens, Sequence.blockTokens, hb]
      exact List.mem_append_right _ (List.mem_singleton_self _)
    have hplace := (Sequence.offset_of_payload_mem hmem).1
    refine ⟨_, hmem, by omega, ?_⟩
    have hlength : (b.token (c.fileOffset + q.space.bytes.length +
        (q.listBytes c.order).length)).bytes.length = b.body.length := rfl
    refine Classical.byContradiction fun hnot => ?_
    have hpadding := (append_prefix_iff.1 hbody).2
    rw [List.drop_drop] at hpadding
    have hsum : (q.head c.order).length + b.body.length +
        (i - ((q.head c.order).length + b.body.length)) = i := by omega
    rw [← hsum, ← List.drop_drop] at hmarker
    exact not_marker_of_padding hpadding (by omega) hmarker

namespace Session

/-- A marker stands at a place of a file where it follows the cursor. -/
theorem On.markerAt_iff {s : Session} {data : List UInt8} {i : Nat} (h : s.On data) :
    MarkerAt data (s.fileOffset + i) ↔ jobEndMarker <+: s.cursor.rest.drop i := by
  rw [MarkerAt, h.rest_eq, List.drop_drop]

/-- Places that no marker interrupts. -/
theorem On.not_markerAt {s : Session} {data : List UInt8} {n place : Nat} (h : s.On data)
    (hclear : s.cursor.Clear n) (hle : s.fileOffset ≤ place) (hlt : place < s.fileOffset + n) :
    ¬ MarkerAt data place := by
  obtain ⟨i, rfl⟩ := Nat.exists_eq_add_of_le hle
  rw [h.markerAt_iff]
  exact hclear i (by omega)

/-- What was read until a session stands where it does: it moved forward, every marker on the way
lies in the body of a data block, and no such body reaches beyond. -/
structure Passed (s : Session) (data : List UInt8) (k : Nat) : Prop where
  /-- The session moved forward. -/
  le : s.fileOffset ≤ (s.after k).fileOffset
  /-- Markers on the way lie in data blocks. -/
  inBody : ∀ place, s.fileOffset ≤ place → place < (s.after k).fileOffset → MarkerAt data place →
    InBody (s.emitted k) place
  /-- Data blocks lie on the way. -/
  lt : ∀ place, InBody (s.emitted k) place → place < (s.after k).fileOffset

/-- A marker that a step reads over lies in the data block of the step. -/
theorem inBody_of_step {s s' : Session} {data : List UInt8} {ts : List Token} {place : Nat}
    (hon : s.On data) (hstep : s.step = (.sequence ts, s')) (hle : s.fileOffset ≤ place)
    (hlt : place < s'.fileOffset) (hmarker : MarkerAt data place) : InBody ts place := by
  obtain ⟨-, q, hholds, hts, hs'⟩ := exists_of_step hstep
  have hoffset := fileOffset_afterSequence hholds
  rw [← hs'] at hoffset
  obtain ⟨i, rfl⟩ := Nat.exists_eq_add_of_le hle
  rw [hts]
  exact hholds.inBody s.tally (by omega) (hon.markerAt_iff.1 hmarker)

/-- Steps that go on have passed by everything in front of them. -/
theorem passed_after {data : List UInt8} {s : Session} (hopen : openFile data = .ok s) {k : Nat}
    (hphase : (s.after k).phase = .scanning) : s.Passed data k := by
  induction k with
  | zero =>
    refine ⟨Nat.le_refl _, fun place hle hlt => ?_, fun place hin => ?_⟩
    · change place < s.fileOffset at hlt
      omega
    · obtain ⟨p, hp, -⟩ := hin
      cases hp
  | succ k ih =>
    obtain ⟨ts, hstep⟩ := step_of_phase hphase
    obtain ⟨hbefore, q, hholds, hts, hafter⟩ := exists_of_step hstep
    have hpassed := ih hbefore
    have hforward := hpassed.le
    have hon := (on_after hopen hbefore).1
    have hoffset := fileOffset_afterSequence hholds
    rw [← hafter] at hoffset
    change (s.after (k + 1)).fileOffset = _ at hoffset
    have hemitted : s.emitted (k + 1) = s.emitted k ++ ts := by
      rw [emitted_succ, hstep]
      rfl
    refine ⟨by omega, fun place hle hlt hmarker => ?_, fun place hin => ?_⟩
    · rw [hemitted]
      by_cases hold : place < (s.after k).fileOffset
      · exact inBody_append.2 (.inl (hpassed.inBody place hle hold hmarker))
      · exact inBody_append.2 (.inr (inBody_of_step hon hstep (by omega) hlt hmarker))
    · rw [hemitted] at hin
      rcases inBody_append.1 hin with hold | hnew
      · have hlt := hpassed.lt place hold
        omega
      · rw [hts] at hnew
        have hlt := (Sequence.le_of_inBody hnew).2
        omega

/-- A step that gives an ending leaves the session ended in that way. -/
theorem phase_of_step_ended {s s' : Session} {e : Ending} (h : s.step = (.ended e, s')) :
    ∃ unfinished, s'.phase = .ended e unfinished := by
  cases hphase : s.phase with
  | scanning =>
    obtain ⟨i, -, -, hs'⟩ := exists_interrupt_of_step hphase h
    rw [hs']
    exact ⟨_, rfl⟩
  | ended old unfinished =>
    rw [step_of_ended hphase] at h
    have hpair := Prod.mk.inj h
    rw [← hpair.2, hphase, Step.ended.inj hpair.1]
    exact ⟨unfinished, rfl⟩

/-- A session ends at the first marker that lies in no data block, and then stands behind it. -/
structure EndedFirst (s : Session) (data : List UInt8) (k offset : Nat) : Prop where
  /-- A marker starts there. -/
  marker : MarkerAt data offset
  /-- The marker starts in what the session reads. -/
  le : s.fileOffset ≤ offset
  /-- The marker lies in no data block. -/
  outside : ¬ InBody (s.emitted k) offset
  /-- Every marker in front lies in a data block. -/
  first : ∀ place, s.fileOffset ≤ place → place < offset → MarkerAt data place →
    InBody (s.emitted k) place
  /-- The session stands behind the marker. -/
  fileOffset_eq : (s.after k).fileOffset = offset + jobEndMarker.length

/-- The step that finds the end of a job finds the first marker that lies in no data block. -/
theorem endedFirst_of_step {data : List UInt8} {s s' : Session} (hopen : openFile data = .ok s)
    {k offset : Nat} (hphase : (s.after k).phase = .scanning)
    (hstep : (s.after k).step = (.ended (.jobEnd offset), s')) :
    s.EndedFirst data (k + 1) offset := by
  have hpassed := passed_after hopen hphase
  have hforward := hpassed.le
  have hon := (on_after hopen hphase).1
  have hemitted := emitted_of_step_ended hstep
  obtain ⟨room, hclear, hmarker, hoffset, hend⟩ := exists_room_of_jobEnd hphase hstep
  refine ⟨?_, by omega, fun hin => ?_, fun place hle hlt hplace => ?_, ?_⟩
  · rw [hoffset]
    exact hon.markerAt_iff.2 hmarker
  · rw [hemitted] at hin
    have hlt := hpassed.lt offset hin
    omega
  · rw [hemitted]
    by_cases hold : place < (s.after k).fileOffset
    · exact hpassed.inBody place hle hold hplace
    · exact absurd hplace (hon.not_markerAt hclear (by omega) (by omega))
  · rw [after_of_step hstep]
    exact hend

/-- A session whose job ended has ended at the first marker that lies in no data block. -/
theorem endedFirst_of_phase {data : List UInt8} {s : Session} (hopen : openFile data = .ok s)
    {k offset : Nat} {unfinished : List Token}
    (h : (s.after k).phase = .ended (.jobEnd offset) unfinished) : s.EndedFirst data k offset := by
  induction k with
  | zero =>
    have hscanning := (on_of_openFile hopen).2
    change s.phase = _ at h
    rw [hscanning] at h
    cases h
  | succ k ih =>
    cases hphase : (s.after k).phase with
    | ended e old =>
      have hstep := step_of_ended hphase
      have hstay := after_of_step hstep
      have hemitted := emitted_of_step_ended hstep
      rw [hstay] at h
      obtain ⟨hmarker, hle, houtside, hfirst, hend⟩ := ih h
      rw [← hemitted] at houtside hfirst
      rw [← hstay] at hend
      exact ⟨hmarker, hle, houtside, hfirst, hend⟩
    | scanning =>
      cases hstep : (s.after k).step with
      | mk outcome s' =>
        rw [after_of_step hstep] at h
        cases outcome with
        | sequence ts =>
          obtain ⟨-, q, -, -, hs'⟩ := exists_of_step hstep
          rw [hs'] at h
          change (s.after k).phase = _ at h
          rw [hphase] at h
          cases h
        | ended e =>
          obtain ⟨u, hended⟩ := phase_of_step_ended hstep
          rw [hended] at h
          rw [(Phase.ended.inj h).1] at hstep
          exact endedFirst_of_step hopen hphase hstep

/-- The end of a job comes first. A step that completes an operator reads over no marker but inside
the body of its data block. A job ends at the first marker behind the header that lies in no data
block that was given, and the session then stands behind it. Where the bytes run out in front of a
body, no marker follows at all, and where they run out in the body, none comes before it. An unknown
code is reported only if no marker starts up to it. -/
theorem job_end_first {data : List UInt8} {s : Session} (hopen : openFile data = .ok s) (k : Nat) :
    (∀ ts s' place, (s.after k).step = (.sequence ts, s') → (s.after k).fileOffset ≤ place →
      place < s'.fileOffset → MarkerAt data place → InBody ts place) ∧
    (∀ offset s', (s.after k).step = (.ended (.jobEnd offset), s') →
      MarkerAt data offset ∧ s.fileOffset ≤ offset ∧ ¬ InBody (s.emitted k) offset ∧
      (∀ place, s.fileOffset ≤ place → place < offset → MarkerAt data place →
        InBody (s.emitted k) place) ∧
      s'.fileOffset = offset + jobEndMarker.length) ∧
    (∀ offset needed atBoundary s', (s.after k).phase = .scanning →
      (s.after k).step = (.ended (.exhausted offset needed atBoundary), s') →
      (bodyOffset? s'.unfinished ≠ some offset → ∀ place, (s.after k).fileOffset ≤ place →
        ¬ MarkerAt data place) ∧
      (bodyOffset? s'.unfinished = some offset → ∀ place, (s.after k).fileOffset ≤ place →
        place < offset → ¬ MarkerAt data place)) ∧
    (∀ offset code kind s', (s.after k).phase = .scanning →
      (s.after k).step = (.ended (.failed (.unknownCode offset code kind)), s') →
      ∀ place, (s.after k).fileOffset ≤ place → place ≤ offset → ¬ MarkerAt data place) := by
  refine ⟨fun ts s' place hstep hle hlt hmarker => ?_, fun offset s' hstep => ?_,
    fun offset needed atBoundary s' hphase hstep => ?_,
    fun offset code kind s' hphase hstep place hle hplace => ?_⟩
  · have hphase := (exists_of_step hstep).1
    exact inBody_of_step (on_after hopen hphase).1 hstep hle hlt hmarker
  · obtain ⟨unfinished, hended⟩ := phase_of_step_ended hstep
    rw [← after_of_step hstep] at hended ⊢
    rw [← emitted_of_step_ended hstep]
    obtain ⟨hmarker, hfrom, houtside, hfirst, hend⟩ := endedFirst_of_phase hopen hended
    exact ⟨hmarker, hfrom, houtside, hfirst, hend⟩
  · have hon := (on_after hopen hphase).1
    rcases clear_of_step_exhausted hphase hstep with hall | ⟨n, hoffset, hclear, hbody⟩
    · have hnone : ∀ place, (s.after k).fileOffset ≤ place → ¬ MarkerAt data place := by
        intro place hle
        have hclear : (s.after k).cursor.Clear (place - (s.after k).fileOffset + 1) :=
          clear_iff_of_length_le.2 fun i _ hi => hall i hi
        exact hon.not_markerAt hclear hle (by omega)
      exact ⟨fun _ => hnone, fun _ place hle _ => hnone place hle⟩
    · refine ⟨fun hnot => absurd hbody hnot, fun _ place hle hlt => ?_⟩
      exact hon.not_markerAt hclear hle (by omega)
  · have hon := (on_after hopen hphase).1
    obtain ⟨n, hoffset, hclear⟩ := clear_of_step_unknownCode hphase hstep
    exact hon.not_markerAt hclear hle (by omega)

/-- The session on a file without a preamble whose header line is the sample. -/
def onSample (rest : List UInt8) : Session :=
  behindHeader WrittenHeader.sample.header (WrittenHeader.sample.bytes ++ rest) 0

/-- The file of the sample header and these bytes is opened in front of them. -/
theorem openFile_onSample (rest : List UInt8) :
    openFile (WrittenHeader.sample.bytes ++ rest) = .ok (onSample rest) :=
  openFile_eq_ok_iff.2 ⟨[], .sample, rest, rfl, by decide, rfl⟩

/-- Of two markers, the first lies in a data block that is read, so that the job ends at the second.
A value without its byte, a data block without its body and an unknown tag are reported where no
marker follows or comes before. -/
theorem job_end_first_onSample :
    (∃ ts s', ((onSample ([0xFB, 0x09] ++ jobEndMarker ++ jobEndMarker)).after 0).step =
        (.sequence ts, s') ∧ InBody ts 18) ∧
    (∃ s', ((onSample ([0xFB, 0x09] ++ jobEndMarker ++ jobEndMarker)).after 1).step =
        (.ended (.jobEnd 27), s') ∧
      MarkerAt (WrittenHeader.sample.bytes ++ ([0xFB, 0x09] ++ jobEndMarker ++ jobEndMarker)) 27 ∧
      ¬ InBody ((onSample ([0xFB, 0x09] ++ jobEndMarker ++ jobEndMarker)).emitted 1) 27 ∧
      s'.fileOffset = 36) ∧
    (∃ s', ((onSample [0xC0]).after 0).step = (.ended (.exhausted 17 1 false), s') ∧
      ∀ place, 16 ≤ place → ¬ MarkerAt (WrittenHeader.sample.bytes ++ [0xC0]) place) ∧
    (∃ s', ((onSample [0xFB, 0x09]).after 0).step = (.ended (.exhausted 18 9 false), s') ∧
      ∀ place, 16 ≤ place → place < 18 →
        ¬ MarkerAt (WrittenHeader.sample.bytes ++ [0xFB, 0x09]) place) ∧
    (∃ s', ((onSample (0x01 :: jobEndMarker)).after 0).step =
        (.ended (.failed (.unknownCode 16 0x01 .operatorTag)), s') ∧
      ∀ place, 16 ≤ place → place ≤ 16 →
        ¬ MarkerAt (WrittenHeader.sample.bytes ++ (0x01 :: jobEndMarker)) place) := by
  refine ⟨?_, ?_, ?_, ?_, ?_⟩
  · have hstep : ((onSample ([0xFB, 0x09] ++ jobEndMarker ++ jobEndMarker)).after 0).step =
        (.sequence [.operator ⟨0xFB, "embedded_data_byte", 16, 16, 0, none⟩,
          .payload ⟨.inlineUByte, jobEndMarker, 18, 0⟩], _) := Prod.ext (by decide +kernel) rfl
    have hin := (job_end_first (openFile_onSample _) 0).1 _ _ 18 hstep (by decide +kernel)
      (by decide +kernel) (by decide +kernel)
    exact ⟨_, _, hstep, hin⟩
  · have hstep : ((onSample ([0xFB, 0x09] ++ jobEndMarker ++ jobEndMarker)).after 1).step =
        (.ended (.jobEnd 27), _) := Prod.ext (by decide +kernel) rfl
    obtain ⟨hmarker, -, hbody, -, hend⟩ := (job_end_first (openFile_onSample _) 1).2.1 _ _ hstep
    exact ⟨_, hstep, hmarker, hbody, hend⟩
  · have hstep : ((onSample [0xC0]).after 0).step = (.ended (.exhausted 17 1 false), _) :=
      Prod.ext (by decide +kernel) rfl
    have hnone := ((job_end_first (openFile_onSample _) 0).2.2.1 _ _ _ _ rfl hstep).1
      (by decide +kernel)
    exact ⟨_, hstep, hnone⟩
  · have hstep : ((onSample [0xFB, 0x09]).after 0).step = (.ended (.exhausted 18 9 false), _) :=
      Prod.ext (by decide +kernel) rfl
    have hnone := ((job_end_first (openFile_onSample _) 0).2.2.1 _ _ _ _ rfl hstep).2
      (by decide +kernel)
    exact ⟨_, hstep, hnone⟩
  · have hstep : ((onSample (0x01 :: jobEndMarker)).after 0).step =
        (.ended (.failed (.unknownCode 16 0x01 .operatorTag)), _) :=
      Prod.ext (by decide +kernel) rfl
    have hnone := (job_end_first (openFile_onSample _) 0).2.2.2 _ _ _ _ rfl hstep
    exact ⟨_, hstep, hnone⟩

end Session

end PclXl
