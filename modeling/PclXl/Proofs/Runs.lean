import PclXl.Proofs.Opening
import PclXl.Stream.Diagnosis

/-!
# Steps one after another

A session that is stepped again and again goes on until a step ends it. As long as it goes on, each
step moves it behind the operator that is written at its cursor, on the same stream and with the
same header. What holds at the start and is kept by such a step holds of every session that goes on.
-/

namespace PclXl

open Cursor

/-- The tokens that a step gives. -/
def Step.tokens : Step → List Token
  | sequence ts => ts
  | ended _ => []

/-- The end of a run gives no token but the end of the job. -/
theorem Ending.exists_of_mem_tokens (e : Ending) {t : Token} (h : t ∈ e.tokens) :
    ∃ offset, t = .jobEnd offset := by
  cases e with
  | jobEnd offset => exact ⟨offset, List.mem_singleton.1 h⟩
  | exhausted offset needed atBoundary => cases h
  | failed fault => cases h

namespace Session

/-- The session after some steps. -/
def after (s : Session) : Nat → Session
  | 0 => s
  | k + 1 => (s.after k).step.2

/-- What the first steps give, in order. -/
def outcomes (s : Session) : Nat → List Step
  | 0 => []
  | k + 1 => s.outcomes k ++ [(s.after k).step.1]

/-- The tokens of the operators that the first steps complete. -/
def emitted (s : Session) (k : Nat) : List Token :=
  (s.outcomes k).flatMap Step.tokens

/-- One step more emits the tokens of that step behind the others. -/
theorem emitted_succ (s : Session) (k : Nat) :
    s.emitted (k + 1) = s.emitted k ++ (s.after k).step.1.tokens := by
  rw [emitted, outcomes, List.flatMap_append, List.flatMap_singleton]
  rfl

/-- Behind a step stands the session that the step leaves. -/
theorem after_of_step {s s' : Session} {k : Nat} {outcome : Step}
    (h : (s.after k).step = (outcome, s')) : s.after (k + 1) = s' :=
  congrArg Prod.snd h

/-- A step that ends a session gives no tokens of operators. -/
theorem emitted_of_step_ended {s s' : Session} {k : Nat} {e : Ending}
    (h : (s.after k).step = (.ended e, s')) : s.emitted (k + 1) = s.emitted k := by
  rw [emitted_succ, h]
  exact List.append_nil _

/-- An ended session ends again in the same way and stays where it is. -/
theorem step_of_ended {s : Session} {e : Ending} {unfinished : List Token}
    (h : s.phase = .ended e unfinished) : s.step = (.ended e, s) := by
  unfold step
  rw [h]

/-- A session reads a stream of a file in the byte order of its header. -/
structure On (s : Session) (data : List UInt8) : Prop where
  /-- The stream goes up to the end of the file. -/
  data_eq : s.cursor.data = data.drop s.cursor.base
  /-- The stream starts in the file. -/
  base_le : s.cursor.base ≤ data.length
  /-- The byte order is that of the header. -/
  order_eq : s.cursor.order = s.header.order

/-- The bytes behind the cursor are those of the file from its file offset on. -/
theorem On.rest_eq {s : Session} {data : List UInt8} (h : s.On data) :
    s.cursor.rest = data.drop s.fileOffset := by
  rw [s.cursor.rest_eq, h.data_eq, List.drop_drop]
  rfl

/-- The bytes behind the cursor go up to the end of the file. -/
theorem On.fileOffset_add_length {s : Session} {data : List UInt8} (h : s.On data) :
    s.fileOffset + s.cursor.rest.length = data.length := by
  have hrest := congrArg List.length h.rest_eq
  have hdata := congrArg List.length h.data_eq
  have hbase := h.base_le
  have hposition := s.cursor.position_le
  have hoffset : s.fileOffset = s.cursor.base + s.cursor.position := rfl
  rw [List.length_drop] at hrest hdata
  omega

/-- A cursor that moved on is on the same stream. -/
theorem On.advance {s t : Session} {data : List UInt8} {n : Nat} (h : s.On data)
    (hcursor : t.cursor = s.cursor.advance n) (hheader : t.header = s.header) : t.On data := by
  have hdata := h.data_eq
  have hbase := h.base_le
  have horder := h.order_eq
  refine ⟨?_, ?_, ?_⟩
  · rw [hcursor]
    exact hdata
  · rw [hcursor]
    exact hbase
  · rw [hcursor, hheader]
    exact horder

/-- The session that opens a file reads the stream in it. -/
theorem on_of_openFile {data : List UInt8} {s : Session} (h : openFile data = .ok s) :
    s.On data ∧ s.phase = .scanning := by
  obtain ⟨preamble, w, rest, hdata, -, hs⟩ := openFile_eq_ok_iff.1 h
  refine ⟨⟨?_, ?_, ?_⟩, ?_⟩
  · rw [hs, hdata]
    exact (List.drop_left).symm
  · rw [hs, hdata, List.length_append]
    exact Nat.le_add_right _ _
  · rw [hs]
    rfl
  · rw [hs]
    rfl

/-- A step that completes an operator completes the one that is written at the cursor. -/
theorem exists_of_step {s s' : Session} {ts : List Token} (h : s.step = (.sequence ts, s')) :
    s.phase = .scanning ∧ ∃ q : Sequence, s.cursor.HoldsSequence q ∧
      ts = q.tokens s.cursor.order (s.fileOffset + q.space.bytes.length) s.tally ∧
      s' = s.afterSequence q := by
  have hphase := (step_eq_sequence_iff.1 h).1
  obtain ⟨q, hholds⟩ := exists_holdsSequence_of_step h
  have hstep := step_of_holdsSequence hphase hholds
  rw [h] at hstep
  have hpair := Prod.mk.inj hstep
  exact ⟨hphase, q, hholds, Step.sequence.inj hpair.1, hpair.2⟩

/-- A step that completes an operator leaves its session going on. -/
theorem phase_of_step_sequence {s s' : Session} {ts : List Token}
    (h : s.step = (.sequence ts, s')) : s'.phase = .scanning := by
  obtain ⟨hphase, q, -, -, hs'⟩ := exists_of_step h
  rw [hs']
  exact hphase

/-- How far an operator at its cursor takes a session. -/
theorem fileOffset_afterSequence {s : Session} {q : Sequence} (h : s.cursor.HoldsSequence q) :
    (s.afterSequence q).fileOffset = s.fileOffset + (q.bytes s.cursor.order).length :=
  fileOffset_advance h.stands.length_le

/-- A step leaves a session that goes on exactly where it completes an operator. -/
theorem step_of_phase {s : Session} (h : s.step.2.phase = .scanning) :
    ∃ ts, s.step = (.sequence ts, s.step.2) := by
  cases hs : s.step with
  | mk outcome s' =>
    cases outcome with
    | sequence ts => exact ⟨ts, rfl⟩
    | ended ending =>
      rw [hs] at h
      cases hphase : s.phase with
      | ended old unfinished =>
        have hpair := Prod.mk.inj (hs.symm.trans (step_of_ended hphase))
        rw [hpair.2, hphase] at h
        cases h
      | scanning =>
        rw [step_of_scanning hphase] at hs
        split at hs
        · cases hs
        · have hpair := Prod.mk.inj hs
          rw [← hpair.2] at h
          cases h

/-- What is kept by the steps that complete operators holds as long as a session goes on. -/
theorem invariant_after {P : Session → Prop} {s : Session} (hstart : P s)
    (hstep : ∀ t q, P t → t.cursor.HoldsSequence q → P (t.afterSequence q)) {k : Nat}
    (h : (s.after k).phase = .scanning) : P (s.after k) := by
  induction k with
  | zero => exact hstart
  | succ k ih =>
    obtain ⟨ts, hs⟩ := step_of_phase h
    obtain ⟨hphase, q, hholds, -, hafter⟩ := exists_of_step hs
    change P (s.after k).step.2
    rw [hafter]
    exact hstep _ q (ih hphase) hholds

/-- A session that goes on is on the stream of the file, with the header it was opened with. -/
theorem on_after {data : List UInt8} {s : Session} {k : Nat} (hopen : openFile data = .ok s)
    (h : (s.after k).phase = .scanning) :
    (s.after k).On data ∧ (s.after k).header = s.header := by
  obtain ⟨hon, -⟩ := on_of_openFile hopen
  refine invariant_after (P := fun t => t.On data ∧ t.header = s.header) ⟨hon, rfl⟩ ?_ h
  intro t q ht _
  exact ⟨ht.1.advance rfl rfl, ht.2⟩

/-- The tokens of a run start with those of its first step. -/
theorem tokens_run_of_sequence {s s' : Session} {ts : List Token}
    (h : s.step = (.sequence ts, s')) : s.run.tokens = ts ++ s'.run.tokens := by
  rw [run_of_sequence h]
  simp only [Transcript.tokens, List.flatten_cons, List.append_assoc]

/-- A run starts with the operators that are completed as long as a session goes on. -/
theorem run_of_phase {s : Session} {k : Nat} (h : (s.after k).phase = .scanning) :
    s.run = { (s.after k).run with
      sequences := (s.outcomes k).map Step.tokens ++ (s.after k).run.sequences } := by
  induction k with
  | zero => rfl
  | succ k ih =>
    obtain ⟨ts, hstep⟩ := step_of_phase h
    have hfirst := ih (exists_of_step hstep).1
    have hnext : (s.after k).run = { (s.after (k + 1)).run with
        sequences := ts :: (s.after (k + 1)).run.sequences } := run_of_sequence hstep
    have houtcomes : (s.outcomes (k + 1)).map Step.tokens =
        (s.outcomes k).map Step.tokens ++ [ts] := by
      rw [outcomes, List.map_append, hstep]
      rfl
    rw [hfirst, hnext, houtcomes, List.append_assoc]
    rfl

/-- A step that ends a session ends its run. -/
theorem run_of_step_ended {s s' : Session} {k : Nat} {e : Ending}
    (h : (s.after k).phase = .scanning) (hstep : (s.after k).step = (.ended e, s')) :
    s.run = ⟨(s.outcomes k).map Step.tokens, e, s'⟩ := by
  rw [run_of_phase h, run_of_ended hstep, List.append_nil]

/-- Every session that goes on comes to a step that ends it: each step before leaves fewer bytes. -/
theorem exists_step_ended {s : Session} {k : Nat} (h : (s.after k).phase = .scanning) :
    ∃ k e s', (s.after k).phase = .scanning ∧ (s.after k).step = (.ended e, s') := by
  induction hn : (s.after k).cursor.rest.length using Nat.strongRecOn generalizing k with
  | _ n ih =>
    cases hstep : (s.after k).step with
    | mk outcome s' =>
      cases outcome with
      | ended e => exact ⟨k, e, s', h, hstep⟩
      | sequence ts =>
        have hless := step_rest_lt hstep
        have hafter := after_of_step hstep
        have hnext : (s.after (k + 1)).phase = .scanning := by
          rw [hafter]
          exact phase_of_step_sequence hstep
        exact ih _ (by rw [hafter]; omega) hnext rfl

end Session

/-- A file is taken apart exactly where it opens and nothing is wrong at the end of the run. -/
theorem Disassembly.ofFile_eq_ok_iff {data : List UInt8} {d : Disassembly} :
    ofFile data = .ok d ↔ ∃ s, Session.openFile data = .ok s ∧ s.run.ending.fault? = none ∧
      d = ⟨s.header, s.run.tokens⟩ := by
  unfold ofFile
  cases hopen : Session.openFile data with
  | error fault => simp
  | ok s =>
    dsimp only
    cases hfault : s.run.ending.fault? with
    | some fault => simp [hfault]
    | none =>
      simp only [Except.ok.injEq]
      constructor
      · intro h
        exact ⟨s, rfl, hfault, h.symm⟩
      · intro h
        obtain ⟨t, rfl, -, hd⟩ := h
        exact hd.symm

end PclXl
