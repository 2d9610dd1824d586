import PclXl.Proofs.Runs

/-!
# A written file is taken apart again

Whatever is written between the header of a stream and the end of its job is read back as the tokens
that stand for it, if no job-end marker stands in between but inside the body of a data block. The
white space in front of an operator may start with zero bytes. Behind a data block these count as
its padding, so that the operator is then read without them.
-/

namespace PclXl

open Cursor

/-- White space without the bytes at its start that look like padding. -/
def Space.behindPadding (s : Space) : Space where
  bytes := s.bytes.dropWhile Reader.isPadding
  blank := fun b hb => s.blank b ((List.dropWhile_suffix _).subset hb)

/-- White space starts with its padding. -/
theorem Space.bytes_eq (s : Space) :
    s.bytes = List.replicate s.padding 0 ++ s.behindPadding.bytes := by
  have hsplit : s.bytes.takeWhile Reader.isPadding ++ s.bytes.dropWhile Reader.isPadding =
      s.bytes := List.takeWhile_append_dropWhile
  have hzeros : s.bytes.takeWhile Reader.isPadding = List.replicate s.padding 0 := by
    refine List.eq_replicate_of_mem fun b hb => ?_
    have hall := List.all_eq_true.1 (List.all_takeWhile (p := Reader.isPadding) (l := s.bytes)) b hb
    exact isPadding_iff.1 hall
  rw [hzeros] at hsplit
  exact hsplit.symm

/-- White space is the NUL bytes that it starts with and the rest. -/
theorem Space.length_eq (s : Space) :
    s.bytes.length = s.padding + s.behindPadding.bytes.length := by
  have h := congrArg List.length s.bytes_eq
  rwa [List.length_append, List.length_replicate] at h

/-- No padding is left behind the padding. -/
theorem Space.head?_behindPadding (s : Space) : s.behindPadding.bytes.head? ≠ some 0 := by
  have hnot := List.head?_dropWhile_not Reader.isPadding s.bytes
  intro h
  change (s.bytes.dropWhile Reader.isPadding).head? = some 0 at h
  rw [h] at hnot
  exact absurd hnot (by decide)

/-- A written operator with other white space in front. -/
def Sequence.withSpace (s : Space) (q : Sequence) : Sequence :=
  { q with space := s }

/-- A written operator starts with the padding of its white space. -/
theorem Sequence.bytes_eq (order : ByteOrder) (q : Sequence) :
    q.bytes order =
      List.replicate q.space.padding 0 ++ (q.withSpace q.space.behindPadding).bytes order := by
  have hstem : q.stem order =
      List.replicate q.space.padding 0 ++ (q.withSpace q.space.behindPadding).stem order := by
    rw [Heading.stem, q.space.bytes_eq, List.append_assoc]
    rfl
  rw [bytes, head, hstem, List.append_assoc, List.append_assoc]
  rw [bytes, head, List.append_assoc]
  rfl

/-- An operator is the NUL bytes that it starts with and the rest. -/
theorem Sequence.length_eq (order : ByteOrder) (q : Sequence) : (q.bytes order).length =
    q.space.padding + ((q.withSpace q.space.behindPadding).bytes order).length := by
  have h := congrArg List.length (q.bytes_eq order)
  rwa [List.length_append, List.length_replicate] at h

namespace Job

/-- How many bytes at the start of a job look like padding. -/
def padding (job : Job) : Nat :=
  (nextSpace job.space job.sequences).padding

/-- A job without the bytes at its start that look like padding. -/
def behindPadding (job : Job) : Job :=
  match job.sequences with
  | [] => ⟨[], job.space.behindPadding⟩
  | q :: qs => ⟨q.withSpace q.space.behindPadding :: qs, job.space⟩

/-- The tokens of a job from a file offset on, behind other operators. -/
def tokensFrom (order : ByteOrder) (offset : Nat) (t : Tally) (job : Job) : List Token :=
  listTokens order job.space offset t job.sequences

/-- A job without the NUL bytes at its start has as many operators. -/
theorem length_behindPadding (job : Job) :
    job.behindPadding.sequences.length = job.sequences.length := by
  obtain ⟨sequences, space⟩ := job
  cases sequences with
  | nil => rfl
  | cons q qs => rfl

/-- The bytes of a job are those of its first operator and of the others. -/
theorem bytes_cons (order : ByteOrder) (q : Sequence) (qs : List Sequence) (space : Space) :
    bytes order ⟨q :: qs, space⟩ = q.bytes order ++ bytes order ⟨qs, space⟩ := by
  rw [bytes, bytes, listBytes, List.flatMap_cons, List.append_assoc]
  rfl

/-- A job starts with its padding. -/
theorem bytes_eq (order : ByteOrder) (job : Job) :
    job.bytes order = List.replicate job.padding 0 ++ job.behindPadding.bytes order := by
  obtain ⟨sequences, space⟩ := job
  cases sequences with
  | nil => exact space.bytes_eq
  | cons q qs =>
    rw [bytes_cons, q.bytes_eq order, List.append_assoc, ← bytes_cons]
    rfl

/-- What stands behind a job does not look like padding if nothing in the job does any more. -/
theorem head?_behindPadding (order : ByteOrder) (job : Job) {tail : List UInt8}
    (htail : tail.head? ≠ some 0) : (job.behindPadding.bytes order ++ tail).head? ≠ some 0 := by
  obtain ⟨sequences, space⟩ := job
  cases sequences with
  | nil =>
    change (space.behindPadding.bytes ++ tail).head? ≠ some 0
    have hspace := space.head?_behindPadding
    cases hbytes : space.behindPadding.bytes with
    | nil => exact htail
    | cons b bs =>
      rw [hbytes] at hspace
      exact hspace
  | cons q qs =>
    obtain ⟨b, bs, hfirst, hb⟩ := q.exists_first order
    have hspace := q.space.head?_behindPadding
    have hstem : (q.withSpace q.space.behindPadding).stem order =
        q.space.behindPadding.bytes ++ b :: bs := by
      rw [← hfirst]
      rfl
    change (bytes order ⟨q.withSpace q.space.behindPadding :: qs, space⟩ ++ tail).head? ≠ some 0
    rw [bytes_cons, Sequence.bytes, Sequence.head, hstem]
    cases hbytes : q.space.behindPadding.bytes with
    | nil =>
      intro h
      have hzero : b = 0 := Option.some.inj h
      rw [hzero] at hb
      exact absurd hb (by decide)
    | cons d ds =>
      rw [hbytes] at hspace
      exact hspace

/-- The tokens of a job are the same where its padding was read already. -/
theorem tokensFrom_behindPadding (order : ByteOrder) (offset : Nat) (t : Tally) (job : Job) :
    job.behindPadding.tokensFrom order (offset + job.padding) t =
      job.tokensFrom order offset t := by
  obtain ⟨sequences, space⟩ := job
  cases sequences with
  | nil => rfl
  | cons q qs =>
    have hspace := q.space.length_eq
    have hbytes := q.length_eq order
    have hfirst : offset + q.space.padding + q.space.behindPadding.bytes.length =
        offset + q.space.bytes.length := by omega
    have hnext : offset + q.space.padding +
        ((q.withSpace q.space.behindPadding).bytes order).length =
          offset + (q.bytes order).length := by omega
    change Sequence.tokens order (offset + q.space.padding + q.space.behindPadding.bytes.length) t
        ((q.withSpace q.space.behindPadding).pad _) ++ listTokens order space (offset +
          q.space.padding + ((q.withSpace q.space.behindPadding).bytes order).length) _ qs = _
    rw [hfirst, hnext]
    rfl

/-- What is left of a job behind an operator, whose data block takes the padding. -/
def behind (q : Sequence) (job : Job) : Job :=
  match q.block with
  | none => job
  | some _ => job.behindPadding

/-- A job behind an operator has as many operators of its own. -/
theorem length_behind (q : Sequence) (job : Job) :
    (job.behind q).sequences.length = job.sequences.length := by
  unfold behind
  cases q.block with
  | none => rfl
  | some b => exact job.length_behindPadding

/-- An operator with all padding behind its data block leaves the rest of the job. -/
theorem bytes_pad_append (order : ByteOrder) (q : Sequence) (job : Job) :
    (q.pad job.padding).bytes order ++ (job.behind q).bytes order =
      q.bytes order ++ job.bytes order := by
  cases hb : q.block with
  | none =>
    have hpad : (q.pad job.padding).block = none := by
      rw [Sequence.block_pad, hb]
      rfl
    rw [Sequence.bytes_of_none order hpad, Sequence.bytes_of_none order hb, behind, hb]
    rfl
  | some b =>
    rw [Sequence.bytes_pad order job.padding hb, behind, hb, List.append_assoc, ← bytes_eq]

/-- The operators behind are read as the same tokens where their padding was read already. -/
theorem tokensFrom_behind (order : ByteOrder) (offset : Nat) (t : Tally) (q : Sequence)
    (job : Job) :
    (job.behind q).tokensFrom order (offset + ((q.pad job.padding).bytes order).length) t =
      job.tokensFrom order (offset + (q.bytes order).length) t := by
  have hlength := congrArg List.length (bytes_pad_append order q job)
  rw [List.length_append, List.length_append] at hlength
  cases hb : q.block with
  | none =>
    have hbehind : job.behind q = job := by rw [behind, hb]
    rw [hbehind] at hlength ⊢
    have hsame : ((q.pad job.padding).bytes order).length = (q.bytes order).length := by omega
    rw [hsame]
  | some b =>
    have hbehind : job.behind q = job.behindPadding := by rw [behind, hb]
    have hjob := congrArg List.length (job.bytes_eq order)
    rw [List.length_append, List.length_replicate] at hjob
    rw [hbehind] at hlength ⊢
    have hmore : offset + ((q.pad job.padding).bytes order).length =
        offset + (q.bytes order).length + job.padding := by omega
    rw [hmore, tokensFrom_behindPadding]

/-- No padding is left behind an operator with a data block. -/
theorem head?_behind (order : ByteOrder) {q : Sequence} (job : Job) {tail : List UInt8}
    (hb : q.block.isSome) (htail : tail.head? ≠ some 0) :
    ((job.behind q).bytes order ++ tail).head? ≠ some 0 := by
  obtain ⟨b, hb⟩ := Option.isSome_iff_exists.1 hb
  rw [behind, hb]
  exact job.head?_behindPadding order htail

/-- The tokens of the first operator stand in front of those of the others. -/
theorem tokensFrom_cons (order : ByteOrder) (offset : Nat) (t : Tally) (q : Sequence)
    (qs : List Sequence) (space : Space) :
    tokensFrom order offset t ⟨q :: qs, space⟩ =
      (q.pad (padding ⟨qs, space⟩)).tokens order (offset + q.space.bytes.length) t ++
        tokensFrom order (offset + (q.bytes order).length) (t.after q.info) ⟨qs, space⟩ :=
  rfl

end Job

/-- No data block of a job lies in front of it. -/
theorem Job.le_of_payload_mem {order : ByteOrder} {offset : Nat} {t : Tally} {job : Job}
    {p : Payload} (h : .payload p ∈ job.tokensFrom order offset t) : offset ≤ p.offset := by
  obtain ⟨sequences, space⟩ := job
  induction sequences generalizing offset t with
  | nil => cases h
  | cons q qs ih =>
    rw [tokensFrom_cons] at h
    rcases List.mem_append.1 h with hfirst | hnext
    · have hplace := (Sequence.offset_of_payload_mem (q := q.pad (padding ⟨qs, space⟩)) hfirst).1
      omega
    · have hplace := ih hnext
      omega

/-- No data block of a job lies in front of the job. -/
theorem Job.le_of_inBody {order : ByteOrder} {offset place : Nat} {t : Tally} {job : Job}
    (h : InBody (job.tokensFrom order offset t) place) : offset ≤ place := by
  obtain ⟨p, hp, hstart, -⟩ := h
  have hplace := le_of_payload_mem hp
  omega

namespace Session

/-- A session in front of white space and the job-end marker ends there. -/
theorem step_of_jobEnd {s : Session} {space : Space} {tail : List UInt8}
    (hphase : s.phase = .scanning) (hrest : s.cursor.rest = space.bytes ++ (jobEndMarker ++ tail)) :
    ∃ s', s.step = (.ended (.jobEnd (s.fileOffset + space.bytes.length)), s') ∧
      s'.unfinished = [] := by
  have hspace : space.bytes <+: s.cursor.rest := by
    rw [hrest]
    exact List.prefix_append _ _
  have hbehind : s.cursor.rest.drop space.bytes.length = jobEndMarker ++ tail := by
    rw [hrest, List.drop_left]
  have hskip : s.cursor.skipWhile Reader.isWhiteSpace = s.cursor.advance space.bytes.length := by
    refine skipWhile_eq hspace space.blank fun b hb => ?_
    rw [hbehind] at hb
    have hesc : b = 0x1B := (Option.some.inj hb).symm
    rw [hesc]
    decide
  have hmarker : jobEndMarker <+: s.skipSpace.cursor.rest := by
    change jobEndMarker <+: (s.cursor.skipWhile Reader.isWhiteSpace).rest
    rw [hskip, rest_advance, hbehind]
    exact List.prefix_append _ _
  have hoffset : s.skipSpace.cursor.fileOffset = s.fileOffset + space.bytes.length := by
    change (s.cursor.skipWhile Reader.isWhiteSpace).fileOffset = _
    rw [hskip]
    exact fileOffset_advance hspace.length_le
  have hread := AttributeList.read_of_jobEnd hmarker
  rw [step_of_scanning hphase, pass_eq_of_interrupt hread, hoffset]
  exact ⟨_, rfl, rfl⟩

/-- A session stands in front of a job and the marker that ends it. Up to there no marker starts but
inside the body of a data block. -/
structure Faces (s : Session) (job : Job) (tail : List UInt8) : Prop where
  /-- More steps can be made. -/
  scanning : s.phase = .scanning
  /-- The job stands at the cursor, with the marker behind it. -/
  rest_eq : s.cursor.rest = job.bytes s.cursor.order ++ (jobEndMarker ++ tail)
  /-- Every marker in front of that one lies in a data block. -/
  clear : ∀ i < (job.bytes s.cursor.order).length, jobEndMarker <+: s.cursor.rest.drop i →
    InBody (job.tokensFrom s.cursor.order s.fileOffset s.tally) (s.fileOffset + i)

/-- The first operator of a job stands at the cursor of a session in front of the job. -/
theorem Faces.holdsSequence {s : Session} {q : Sequence} {qs : List Sequence} {space : Space}
    {tail : List UInt8} (h : s.Faces ⟨q :: qs, space⟩ tail) :
    s.cursor.HoldsSequence (q.pad (Job.padding ⟨qs, space⟩)) := by
  have hrest := h.rest_eq
  have hmarker : (jobEndMarker ++ tail).head? ≠ some 0 := by
    intro hhead
    cases hhead
  have hmore : (q.head s.cursor.order).length ≤
      (Job.bytes s.cursor.order ⟨q :: qs, space⟩).length := by
    rw [Job.bytes_cons, Sequence.bytes, List.length_append, List.length_append]
    omega
  have hsplit := Job.bytes_pad_append s.cursor.order q ⟨qs, space⟩
  rw [Job.bytes_cons, ← hsplit, List.append_assoc] at hrest
  refine holdsSequence_of_rest hrest ?_ fun hb => ?_
  · -- A marker in front of the body would have to lie in this data block or in one further on.
    intro i hi hplace
    rw [Sequence.head_pad] at hi
    have hin := h.clear i (by omega) hplace
    rw [Job.tokensFrom_cons] at hin
    rcases inBody_append.1 hin with hfirst | hnext
    · have hle := (Sequence.le_of_inBody (q := q.pad (Job.padding ⟨qs, space⟩)) hfirst).1
      rw [Sequence.head_pad] at hle
      omega
    · have hle := Job.le_of_inBody hnext
      rw [Sequence.bytes, List.length_append] at hle
      omega
  · refine Job.head?_behind s.cursor.order _ ?_ hmarker
    rwa [Sequence.block_pad, Option.isSome_map] at hb

/-- How far the first operator of a job takes a session. -/
theorem Faces.fileOffset_eq {s : Session} {q : Sequence} {qs : List Sequence} {space : Space}
    {tail : List UInt8} (h : s.Faces ⟨q :: qs, space⟩ tail) :
    (s.afterSequence (q.pad (Job.padding ⟨qs, space⟩))).fileOffset =
      s.fileOffset + ((q.pad (Job.padding ⟨qs, space⟩)).bytes s.cursor.order).length := by
  have hrest := h.rest_eq
  have hsplit := Job.bytes_pad_append s.cursor.order q ⟨qs, space⟩
  rw [Job.bytes_cons, ← hsplit, List.append_assoc] at hrest
  refine fileOffset_advance ?_
  rw [hrest, List.length_append]
  omega

/-- Behind its first operator, a session stands in front of the rest of the job. -/
theorem Faces.afterSequence {s : Session} {q : Sequence} {qs : List Sequence} {space : Space}
    {tail : List UInt8} (h : s.Faces ⟨q :: qs, space⟩ tail) :
    (s.afterSequence (q.pad (Job.padding ⟨qs, space⟩))).Faces (Job.behind q ⟨qs, space⟩) tail := by
  have hrest := h.rest_eq
  have hoffset := h.fileOffset_eq
  have hsplit := Job.bytes_pad_append s.cursor.order q ⟨qs, space⟩
  have hlength := congrArg List.length hsplit
  rw [List.length_append, List.length_append] at hlength
  rw [Job.bytes_cons, ← hsplit, List.append_assoc] at hrest
  have hbehind : (s.afterSequence (q.pad (Job.padding ⟨qs, space⟩))).cursor.rest =
      s.cursor.rest.drop ((q.pad (Job.padding ⟨qs, space⟩)).bytes s.cursor.order).length :=
    rfl
  refine ⟨h.scanning, ?_, ?_⟩
  · rw [hbehind, hrest, List.drop_left]
    rfl
  · intro i hi hplace
    change i < ((Job.behind q ⟨qs, space⟩).bytes s.cursor.order).length at hi
    rw [hbehind, List.drop_drop] at hplace
    have hin := h.clear _ (by rw [Job.bytes_cons, List.length_append]; omega) hplace
    rw [Job.tokensFrom_cons] at hin
    rcases inBody_append.1 hin with hfirst | hnext
    · have hlt := (Sequence.le_of_inBody (q := q.pad (Job.padding ⟨qs, space⟩)) hfirst).2
      omega
    · rw [← Job.tokensFrom_behind] at hnext
      rw [hoffset, Nat.add_assoc]
      exact hnext

/-- A job in front of the marker that ends it is read to its end. -/
theorem run_of_faces {n : Nat} {job : Job} {s : Session} {tail : List UInt8}
    (hn : job.sequences.length = n) (h : s.Faces job tail) :
    s.run.ending = .jobEnd (s.fileOffset + (job.bytes s.cursor.order).length) ∧
    s.run.tokens = job.tokensFrom s.cursor.order s.fileOffset s.tally ++
      [.jobEnd (s.fileOffset + (job.bytes s.cursor.order).length)] := by
  induction n generalizing job s with
  | zero =>
    obtain ⟨sequences, space⟩ := job
    have hnone : sequences = [] := List.length_eq_zero_iff.1 hn
    rw [hnone] at h ⊢
    have hrest : s.cursor.rest = space.bytes ++ (jobEndMarker ++ tail) := h.rest_eq
    obtain ⟨s', hstep, hunfinished⟩ := step_of_jobEnd h.scanning hrest
    rw [run_of_ended hstep]
    refine ⟨rfl, ?_⟩
    rw [Transcript.tokens, hunfinished]
    rfl
  | succ n ih =>
    obtain ⟨sequences, space⟩ := job
    cases sequences with
    | nil => cases hn
    | cons q qs =>
      have hlength : (Job.behind q ⟨qs, space⟩).sequences.length = n := by
        rw [Job.length_behind]
        exact Nat.succ.inj hn
      have hstep := step_of_holdsSequence h.scanning h.holdsSequence
      have hsplit := congrArg List.length (Job.bytes_pad_append s.cursor.order q ⟨qs, space⟩)
      rw [List.length_append, List.length_append] at hsplit
      have hstop : s.fileOffset + ((q.pad (Job.padding ⟨qs, space⟩)).bytes s.cursor.order).length +
          ((Job.behind q ⟨qs, space⟩).bytes s.cursor.order).length =
            s.fileOffset + (Job.bytes s.cursor.order ⟨q :: qs, space⟩).length := by
        rw [Job.bytes_cons, List.length_append]
        omega
      obtain ⟨hending, htokens⟩ := ih hlength h.afterSequence
      rw [h.fileOffset_eq] at hending htokens
      have hfirst : s.run.ending =
          (s.afterSequence (q.pad (Job.padding ⟨qs, space⟩))).run.ending := by
        rw [run_of_sequence hstep]
      refine ⟨?_, ?_⟩
      · rw [← hstop, hfirst]
        exact hending
      · have hrest := Job.tokensFrom_behind s.cursor.order s.fileOffset (s.tally.after q.info) q
          ⟨qs, space⟩
        rw [tokens_run_of_sequence hstep, htokens, ← hstop, Job.tokensFrom_cons, ← hrest,
          List.append_assoc]
        rfl

end Session

/-- A file as it is written: any bytes without the name of the language, a header line, a job, the
marker that ends it and any bytes behind. -/
structure WrittenFile where
  /-- What stands in front of the stream. -/
  preamble : List UInt8
  /-- The stream is not found in front of its header. -/
  fresh : ¬ Header.languageMarker <:+: preamble
  /-- The header line. -/
  line : WrittenHeader
  /-- The operators. -/
  job : Job
  /-- What stands behind the end of the job. -/
  trailing : List UInt8

namespace WrittenFile

/-- The bytes of a file. -/
def bytes (f : WrittenFile) : List UInt8 :=
  f.preamble ++ (f.line.bytes ++ (f.job.bytes f.line.order ++ (jobEndMarker ++ f.trailing)))

/-- The file offset of the job. -/
def jobOffset (f : WrittenFile) : Nat :=
  f.preamble.length + f.line.bytes.length

/-- The file offset of the marker that ends the job. -/
def endOffset (f : WrittenFile) : Nat :=
  f.jobOffset + (f.job.bytes f.line.order).length

/-- The tokens of a file, the end of the job included. -/
def tokens (f : WrittenFile) : List Token :=
  f.job.tokens f.line.order f.jobOffset ++ [.jobEnd f.endOffset]

/-- The session that opens a written file stands in front of its job. -/
theorem faces_of_clear (f : WrittenFile) (hclear : ∀ place, f.jobOffset ≤ place →
      place < f.endOffset → MarkerAt f.bytes place → InBody f.tokens place) :
    ∃ s, Session.openFile f.bytes = .ok s ∧ s.header = f.line.header ∧
      s.cursor.order = f.line.order ∧ s.fileOffset = f.jobOffset ∧ s.tally = .zero ∧
      s.Faces f.job f.trailing := by
  have hopen : Session.openFile f.bytes = .ok (Session.behindHeader f.line.header
      (f.line.bytes ++ (f.job.bytes f.line.order ++ (jobEndMarker ++ f.trailing)))
      f.preamble.length) :=
    Session.openFile_eq_ok_iff.2 ⟨f.preamble, f.line, _, rfl, f.fresh, rfl⟩
  obtain ⟨hon, hphase⟩ := Session.on_of_openFile hopen
  obtain ⟨hrest, hoffset, horder⟩ := Session.cursor_behindHeader f.line
    (f.job.bytes f.line.order ++ (jobEndMarker ++ f.trailing)) f.preamble.length
  refine ⟨_, hopen, rfl, horder, hoffset, rfl, hphase, ?_, ?_⟩
  · rw [hrest, horder]
  · intro i hi hplace
    rw [horder] at hi
    rw [hon.rest_eq, List.drop_drop, hoffset] at hplace
    have hlast : ¬ InBody [.jobEnd f.endOffset] (f.jobOffset + i) := by
      intro h
      obtain ⟨p, hp, -⟩ := h
      simp at hp
    have hin := hclear (f.jobOffset + i) (by omega) (by rw [endOffset]; omega) hplace
    rcases inBody_append.1 hin with hjob | hend
    · rw [horder, hoffset]
      exact hjob
    · exact absurd hend hlast

/-- A written file is taken apart into its header and the tokens that stand for what is written, if
every job-end marker in front of the end of its job lies in a data block. -/
theorem ofFile_bytes (f : WrittenFile) (hclear : ∀ place, f.jobOffset ≤ place →
      place < f.endOffset → MarkerAt f.bytes place → InBody f.tokens place) :
    Disassembly.ofFile f.bytes = .ok ⟨f.line.header, f.tokens⟩ := by
  obtain ⟨s, hopen, hheader, horder, hoffset, htally, hfaces⟩ := f.faces_of_clear hclear
  obtain ⟨hending, htokens⟩ := Session.run_of_faces rfl hfaces
  rw [horder, hoffset, htally] at htokens
  rw [horder, hoffset] at hending
  refine Disassembly.ofFile_eq_ok_iff.2 ⟨s, hopen, by rw [hending]; rfl, ?_⟩
  rw [hheader, htokens]
  rfl

/-- A file with two operators. The data block of the first one holds the job-end marker, and the
white space in front of the second one starts with a zero byte. -/
def sample : WrittenFile where
  preamble := [0x0D, 0x0A]
  fresh := by decide
  line := .sample
  job := ⟨[⟨⟨⟨[0x20], by decide +kernel⟩,
        [⟨.scalar (.uint32 9), .none, .one, 146, "VUDataLength", .none, by decide, by decide,
          fun _ => ⟨9, rfl⟩⟩],
        ⟨0x46, "VendorUnique", some .vendorLength, true⟩, by decide⟩,
        some ⟨.vendorLength, jobEndMarker, 1⟩, rfl, by simp [PayloadSource.Allows]; decide⟩,
      ⟨⟨⟨[0x00, 0x0A], by decide +kernel⟩, [], Vocabulary.plain 0x42 "EndSession", by decide⟩,
        none, rfl, by simp⟩],
    ⟨[0x20], by decide +kernel⟩⟩
  trailing := [0x41]

/-- The sample is taken apart into its five tokens. The zero byte in front of the second operator is
padding of the data block. -/
theorem ofFile_bytes_sample :
    Disassembly.ofFile ([0x0D, 0x0A, 0x28, 0x20, 0x48, 0x50, 0x2D, 0x50, 0x43, 0x4C, 0x20, 0x58,
      0x4C, 0x3B, 0x32, 0x3B, 0x30, 0x0A, 0x20, 0xC2, 0x09, 0x00, 0x00, 0x00, 0xF8, 0x92, 0x46] ++
      (jobEndMarker ++ ([0x00, 0x00, 0x0A, 0x42, 0x20] ++ (jobEndMarker ++ [0x41])))) =
      .ok ⟨⟨.lowFirst, "2", "0", none, 16⟩,
        [.attr ⟨146, "VUDataLength", .scalar (.uint32 9), none, 19⟩,
          .operator ⟨0x46, "VendorUnique", 19, 26, 0, some 1⟩,
          .payload ⟨.vendorLength, jobEndMarker, 27, 2⟩,
          .operator ⟨0x42, "EndSession", 39, 39, 0, some 2⟩, .jobEnd 41]⟩ := by
  have hclear : ∀ place, sample.jobOffset ≤ place → place < sample.endOffset →
      MarkerAt sample.bytes place → InBody sample.tokens place := by
    intro place _ hlt hmarker
    have honly : ∀ i < 41, MarkerAt sample.bytes i → i = 27 := by decide +kernel
    have hplace := honly place hlt hmarker
    rw [hplace]
    exact ⟨⟨.vendorLength, jobEndMarker, 27, 2⟩, by decide +kernel, by decide, by decide⟩
  exact ofFile_bytes sample hclear

end WrittenFile

end PclXl
