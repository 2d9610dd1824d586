import Mathlib.Data.List.Basic
import PclXl.CommandLine.Run
import PclXl.Proofs.StreamedListing

/-!
# Runs file by file

The program steps through a stream on its own and writes what each step gives at once. What it
writes for a file follows from the bytes of the file all the same: the texts are those of the steps,
and what it reports is the diagnosis of the file. Several files do not meet in any way, so a file
that fails changes nothing in what is written for the others.
-/

namespace PclXl

/-- Texts may be joined in groups. -/
theorem join_flatMap {α : Type} (texts : α → List String) (as : List α) :
    String.join (as.flatMap texts) = String.join (as.map fun a => String.join (texts a)) := by
  induction as with
  | nil => rfl
  | cons a as ih => rw [List.flatMap_cons, String.join_append, ih, List.map_cons, String.join_cons]

/-- Only the end of a job is a token. -/
theorem Ending.tokens_of_fault {e : Ending} {fault : Fault} (h : e.fault? = some fault) :
    e.tokens = [] := by
  cases e with
  | jobEnd offset => cases h
  | exhausted offset needed atBoundary => rfl
  | failed fault => rfl

/-- Only the end of a job is no fault. -/
theorem Ending.fault?_eq_none_iff {e : Ending} :
    e.fault? = none ↔ ∃ offset, e = .jobEnd offset := by
  cases e with
  | jobEnd offset => exact ⟨fun _ => ⟨offset, rfl⟩, fun _ => rfl⟩
  | exhausted offset needed atBoundary => simp [fault?]
  | failed fault => simp [fault?]

namespace Emission

/-- Texts for the output all go there. -/
@[simp]
theorem filterMap_out?_map_out (texts : List String) :
    (texts.map out).filterMap out? = texts := by
  rw [List.filterMap_map]
  exact List.filterMap_some

/-- None for the error output does. -/
@[simp]
theorem filterMap_out?_map_err (texts : List String) : (texts.map err).filterMap out? = [] := by
  rw [List.filterMap_map]
  exact List.filterMap_eq_nil_iff.2 fun text _ => rfl

/-- No text for the output goes to the error output. -/
@[simp]
theorem filterMap_err?_map_out (texts : List String) : (texts.map out).filterMap err? = [] := by
  rw [List.filterMap_map]
  exact List.filterMap_eq_nil_iff.2 fun text _ => rfl

/-- Those for the error output all do. -/
@[simp]
theorem filterMap_err?_map_err (texts : List String) :
    (texts.map err).filterMap err? = texts := by
  rw [List.filterMap_map]
  exact List.filterMap_some

end Emission

namespace Run

/-- The texts for what was found under a path: the header of a stream and the pieces of its listing,
or none if no stream was found. -/
def texts (o : Options) : Except SystemError (List UInt8) → List String
  | .error _ => []
  | .ok data =>
    match Session.openFile data with
    | .error _ => []
    | .ok s => Options.headerText s.header :: o.pieces s.run

/-- The message about what was found under a path, unless it is a file that can be taken apart. -/
def failure? : Except SystemError (List UInt8) → Option String
  | .error error => some error.message
  | .ok data =>
    match Disassembly.ofFile data with
    | .error diagnosis => some diagnosis.report
    | .ok _ => none

/-- There is no message exactly where there is a file that can be taken apart. -/
theorem failure?_eq_none_iff {contents : Except SystemError (List UInt8)} :
    failure? contents = none ↔
      ∃ data d, contents = .ok data ∧ Disassembly.ofFile data = .ok d := by
  unfold failure?
  cases contents with
  | error error => simp
  | ok data =>
    cases hfile : Disassembly.ofFile data with
    | error diagnosis => simp [hfile]
    | ok d => simp [hfile]

/-- The message about the end of a transcript, unless its job ended. -/
def endMessage? (t : Transcript) : Option String :=
  t.ending.fault?.map fun fault => (t.session.diagnose fault t.session.unfinished).report

/-- The diagnosis of a file also has the tokens of the complete operators, but shows none. -/
theorem failure?_of_openFile {data : List UInt8} {s : Session}
    (hopen : Session.openFile data = .ok s) : failure? (.ok data) = endMessage? s.run := by
  unfold failure? Disassembly.ofFile endMessage?
  dsimp only
  rw [hopen]
  dsimp only
  cases s.run.ending.fault? with
  | none => rfl
  | some fault => rfl

/-- What a run writes that has texts and perhaps a failure. -/
def ofTexts (path : String) (texts : List String) (failure : Option String) : Run :=
  ⟨texts.map .out ++ failure.toList.map (report path), if failure.isSome then 1 else 0⟩

/-- Stepping through a session writes the pieces of its transcript, and reports on its end. -/
theorem stepThrough_eq (o : Options) (path : String) (earlier : List String) (s : Session) :
    stepThrough o path (earlier.map .out) s =
      ofTexts path (earlier.reverse ++ o.pieces s.run) (endMessage? s.run) := by
  induction hn : s.cursor.rest.length using Nat.strongRecOn generalizing earlier s with
  | _ n ih =>
    subst hn
    rw [stepThrough]
    cases hstep : s.step with
    | mk outcome s' =>
      cases outcome with
      | sequence ts =>
        have hrun := Session.run_of_sequence hstep
        have hmessage : endMessage? s.run = endMessage? s'.run := by
          rw [hrun]
          rfl
        have hpieces : o.pieces s.run = o.listing ts :: o.pieces s'.run := by
          rw [hrun]
          rfl
        have hrest := ih _ (Session.step_rest_lt hstep) (o.listing ts :: earlier) s' rfl
        rw [List.reverse_cons, List.append_assoc] at hrest
        rw [hmessage, hpieces]
        exact hrest
      | ended e =>
        have hrun := Session.run_of_ended hstep
        have hmessage : endMessage? s.run =
            e.fault?.map fun fault => (s'.diagnose fault s'.unfinished).report := by
          rw [hrun]
          rfl
        have hpieces : o.pieces s.run = [o.listing (s'.unfinished ++ e.tokens)] := by
          rw [hrun]
          rfl
        rw [hmessage, hpieces]
        dsimp only
        cases hfault : e.fault? with
        | none => simp [ofTexts]
        | some fault => simp [ofTexts, Ending.tokens_of_fault hfault]

/-- What is written for a file: its texts, and a report if there is something to be reported. -/
theorem ofFile_eq (o : Options) (files : Files) (path : String) :
    ofFile o files path = ofTexts path (texts o (files path)) (failure? (files path)) := by
  unfold ofFile
  cases files path with
  | error error => rfl
  | ok data =>
    dsimp only
    unfold ofData
    cases hopen : Session.openFile data with
    | error fault =>
      unfold texts failure? Disassembly.ofFile
      dsimp only
      rw [hopen]
      rfl
    | ok s =>
      have hsteps := stepThrough_eq o path [Options.headerText s.header] s
      rw [failure?_of_openFile hopen]
      unfold texts
      dsimp only
      rw [hopen]
      exact hsteps

/-- The text for what was found under a path. -/
def fileText (o : Options) (contents : Except SystemError (List UInt8)) : String :=
  String.join (texts o contents)

/-- What the text is for what was found under a path: a listing of the steps of a stream, if it has
one. -/
inductive Shows (o : Options) : Except SystemError (List UInt8) → String → Prop where
  /-- There is no text for a file that cannot be read. -/
  | missing (error : SystemError) : Shows o (.error error) ""
  /-- There is none either for a file without a stream. -/
  | unopened {data : List UInt8} {fault : Fault} (hopen : Session.openFile data = .error fault) :
    Shows o (.ok data) ""
  /-- The text of a stream is its header, the listing of each step that completes an operator and
  that of what the last step left. -/
  | listed {data : List UInt8} {s s' : Session} {k : Nat} {e : Ending}
    (hopen : Session.openFile data = .ok s) (hends : s.EndsAt k e s') :
    Shows o (.ok data)
      (Options.headerText s.header ++ o.streamed (s.outcomes k) (s'.unfinished ++ e.tokens))

/-- What is written for a path is what its text has to be. -/
theorem shows_fileText (o : Options) (contents : Except SystemError (List UInt8)) :
    Shows o contents (fileText o contents) := by
  cases contents with
  | error error => exact .missing error
  | ok data =>
    cases hopen : Session.openFile data with
    | error fault =>
      have htext : fileText o (.ok data) = "" := by
        unfold fileText texts
        dsimp only
        rw [hopen]
        rfl
      rw [htext]
      exact .unopened hopen
    | ok s =>
      have hstart : (s.after 0).phase = .scanning := (Session.on_of_openFile hopen).2
      obtain ⟨k, e, s', hends⟩ := Session.exists_step_ended hstart
      have htext : fileText o (.ok data) =
          Options.headerText s.header ++ o.streamed (s.outcomes k) (s'.unfinished ++ e.tokens) := by
        unfold fileText texts Options.pieces
        dsimp only
        rw [hopen]
        dsimp only
        rw [Session.run_of_step_ended hends.1 hends.2, String.join_cons, String.join_append,
          List.map_map, String.join_cons, String.join_nil, String.append_empty]
        rfl
      rw [htext]
      exact .listed hopen hends

/-- A file is taken apart exactly where the step that ends its session comes to the end of the
job. -/
theorem ofFile_ok_iff_of_endsAt {data : List UInt8} {s s' : Session} {k : Nat} {e : Ending}
    (hopen : Session.openFile data = .ok s) (hends : s.EndsAt k e s') :
    (∃ d, Disassembly.ofFile data = .ok d) ↔ ∃ offset, e = .jobEnd offset := by
  have hending : s.run.ending = e := by rw [Session.run_of_step_ended hends.1 hends.2]
  rw [← Ending.fault?_eq_none_iff, ← hending]
  constructor
  · intro h
    obtain ⟨d, hd⟩ := h
    obtain ⟨t, ht, hnone, -⟩ := Disassembly.ofFile_eq_ok_iff.1 hd
    rw [Except.ok.inj (hopen.symm.trans ht)]
    exact hnone
  · intro hnone
    exact ⟨_, Disassembly.ofFile_eq_ok_iff.2 ⟨s, hopen, hnone, rfl⟩⟩

/-- The line in front of what is written for one of several files. -/
def heading (r : Request) (path : String) : List String :=
  if 1 < r.files.length then ["// " ++ path ++ "\n"] else []

/-- The report on what was found under a path, if there is something to be reported. -/
def report? (path : String) (contents : Except SystemError (List UInt8)) : Option String :=
  (failure? contents).map fun message => path ++ ": " ++ message ++ "\n"

/-- What the program writes for each file stands together. -/
theorem emissions_ofRequest (o : Options) (files : Files) (r : Request) :
    (ofRequest o files r).emissions =
      (if r.vocabulary then [.out Vocabulary.listing] else []) ++
        r.files.flatMap fun path =>
          (heading r path ++ texts o (files path)).map .out ++
            (report? path (files path)).toList.map .err := by
  have hreport : ∀ path contents, (failure? contents).toList.map (report path) =
      (report? path contents).toList.map .err := by
    intro path contents
    unfold report?
    cases failure? contents with
    | none => rfl
    | some message => rfl
  unfold ofRequest sequence heading
  simp only [List.flatMap_cons, List.flatMap_assoc, ofFile_eq, ofTexts, hreport, List.flatMap_nil,
    List.append_nil, List.map_append, List.append_assoc, apply_ite (List.map Emission.out),
    List.map_cons, List.map_nil]

/-- Runs one after the other succeed exactly where each of them does. -/
theorem exitCode_sequence (runs : List Run) :
    ((sequence runs).exitCode = 0 ↔ ∀ run ∈ runs, run.exitCode = 0) ∧
    ((sequence runs).exitCode ≠ 0 → (sequence runs).exitCode = 1) := by
  unfold sequence
  dsimp only
  cases hall : runs.all fun run => run.exitCode == 0 with
  | true => simpa using hall
  | false => simpa using hall

/-- The run for a file succeeds exactly where the file can be taken apart. -/
theorem exitCode_ofFile (o : Options) (files : Files) (path : String) :
    (ofFile o files path).exitCode = 0 ↔
      ∃ data d, files path = .ok data ∧ Disassembly.ofFile data = .ok d := by
  rw [← failure?_eq_none_iff, ofFile_eq]
  unfold ofTexts
  cases failure? (files path) with
  | none => simp
  | some message => simp

/-- The program succeeds exactly where all files can be taken apart. -/
theorem exitCode_ofRequest (o : Options) (files : Files) (r : Request) :
    ((ofRequest o files r).exitCode = 0 ↔
      ∀ path ∈ r.files, ∃ data d, files path = .ok data ∧ Disassembly.ofFile data = .ok d) ∧
    ((ofRequest o files r).exitCode ≠ 0 → (ofRequest o files r).exitCode = 1) := by
  refine ⟨(exitCode_sequence _).1.trans ?_, (exitCode_sequence _).2⟩
  constructor
  · intro h path hpath
    have hrun := h (ofFile o files path) (List.mem_cons_of_mem _
      (List.mem_flatMap.2 ⟨path, hpath, List.mem_cons_of_mem _ (List.mem_singleton_self _)⟩))
    exact (exitCode_ofFile o files path).1 hrun
  · intro h run hrun
    rcases List.mem_cons.1 hrun with rfl | hrun
    · rfl
    · obtain ⟨path, hpath, hrun⟩ := List.mem_flatMap.1 hrun
      rcases List.mem_cons.1 hrun with rfl | hrun
      · rfl
      · rw [List.mem_singleton.1 hrun]
        exact (exitCode_ofFile o files path).2 (h path hpath)

/-- The program does what its arguments ask for, if there is something to be listed and the options
can be read. -/
theorem ofArguments_eq_ofRequest {toml : TomlReader} {program : String} {arguments : List String}
    {files : Files} {r : Request} {o : Options} (hr : Request.ofArguments arguments = .ok r)
    (hlists : r.files ≠ [] ∨ r.vocabulary = true) (ho : options toml files r = .ok o) :
    ofArguments toml program arguments files = ofRequest o files r := by
  have hnot : ¬ (r.files.isEmpty && !r.vocabulary) = true := by
    rcases hlists with hfiles | hvocabulary
    · simp [hfiles]
    · simp [hvocabulary]
  unfold ofArguments
  rw [hr]
  dsimp only
  rw [if_neg hnot, ho]

/-- The program agrees with what is known of each of its files. It writes the text of each file in
turn, with a line in front if there are several, and reports the diagnosis of each file that cannot
be taken apart. It succeeds exactly where there is none to be reported. -/
theorem ofRequest_file_by_file (o : Options) (files : Files) (r : Request) :
    (∀ toml program arguments, Request.ofArguments arguments = .ok r →
      (r.files ≠ [] ∨ r.vocabulary = true) → options toml files r = .ok o →
        ofArguments toml program arguments files = ofRequest o files r) ∧
    (ofRequest o files r).stdout =
      (if r.vocabulary then Vocabulary.listing else "") ++
        String.join (r.files.map fun path =>
          (if 1 < r.files.length then "// " ++ path ++ "\n" else "") ++ fileText o (files path)) ∧
    (∀ contents, Shows o contents (fileText o contents)) ∧
    (∀ data s k e s', Session.openFile data = .ok s → s.EndsAt k e s' →
      ((∃ d, Disassembly.ofFile data = .ok d) ↔ ∃ offset, e = .jobEnd offset)) ∧
    (ofRequest o files r).emissions.filterMap Emission.err? =
      r.files.filterMap (fun path =>
        (failure? (files path)).map fun message => path ++ ": " ++ message ++ "\n") ∧
    ((ofRequest o files r).exitCode = 0 ↔
      ∀ path ∈ r.files, ∃ data d, files path = .ok data ∧ Disassembly.ofFile data = .ok d) ∧
    ((ofRequest o files r).exitCode ≠ 0 → (ofRequest o files r).exitCode = 1) := by
  have hfile : ∀ path, String.join (heading r path ++ texts o (files path)) =
      (if 1 < r.files.length then "// " ++ path ++ "\n" else "") ++ fileText o (files path) := by
    intro path
    rw [String.join_append]
    unfold heading fileText
    split
    · rfl
    · rfl
  refine ⟨fun toml program arguments => ofArguments_eq_ofRequest, ?_, shows_fileText o,
    fun data s k e s' => ofFile_ok_iff_of_endsAt, ?_, exitCode_ofRequest o files r⟩
  · have htables : String.join
        ((if r.vocabulary then [Emission.out Vocabulary.listing] else []).filterMap Emission.out?) =
          if r.vocabulary then Vocabulary.listing else "" := by
      generalize Vocabulary.listing = tables
      cases r.vocabulary with
      | true => simp [Emission.out?]
      | false => rfl
    unfold stdout
    rw [emissions_ofRequest, List.filterMap_append, List.filterMap_flatMap]
    simp only [List.filterMap_append, Emission.filterMap_out?_map_out,
      Emission.filterMap_out?_map_err, List.append_nil]
    rw [String.join_append, htables, join_flatMap]
    simp only [hfile]
  · have htables :
        (if r.vocabulary then [Emission.out Vocabulary.listing] else []).filterMap Emission.err? =
          [] := by
      cases r.vocabulary with
      | true => rfl
      | false => rfl
    rw [emissions_ofRequest, List.filterMap_append, List.filterMap_flatMap, htables]
    simp only [List.filterMap_append, Emission.filterMap_err?_map_out,
      Emission.filterMap_err?_map_err, List.nil_append]
    exact (List.filterMap_eq_flatMap_toList _ _).symm

/-- Files of which one has a job that ends at once, another is empty, and all others are missing. -/
def mixedFiles : Files := fun path =>
  if path = "whole" then .ok (WrittenHeader.sample.bytes ++ jobEndMarker)
  else if path = "empty" then .ok []
  else .error .notFound

/-- The request to list the vocabulary and three of these files. -/
def mixedRequest : Request where
  files := ["gone", "whole", "empty"]
  vocabulary := true

/-- Behind the vocabulary the name of each file is written, and for the one with a job its header and
the end of the job. The two others are reported, and the program fails. -/
theorem ofRequest_file_by_file_mixedFiles :
    (ofRequest {} mixedFiles mixedRequest).stdout = Vocabulary.listing ++
      "// gone\n// whole\n` HP-PCL XL;2;0\nstring* \\x1B%-12345X\n// empty\n" ∧
    (ofRequest {} mixedFiles mixedRequest).emissions.filterMap Emission.err? =
      ["gone: No such file or directory (os error 2)\n",
        "empty: No PCL XL stream header found\n"] ∧
    (ofRequest {} mixedFiles mixedRequest).exitCode = 1 := by
  have hopen := Session.openFile_onSample jobEndMarker
  have hstep : ((Session.onSample jobEndMarker).after 0).step = (.ended (.jobEnd 16), _) :=
    Prod.ext (by decide +kernel) rfl
  have hrun := Session.run_of_step_ended rfl hstep
  have hgone : failure? (mixedFiles "gone") = some "No such file or directory (os error 2)" := by
    decide +kernel
  have hwhole : failure? (mixedFiles "whole") = none :=
    (failure?_of_openFile hopen).trans (congrArg endMessage? hrun)
  have hempty : failure? (mixedFiles "empty") = some "No PCL XL stream header found" := by
    decide +kernel
  have htext : fileText {} (mixedFiles "whole") =
      "` HP-PCL XL;2;0\nstring* \\x1B%-12345X\n" := by
    change fileText {} (.ok (WrittenHeader.sample.bytes ++ jobEndMarker)) = _
    unfold fileText texts
    dsimp only
    rw [hopen]
    dsimp only
    rw [hrun]
    decide +kernel
  have hnone : fileText {} (mixedFiles "gone") = "" ∧ fileText {} (mixedFiles "empty") = "" := by
    decide +kernel
  obtain ⟨-, hstdout, -, -, hreports, hzero, hone⟩ :=
    ofRequest_file_by_file {} mixedFiles mixedRequest
  refine ⟨hstdout.trans ?_, hreports.trans ?_, hone fun h => ?_⟩
  · simp only [mixedRequest, List.map_cons, List.map_nil, htext, hnone]
    generalize Vocabulary.listing = tables
    exact congrArg (tables ++ ·) (by decide)
  · simp only [mixedRequest, List.filterMap_cons, hgone, hwhole, hempty]
    rfl
  · obtain ⟨data, d, hdata, -⟩ := hzero.1 h "gone" (by decide)
    cases hdata

end Run

end PclXl
