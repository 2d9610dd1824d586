import PclXl.CommandLine.Run
import PclXl.Proofs.OptionsFiles

/-!
# The order of arguments

Flags, files and options files may be mixed in any order. What an argument is depends on the one in
front of it only: behind `-c` it is an operand, whatever it looks like, unless that `-c` is an operand
itself. Of the other arguments the first that ends the program counts. If there is none, a run does
not depend on more than the files in their order, whether the vocabulary is asked for, and the
options, which the last operand and the flags decide.
-/

namespace PclXl

namespace Arguments

/-- Arguments, each with whether it is an operand. The first one is told to be one or not. -/
def marked (operand : Bool) : List String → List (String × Bool)
  | [] => []
  | a :: rest => (a, operand) :: marked (!operand && a == "-c") rest

/-- The arguments that are no operands, in order. -/
def scanned (arguments : List String) : List String :=
  ((marked false arguments).filter fun m => !m.2).map Prod.fst

/-- The operands, in order. -/
def operands (arguments : List String) : List String :=
  ((marked false arguments).filter fun m => m.2).map Prod.fst

/-- An argument looks like an option. -/
def isDashed (a : String) : Bool :=
  a.toList.head? == some '-'

/-- How the program ends at an argument that is no operand, if it does. -/
def endAt? (a : String) (isLast : Bool) : Option EarlyEnd :=
  if a = "-h" ∨ a = "--help" then some .help
  else if a = "-c" then if isLast then some .missingFileName else none
  else if isDashed a ∧ a ∉ ["-n", "-d", "-t", "--tables"] then some (.unknownOption a)
  else none

/-- How the program ends at the first of marked arguments where it does. -/
def firstEndOf? : List (String × Bool) → Option EarlyEnd
  | [] => none
  | (a, operand) :: rest =>
    if operand then firstEndOf? rest else (endAt? a rest.isEmpty).or (firstEndOf? rest)

/-- How arguments end the program before it reads a file, if they do. -/
def firstEnd? (arguments : List String) : Option EarlyEnd :=
  firstEndOf? (marked false arguments)

/-- The files to be listed, in order. -/
def files (arguments : List String) : List String :=
  (scanned arguments).filter fun a => !isDashed a

/-- The vocabulary is asked for. -/
def vocabulary (arguments : List String) : Bool :=
  (scanned arguments).any fun a => a == "-t" || a == "--tables"

/-- What the last operand gives a run, with a reader of options files: what the file gives that it
names, or the defaults if there is none. -/
def Loads (toml : TomlReader) (arguments : List String) (contents : Files)
    (loaded : Except OptionsError Options) : Prop :=
  match (operands arguments).getLast? with
  | some path => OptionsFile.Gives toml (contents path) loaded
  | none => loaded = .ok {}

/-- Where there is a last operand, the file counts that it names. -/
theorem Loads.of_getLast? {toml : TomlReader} {arguments : List String} {contents : Files}
    {loaded : Except OptionsError Options} {path : String}
    (hlast : (operands arguments).getLast? = some path)
    (h : OptionsFile.Gives toml (contents path) loaded) : Loads toml arguments contents loaded := by
  unfold Loads
  rw [hlast]
  exact h

/-- Options with those switched off that the flags leave out. -/
def forced (arguments : List String) (o : Options) : Options :=
  { o with
    showOffsets := if "-n" ∈ scanned arguments then false else o.showOffsets
    dumpHex := if "-d" ∈ scanned arguments then false else o.dumpHex }

section Scanning

variable {a : String} (rest : List String)

/-- Behind any other argument than `-c` there is no operand. -/
theorem marked_cons (h : a ≠ "-c") : marked false (a :: rest) = (a, false) :: marked false rest := by
  have hbeq : (a == "-c") = false := beq_eq_false_iff_ne.2 h
  rw [marked, Bool.not_false, Bool.true_and, hbeq]

/-- Such an argument is none of the operands. -/
theorem scanned_cons (h : a ≠ "-c") : scanned (a :: rest) = a :: scanned rest := by
  unfold scanned
  rw [marked_cons rest h]
  rfl

/-- Nor does it bring one. -/
theorem operands_cons (h : a ≠ "-c") : operands (a :: rest) = operands rest := by
  unfold operands
  rw [marked_cons rest h]
  rfl

/-- It may end the program; otherwise those behind it may. -/
theorem firstEnd?_cons (h : a ≠ "-c") : firstEnd? (a :: rest) =
    (endAt? a (marked false rest).isEmpty).or (firstEnd? rest) := by
  unfold firstEnd?
  rw [marked_cons rest h]
  rfl

/-- No flag ends the program. -/
theorem endAt?_of_flag (h : a ∈ ["-n", "-d", "-t", "--tables"]) (isLast : Bool) :
    endAt? a isLast = none := by
  have hall : ∀ a ∈ ["-n", "-d", "-t", "--tables"], ∀ isLast, endAt? a isLast = none := by decide
  exact hall a h isLast

/-- An argument that does not look like an option is none of those that do. -/
theorem ne_of_isDashed {b : String} (h : isDashed a = false) (hb : isDashed b = true) : a ≠ b := by
  rintro rfl
  rw [h] at hb
  cases hb

/-- Nor does a file. -/
theorem endAt?_of_file (h : isDashed a = false) (isLast : Bool) : endAt? a isLast = none := by
  have hhelp : ¬ (a = "-h" ∨ a = "--help") := by
    rintro (heq | heq)
    · exact ne_of_isDashed h (by decide) heq
    · exact ne_of_isDashed h (by decide) heq
  have hoptions : a ≠ "-c" := ne_of_isDashed h (by decide)
  unfold endAt?
  rw [if_neg hhelp, if_neg hoptions, h]
  exact if_neg fun hand => Bool.false_ne_true hand.1

end Scanning

end Arguments

/-- How an argument with a meaning is spelled. -/
def Argument.IsSpelled (a : String) : Argument → Prop
  | omitOffsets => a = "-n"
  | omitDumps => a = "-d"
  | vocabulary => a = "-t" ∨ a = "--tables"
  | optionsFile => a = "-c"
  | help => a = "-h" ∨ a = "--help"
  | file path => path = a ∧ Arguments.isDashed a = false
  | unknown text => text = a ∧ Arguments.isDashed a = true ∧
      a ∉ ["-n", "-d", "-t", "--tables", "-c", "-h", "--help"]

/-- What an argument means is spelled so. -/
theorem Argument.isSpelled_of_eq {a : String} {m : Argument} (h : ofString a = m) :
    IsSpelled a m := by
  rw [← h]
  unfold ofString
  by_cases hoffsets : a = "-n"
  · rwa [if_pos hoffsets]
  by_cases hdumps : a = "-d"
  · rwa [if_neg hoffsets, if_pos hdumps]
  by_cases hvocabulary : a = "-t" ∨ a = "--tables"
  · rwa [if_neg hoffsets, if_neg hdumps, if_pos hvocabulary]
  by_cases hoptions : a = "-c"
  · rwa [if_neg hoffsets, if_neg hdumps, if_neg hvocabulary, if_pos hoptions]
  by_cases hhelp : a = "-h" ∨ a = "--help"
  · rwa [if_neg hoffsets, if_neg hdumps, if_neg hvocabulary, if_neg hoptions, if_pos hhelp]
  rw [if_neg hoffsets, if_neg hdumps, if_neg hvocabulary, if_neg hoptions, if_neg hhelp]
  by_cases hdashed : a.toList.head? = some '-'
  · rw [if_pos hdashed]
    refine ⟨rfl, beq_iff_eq.2 hdashed, ?_⟩
    simp only [List.mem_cons, List.not_mem_nil, or_false]
    grind
  · rw [if_neg hdashed]
    exact ⟨rfl, beq_eq_false_iff_ne.2 hdashed⟩

namespace Arguments

/-- A request with what further arguments ask for. -/
def addedTo (r : Request) (arguments : List String) : Request where
  files := r.files ++ files arguments
  vocabulary := r.vocabulary || vocabulary arguments
  omitOffsets := r.omitOffsets || (scanned arguments).contains "-n"
  omitDumps := r.omitDumps || (scanned arguments).contains "-d"
  optionsFile := (operands arguments).getLast?.or r.optionsFile

/-- What reading arguments leads to, as they are scanned: to the first ending, if there is one, or to
what all of them ask for. -/
def readingFrom (r : Request) (arguments : List String) : Except EarlyEnd Request :=
  match firstEnd? arguments with
  | some early => .error early
  | none => .ok (addedTo r arguments)

/-- An argument that ends nothing and changes a request is read as a part of it. -/
theorem readingFrom_cons {r r' : Request} {a : String} {rest : List String} (ha : a ≠ "-c")
    (hend : ∀ isLast, endAt? a isLast = none) (hadded : addedTo r (a :: rest) = addedTo r' rest) :
    readingFrom r (a :: rest) = readingFrom r' rest := by
  unfold readingFrom
  rw [firstEnd?_cons rest ha, hend, Option.none_or, hadded]

/-- The operand of `-c` is read together with it. Behind it arguments are scanned as from the start. -/
theorem readingFrom_optionsFile (r : Request) (path : String) (rest : List String) :
    readingFrom r ("-c" :: path :: rest) = readingFrom { r with optionsFile := some path } rest := by
  have hend : firstEnd? ("-c" :: path :: rest) = firstEnd? rest := rfl
  have hscanned : scanned ("-c" :: path :: rest) = "-c" :: scanned rest := rfl
  have hoperands : operands ("-c" :: path :: rest) = path :: operands rest := rfl
  have hlast : ((path :: operands rest).getLast?).or r.optionsFile =
      (operands rest).getLast?.or (some path) := by
    rw [List.getLast?_cons]
    cases (operands rest).getLast? <;> rfl
  unfold readingFrom
  rw [hend]
  simp [addedTo, files, vocabulary, hscanned, hoperands, hlast, isDashed]

/-- Arguments are read as they are scanned. -/
theorem extend_eq (r : Request) (arguments : List String) :
    r.extend arguments = readingFrom r arguments := by
  fun_induction Request.extend r arguments with
  | case1 r =>
    simp [readingFrom, addedTo, firstEnd?, firstEndOf?, files, vocabulary, scanned, operands, marked]
  | case2 r a rest hmeans ih =>
    obtain rfl : a = "-n" := Argument.isSpelled_of_eq hmeans
    rw [ih]
    refine (readingFrom_cons (by decide) (endAt?_of_flag (by decide)) ?_).symm
    simp [addedTo, files, vocabulary, scanned_cons, operands_cons, isDashed]
  | case3 r a rest hmeans ih =>
    obtain rfl : a = "-d" := Argument.isSpelled_of_eq hmeans
    rw [ih]
    refine (readingFrom_cons (by decide) (endAt?_of_flag (by decide)) ?_).symm
    simp [addedTo, files, vocabulary, scanned_cons, operands_cons, isDashed]
  | case4 r a rest hmeans ih =>
    have ha : a = "-t" ∨ a = "--tables" := Argument.isSpelled_of_eq hmeans
    have hflag : a ∈ ["-n", "-d", "-t", "--tables"] := by
      rcases ha with rfl | rfl <;> decide
    rw [ih]
    refine (readingFrom_cons ?_ (endAt?_of_flag hflag) ?_).symm
    · rcases ha with rfl | rfl <;> decide
    · rcases ha with rfl | rfl <;>
        simp [addedTo, files, vocabulary, scanned_cons, operands_cons, isDashed]
  | case5 r a hmeans =>
    obtain rfl : a = "-c" := Argument.isSpelled_of_eq hmeans
    rfl
  | case6 r a hmeans path rest ih =>
    obtain rfl : a = "-c" := Argument.isSpelled_of_eq hmeans
    rw [ih, readingFrom_optionsFile]
  | case7 r a rest hmeans =>
    have ha : a = "-h" ∨ a = "--help" := Argument.isSpelled_of_eq hmeans
    have hc : a ≠ "-c" := by rcases ha with rfl | rfl <;> decide
    unfold readingFrom
    rw [firstEnd?_cons rest hc, endAt?, if_pos ha, Option.some_or]
  | case8 r a rest path hmeans ih =>
    obtain ⟨rfl, hfile⟩ : path = a ∧ isDashed a = false := Argument.isSpelled_of_eq hmeans
    have hc : path ≠ "-c" := ne_of_isDashed hfile (by decide)
    have hn : "-n" ≠ path := (ne_of_isDashed hfile (by decide)).symm
    have hd : "-d" ≠ path := (ne_of_isDashed hfile (by decide)).symm
    have ht : (path == "-t") = false := beq_eq_false_iff_ne.2 (ne_of_isDashed hfile (by decide))
    have htables : (path == "--tables") = false :=
      beq_eq_false_iff_ne.2 (ne_of_isDashed hfile (by decide))
    rw [ih]
    refine (readingFrom_cons hc (endAt?_of_file hfile) ?_).symm
    simp [addedTo, files, vocabulary, scanned_cons _ hc, operands_cons _ hc, hfile, hn, hd, ht,
      htables]
  | case9 r a rest text hmeans =>
    obtain ⟨rfl, hdashed, hunknown⟩ : text = a ∧ isDashed a = true ∧
        a ∉ ["-n", "-d", "-t", "--tables", "-c", "-h", "--help"] := Argument.isSpelled_of_eq hmeans
    simp only [List.mem_cons, List.not_mem_nil, or_false, not_or] at hunknown
    obtain ⟨hn, hd, ht, htables, hc, hh, hhelp⟩ := hunknown
    unfold readingFrom
    rw [firstEnd?_cons rest hc, endAt?]
    simp [hn, hd, ht, htables, hc, hh, hhelp, hdashed]

end Arguments

namespace Run

variable {toml : TomlReader} {program : String}

/-- The options that arguments ask for are those that the last operand gives, less what the flags
leave out. -/
theorem options_addedTo {arguments : List String} {contents : Files}
    {loaded : Except OptionsError Options} (h : Arguments.Loads toml arguments contents loaded) :
    options toml contents (Arguments.addedTo {} arguments) =
      loaded.map (Arguments.forced arguments) := by
  have hforced : ∀ (on : Bool) (flag : String),
      (on && !(Arguments.scanned arguments).contains flag) =
        if flag ∈ Arguments.scanned arguments then false else on := by
    intro on flag
    by_cases hflag : flag ∈ Arguments.scanned arguments <;> simp [hflag]
  unfold Arguments.Loads at h
  unfold options Arguments.addedTo Arguments.forced
  simp only [Bool.false_or, Option.or_none, hforced]
  cases hlast : (Arguments.operands arguments).getLast? with
  | none =>
    rw [hlast] at h
    rw [h]
    rfl
  | some path =>
    rw [hlast] at h
    dsimp only at h ⊢
    rw [h.eq_load]
    cases loaded <;> rfl

/-- The last operand gives just one thing. -/
theorem existsUnique_loads (toml : TomlReader) (arguments : List String) (contents : Files) :
    ∃! loaded, Arguments.Loads toml arguments contents loaded := by
  unfold Arguments.Loads
  cases (Arguments.operands arguments).getLast? with
  | none => exact ⟨_, rfl, fun other h => h⟩
  | some path => exact ⟨_, OptionsFile.gives_load toml _, fun other h => h.eq_load.symm⟩

/-- A run follows from what is found by scanning the arguments. -/
theorem ofArguments_eq {arguments : List String} {contents : Files}
    {loaded : Except OptionsError Options} (h : Arguments.Loads toml arguments contents loaded) :
    ofArguments toml program arguments contents =
      match Arguments.firstEnd? arguments with
      | some early => ofEarlyEnd program early
      | none =>
        if (Arguments.files arguments).isEmpty && !Arguments.vocabulary arguments then
          ⟨[.err (usage program)], 1⟩
        else
          match loaded.map (Arguments.forced arguments) with
          | .error error => ⟨[.err error.report], 1⟩
          | .ok o => ofRequest o contents
            { files := Arguments.files arguments, vocabulary := Arguments.vocabulary arguments } := by
  unfold ofArguments Request.ofArguments
  rw [Arguments.extend_eq, Arguments.readingFrom]
  cases Arguments.firstEnd? arguments with
  | some early => rfl
  | none =>
    dsimp only
    rw [options_addedTo h]
    simp only [Arguments.addedTo, List.nil_append, Bool.false_or]
    rfl

/-- So do the files that it may read. -/
theorem paths_eq (arguments : List String) : paths arguments =
    match Arguments.firstEnd? arguments with
    | some _ => []
    | none =>
      if (Arguments.files arguments).isEmpty && !Arguments.vocabulary arguments then []
      else (Arguments.operands arguments).getLast?.toList ++ Arguments.files arguments := by
  unfold paths Request.ofArguments
  rw [Arguments.extend_eq, Arguments.readingFrom]
  cases Arguments.firstEnd? arguments with
  | some early => rfl
  | none => simp only [Arguments.addedTo, List.nil_append, Bool.false_or, Option.or_none]

/-- Files that a request does not name change nothing in its run. -/
theorem ofRequest_congr {o : Options} {r : Request} {contents others : Files}
    (h : ∀ path ∈ r.files, contents path = others path) :
    ofRequest o contents r = ofRequest o others r := by
  have hfile : ∀ path ∈ r.files, ofFile o contents path = ofFile o others path := by
    intro path hpath
    unfold ofFile
    rw [h path hpath]
  unfold ofRequest
  dsimp only
  rw [List.flatMap_congr fun path hpath => by rw [hfile path hpath]]

/-- Nor do they change anything in its options, if they are not the one that it reads them from. -/
theorem options_congr {r : Request} {contents others : Files}
    (h : ∀ path ∈ r.optionsFile.toList, contents path = others path) :
    options toml contents r = options toml others r := by
  unfold options
  cases hfile : r.optionsFile with
  | none => rfl
  | some path =>
    dsimp only
    rw [h path (by rw [hfile]; exact List.mem_cons_self)]

/-- A run reads no files but those that it may read. -/
theorem ofArguments_congr {arguments : List String} {contents others : Files}
    (h : ∀ path ∈ paths arguments, contents path = others path) :
    ofArguments toml program arguments contents = ofArguments toml program arguments others := by
  unfold paths at h
  unfold ofArguments
  cases hrequest : Request.ofArguments arguments with
  | error early => rfl
  | ok r =>
    rw [hrequest] at h
    dsimp only at h ⊢
    split
    · rfl
    · rename_i hsome
      rw [if_neg hsome] at h
      rw [options_congr fun path hpath => h path (List.mem_append_left _ hpath)]
      cases options toml others r with
      | error error => rfl
      | ok o => exact ofRequest_congr fun path hpath => h path (List.mem_append_right _ hpath)

/-- What ends the program early writes one text to the error output. -/
theorem ofEarlyEnd_eq (program : String) (early : EarlyEnd) :
    ∃ text, (early = .help → text = usage program) ∧
      ofEarlyEnd program early = ⟨[.err text], if early = .help then 0 else 1⟩ := by
  cases early with
  | help => exact ⟨_, fun _ => rfl, rfl⟩
  | missingFileName =>
    refine ⟨_, fun h => ?_, rfl⟩
    cases h
  | unknownOption text =>
    refine ⟨_, fun h => ?_, rfl⟩
    cases h

/-- Options mean the same wherever they stand. The first argument that ends the program does so
before a file is read. Arguments that neither end it nor give it anything to list lead to the usage,
and no options are read either. Otherwise the last operand gives the options or an error, which is
reported, and a run follows from the files in their order, whether the vocabulary is asked for, and
those options less what the flags leave out; so arguments that agree in these make the same run, in
whatever order they stand. A run reads no other files than it may read. All of this holds with any
reader of options files; one that does what is documented lets single lines of a file set switches as
the flags do. -/
theorem ofArguments_any_order (toml : TomlReader) (program : String) (arguments : List String) :
    (∀ early, Arguments.firstEnd? arguments = some early → paths arguments = [] ∧
      ∃ text, (early = .help → text = usage program) ∧
        ∀ contents, ofArguments toml program arguments contents =
          ⟨[.err text], if early = .help then 0 else 1⟩) ∧
    (Arguments.firstEnd? arguments = none → Arguments.files arguments = [] →
      Arguments.vocabulary arguments = false → paths arguments = [] ∧
      ∀ contents, ofArguments toml program arguments contents = ⟨[.err (usage program)], 1⟩) ∧
    (∀ contents, ∃! loaded, Arguments.Loads toml arguments contents loaded) ∧
    (Arguments.firstEnd? arguments = none →
      (Arguments.files arguments ≠ [] ∨ Arguments.vocabulary arguments = true) →
      ∀ contents loaded, Arguments.Loads toml arguments contents loaded →
        ofArguments toml program arguments contents =
          match loaded with
          | .error error => ⟨[.err ("Error: " ++ error.details ++ "\n")], 1⟩
          | .ok o => ofRequest (Arguments.forced arguments o) contents
            { files := Arguments.files arguments, vocabulary := Arguments.vocabulary arguments }) ∧
    (∀ others, Arguments.firstEnd? arguments = none → Arguments.firstEnd? others = none →
      Arguments.files arguments = Arguments.files others →
      Arguments.vocabulary arguments = Arguments.vocabulary others →
      ∀ contents loaded loaded', Arguments.Loads toml arguments contents loaded →
        Arguments.Loads toml others contents loaded' →
        loaded.map (Arguments.forced arguments) = loaded'.map (Arguments.forced others) →
        ofArguments toml program arguments contents = ofArguments toml program others contents) ∧
    (∀ contents others : Files, (∀ path ∈ paths arguments, contents path = others path) →
      ofArguments toml program arguments contents = ofArguments toml program arguments others) ∧
    (toml.Documented → OptionsFile.GivesLines toml) := by
  refine ⟨fun early hend => ?_, fun hnone hfiles hvocabulary => ?_, existsUnique_loads toml arguments,
    fun hnone hsome contents loaded hloads => ?_,
    fun others hnone hothers hfiles hvocabulary contents loaded loaded' hloads hloads' hoptions => ?_,
    fun contents others => ofArguments_congr, OptionsFile.givesLines_of_documented⟩
  · obtain ⟨text, htext, hrun⟩ := ofEarlyEnd_eq program early
    refine ⟨by rw [paths_eq, hend], text, htext, fun contents => ?_⟩
    obtain ⟨loaded, hloads, -⟩ := existsUnique_loads toml arguments contents
    rw [ofArguments_eq hloads, hend]
    exact hrun
  · have hidle : ((Arguments.files arguments).isEmpty && !Arguments.vocabulary arguments) = true := by
      rw [hfiles, hvocabulary]
      rfl
    refine ⟨?_, fun contents => ?_⟩
    · rw [paths_eq, hnone]
      exact if_pos hidle
    · obtain ⟨loaded, hloads, -⟩ := existsUnique_loads toml arguments contents
      rw [ofArguments_eq hloads, hnone]
      exact if_pos hidle
  · have hbusy : ((Arguments.files arguments).isEmpty && !Arguments.vocabulary arguments) ≠ true := by
      rcases hsome with hfiles | hvocabulary
      · simp [hfiles]
      · simp [hvocabulary]
    rw [ofArguments_eq hloads, hnone]
    dsimp only
    rw [if_neg hbusy]
    cases loaded <;> rfl
  · rw [ofArguments_eq hloads, ofArguments_eq hloads', hnone, hothers, hfiles, hvocabulary, hoptions]

/-- Help behind a flag ends the program, and an operand that looks like a call for help does not but
leaves nothing to list. The same files with the same options may stand anywhere, a flag does what a
line of an options file does, and it overrides the opposite line, also from behind the files. Nothing
but that file is read where it cannot be used. -/
theorem ofArguments_any_order_mixed :
    (paths ["-n", "--help", "-c"] = [] ∧ ∀ toml contents,
      ofArguments toml "pxldis" ["-n", "--help", "-c"] contents = ⟨[.err (usage "pxldis")], 0⟩) ∧
    (paths ["-c", "-h"] = [] ∧ ∀ toml contents,
      ofArguments toml "pxldis" ["-c", "-h"] contents = ⟨[.err (usage "pxldis")], 1⟩) ∧
    (∀ toml contents,
      ofArguments toml "pxldis" ["-c", "-x", "a", "-d", "-c", "-t", "b"] contents =
        ofArguments toml "pxldis" ["a", "b", "-d", "-c", "-t", "-d"] contents) ∧
    (∀ contents : Files,
      contents "o" = .ok (OptionsFile.encoded (OptionsFile.switchLine "show_offsets" false)) →
      ofArguments OptionsFile.knownReader "pxldis" ["-c", "o", "job"] contents =
        ofArguments OptionsFile.knownReader "pxldis" ["-n", "job"] contents) ∧
    (∀ contents : Files,
      contents "o" = .ok (OptionsFile.encoded (OptionsFile.switchLine "dump_hex" true)) →
      ofArguments OptionsFile.knownReader "pxldis" ["-c", "o", "job", "-d"] contents =
        ofRequest { dumpHex := false } contents { files := ["job"], vocabulary := false }) ∧
    (∀ contents : Files, contents "o" = .ok (OptionsFile.encoded "dump_width = 0\n") →
      ofArguments OptionsFile.knownReader "pxldis" ["-c", "o", "job"] contents =
        ⟨[.err "Error: Invalid(\"dump_width must be at least 1\")\n"], 1⟩) ∧
    ∀ toml, ∀ contents : Files, contents "o" = .error .notFound →
      ofArguments toml "pxldis" ["-c", "o", "job"] contents =
        ⟨[.err "Error: Io(Os \x7b code: 2, kind: NotFound, message: \"No such file or directory\" \x7d)\n"],
          1⟩ := by
  have hlines := (ofArguments_any_order OptionsFile.knownReader "pxldis" []).2.2.2.2.2.2
    OptionsFile.documented_knownReader
  refine ⟨?_, ?_, fun toml contents => ?_, fun contents hfile => ?_, fun contents hfile => ?_,
    fun contents hfile => ?_, fun toml contents hfile => ?_⟩
  · have hends := fun toml =>
      (ofArguments_any_order toml "pxldis" ["-n", "--help", "-c"]).1 .help (by decide)
    refine ⟨(hends OptionsFile.knownReader).1, fun toml contents => ?_⟩
    obtain ⟨-, text, htext, hrun⟩ := hends toml
    rw [← htext rfl]
    exact hrun contents
  · have hidle := fun toml =>
      (ofArguments_any_order toml "pxldis" ["-c", "-h"]).2.1 (by decide) (by decide) (by decide)
    exact ⟨(hidle OptionsFile.knownReader).1, fun toml => (hidle toml).2⟩
  · have hgives := OptionsFile.gives_load toml (contents "-t")
    exact (ofArguments_any_order _ _ _).2.2.2.2.1 _ (by decide) (by decide) (by decide) (by decide)
      contents _ _ (.of_getLast? (by decide) hgives) (.of_getLast? (by decide) hgives) rfl
  · have hgives : OptionsFile.Gives OptionsFile.knownReader (contents "o")
        (.ok { showOffsets := false }) := by
      rw [hfile]
      exact hlines.switch _ List.mem_cons_self false
    exact (ofArguments_any_order _ _ _).2.2.2.2.1 _ (by decide) (by decide) (by decide) (by decide)
      contents _ _ (.of_getLast? (by decide) hgives) rfl (by decide)
  · have hgives : OptionsFile.Gives OptionsFile.knownReader (contents "o")
        (.ok { dumpHex := true }) := by
      rw [hfile]
      exact hlines.switch _ (List.mem_cons_of_mem _ List.mem_cons_self) true
    exact (ofArguments_any_order _ _ _).2.2.2.1 (by decide) (.inl (by decide)) contents _
      (.of_getLast? (by decide) hgives)
  · have hgives : OptionsFile.Gives OptionsFile.knownReader (contents "o")
        (.error .zeroWidth) := by
      rw [hfile]
      exact hlines.zeroWidth
    exact (ofArguments_any_order _ _ _).2.2.2.1 (by decide) (.inl (by decide)) contents _
      (.of_getLast? (by decide) hgives)
  · have hgives : OptionsFile.Gives toml (contents "o")
        (.error (.unreadable .notFound)) := by
      rw [hfile]
      exact .unreadable _
    exact (ofArguments_any_order _ _ _).2.2.2.1 (by decide) (.inl (by decide)) contents _
      (.of_getLast? (by decide) hgives)

end Run

end PclXl
