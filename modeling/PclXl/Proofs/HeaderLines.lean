import PclXl.Proofs.Opening
import PclXl.Proofs.Utf8Encoding

/-!
# Header lines

A header line is the mark of an order, the name of the language and two or three texts between
semicolons, in UTF-8, up to carriage returns and a line feed. Reading splits the decoded text at its
first three semicolons and removes the carriage returns at its end and the blanks around the first
two texts. What the line was written from comes back if those texts hold no semicolon and no blanks
at their ends; the third may hold semicolons.
-/

namespace PclXl

open Text

/-- Where a separator does not occur, every character differs from it. -/
theorem bne_of_notMem {separator : Char} {as : List Char} (h : separator ∉ as) :
    ∀ c ∈ as, (c != separator) = true := by
  intro c hc
  have hne : c ≠ separator := fun heq => h (heq ▸ hc)
  simpa using hne

/-- A text without separators is not split. -/
theorem splitAtMost_of_notMem {separator : Char} {as : List Char} (h : separator ∉ as) (n : Nat) :
    splitAtMost separator (n + 1) as = [as] := by
  cases n with
  | zero => rfl
  | succ n =>
    have hnone : (as ++ []).dropWhile (· != separator) = [] :=
      List.dropWhile_append_of_pos (bne_of_notMem h)
    rw [List.append_nil] at hnone
    rw [splitAtMost, hnone]

/-- A text without separators is split from what a separator puts behind it. -/
theorem splitAtMost_append {separator : Char} {as : List Char} (h : separator ∉ as) (n : Nat)
    (bs : List Char) : splitAtMost separator (n + 2) (as ++ separator :: bs) =
      as :: splitAtMost separator (n + 1) bs := by
  have hstop : ¬ (separator != separator) = true := by simp
  have hdrop : (as ++ separator :: bs).dropWhile (· != separator) = separator :: bs := by
    rw [List.dropWhile_append_of_pos (bne_of_notMem h)]
    exact List.dropWhile_cons_of_neg hstop
  have htake : (as ++ separator :: bs).takeWhile (· != separator) = as := by
    have hfront : (separator :: bs).takeWhile (· != separator) = [] :=
      List.takeWhile_cons_of_neg hstop
    rw [List.takeWhile_append_of_pos (bne_of_notMem h), hfront, List.append_nil]
  rw [splitAtMost, hdrop]
  dsimp only
  rw [htake]

/-- Behind a character a text ends as what stands there, or in the character. -/
theorem getLast?_append_cons_of {p : Char → Bool} {c : Char} {bs : List Char} (hc : p c = false)
    (h : ∀ b ∈ bs.getLast?, p b = false) (as : List Char) :
    ∀ b ∈ (as ++ c :: bs).getLast?, p b = false := by
  intro b hb
  rw [List.getLast?_append_cons, List.getLast?_cons] at hb
  cases hlast : bs.getLast? with
  | none =>
    rw [hlast] at hb
    exact (Option.some.inj hb) ▸ hc
  | some a =>
    rw [hlast] at hb
    exact (Option.some.inj hb) ▸ h a hlast

/-- The end that satisfies a property is removed as a whole. -/
theorem Text.dropWhileEnd_append_replicate {p : Char → Bool} {as : List Char} {c : Char}
    (hc : p c = true) (h : ∀ a ∈ as.getLast?, p a = false) (n : Nat) :
    dropWhileEnd p (as ++ List.replicate n c) = as := by
  have hall : ∀ a ∈ List.replicate n c, p a = true := fun a ha => by
    rwa [List.eq_of_mem_replicate ha]
  have hself := dropWhileEnd_eq_self h
  unfold dropWhileEnd at hself ⊢
  rwa [List.reverse_append, List.reverse_replicate, List.dropWhile_append_of_pos hall]

/-- A text that starts and ends in no blank has no blanks to remove. -/
theorem Text.trim_eq_self {cs : List Char} (hstart : ∀ c ∈ cs.head?, isBlank c = false)
    (hend : ∀ c ∈ cs.getLast?, isBlank c = false) : trim cs = cs := by
  rw [trim, trimLeft_eq_self hstart, dropWhileEnd_eq_self hend]

/-- A text that may stand in front of a semicolon. -/
structure IsField (field : String) : Prop where
  /-- It holds no semicolon. -/
  noSemicolon : ';' ∉ field.toList
  /-- It holds no line feed. -/
  oneLine : '\n' ∉ field.toList
  /-- It starts with no blank. -/
  starts : ∀ c ∈ field.toList.head?, isBlank c = false
  /-- It ends in no blank. -/
  ends : ∀ c ∈ field.toList.getLast?, isBlank c = false

/-- A text that may stand behind the third semicolon. -/
structure IsComment (comment : String) : Prop where
  /-- It holds no line feed. -/
  oneLine : '\n' ∉ comment.toList
  /-- It does not end in a carriage return. -/
  ends : ∀ c ∈ comment.toList.getLast?, c ≠ '\r'

/-- What a header line is written from. -/
structure HeaderLine where
  /-- The order of the bytes in numbers. -/
  order : ByteOrder
  /-- The protocol class. -/
  protocol : String
  /-- The revision of the protocol class. -/
  revision : String
  /-- What follows the revision, if anything does. -/
  comment : Option String
  /-- How many carriage returns stand in front of the line feed. -/
  returns : Nat
  /-- The protocol class is a field. -/
  protocol_isField : IsField protocol
  /-- The revision is a field. -/
  revision_isField : IsField revision
  /-- The comment is one. -/
  comment_isComment : ∀ c ∈ comment, IsComment c

namespace HeaderLine

/-- The text of a header line behind its mark. -/
def text (w : HeaderLine) : String :=
  " HP-PCL XL;" ++ w.protocol ++ ";" ++ w.revision ++
    match w.comment with
    | none => ""
    | some comment => ";" ++ comment

/-- The bytes of a header line. -/
def bytes (w : HeaderLine) : List UInt8 :=
  w.order.mark :: (w.text.toUTF8.data.toList ++ (List.replicate w.returns 0x0D ++ [0x0A]))

/-- The fields behind the first semicolon. -/
def fields (w : HeaderLine) : List Char :=
  w.protocol.toList ++ ';' :: (w.revision.toList ++
    match w.comment with
    | none => []
    | some comment => ';' :: comment.toList)

/-- The text is the name of the language with the fields behind a semicolon. -/
theorem toList_text (w : HeaderLine) :
    w.text.toList = ' ' :: (Header.languageName ++ ';' :: w.fields) := by
  have hname : " HP-PCL XL;".toList = ' ' :: (Header.languageName ++ [';']) := by decide +kernel
  have hsemicolon : ";".toList = [';'] := by decide +kernel
  unfold text fields
  cases w.comment with
  | none => simp [hname, hsemicolon]
  | some comment => simp [hname, hsemicolon]

/-- The fields hold no line feed. -/
theorem fields_oneLine (w : HeaderLine) : '\n' ∉ w.fields := by
  have hprotocol := w.protocol_isField.oneLine
  have hrevision := w.revision_isField.oneLine
  have hcomment := w.comment_isComment
  unfold fields
  cases hc : w.comment with
  | none => simp [hprotocol, hrevision]
  | some comment => simp [hprotocol, hrevision, (hcomment comment hc).oneLine]

/-- The line does not end in a carriage return in front of those that are added. Each part may be
empty, and then the line ends in the semicolon in front of it. -/
theorem ends (w : HeaderLine) :
    ∀ c ∈ (' ' :: (Header.languageName ++ ';' :: w.fields)).getLast?, (c == '\r') = false := by
  have hrevision : ∀ c ∈ w.revision.toList.getLast?, (c == '\r') = false := by
    intro c hc
    have hblank := w.revision_isField.ends c hc
    refine Bool.eq_false_iff.2 fun hreturn => ?_
    rw [beq_iff_eq.1 hreturn] at hblank
    exact absurd hblank (by decide)
  have hcomment := w.comment_isComment
  refine getLast?_append_cons_of (by rfl) ?_ (' ' :: Header.languageName)
  refine getLast?_append_cons_of (by rfl) ?_ w.protocol.toList
  cases hc : w.comment with
  | none => rwa [List.append_nil]
  | some comment =>
    refine getLast?_append_cons_of (by rfl) (fun c hlast => ?_) w.revision.toList
    exact beq_eq_false_iff_ne.2 ((hcomment comment hc).ends c hlast)

/-- The fields are split where they were put together. -/
theorem splitAtMost_fields (w : HeaderLine) :
    splitAtMost ';' 4 (Header.languageName ++ ';' :: w.fields) =
      Header.languageName :: w.protocol.toList :: w.revision.toList ::
        (w.comment.map String.toList).toList := by
  have hname : ';' ∉ Header.languageName := by decide +kernel
  unfold fields
  rw [splitAtMost_append hname, splitAtMost_append w.protocol_isField.noSemicolon]
  cases w.comment with
  | none =>
    dsimp only
    rw [List.append_nil, splitAtMost_of_notMem w.revision_isField.noSemicolon]
    rfl
  | some comment =>
    dsimp only
    rw [splitAtMost_append w.revision_isField.noSemicolon]
    rfl

/-- A header line parses as what it was written from. -/
theorem ofLine?_text (w : HeaderLine) (length : Nat) :
    Header.ofLine? w.order length (w.text.toList ++ List.replicate w.returns '\r') =
      some ⟨w.order, w.protocol, w.revision, w.comment, length⟩ := by
  have hprotocol := Text.trim_eq_self w.protocol_isField.starts w.protocol_isField.ends
  have hrevision := Text.trim_eq_self w.revision_isField.starts w.revision_isField.ends
  have htrim : trimLeft (' ' :: (Header.languageName ++ ';' :: w.fields)) =
      Header.languageName ++ ';' :: w.fields := rfl
  have hprefix : Header.languageName.isPrefixOf (Header.languageName ++ ';' :: w.fields) = true :=
    List.isPrefixOf_iff_prefix.2 (List.prefix_append _ _)
  rw [toList_text]
  unfold Header.ofLine?
  rw [Text.dropWhileEnd_append_replicate (by rfl) w.ends, htrim]
  dsimp only
  rw [if_pos hprefix, splitAtMost_fields]
  cases w.comment with
  | none => simp [hprotocol, hrevision]
  | some comment => simp [hprotocol, hrevision]

/-- The bytes behind the name of the language and in front of the line feed. -/
def tail (w : HeaderLine) : List UInt8 :=
  Utf8.encode w.fields ++ List.replicate w.returns 0x0D

/-- Its bytes are the marker of the language and those of the fields. -/
theorem toUTF8_text (w : HeaderLine) : w.text.toUTF8.data.toList =
    Header.languageMarker ++ Utf8.encode w.fields := by
  have hname : ' ' :: (Header.languageName ++ ';' :: w.fields) =
      (' ' :: (Header.languageName ++ [';'])) ++ w.fields := by simp
  have hmarker : Utf8.encode (' ' :: (Header.languageName ++ [';'])) = Header.languageMarker := by
    decide +kernel
  rw [Utf8.toUTF8_eq_encode, toList_text, hname, Utf8.encode_append, hmarker]

/-- So the line is a mark, the marker, a tail and a line feed. -/
theorem bytes_eq (w : HeaderLine) :
    w.bytes = w.order.mark :: (Header.languageMarker ++ (w.tail ++ [0x0A])) := by
  rw [bytes, toUTF8_text, tail]
  simp only [List.append_assoc]

/-- Thirteen bytes of it are not the tail. -/
theorem length_bytes (w : HeaderLine) : w.bytes.length = w.tail.length + 13 := by
  have hmarker : Header.languageMarker.length = 11 := rfl
  simp only [bytes_eq, List.length_cons, List.length_append, List.length_nil, hmarker]
  omega

/-- The bytes are decoded as the text and the carriage returns. -/
theorem decode_tail (w : HeaderLine) : Utf8.decode (Header.languageMarker ++ w.tail) =
    w.text.toList ++ List.replicate w.returns '\r' := by
  have hascii : ∀ b ∈ List.replicate w.returns (0x0D : UInt8), b.toNat < 0x80 := by
    intro b hb
    rw [List.eq_of_mem_replicate hb]
    decide
  have hreturn : Char.ofNat (0x0D : UInt8).toNat = '\r' := rfl
  rw [tail, ← List.append_assoc, ← toUTF8_text, Utf8.toUTF8_eq_encode, Utf8.decode_encode_append,
    Utf8.decode_ascii hascii, List.map_replicate, hreturn]

/-- A header line as one that is written and parses. -/
def written (w : HeaderLine) : WrittenHeader where
  order := w.order
  fields := w.tail
  header := ⟨w.order, w.protocol, w.revision, w.comment, w.bytes.length⟩
  oneLine := by
    intro hmem
    rcases List.mem_append.1 hmem with hfields | hreturns
    · exact Utf8.lineFeed_notMem_encode w.fields_oneLine hfields
    · exact absurd (List.eq_of_mem_replicate hreturns) (by decide)
  parses := by
    rw [decode_tail, ofLine?_text, length_bytes]

/-- As a header it has the same bytes. -/
theorem bytes_written (w : HeaderLine) : w.written.bytes = w.bytes :=
  w.bytes_eq.symm

/-- What a header line is written from is read back, whatever follows the line, and a file opens
with it behind any bytes that do not hold the name of the language. -/
theorem reads_back (w : HeaderLine) (rest : List UInt8) :
    (∀ base, Header.read (w.bytes ++ rest) base =
      .ok ⟨w.order, w.protocol, w.revision, w.comment, w.bytes.length⟩) ∧
    ∀ preamble : List UInt8, ¬ Header.languageMarker <:+: preamble →
      ∃ s, Session.openFile (preamble ++ (w.bytes ++ rest)) = .ok s ∧
        s.header = ⟨w.order, w.protocol, w.revision, w.comment, w.bytes.length⟩ ∧
        s.fileOffset = preamble.length + w.bytes.length ∧ s.cursor.rest = rest := by
  have hbytes := w.bytes_written
  refine ⟨fun base => ?_, fun preamble hpreamble => ?_⟩
  · have hread := Header.read_of_written w.written rest base
    rwa [hbytes] at hread
  · obtain ⟨hrest, hoffset, -⟩ := Session.cursor_behindHeader w.written rest preamble.length
    have hopen := Session.openFile_eq_ok_iff.2 ⟨preamble, w.written, rest, rfl, hpreamble, rfl⟩
    rw [hbytes] at hopen hrest hoffset
    exact ⟨_, hopen, rfl, hoffset, hrest⟩

/-- A revision of two bytes for each of its letters, a comment with semicolons and a carriage return
inside, and two carriage returns at the end. -/
def elaborate : HeaderLine where
  order := .highFirst
  protocol := ""
  revision := "éü"
  comment := some ";\r;→ 𝄞 "
  returns := 2
  protocol_isField := ⟨by simp, by simp, by simp, by simp⟩
  revision_isField := by
    have htext : "éü".toList = ['é', 'ü'] := by decide +kernel
    constructor <;> rw [htext]
    · decide
    · decide
    · simp [isBlank]
    · simp [isBlank]
  comment_isComment := by
    have htext : ";\r;→ 𝄞 ".toList = [';', '\r', ';', '→', ' ', '𝄞', ' '] := by decide +kernel
    intro comment hcomment
    rw [← Option.some.inj hcomment]
    constructor <;> rw [htext]
    · decide
    · simp

/-- The elaborate line is read back behind bytes that end in a space, and in front of a carriage
return and a line feed. -/
theorem reads_back_elaborate :
    ¬ Header.languageMarker <:+: [0x40, 0x0A, 0x20] ∧ elaborate.bytes.length = 33 ∧
    ∃ s, Session.openFile ([0x40, 0x0A, 0x20] ++ (elaborate.bytes ++ [0x0D, 0x0A])) = .ok s ∧
      s.header = ⟨.highFirst, "", "éü", some ";\r;→ 𝄞 ", 33⟩ ∧ s.fileOffset = 36 ∧
      s.cursor.rest = [0x0D, 0x0A] := by
  have hnone : ¬ Header.languageMarker <:+: [0x40, 0x0A, 0x20] := by decide +kernel
  have hlength : elaborate.bytes.length = 33 := by decide +kernel
  obtain ⟨s, hopen, hheader, hoffset, hrest⟩ :=
    (reads_back elaborate [0x0D, 0x0A]).2 [0x40, 0x0A, 0x20] hnone
  rw [hlength] at hheader hoffset
  exact ⟨hnone, hlength, s, hopen, hheader, hoffset, hrest⟩

end HeaderLine

end PclXl
