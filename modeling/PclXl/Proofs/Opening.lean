import PclXl.Proofs.OperatorReading

/-!
# Opening a file

A file opens exactly where some bytes without the name of the language are followed by a header line
that parses. The session then stands behind that line, at the start of the bytes that are left, so
that nothing behind the line has a say in it.
-/

namespace PclXl

open Cursor Text

/-- A pattern that starts in front of a byte it does not hold ends in front of it. -/
theorem prefix_of_notMem {as bs cs : List UInt8} {b : UInt8} (h : as <+: bs ++ b :: cs)
    (hb : b ∉ as) : as <+: bs := by
  have hsplit : bs ++ [b] <+: bs ++ b :: cs := ⟨cs, by simp⟩
  rcases List.prefix_or_prefix_of_prefix h hsplit with hle | hge
  · rcases List.prefix_concat_iff.1 hle with heq | hpre
    · exact absurd (by rw [heq]; simp) hb
    · exact hpre
  · have hmem := hge.subset (List.mem_append_right bs (List.mem_singleton_self b))
    exact absurd hmem hb

/-- A header keeps the order and the length of the line that it is parsed from. -/
theorem Header.order_length_of_ofLine? {order : ByteOrder} {length : Nat} {line : List Char}
    {header : Header} (h : ofLine? order length line = some header) :
    header.order = order ∧ header.length = length := by
  unfold ofLine? at h
  dsimp only at h
  split at h
  · rw [← Option.some.inj h]
    exact ⟨rfl, rfl⟩
  · cases h

/-- The header line of a stream as it is written. -/
structure WrittenHeader where
  /-- The order of the bytes in numbers. -/
  order : ByteOrder
  /-- What stands behind the name of the language. -/
  fields : List UInt8
  /-- What the line says. -/
  header : Header
  /-- The line ends at its line feed. -/
  oneLine : (0x0A : UInt8) ∉ fields
  /-- The line parses. -/
  parses : Header.ofLine? order (fields.length + 13)
    (Utf8.decode (Header.languageMarker ++ fields)) = some header

namespace WrittenHeader

/-- The bytes of a header line. -/
def bytes (w : WrittenHeader) : List UInt8 :=
  w.order.mark :: (Header.languageMarker ++ (w.fields ++ [0x0A]))

/-- Thirteen bytes of a header line are not its fields. -/
theorem length_bytes (w : WrittenHeader) : w.bytes.length = w.fields.length + 13 := by
  have hmarker : Header.languageMarker.length = 11 := rfl
  simp only [bytes, List.length_cons, List.length_append, List.length_nil, hmarker]
  omega

/-- A header keeps the order of its mark and the length of its line. -/
theorem order_length_header (w : WrittenHeader) :
    w.header.order = w.order ∧ w.header.length = w.bytes.length := by
  rw [length_bytes]
  exact Header.order_length_of_ofLine? w.parses

/-- The header line of revision 2.0 with the low byte of numbers first. -/
def sample : WrittenHeader :=
  ⟨.lowFirst, [0x32, 0x3B, 0x30], ⟨.lowFirst, "2", "0", none, 16⟩, by decide, by decide +kernel⟩

end WrittenHeader

namespace Header

/-- A line feed ends the line in front of it. -/
theorem takeWhile_line {line rest : List UInt8} (h : (0x0A : UInt8) ∉ line) :
    (line ++ 0x0A :: rest).takeWhile (· != 0x0A) = line := by
  have hline : ∀ b ∈ line, (b != 0x0A) = true := by
    intro b hb
    have hne : b ≠ 0x0A := fun heq => h (heq ▸ hb)
    simpa using hne
  rw [List.takeWhile_append_of_pos hline, List.takeWhile_cons_of_neg (by decide), List.append_nil]

/-- Bytes that go on behind their first line have a line feed there. -/
theorem exists_line {bs : List UInt8}
    (h : (bs.takeWhile (· != 0x0A)).length ≠ bs.length) : ∃ rest,
      bs = bs.takeWhile (· != 0x0A) ++ 0x0A :: rest ∧
        (0x0A : UInt8) ∉ bs.takeWhile (· != 0x0A) := by
  have hsplit : bs.takeWhile (· != 0x0A) ++ bs.dropWhile (· != 0x0A) = bs :=
    List.takeWhile_append_dropWhile
  have hnot := List.head?_dropWhile_not (· != (0x0A : UInt8)) bs
  have hline : (0x0A : UInt8) ∉ bs.takeWhile (· != 0x0A) := by
    intro hmem
    have hall := List.all_eq_true.1 (List.all_takeWhile (p := (· != (0x0A : UInt8))) (l := bs)) _ hmem
    exact absurd hall (by decide)
  cases hd : bs.dropWhile (· != 0x0A) with
  | nil =>
    rw [hd, List.append_nil] at hsplit
    exact absurd (congrArg List.length hsplit) h
  | cons b rest =>
    rw [hd] at hnot
    have hb : b = 0x0A := by simpa using hnot
    rw [hd, hb] at hsplit
    exact ⟨rest, hsplit.symm, hline⟩

/-- A header is read exactly where a line behind the mark of an order ends and parses. -/
theorem read_eq_ok_iff {stream : List UInt8} {base : Nat} {header : Header} :
    read stream base = .ok header ↔ ∃ (order : ByteOrder) (line rest : List UInt8),
      stream = order.mark :: (line ++ 0x0A :: rest) ∧ (0x0A : UInt8) ∉ line ∧
      ofLine? order (line.length + 2) (Utf8.decode line) = some header := by
  constructor
  · intro h
    unfold read at h
    cases stream with
    | nil => cases h
    | cons mark tail =>
      dsimp only at h
      cases hmark : ByteOrder.ofMark? mark with
      | none =>
        rw [hmark] at h
        cases h
      | some order =>
        rw [hmark] at h
        dsimp only at h
        split at h
        · cases h
        · rename_i hlong
          obtain ⟨rest, htail, hline⟩ := exists_line hlong
          refine ⟨order, _, rest, ?_, hline, ?_⟩
          · rw [← htail, ByteOrder.ofMark?_eq_some_iff.1 hmark]
          · split at h
            · cases h
            · rename_i found hparse
              rw [hparse, Except.ok.inj h]
  · intro h
    obtain ⟨order, line, rest, rfl, hline, hparse⟩ := h
    unfold read
    dsimp only
    rw [ByteOrder.ofMark?_eq_some_iff.2 rfl, takeWhile_line hline]
    dsimp only
    rw [if_neg (by simp), hparse]

/-- A written header line is read. -/
theorem read_of_written (w : WrittenHeader) (rest : List UInt8) (base : Nat) :
    read (w.bytes ++ rest) base = .ok w.header := by
  have hline : (0x0A : UInt8) ∉ languageMarker ++ w.fields := by
    intro hmem
    rcases List.mem_append.1 hmem with hmarker | hfields
    · exact absurd hmarker (by decide)
    · exact w.oneLine hfields
  have hbytes : w.bytes ++ rest =
      w.order.mark :: ((languageMarker ++ w.fields) ++ 0x0A :: rest) := by
    simp only [WrittenHeader.bytes, List.cons_append, List.append_assoc, List.nil_append]
  have hlength : (languageMarker ++ w.fields).length + 2 = w.fields.length + 13 := by
    have hmarker : languageMarker.length = 11 := rfl
    rw [List.length_append, hmarker]
    omega
  refine read_eq_ok_iff.2 ⟨w.order, _, rest, hbytes, hline, ?_⟩
  rw [hlength, w.parses]

/-- Where a header is read in front of the name of the language, a header line is written. -/
theorem exists_written_of_read {stream : List UInt8} {base : Nat} {header : Header}
    (hname : languageMarker <+: stream.drop 1) (h : read stream base = .ok header) :
    ∃ (w : WrittenHeader) (rest : List UInt8), w.header = header ∧ stream = w.bytes ++ rest := by
  obtain ⟨order, line, rest, rfl, hline, hparse⟩ := read_eq_ok_iff.1 h
  obtain ⟨fields, rfl⟩ := prefix_of_notMem hname (by decide)
  have hlength : (languageMarker ++ fields).length + 2 = fields.length + 13 := by
    have hmarker : languageMarker.length = 11 := rfl
    rw [List.length_append, hmarker]
    omega
  rw [hlength] at hparse
  refine ⟨⟨order, fields, header, fun hmem => ?_, hparse⟩, rest, rfl, ?_⟩
  · exact hline (List.mem_append_right _ hmem)
  · simp only [WrittenHeader.bytes, List.cons_append, List.append_assoc, List.nil_append]

/-- A line with the name of the language parses, whatever its fields are. -/
theorem exists_ofLine? (order : ByteOrder) (length : Nat) (fields : List UInt8) :
    ∃ header, ofLine? order length (Utf8.decode (languageMarker ++ fields)) = some header := by
  have hascii : ∀ b ∈ languageMarker, b.toNat < 0x80 := by decide +kernel
  have hname : (languageMarker.map fun b => Char.ofNat b.toNat) =
      ' ' :: (languageName ++ [';']) := rfl
  have hlast : ∀ c ∈ (' ' :: (languageName ++ [';'])).getLast?, (c == '\r') = false := by
    intro c hc
    have hsemicolon : c = ';' := (Option.some.inj hc).symm
    rw [hsemicolon]
    rfl
  obtain ⟨cs, hline⟩ := exists_dropWhileEnd_append (Utf8.decode fields) hlast
  have htrim : trimLeft (' ' :: (languageName ++ [';']) ++ cs) = languageName ++ (';' :: cs) := rfl
  have hprefix : languageName.isPrefixOf (languageName ++ (';' :: cs)) = true :=
    List.isPrefixOf_iff_prefix.2 (List.prefix_append _ _)
  rw [Utf8.decode_append_of_ascii hascii, hname]
  unfold ofLine?
  rw [hline, htrim]
  dsimp only
  rw [if_pos hprefix]
  exact ⟨_, rfl⟩

/-- Whatever the fields of a header line are, it is written. -/
theorem exists_written_of_fields (order : ByteOrder) {fields : List UInt8}
    (h : (0x0A : UInt8) ∉ fields) :
    ∃ w : WrittenHeader, w.order = order ∧ w.fields = fields := by
  obtain ⟨header, hparse⟩ := exists_ofLine? order (fields.length + 13) fields
  exact ⟨⟨order, fields, header, h, hparse⟩, rfl, rfl⟩

/-- A stream with the name of the language behind a mark and with a line feed starts with a header
line. -/
theorem exists_written_of_name {stream : List UInt8} {order : ByteOrder}
    (hname : order.mark :: languageMarker <+: stream) (hline : (0x0A : UInt8) ∈ stream) :
    ∃ (w : WrittenHeader) (rest : List UInt8), stream = w.bytes ++ rest := by
  obtain ⟨tail, htail⟩ := hname
  have htailLine : (0x0A : UInt8) ∈ tail := by
    rw [← htail] at hline
    rcases List.mem_append.1 hline with hfront | hbehind
    · cases order <;> exact absurd hfront (by decide)
    · exact hbehind
  obtain ⟨fields, rest, hsplit, hfields⟩ := List.eq_append_cons_of_mem htailLine
  obtain ⟨w, horder, hw⟩ := exists_written_of_fields order hfields
  refine ⟨w, rest, ?_⟩
  rw [← htail, hsplit, ← horder, ← hw]
  simp only [WrittenHeader.bytes, List.cons_append, List.append_assoc, List.nil_append]

/-- The stream starts in front of the first place where the name of the language stands. -/
theorem locate_eq_ok_iff {data : List UInt8} {n : Nat} : locate data = .ok n ↔
    languageMarker <+: data.drop (n + 1) ∧ ∀ j ≤ n, ¬ languageMarker <+: data.drop j := by
  have hfirst : Bytes.firstWithin? languageMarker data.length data = some (n + 1) ↔
      languageMarker <+: data.drop (n + 1) ∧ ∀ j ≤ n, ¬ languageMarker <+: data.drop j := by
    rw [Bytes.firstWithin?_eq_some_iff]
    constructor
    · intro h
      obtain ⟨-, -, hname, hleast⟩ := h
      exact ⟨hname, fun j hj => hleast j (by omega)⟩
    · intro h
      obtain ⟨hname, hleast⟩ := h
      have hlength := hname.length_le
      have hmarker : languageMarker.length = 11 := rfl
      rw [List.length_drop, hmarker] at hlength
      exact ⟨by omega, by omega, hname, fun j hj => hleast j (by omega)⟩
  rw [← hfirst]
  unfold locate
  cases hsearch : Bytes.firstWithin? languageMarker data.length data with
  | none => simp
  | some i =>
    cases i with
    | zero => simp
    | succ i => simp

/-- The name of the language does not stand across the mark of an order. -/
theorem not_prefix_drop {preamble rest : List UInt8} {order : ByteOrder} {j : Nat}
    (hpreamble : ¬ languageMarker <:+: preamble) (hj : j ≤ preamble.length) :
    ¬ languageMarker <+: (preamble ++ order.mark :: rest).drop j := by
  have hmark : order.mark ∉ languageMarker := by cases order <;> decide
  intro h
  rw [List.drop_append_of_le_length hj] at h
  have hinside := prefix_of_notMem h hmark
  exact hpreamble (hinside.isInfix.trans (List.drop_suffix j preamble).isInfix)

/-- Where a stream is found, the bytes in front do not hold the name of the language. -/
theorem not_infix_take {data : List UInt8} {n : Nat}
    (hleast : ∀ j ≤ n, ¬ languageMarker <+: data.drop j) : ¬ languageMarker <:+: data.take n := by
  intro h
  obtain ⟨front, back, hparts⟩ := h
  have hdata := List.take_append_drop n data
  have hlength := congrArg List.length hparts
  simp only [List.length_append, List.length_take] at hlength
  have hall : front ++ (languageMarker ++ (back ++ data.drop n)) = data := by
    rw [← hparts] at hdata
    simpa only [List.append_assoc] using hdata
  have hdrop := congrArg (List.drop front.length) hall
  rw [List.drop_left] at hdrop
  exact hleast front.length (by omega) ⟨back ++ data.drop n, hdrop⟩

end Header

namespace Session

/-- The session behind a header line. -/
def behindHeader (header : Header) (stream : List UInt8) (base : Nat) : Session where
  header := header
  cursor := (Cursor.atStart stream header.order base).moveTo header.length
  declared := none
  level := 0
  operatorCount := 0
  phase := .scanning

/-- A session starts on a stream whose header reads. -/
theorem start_eq_ok_iff {stream : List UInt8} {base : Nat} {s : Session} :
    start stream base = .ok s ↔
      ∃ header, Header.read stream base = .ok header ∧ s = behindHeader header stream base := by
  unfold start
  cases hread : Header.read stream base with
  | error fault => simp [bind, Except.bind]
  | ok header =>
    simp only [bind, Except.bind, pure, Except.pure, Except.ok.injEq]
    constructor
    · intro h
      exact ⟨header, rfl, h.symm⟩
    · intro h
      obtain ⟨found, rfl, hs⟩ := h
      exact hs.symm

/-- A file opens with the header of the stream that is found in it. -/
theorem openFile_eq_ok_iff_read {data : List UInt8} {s : Session} : openFile data = .ok s ↔
    ∃ n header, Header.locate data = .ok n ∧ Header.read (data.drop n) n = .ok header ∧
      s = behindHeader header (data.drop n) n := by
  unfold openFile start
  cases hlocate : Header.locate data with
  | error fault => simp [bind, Except.bind]
  | ok n =>
    cases hread : Header.read (data.drop n) n with
    | error fault => simp [bind, Except.bind, hread]
    | ok header =>
      simp only [bind, Except.bind, hread, pure, Except.pure, Except.ok.injEq]
      constructor
      · intro h
        exact ⟨n, header, rfl, hread, h.symm⟩
      · intro h
        obtain ⟨m, found, hm, hfound, hs⟩ := h
        rw [← hm, hread] at hfound
        rw [hs, ← hm, ← Except.ok.inj hfound]
        rfl

/-- A file opens exactly where a header line follows bytes without the name of the language. -/
theorem openFile_eq_ok_iff {data : List UInt8} {s : Session} : openFile data = .ok s ↔
    ∃ (preamble : List UInt8) (w : WrittenHeader) (rest : List UInt8),
      data = preamble ++ (w.bytes ++ rest) ∧ ¬ Header.languageMarker <:+: preamble ∧
      s = behindHeader w.header (w.bytes ++ rest) preamble.length := by
  rw [openFile_eq_ok_iff_read]
  constructor
  · intro h
    obtain ⟨n, header, hlocate, hread, hs⟩ := h
    obtain ⟨hname, hleast⟩ := Header.locate_eq_ok_iff.1 hlocate
    have hlength := hname.length_le
    have hmarker : Header.languageMarker.length = 11 := rfl
    rw [List.length_drop, hmarker] at hlength
    have htake : (data.take n).length = n := by
      rw [List.length_take]
      omega
    have hbehind : Header.languageMarker <+: (data.drop n).drop 1 := by
      rwa [List.drop_drop]
    obtain ⟨w, rest, rfl, hstream⟩ := Header.exists_written_of_read hbehind hread
    refine ⟨data.take n, w, rest, ?_, Header.not_infix_take hleast, ?_⟩
    · rw [← hstream, List.take_append_drop]
    · rw [htake, hs, hstream]
  · intro h
    obtain ⟨preamble, w, rest, hdata, hpreamble, hs⟩ := h
    have hstream : data.drop preamble.length = w.bytes ++ rest := by
      rw [hdata, List.drop_left]
    refine ⟨preamble.length, w.header, Header.locate_eq_ok_iff.2 ⟨?_, fun j hj => ?_⟩, ?_, ?_⟩
    · rw [← List.drop_drop, hstream]
      exact ⟨w.fields ++ [0x0A] ++ rest, by simp [WrittenHeader.bytes]⟩
    · rw [hdata]
      exact Header.not_prefix_drop hpreamble hj
    · rw [hstream]
      exact Header.read_of_written w rest _
    · rw [hstream]
      exact hs

/-- The session behind a header line reads what follows the line. -/
theorem cursor_behindHeader (w : WrittenHeader) (rest : List UInt8) (base : Nat) :
    (behindHeader w.header (w.bytes ++ rest) base).cursor.rest = rest ∧
    (behindHeader w.header (w.bytes ++ rest) base).fileOffset = base + w.bytes.length ∧
    (behindHeader w.header (w.bytes ++ rest) base).cursor.order = w.order := by
  obtain ⟨horder, hlength⟩ := w.order_length_header
  refine ⟨?_, ?_, horder⟩
  · change (w.bytes ++ rest).drop w.header.length = rest
    rw [hlength, List.drop_left]
  · change base + min w.header.length (w.bytes ++ rest).length = _
    rw [hlength, List.length_append]
    omega

end Session

end PclXl
