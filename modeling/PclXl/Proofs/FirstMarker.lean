import PclXl.Proofs.Opening

/-!
# What the first marker decides

A file is searched for the bytes that precede the fields of a header, and the first place where they
start decides how it opens. In front of it must stand the mark of a byte order, and behind it a line
feed. The rest of the line has no say: whatever its bytes are, a line that is found in this way also
reads as a header.
-/

namespace PclXl

open Cursor Text

/-- The first place of a byte splits the bytes in front of it from those behind it. -/
theorem eq_append_cons_of_first {bs : List UInt8} {b : UInt8} {k : Nat} (hb : bs[k]? = some b)
    (hleast : ∀ i < k, bs[i]? ≠ some b) :
    bs = bs.take k ++ b :: bs.drop (k + 1) ∧ b ∉ bs.take k := by
  obtain ⟨hk, hat⟩ := List.getElem?_eq_some_iff.1 hb
  refine ⟨?_, fun hmem => ?_⟩
  · have hdrop : bs.drop k = bs[k] :: bs.drop (k + 1) := List.drop_eq_getElem_cons hk
    rw [← hat, ← hdrop, List.take_append_drop]
  · obtain ⟨i, hi, hin⟩ := List.getElem_of_mem hmem
    rw [List.length_take] at hi
    rw [List.getElem_take] at hin
    exact hleast i (by omega) (List.getElem?_eq_some_iff.2 ⟨by omega, hin⟩)

namespace Header

/-- The marker of the language starts at a place and at none before. -/
structure FirstAt (data : List UInt8) (m : Nat) : Prop where
  /-- It starts there. -/
  starts : languageMarker <+: data.drop m
  /-- It starts nowhere before. -/
  least : ∀ j < m, ¬ languageMarker <+: data.drop j

/-- The marker takes up eleven bytes of the file. -/
theorem FirstAt.add_le {data : List UInt8} {m : Nat} (h : FirstAt data m) :
    m + 11 ≤ data.length := by
  have hlength := h.starts.length_le
  have hmarker : languageMarker.length = 11 := rfl
  rw [List.length_drop, hmarker] at hlength
  omega

/-- The search finds no stream exactly where the marker starts nowhere. -/
theorem locate_eq_missingHeader_iff {data : List UInt8} :
    locate data = .error .missingHeader ↔ ∀ m, ¬ languageMarker <+: data.drop m := by
  have hnone : Bytes.firstWithin? languageMarker data.length data = none ↔
      ∀ m, ¬ languageMarker <+: data.drop m := by
    rw [Bytes.firstWithin?_eq_none_iff]
    constructor
    · intro h m hstarts
      have hlength := hstarts.length_le
      have hmarker : languageMarker.length = 11 := rfl
      rw [List.length_drop, hmarker] at hlength
      exact h m (by omega) (by omega) hstarts
    · intro h m _ _
      exact h m
  rw [← hnone]
  unfold locate
  cases Bytes.firstWithin? languageMarker data.length data with
  | none => simp
  | some m =>
    cases m with
    | zero => simp
    | succ n => simp

/-- No mark can stand in front of a marker at the start of a file. -/
theorem FirstAt.locate_zero {data : List UInt8} (h : FirstAt data 0) :
    locate data = .error (.unsupportedBinding 0 0x20) := by
  have hle := h.add_le
  have hsearch : Bytes.firstWithin? languageMarker data.length data = some 0 :=
    Bytes.firstWithin?_eq_some_iff.2 ⟨by omega, by omega, h.starts, h.least⟩
  unfold locate
  rw [hsearch]

/-- The stream starts one byte in front of the first marker. -/
theorem FirstAt.locate_succ {data : List UInt8} {n : Nat} (h : FirstAt data (n + 1)) :
    locate data = .ok n :=
  locate_eq_ok_iff.2 ⟨h.starts, fun j hj => h.least j (by omega)⟩

/-- A byte that marks no order is no start of a header. -/
theorem read_of_noMark {mark : UInt8} (h : ByteOrder.ofMark? mark = none) (tail : List UInt8)
    (base : Nat) : read (mark :: tail) base = .error (.unsupportedBinding base mark) := by
  unfold read
  dsimp only
  rw [h]

/-- A header that no line feed ends lacks a byte at the end of the stream. -/
theorem read_of_noLineFeed {tail : List UInt8} (h : (0x0A : UInt8) ∉ tail) (order : ByteOrder)
    (base : Nat) : read (order.mark :: tail) base =
      .error (.endOfStream (base + (order.mark :: tail).length) 1) := by
  have hmark : ByteOrder.ofMark? order.mark = some order := ByteOrder.ofMark?_eq_some_iff.2 rfl
  have hother : ∀ b ∈ tail, (b != 0x0A) = true := by
    intro b hb
    have hne : b ≠ 0x0A := fun heq => h (heq ▸ hb)
    simpa using hne
  have happend : (tail ++ []).takeWhile (· != 0x0A) = tail ++ [].takeWhile (· != 0x0A) :=
    List.takeWhile_append_of_pos hother
  have hall : tail.takeWhile (· != 0x0A) = tail := by simpa using happend
  unfold read
  dsimp only
  rw [hmark, hall]
  dsimp only
  rw [if_pos rfl]

/-- The line of a stream that was found holds the name of the language. -/
theorem read_ne_missingHeader {data : List UInt8} {n : Nat} (h : locate data = .ok n) :
    read (data.drop n) n ≠ .error .missingHeader := by
  have hstarts := (locate_eq_ok_iff.1 h).1
  cases hstream : data.drop n with
  | nil =>
    rw [← List.drop_drop, hstream] at hstarts
    exact absurd hstarts.length_le (by decide)
  | cons mark tail =>
    rw [← List.drop_drop, hstream] at hstarts
    cases hmark : ByteOrder.ofMark? mark with
    | none =>
      rw [read_of_noMark hmark]
      simp
    | some order =>
      rw [ByteOrder.ofMark?_eq_some_iff.1 hmark]
      by_cases hfeed : (0x0A : UInt8) ∈ tail
      · have hname : order.mark :: languageMarker <+: order.mark :: tail :=
          List.cons_prefix_cons.2 ⟨rfl, hstarts⟩
        obtain ⟨w, rest, hw⟩ := exists_written_of_name hname (List.mem_cons_of_mem _ hfeed)
        rw [hw, read_of_written]
        simp
      · rw [read_of_noLineFeed hfeed]
        simp

end Header

namespace Session

open Header

variable {data : List UInt8} {n : Nat}

/-- What a session is like that was opened on a stream in an order, and what reads from it starts at
a file offset. -/
structure OpenedAt (s : Session) (order : ByteOrder) (offset : Nat) : Prop where
  /-- The header tells the order. -/
  header_eq : s.header.order = order
  /-- Numbers are read in that order. -/
  order_eq : s.cursor.order = order
  /-- No graphics state is saved. -/
  level_eq : s.level = 0
  /-- No operator was counted. -/
  count_eq : s.operatorCount = 0
  /-- No operator was begun. -/
  unfinished_eq : s.unfinished = []
  /-- The session goes on. -/
  goesOn : s.isFinished = false
  /-- The first byte that is read has the offset. -/
  fileOffset_eq : s.fileOffset = offset

/-- A file does not open where its header does not read. -/
theorem openFile_of_read_error {fault : Fault} (hlocate : locate data = .ok n)
    (hread : read (data.drop n) n = .error fault) : openFile data = .error fault := by
  unfold openFile start
  simp only [hlocate, bind, Except.bind, hread]

/-- A file does not open where no stream is found. -/
theorem openFile_of_locate_error {fault : Fault} (hlocate : locate data = .error fault) :
    openFile data = .error fault := by
  unfold openFile
  rw [hlocate]
  rfl

/-- The stream in a file starts with the byte in front of the first marker. -/
theorem drop_eq_cons_of_mark {mark : UInt8} (hmark : data[n]? = some mark) :
    data.drop n = mark :: data.drop (n + 1) := by
  obtain ⟨hn, hat⟩ := List.getElem?_eq_some_iff.1 hmark
  rw [← hat]
  exact List.drop_eq_getElem_cons hn

/-- Where a marker starts there is no line feed. -/
theorem ne_lineFeed_of_starts {m : Nat} (hstarts : languageMarker <+: data.drop m) :
    data[m]? ≠ some 0x0A := by
  obtain ⟨tail, htail⟩ := hstarts
  have hfirst : (data.drop m)[0]? = some 0x20 := by
    rw [← htail]
    rfl
  rw [List.getElem?_drop, Nat.add_zero] at hfirst
  rw [hfirst]
  decide

/-- A file lacks a line feed where none follows its first marker. -/
theorem openFile_of_noLineFeed {order : ByteOrder} (hfirst : FirstAt data (n + 1))
    (hmark : data[n]? = some order.mark) (hnone : ∀ j, n + 1 < j → data[j]? ≠ some 0x0A) :
    openFile data = .error (.endOfStream data.length 1) := by
  have hle := hfirst.add_le
  have hfeed : (0x0A : UInt8) ∉ data.drop (n + 1) := by
    intro hmem
    obtain ⟨i, hi⟩ := List.mem_iff_getElem?.1 hmem
    rw [List.getElem?_drop] at hi
    by_cases hzero : i = 0
    · rw [hzero] at hi
      exact ne_lineFeed_of_starts hfirst.starts hi
    · exact hnone _ (by omega) hi
  have hread := read_of_noLineFeed hfeed order n
  have hend : n + (order.mark :: data.drop (n + 1)).length = data.length := by
    rw [List.length_cons, List.length_drop]
    omega
  rw [hend, ← drop_eq_cons_of_mark hmark] at hread
  exact openFile_of_read_error hfirst.locate_succ hread

/-- A file opens where a line feed follows its first marker, whatever stands between them. The
session reads on behind that line feed: the marker holds none itself. -/
theorem exists_openedAt_of_lineFeed {order : ByteOrder} {j : Nat} (hfirst : FirstAt data (n + 1))
    (hmark : data[n]? = some order.mark) (hj : n + 1 < j) (hfeed : data[j]? = some 0x0A)
    (hleast : ∀ i, n + 1 < i → i < j → data[i]? ≠ some 0x0A) :
    ∃ s, openFile data = .ok s ∧ s.OpenedAt order (j + 1) := by
  have hk : n + 1 + (j - (n + 1)) = j := by omega
  have hat : (data.drop (n + 1))[j - (n + 1)]? = some 0x0A := by
    rw [List.getElem?_drop, hk]
    exact hfeed
  have hbefore : ∀ i < j - (n + 1), (data.drop (n + 1))[i]? ≠ some 0x0A := by
    intro i hi
    rw [List.getElem?_drop]
    by_cases hzero : i = 0
    · rw [hzero]
      exact ne_lineFeed_of_starts hfirst.starts
    · exact hleast _ (by omega) (by omega)
  obtain ⟨hsplit, hline⟩ := eq_append_cons_of_first hat hbefore
  have hstarts := hfirst.starts
  rw [hsplit] at hstarts
  obtain ⟨fields, hfields⟩ := prefix_of_notMem hstarts (by decide)
  have hlength := congrArg List.length hfields
  have hmarker : languageMarker.length = 11 := rfl
  have hwhole := (List.getElem?_eq_some_iff.1 hfeed).1
  rw [List.length_append, List.length_take, List.length_drop, hmarker] at hlength
  rw [← hfields] at hsplit hline
  obtain ⟨w, hw, rfl⟩ := exists_written_of_fields order
    fun hmem => hline (List.mem_append_right _ hmem)
  obtain ⟨rest, hrest⟩ : ∃ rest, data.drop (n + 1) = (languageMarker ++ w.fields) ++ 0x0A :: rest :=
    ⟨_, hsplit⟩
  have hstream : data.drop n = w.bytes ++ rest := by
    rw [drop_eq_cons_of_mark hmark, hrest, ← hw]
    simp only [WrittenHeader.bytes, List.cons_append, List.append_assoc, List.nil_append]
  have hopen : openFile data = .ok (behindHeader w.header (w.bytes ++ rest) n) := by
    rw [openFile_eq_ok_iff_read]
    refine ⟨n, w.header, hfirst.locate_succ, ?_, ?_⟩
    · rw [hstream]
      exact read_of_written w rest n
    · rw [hstream]
  obtain ⟨-, hplace, hcursor⟩ := cursor_behindHeader w rest n
  refine ⟨_, hopen, w.order_length_header.1.trans hw, hcursor.trans hw, rfl, rfl, rfl, rfl, ?_⟩
  rw [hplace, w.length_bytes]
  omega

/-- How a file opens is decided by the first place of the marker. Without one there is no stream.
One at the start has no byte in front of it, and one behind a byte that marks no order is refused with
that byte. If no line feed follows, a byte is lacking at the end of the file; otherwise the file
opens in the order of the mark, and what is read starts behind the first line feed that follows. In
particular the line of a stream that was found never lacks the name of the language. -/
theorem opening_decided (data : List UInt8) :
    (openFile data = .error .missingHeader ↔ ∀ m, ¬ languageMarker <+: data.drop m) ∧
    (FirstAt data 0 → openFile data = .error (.unsupportedBinding 0 0x20)) ∧
    (∀ n mark, FirstAt data (n + 1) → data[n]? = some mark → mark ≠ 0x28 → mark ≠ 0x29 →
      openFile data = .error (.unsupportedBinding n mark)) ∧
    (∀ n (order : ByteOrder), FirstAt data (n + 1) → data[n]? = some order.mark →
      ((∀ j, n + 1 < j → data[j]? ≠ some 0x0A) →
        openFile data = .error (.endOfStream data.length 1)) ∧
      ∀ j, n + 1 < j → data[j]? = some 0x0A → (∀ i, n + 1 < i → i < j → data[i]? ≠ some 0x0A) →
        ∃ s, openFile data = .ok s ∧ s.OpenedAt order (j + 1)) ∧
    ∀ n, locate data = .ok n → read (data.drop n) n ≠ .error .missingHeader := by
  refine ⟨?_, fun hfirst => openFile_of_locate_error hfirst.locate_zero, ?_, ?_,
    fun n => read_ne_missingHeader⟩
  · rw [← locate_eq_missingHeader_iff]
    refine ⟨fun hopen => ?_, openFile_of_locate_error⟩
    cases hlocate : locate data with
    | error fault =>
      rw [openFile_of_locate_error hlocate] at hopen
      rw [Except.error.inj hopen]
    | ok n =>
      cases hread : read (data.drop n) n with
      | error fault =>
        rw [openFile_of_read_error hlocate hread] at hopen
        cases hopen
        exact absurd hread (read_ne_missingHeader hlocate)
      | ok header =>
        have hok := openFile_eq_ok_iff_read.2 ⟨n, header, hlocate, hread, rfl⟩
        rw [hopen] at hok
        cases hok
  · intro n mark hfirst hmark hlow hhigh
    have hnone : ByteOrder.ofMark? mark = none := (if_neg hlow).trans (if_neg hhigh)
    have hread := read_of_noMark hnone (data.drop (n + 1)) n
    rw [← drop_eq_cons_of_mark hmark] at hread
    exact openFile_of_read_error hfirst.locate_succ hread
  · intro n order hfirst hmark
    exact ⟨openFile_of_noLineFeed hfirst hmark,
      fun j hj hfeed hleast => exists_openedAt_of_lineFeed hfirst hmark hj hfeed hleast⟩

/-- A file with a line feed and a first mark in front of the marker of the language, whose header
line goes on with a byte that is no UTF-8 and a carriage return. -/
def strangeLine : List UInt8 :=
  [0x0A, 0x28, 0x29] ++ languageMarker ++ [0xFF, 0x0D, 0x0A, 0x41]

/-- The file opens at its last byte, in the order of the mark next to the marker. Without the line
feed a byte is lacking, without the mark the one before is refused, and without both bytes in front
of the marker there is none. -/
theorem opening_decided_strangeLine :
    (∃ s, openFile strangeLine = .ok s ∧ s.OpenedAt .highFirst 17) ∧
    openFile (strangeLine.take 16) = .error (.endOfStream 16 1) ∧
    openFile (strangeLine.drop 3) = .error (.unsupportedBinding 0 0x20) ∧
    openFile (strangeLine.take 1 ++ strangeLine.drop 3) = .error (.unsupportedBinding 0 0x0A) := by
  have hfirst : FirstAt strangeLine (2 + 1) := ⟨by decide, by decide⟩
  have hcut : FirstAt (strangeLine.take 16) (2 + 1) := ⟨by decide, by decide⟩
  have hbare : FirstAt (strangeLine.drop 3) 0 := ⟨by decide, by decide⟩
  have hfeed : FirstAt (strangeLine.take 1 ++ strangeLine.drop 3) (0 + 1) :=
    ⟨by decide, by decide⟩
  refine ⟨?_, ?_, ?_, ?_⟩
  · obtain ⟨-, -, -, hopens, -⟩ := opening_decided strangeLine
    refine (hopens 2 .highFirst hfirst rfl).2 16 (by decide) rfl fun i hlow hhigh => ?_
    have hall : ∀ i < 16, 3 < i → strangeLine[i]? ≠ some 0x0A := by decide
    exact hall i hhigh hlow
  · obtain ⟨-, -, -, hopens, -⟩ := opening_decided (strangeLine.take 16)
    refine (hopens 2 .highFirst hcut rfl).1 fun j hj => ?_
    have hall : ∀ j < 16, 3 < j → (strangeLine.take 16)[j]? ≠ some 0x0A := by decide
    by_cases hlong : j < 16
    · exact hall j hlong hj
    · have hend : (strangeLine.take 16)[j]? = none :=
        List.getElem?_eq_none (Nat.not_lt.1 hlong)
      rw [hend]
      decide
  · exact (opening_decided (strangeLine.drop 3)).2.1 hbare
  · exact (opening_decided (strangeLine.take 1 ++ strangeLine.drop 3)).2.2.1 0 0x0A hfeed rfl
      (by decide) (by decide)

end Session

end PclXl
