import Mathlib.Data.List.Basic
import PclXl.Listing.Layout

/-!
# Dumps read back

What a dump shows can be read from its text. A reader of rows knows nothing of bytes or chunks: it
takes the digits of the address, cells of three characters each, and what stands between the bars.
Every row that a dump writes is read as the row that it was made of, and the cells of all rows
together are the bytes that were dumped.
-/

namespace PclXl

open Text

namespace Text

/-- The value of a lower-case hexadecimal digit. -/
def hexDigit? (c : Char) : Option Nat :=
  if '0' ≤ c ∧ c ≤ '9' then some (c.toNat - 48)
  else if 'a' ≤ c ∧ c ≤ 'f' then some (c.toNat - 87)
  else none

/-- The number that hexadecimal digits stand for behind those of `n`. -/
def hexNumberFrom? (n : Nat) : List Char → Option Nat
  | [] => some n
  | c :: cs => (hexDigit? c).bind fun d => hexNumberFrom? (16 * n + d) cs

/-- The number that hexadecimal digits stand for. -/
def hexNumber? (cs : List Char) : Option Nat :=
  hexNumberFrom? 0 cs

/-- Digits may be read in two parts. -/
theorem hexNumberFrom?_append (n : Nat) (xs ys : List Char) : hexNumberFrom? n (xs ++ ys) =
    (hexNumberFrom? n xs).bind fun m => hexNumberFrom? m ys := by
  induction xs generalizing n with
  | nil => rfl
  | cons x xs ih =>
    rw [List.cons_append, hexNumberFrom?, hexNumberFrom?, Option.bind_assoc]
    exact congrArg _ (funext fun d => ih _)

/-- Only digits stand for numbers. -/
theorem isSome_hexDigit? {n m : Nat} {cs : List Char} (h : hexNumberFrom? n cs = some m) :
    ∀ c ∈ cs, (hexDigit? c).isSome = true := by
  induction cs generalizing n with
  | nil =>
    intro c hc
    cases hc
  | cons x xs ih =>
    rw [hexNumberFrom?] at h
    obtain ⟨d, hd, h⟩ := Option.bind_eq_some_iff.1 h
    intro c hc
    rcases List.mem_cons.1 hc with heq | hmem
    · rw [heq, hd]
      rfl
    · exact ih h c hmem

/-- The character of a digit has its value. -/
theorem hexDigit?_digitChar {d : Nat} (h : d < 16) : hexDigit? d.digitChar = some d := by
  have hall : ∀ d < 16, hexDigit? d.digitChar = some d := by decide
  exact hall d h

/-- The digits of a number are read as the number. -/
theorem hexNumberFrom?_toDigits (n : Nat) : hexNumberFrom? 0 (Nat.toDigits 16 n) = some n := by
  induction n using Nat.strongRecOn with
  | _ n ih =>
    rw [Nat.toDigits_eq_if (by decide)]
    split
    · rename_i hn
      rw [hexNumberFrom?, hexDigit?_digitChar hn]
      exact congrArg some (Nat.zero_add n)
    · rename_i hn
      have hlast : hexDigit? (n % 16).digitChar = some (n % 16) :=
        hexDigit?_digitChar (Nat.mod_lt _ (by decide))
      rw [hexNumberFrom?_append, ih _ (by omega), Option.bind_some, hexNumberFrom?, hlast]
      exact congrArg some (Nat.div_add_mod n 16)

/-- A numeral is read as its number, whatever it was filled up to. -/
theorem hexNumber?_hex (places n : Nat) : hexNumber? (hex places n).toList = some n := by
  have hzeros : ∀ k, hexNumberFrom? 0 (List.replicate k '0') = some 0 := by
    intro k
    induction k with
    | zero => rfl
    | succ k ih =>
      rw [List.replicate_succ, hexNumberFrom?]
      exact ih
  rw [toList_hex, List.leftpad, hexNumber?, hexNumberFrom?_append, hzeros, Option.bind_some,
    hexNumberFrom?_toDigits]

/-- A numeral has at least as many digits as there are places. -/
theorem le_length_hex (places n : Nat) : places ≤ (hex places n).toList.length := by
  rw [toList_hex, List.length_leftpad]
  exact Nat.le_max_left _ _

end Text

/-- A row of a dump as it is read. -/
structure DumpRow where
  /-- The file offset of its first byte. -/
  address : Nat
  /-- The bytes of its cells; some may be blank. -/
  cells : List (Option UInt8)
  /-- What stands between the bars. -/
  shown : List Char
  deriving DecidableEq

namespace DumpRow

/-- The text of a cell. -/
def cellText : Option UInt8 → String
  | none => HexDump.blankCell
  | some b => HexDump.cell b

/-- The line of a row. -/
def line (indent : String) (r : DumpRow) : String :=
  indent ++ hex 8 r.address ++ ": " ++ String.join (r.cells.map cellText) ++ "|" ++
    String.ofList r.shown ++ "|"

/-- The byte of a cell of three characters, or none where it is blank. -/
def cell? (cs : List Char) : Option (Option UInt8) :=
  if cs = [' ', ' ', ' '] then some none
  else if cs.drop 2 = [' '] then (hexNumber? (cs.take 2)).map fun n => some (UInt8.ofNat n)
  else none

/-- The cells of a row of the given width. -/
def cells? : Nat → List Char → Option (List (Option UInt8))
  | 0, cs => if cs = [] then some [] else none
  | width + 1, cs => (cell? (cs.take 3)).bind fun cell => (cells? width (cs.drop 3)).map (cell :: ·)

/-- Read a line as a row of the given width behind so many spaces. -/
def ofLine? (indent width : Nat) (line : String) : Option DumpRow :=
  let cs := line.toList
  let digits := (cs.drop indent).takeWhile fun c => (hexDigit? c).isSome
  let body := cs.drop (indent + digits.length)
  let ascii := body.drop (2 + 3 * width)
  if cs.take indent = List.replicate indent ' ' ∧ 8 ≤ digits.length ∧ body.take 2 = [':', ' '] ∧
      ascii.head? = some '|' ∧ ascii.getLast? = some '|' ∧ 2 ≤ ascii.length then
    (hexNumber? digits).bind fun address =>
      (cells? width ((body.drop 2).take (3 * width))).map fun cells =>
        ⟨address, cells, (ascii.drop 1).dropLast⟩
  else none

/-- Every cell is three characters wide. -/
theorem length_cellText (cell : Option UInt8) : (cellText cell).toList.length = 3 := by
  cases cell with
  | none => rfl
  | some b =>
    rw [cellText, HexDump.cell, String.toList_append, List.length_append, length_hex_byte]
    rfl

/-- A cell is read as the byte that it was written for. -/
theorem cell?_cellText (cell : Option UInt8) : cell? (cellText cell).toList = some cell := by
  cases cell with
  | none => rfl
  | some b =>
    have hread := hexNumber?_hex 2 b.toNat
    have hlength := length_hex_byte b
    have htext : (cellText (some b)).toList = (hex 2 b.toNat).toList ++ [' '] :=
      String.toList_append
    have hdigits := isSome_hexDigit? hread
    have hnot : (hex 2 b.toNat).toList ++ [' '] ≠ [' ', ' ', ' '] := by
      intro heq
      have hfront : (hex 2 b.toNat).toList = [' ', ' '] := List.append_cancel_right heq
      have hblank := hdigits ' ' (by rw [hfront]; exact List.mem_cons_self)
      exact absurd hblank (by decide)
    unfold cell?
    rw [htext, if_neg hnot, if_pos (List.drop_left' hlength), List.take_left' hlength, hread]
    simp

/-- Cells are read one after the other. -/
theorem cells?_flatMap (cells : List (Option UInt8)) :
    cells? cells.length (cells.flatMap fun cell => (cellText cell).toList) = some cells := by
  induction cells with
  | nil => rfl
  | cons cell cells ih =>
    rw [List.length_cons, cells?, List.flatMap_cons, List.take_left' (length_cellText cell),
      List.drop_left' (length_cellText cell), cell?_cellText, ih]
    rfl

/-- All cells of a row together have three characters for each of them. -/
theorem length_flatMap_cellText (cells : List (Option UInt8)) :
    (cells.flatMap fun cell => (cellText cell).toList).length = 3 * cells.length := by
  induction cells with
  | nil => rfl
  | cons cell cells ih =>
    rw [List.flatMap_cons, List.length_append, length_cellText, ih, List.length_cons]
    omega

/-- The characters of the line of a row. -/
theorem toList_line (indent : Nat) (r : DumpRow) : (r.line (spaces indent)).toList =
    List.replicate indent ' ' ++ ((hex 8 r.address).toList ++ ([':', ' '] ++
      ((r.cells.flatMap fun cell => (cellText cell).toList) ++ ('|' :: (r.shown ++ ['|']))))) := by
  have hcells : (String.join (r.cells.map cellText)).toList =
      r.cells.flatMap fun cell => (cellText cell).toList := by
    rw [String.toList_join, List.flatMap_map]
  have hindent : (spaces indent).toList = List.replicate indent ' ' := String.toList_ofList
  simp only [line, String.toList_append, hcells, hindent, String.toList_ofList, List.append_assoc]
  rfl

/-- A row is read from its line. -/
theorem ofLine?_line (indent : Nat) (r : DumpRow) :
    ofLine? indent r.cells.length (r.line (spaces indent)) = some r := by
  have hread := hexNumber?_hex 8 r.address
  have hplaces := le_length_hex 8 r.address
  have hlength := length_flatMap_cellText r.cells
  have hfront : ∀ cs, (List.replicate indent ' ' ++ cs).drop indent = cs :=
    fun cs => List.drop_left' List.length_replicate
  have hdigits : ∀ cs, ((hex 8 r.address).toList ++ ([':', ' '] ++ cs)).takeWhile
      (fun c => (hexDigit? c).isSome) = (hex 8 r.address).toList := by
    intro cs
    rw [List.takeWhile_append_of_pos (isSome_hexDigit? hread), List.cons_append,
      List.takeWhile_cons_of_neg (by decide), List.append_nil]
  unfold ofLine?
  rw [toList_line]
  dsimp only
  rw [hfront, hdigits, List.take_left' List.length_replicate, ← List.drop_drop, hfront,
    List.drop_left, ← List.drop_drop, List.take_left' (by rfl), List.drop_left' (by rfl), ← hlength,
    List.drop_left, List.take_left, if_pos, hread, cells?_flatMap]
  · simp
  · refine ⟨rfl, hplaces, rfl, rfl, ?_, ?_⟩
    · rw [← List.cons_append]
      exact List.getLast?_concat
    · simp

/-- How many hexadecimal digits a text has behind the spaces that it starts with. -/
def leadingDigits (cs : List Char) : Nat :=
  ((cs.dropWhile (· == ' ')).takeWhile fun c => (hexDigit? c).isSome).length

/-- Spaces in front do not count. -/
theorem leadingDigits_replicate_append (n : Nat) (cs : List Char) :
    leadingDigits (List.replicate n ' ' ++ cs) = leadingDigits cs := by
  unfold leadingDigits
  rw [List.dropWhile_append_of_pos fun c hc => by rw [List.eq_of_mem_replicate hc]; rfl]

/-- A text that starts with any other character has no digits there, whatever follows it. -/
theorem leadingDigits_append {text : String} {c : Char} {cs : List Char}
    (htext : text.toList = c :: cs) (hc : hexDigit? c = none) (hspace : c ≠ ' ') (rest : String) :
    leadingDigits (text ++ rest).toList = 0 := by
  unfold leadingDigits
  rw [String.toList_append, htext, List.cons_append,
    List.dropWhile_cons_of_neg (by simpa using hspace),
    List.takeWhile_cons_of_neg (by rw [hc]; exact Bool.false_ne_true)]
  rfl

/-- A line that is read as a row starts with the spaces that were expected. Behind them stand the
digits of the address, of which there are at least eight. -/
theorem exists_of_ofLine? {indent width : Nat} {line : String} {r : DumpRow}
    (h : ofLine? indent width line = some r) : ∃ c cs, c ≠ ' ' ∧
      line.toList = List.replicate indent ' ' ++ c :: cs ∧
      8 ≤ ((c :: cs).takeWhile fun c => (hexDigit? c).isSome).length := by
  unfold ofLine? at h
  dsimp only at h
  split at h
  · rename_i hrow
    obtain ⟨hspaces, hdigits, -⟩ := hrow
    have hline : line.toList = List.replicate indent ' ' ++ line.toList.drop indent := by
      rw [← hspaces, List.take_append_drop]
    cases hrest : line.toList.drop indent with
    | nil =>
      rw [hrest] at hdigits
      cases hdigits
    | cons c cs =>
      rw [hrest] at hdigits hline
      refine ⟨c, cs, fun hspace => ?_, hline, hdigits⟩
      have hnone : (c :: cs).takeWhile (fun c => (hexDigit? c).isSome) = [] :=
        List.takeWhile_cons_of_neg (by rw [hspace]; decide)
      rw [hnone] at hdigits
      cases hdigits
  · cases h

/-- So it is indented as it was expected, and has the digits of an address. -/
theorem of_ofLine?_eq_some {indent width : Nat} {line : String} {r : DumpRow}
    (h : ofLine? indent width line = some r) :
    8 ≤ leadingDigits line.toList ∧ (line.toList.takeWhile (· == ' ')).length = indent := by
  obtain ⟨c, cs, hspace, hline, hdigits⟩ := exists_of_ofLine? h
  have hdrop : (c :: cs).dropWhile (· == ' ') = c :: cs :=
    List.dropWhile_cons_of_neg (by simpa using hspace)
  have htake : (c :: cs).takeWhile (· == ' ') = [] :=
    List.takeWhile_cons_of_neg (by simpa using hspace)
  rw [hline, leadingDigits_replicate_append, leadingDigits, hdrop]
  refine ⟨hdigits, ?_⟩
  rw [List.takeWhile_append_of_pos fun c hc => by rw [List.eq_of_mem_replicate hc]; rfl, htake,
    List.append_nil, List.length_replicate]

/-- A line with fewer digits than an address has is no row. -/
theorem ofLine?_eq_none {line : String} (h : leadingDigits line.toList < 8) (indent width : Nat) :
    ofLine? indent width line = none :=
  Option.eq_none_iff_forall_ne_some.2 fun _ hread =>
    absurd (of_ofLine?_eq_some hread).1 (Nat.not_le_of_lt h)

/-- The line of a row is indented by the spaces in front of it. -/
theorem length_takeWhile_line (indent : Nat) (r : DumpRow) :
    ((r.line (spaces indent)).toList.takeWhile (· == ' ')).length = indent :=
  (of_ofLine?_eq_some (ofLine?_line indent r)).2

end DumpRow

namespace Bytes

variable {n : Nat}

/-- The first chunk is taken from the start of the bytes. -/
theorem chunks_of_ne_nil (hn : 0 < n) {bs : List UInt8} (h : bs ≠ []) :
    chunks n bs = bs.take n :: chunks n (bs.drop n) := by
  obtain ⟨m, rfl⟩ := Nat.exists_eq_add_of_le' hn
  cases bs with
  | nil => exact absurd rfl h
  | cons b bs =>
    rw [chunks_cons, Nat.add_sub_cancel, List.take_succ_cons, List.drop_succ_cons]

/-- The chunks are the bytes from the multiples of the length on. -/
theorem getElem?_chunks (hn : 0 < n) (bs : List UInt8) (i : Nat) : (chunks n bs)[i]? =
    if i * n < bs.length then some ((bs.drop (i * n)).take n) else none := by
  induction i generalizing bs with
  | zero =>
    cases bs with
    | nil => rw [chunks_nil]; simp
    | cons b bs =>
      rw [chunks_of_ne_nil hn (List.cons_ne_nil b bs), Nat.zero_mul,
        if_pos (by rw [List.length_cons]; omega)]
      rfl
  | succ i ih =>
    cases bs with
    | nil => rw [chunks_nil]; simp
    | cons b bs =>
      have hplace : (i + 1) * n = n + i * n := by rw [Nat.succ_mul, Nat.add_comm]
      rw [chunks_of_ne_nil hn (List.cons_ne_nil b bs), List.getElem?_cons_succ, ih, List.length_drop,
        List.drop_drop, hplace]
      by_cases hlt : n + i * n < (b :: bs).length
      · rw [if_pos hlt, if_pos (by omega)]
      · rw [if_neg hlt, if_neg (by omega)]

/-- As many chunks as are needed, rounded up. -/
theorem length_chunks (hn : 0 < n) (bs : List UInt8) :
    (chunks n bs).length = (bs.length + n - 1) / n := by
  induction hlength : bs.length using Nat.strongRecOn generalizing bs with
  | _ length ih =>
    subst hlength
    cases bs with
    | nil =>
      rw [chunks_nil]
      change 0 = (0 + n - 1) / n
      rw [Nat.zero_add, Nat.div_eq_of_lt (Nat.sub_lt hn Nat.one_pos)]
    | cons b bs =>
      have hless : ((b :: bs).drop n).length < (b :: bs).length := by
        rw [List.length_drop, List.length_cons]
        omega
      have hmore : (b :: bs).length + n - 1 = (b :: bs).length - 1 + n := by
        rw [List.length_cons]
        omega
      rw [chunks_of_ne_nil hn (List.cons_ne_nil b bs), List.length_cons, ih _ hless _ rfl, hmore,
        Nat.add_div_right _ hn, List.length_drop]
      by_cases hle : n ≤ (b :: bs).length
      · have hrest : (b :: bs).length - n + n - 1 = (b :: bs).length - 1 := by omega
        rw [hrest]
      · have hrest : (b :: bs).length - n + n - 1 = n - 1 := by omega
        rw [hrest, Nat.div_eq_of_lt (Nat.sub_lt hn Nat.one_pos), Nat.div_eq_of_lt (by omega)]

end Bytes

/-- The row for a chunk of bytes from an address on. -/
def DumpRow.ofChunk (width address : Nat) (chunk : List UInt8) : DumpRow where
  address := address
  cells := chunk.map some ++ List.replicate (width - chunk.length) none
  shown := chunk.map HexDump.shown

/-- The cells that are not blank are the bytes of the chunk. -/
theorem DumpRow.filterMap_cells_ofChunk (width address : Nat) (chunk : List UInt8) :
    (ofChunk width address chunk).cells.filterMap id = chunk := by
  simp [ofChunk]

/-- The printable bytes are those from the space up to the tilde. -/
theorem isPrintable_iff {b : UInt8} : isPrintable b = true ↔ 0x20 ≤ b ∧ b ≤ 0x7E := by
  unfold isPrintable
  rw [Bool.and_eq_true, decide_eq_true_iff, decide_eq_true_iff, UInt8.lt_iff_toNat_lt,
    UInt8.le_iff_toNat_le, UInt8.le_iff_toNat_le]
  exact and_congr_right fun _ => Nat.lt_succ_iff

/-- They are shown as themselves. -/
theorem HexDump.shown_eq (b : UInt8) :
    shown b = if 0x20 ≤ b ∧ b ≤ 0x7E then Char.ofNat b.toNat else '.' := by
  unfold shown
  by_cases h : isPrintable b = true
  · rw [if_pos h, if_pos (isPrintable_iff.1 h)]
  · rw [if_neg h, if_neg fun h' => h (isPrintable_iff.2 h')]

namespace Options

variable (o : Options)

/-- How many bytes a row of a dump has at most. -/
def rowWidth : Nat :=
  max 1 o.dumpWidth

/-- How many of some bytes are dumped. -/
def dumpedLength (bytes : List UInt8) : Nat :=
  min bytes.length (o.maxDumpBytes.getD bytes.length)

/-- The rows of a dump. -/
def dumpRows (bytes : List UInt8) (offset : Nat) : List DumpRow :=
  (Bytes.chunks o.rowWidth (bytes.take (o.dumpedLength bytes))).mapIdx fun i chunk =>
    .ofChunk o.rowWidth (offset + i * o.rowWidth) chunk

/-- What a dump of bytes from a file offset on shows, row by row. -/
structure Dumps (bytes : List UInt8) (offset : Nat) (level : Int) (rows : List DumpRow) : Prop where
  /-- The text consists of the lines of the rows, and of one more exactly where bytes are left out. -/
  text_eq : o.hexDump bytes offset level = unlines (rows.map (DumpRow.line (o.indent level)) ++
    if bytes.length - o.dumpedLength bytes = 0 then []
    else [o.indent level ++ "... " ++ decimal (bytes.length - o.dumpedLength bytes) ++
      " more bytes"])
  /-- There are as many rows as the dumped bytes fill, the last one perhaps in part. -/
  length_eq : rows.length = (o.dumpedLength bytes + o.rowWidth - 1) / o.rowWidth
  /-- Each row shows the file offset of its first byte, which is one of those that are dumped. -/
  address_eq : ∀ i r, rows[i]? = some r →
    r.address = offset + i * o.rowWidth ∧ r.address < offset + o.dumpedLength bytes
  /-- Every row has as many cells. -/
  width_eq : ∀ r ∈ rows, r.cells.length = o.rowWidth
  /-- The cells that are not blank are the dumped bytes in order. -/
  bytes_eq : (rows.flatMap (·.cells)).filterMap id = bytes.take (o.dumpedLength bytes)
  /-- Only the last row has blank cells. -/
  blank : ∀ i r, rows[i]? = some r → none ∈ r.cells → i + 1 = rows.length
  /-- They stand behind the others. -/
  cells_eq : ∀ r ∈ rows, r.cells = (r.cells.filterMap id).map some ++
    List.replicate (o.rowWidth - (r.cells.filterMap id).length) none
  /-- Between the bars stands each byte that is a printable character, and a dot for any other. -/
  shown_eq : ∀ r ∈ rows, r.shown = (r.cells.filterMap id).map fun b =>
    if 0x20 ≤ b ∧ b ≤ 0x7E then Char.ofNat b.toNat else '.'
  /-- The rows are those that are read from their lines. -/
  read_eq : ∀ r ∈ rows, DumpRow.ofLine? (level.toNat * o.indentWidth) o.rowWidth
    (r.line (o.indent level)) = some r

variable {o : Options}

/-- A row is written with the bytes of its chunk and blank cells behind them. -/
theorem row_eq_line (indent : String) (width address : Nat) (chunk : List UInt8) :
    HexDump.row indent width address chunk =
      (DumpRow.ofChunk width address chunk).line indent := by
  have hcells : ((DumpRow.ofChunk width address chunk).cells.map DumpRow.cellText) =
      chunk.map HexDump.cell ++ List.replicate (width - chunk.length) HexDump.blankCell := by
    rw [DumpRow.ofChunk, List.map_append, List.map_map, List.map_replicate]
    rfl
  unfold DumpRow.line HexDump.row
  rw [hcells, String.join_append, ← String.append_assoc]
  rfl

/-- The lines of a dump are those of its rows, and one more where bytes are left out. -/
theorem lines_eq (bytes : List UInt8) (offset : Nat) (level : Int) :
    HexDump.lines o bytes offset level =
      (o.dumpRows bytes offset).map (DumpRow.line (o.indent level)) ++
        if bytes.length - o.dumpedLength bytes = 0 then []
        else [o.indent level ++ "... " ++ decimal (bytes.length - o.dumpedLength bytes) ++
          " more bytes"] := by
  have hlength : (bytes.take (o.dumpedLength bytes)).length = o.dumpedLength bytes :=
    List.length_take_of_le (Nat.min_le_left _ _)
  have hlines : HexDump.lines o bytes offset level =
      HexDump.rows (o.indent level) o.rowWidth offset (bytes.take (o.dumpedLength bytes)) ++
        if bytes.length - (bytes.take (o.dumpedLength bytes)).length = 0 then []
        else [o.indent level ++ "... " ++
          decimal (bytes.length - (bytes.take (o.dumpedLength bytes)).length) ++ " more bytes"] := by
    unfold HexDump.lines rowWidth dumpedLength
    cases o.maxDumpBytes with
    | none => rw [Option.getD_none, Nat.min_self, List.take_length]
    | some limit => rw [Option.getD_some, Nat.min_comm, ← List.take_eq_take_min]
  have hrows : HexDump.rows (o.indent level) o.rowWidth offset (bytes.take (o.dumpedLength bytes)) =
      (o.dumpRows bytes offset).map (DumpRow.line (o.indent level)) := by
    refine List.ext_getElem? fun i => ?_
    simp only [HexDump.rows, dumpRows, List.getElem?_map, List.getElem?_mapIdx, Option.map_map,
      row_eq_line]
    rfl
  rw [hlines, hlength, hrows]

/-- The rows are those for the bytes from the multiples of the width on. -/
theorem exists_of_dumpRows {bytes : List UInt8} {offset i : Nat} {r : DumpRow}
    (h : (o.dumpRows bytes offset)[i]? = some r) : i * o.rowWidth < o.dumpedLength bytes ∧
      ∃ chunk, chunk = ((bytes.take (o.dumpedLength bytes)).drop (i * o.rowWidth)).take o.rowWidth ∧
        chunk.length = min o.rowWidth (o.dumpedLength bytes - i * o.rowWidth) ∧
        r = .ofChunk o.rowWidth (offset + i * o.rowWidth) chunk := by
  have hpos : 0 < o.rowWidth := Nat.le_max_left _ _
  have hlength : (bytes.take (o.dumpedLength bytes)).length = o.dumpedLength bytes :=
    List.length_take_of_le (Nat.min_le_left _ _)
  rw [dumpRows, List.getElem?_mapIdx, Bytes.getElem?_chunks hpos, hlength] at h
  split at h
  · rename_i hlt
    refine ⟨hlt, _, rfl, ?_, (Option.some.inj h).symm⟩
    rw [List.length_take, List.length_drop, hlength]
  · cases h

/-- The rows of a dump show what a dump has to show. -/
theorem dumps_dumpRows (o : Options) (bytes : List UInt8) (offset : Nat) (level : Int) :
    o.Dumps bytes offset level (o.dumpRows bytes offset) := by
  have hpos : 0 < o.rowWidth := Nat.le_max_left _ _
  have hlength : (bytes.take (o.dumpedLength bytes)).length = o.dumpedLength bytes :=
    List.length_take_of_le (Nat.min_le_left _ _)
  have hrows : (o.dumpRows bytes offset).length =
      (o.dumpedLength bytes + o.rowWidth - 1) / o.rowWidth := by
    rw [dumpRows, List.length_mapIdx, Bytes.length_chunks hpos, hlength]
  have hchunk : ∀ r ∈ o.dumpRows bytes offset, ∃ address chunk, chunk.length ≤ o.rowWidth ∧
      r = .ofChunk o.rowWidth address chunk := by
    intro r hr
    obtain ⟨i, hi⟩ := List.mem_iff_getElem?.1 hr
    obtain ⟨-, chunk, -, hchunk, rfl⟩ := exists_of_dumpRows hi
    exact ⟨_, chunk, by omega, rfl⟩
  have hwidth : ∀ r ∈ o.dumpRows bytes offset, r.cells.length = o.rowWidth := by
    intro r hr
    obtain ⟨address, chunk, hle, rfl⟩ := hchunk r hr
    rw [DumpRow.ofChunk, List.length_append, List.length_map, List.length_replicate]
    omega
  refine ⟨congrArg unlines (lines_eq bytes offset level), hrows, fun i r hi => ?_, hwidth, ?_,
    fun i r hi hblank => ?_, fun r hr => ?_, fun r hr => ?_, fun r hr => ?_⟩
  · obtain ⟨hlt, chunk, -, -, rfl⟩ := exists_of_dumpRows hi
    exact ⟨rfl, Nat.add_lt_add_left hlt offset⟩
  · have hchunks : (o.dumpRows bytes offset).map (fun r => r.cells.filterMap id) =
        Bytes.chunks o.rowWidth (bytes.take (o.dumpedLength bytes)) := by
      refine List.ext_getElem? fun i => ?_
      simp only [dumpRows, List.getElem?_map, List.getElem?_mapIdx, Option.map_map,
        Function.comp_def, DumpRow.filterMap_cells_ofChunk, Option.map_id']
    rw [List.filterMap_flatMap, List.flatMap_def, hchunks, Bytes.flatten_chunks]
  · obtain ⟨-, chunk, -, hlen, rfl⟩ := exists_of_dumpRows hi
    have hshort : chunk.length < o.rowWidth := by
      rcases List.mem_append.1 hblank with hbyte | hrest
      · obtain ⟨b, -, hb⟩ := List.mem_map.1 hbyte
        cases hb
      · have hsome := (List.mem_replicate.1 hrest).1
        omega
    have hnext : (o.dumpRows bytes offset)[i + 1]? = none := by
      refine Option.eq_none_iff_forall_ne_some.2 fun r hr => ?_
      have hlt := (exists_of_dumpRows hr).1
      rw [Nat.succ_mul] at hlt
      omega
    have hle := List.getElem?_eq_none_iff.1 hnext
    have hlt := (List.getElem?_eq_some_iff.1 hi).1
    omega
  · obtain ⟨address, chunk, -, rfl⟩ := hchunk r hr
    rw [DumpRow.filterMap_cells_ofChunk]
    rfl
  · obtain ⟨address, chunk, -, rfl⟩ := hchunk r hr
    rw [DumpRow.filterMap_cells_ofChunk]
    exact List.map_congr_left fun b _ => HexDump.shown_eq b
  · rw [← hwidth r hr]
    exact DumpRow.ofLine?_line _ r

/-- How many lines a dump of bytes has: one for each row that is filled, the last one perhaps in
part, and one more if bytes are left out. -/
def dumpLineCount (o : Options) (bytes : List UInt8) : Nat :=
  (o.dumpedLength bytes + o.rowWidth - 1) / o.rowWidth +
    if o.dumpedLength bytes < bytes.length then 1 else 0

/-- So their number is known. -/
theorem length_lines (bytes : List UInt8) (offset : Nat) (level : Int) :
    (HexDump.lines o bytes offset level).length = o.dumpLineCount bytes := by
  have hle : o.dumpedLength bytes ≤ bytes.length := Nat.min_le_left _ _
  rw [lines_eq, List.length_append, List.length_map, (o.dumps_dumpRows bytes offset level).length_eq,
    dumpLineCount]
  split
  · rw [if_neg (by omega)]
    rfl
  · rw [if_pos (by omega)]
    rfl

/-- The byte of a cell stands as far behind the first one of all as the cell's place behind the
address of the first row. -/
theorem getElem?_of_dumpRows {bytes : List UInt8} {offset j : Nat} {r : DumpRow} {b : UInt8}
    (hr : r ∈ o.dumpRows bytes offset) (hb : r.cells[j]? = some (some b)) :
    ∃ m, r.address + j = offset + m ∧ bytes[m]? = some b := by
  obtain ⟨i, hi⟩ := List.mem_iff_getElem?.1 hr
  obtain ⟨-, chunk, hchunk, -, rfl⟩ := exists_of_dumpRows hi
  refine ⟨i * o.rowWidth + j, Nat.add_assoc _ _ _, ?_⟩
  have hbyte : chunk[j]? = some b := by
    by_cases hj : j < (chunk.map some).length
    · rw [DumpRow.ofChunk, List.getElem?_append_left hj, List.getElem?_map] at hb
      obtain ⟨b', hb', heq⟩ := Option.map_eq_some_iff.1 hb
      rw [hb', Option.some.inj heq]
    · rw [DumpRow.ofChunk, List.getElem?_append_right (Nat.le_of_not_lt hj)] at hb
      have hblank := List.mem_of_getElem? hb
      cases (List.mem_replicate.1 hblank).2
  rw [hchunk, List.getElem?_take] at hbyte
  split at hbyte
  · rw [List.getElem?_drop, List.getElem?_take] at hbyte
    split at hbyte
    · exact hbyte
    · cases hbyte
  · cases hbyte

/-- The indentation of a line does not count. -/
theorem leadingDigits_indent (level : Int) (text : String) :
    DumpRow.leadingDigits (o.indent level ++ text).toList = DumpRow.leadingDigits text.toList := by
  have hindent : (o.indent level).toList = List.replicate (level.toNat * o.indentWidth) ' ' :=
    String.toList_ofList
  rw [String.toList_append, hindent, DumpRow.leadingDigits_replicate_append]

/-- The line for the bytes that a dump leaves out is none of its rows. -/
theorem leadingDigits_more (level : Int) (text : String) :
    DumpRow.leadingDigits (o.indent level ++ "... " ++ text ++ " more bytes").toList = 0 := by
  rw [String.append_assoc, String.append_assoc, leadingDigits_indent]
  exact DumpRow.leadingDigits_append rfl (by decide) (by decide) _

/-- A line that is read as a row of a dump is the line of one, however it is expected to be
indented. -/
theorem mem_dumpRows_of_line {bytes : List UInt8} {offset indent : Nat} {level : Int}
    {line : String} {r : DumpRow} (hline : line ∈ HexDump.lines o bytes offset level)
    (hread : DumpRow.ofLine? indent o.rowWidth line = some r) : r ∈ o.dumpRows bytes offset := by
  rw [lines_eq] at hline
  rcases List.mem_append.1 hline with hrow | hmore
  · obtain ⟨r', hr', rfl⟩ := List.mem_map.1 hrow
    have hindent := (DumpRow.of_ofLine?_eq_some hread).2
    rw [Options.indent, DumpRow.length_takeWhile_line] at hindent
    rw [← hindent, (o.dumps_dumpRows bytes offset level).read_eq r' hr'] at hread
    rw [← Option.some.inj hread]
    exact hr'
  · split at hmore
    · cases hmore
    · have hdigits := (DumpRow.of_ofLine?_eq_some hread).1
      rw [List.mem_singleton.1 hmore, leadingDigits_more] at hdigits
      cases hdigits

variable (o) in
/-- The rows of a dump among lines at a level, in order. -/
def rowsAmong (level : Int) (lines : List String) : List DumpRow :=
  lines.filterMap (DumpRow.ofLine? (level.toNat * o.indentWidth) o.rowWidth)

/-- Of the lines of a dump these are all of its rows. -/
theorem rowsAmong_lines (bytes : List UInt8) (offset : Nat) (level : Int) :
    o.rowsAmong level (HexDump.lines o bytes offset level) = o.dumpRows bytes offset := by
  have hrows : ((o.dumpRows bytes offset).map (DumpRow.line (o.indent level))).filterMap
      (DumpRow.ofLine? (level.toNat * o.indentWidth) o.rowWidth) = o.dumpRows bytes offset := by
    rw [List.filterMap_map]
    refine (List.filterMap_congr fun r hr => ?_).trans List.filterMap_some
    exact (o.dumps_dumpRows bytes offset level).read_eq r hr
  unfold rowsAmong
  rw [lines_eq, List.filterMap_append, hrows]
  split
  · exact List.append_nil _
  · rw [List.filterMap_cons_none (DumpRow.ofLine?_eq_none (by rw [leadingDigits_more]; decide) _ _)]
    exact List.append_nil _

end Options

end PclXl
