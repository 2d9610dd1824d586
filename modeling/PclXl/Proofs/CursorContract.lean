import Mathlib.Data.Set.Basic
import Mathlib.Order.Bounds.Defs
import PclXl.Proofs.OperandBlocks
import PclXl.Proofs.Progress

/-!
# What a cursor promises

A cursor may be used in any way: bytes, numbers and values are read from it, it skips, it is moved to
any position. It stays in its stream, and the bytes that remain and its file offset follow from its
position. How a read goes is settled by the stream and the position alone. The first marker that starts
among its bytes stops it, even one that goes beyond them; else a lack of bytes does, and then the cursor
has not moved. So it is at every place that a cursor can come to.
-/

namespace PclXl

namespace Cursor

/-- What can be done with a cursor. -/
inductive Operation where
  /-- Look at the next byte. -/
  | peek
  /-- Read an unsigned number of one byte. -/
  | byte
  /-- Read an unsigned number of two bytes. -/
  | uint16
  /-- Read an unsigned number of four bytes. -/
  | uint32
  /-- Read a number of a type. -/
  | number (t : ElementType)
  /-- Read so many bytes, up to a job-end marker. -/
  | take (n : Nat)
  /-- Read so many bytes, whatever they are. -/
  | takeRaw (n : Nat)
  /-- Read a value of a data type. -/
  | value (t : DataType)
  /-- Move over padding. -/
  | skipPadding
  /-- Move over white space. -/
  | skipWhiteSpace
  /-- Move over a job-end marker. -/
  | skipJobEnd
  /-- Move to a position. -/
  | moveTo (position : Nat)

/-- The cursor behind an operation, whether it gave a result or was interrupted. -/
def operate (c : Cursor) : Operation → Cursor
  | .peek => Reader.peek.behind c
  | .byte => Reader.byte.behind c
  | .uint16 => Reader.uint16.behind c
  | .uint32 => Reader.uint32.behind c
  | .number t => (Reader.number t).behind c
  | .take n => (Reader.take n).behind c
  | .takeRaw n => (Reader.takeRaw n).behind c
  | .value t => (Reader.value t).behind c
  | .skipPadding => Reader.skipPadding.behind c
  | .skipWhiteSpace => Reader.skipWhiteSpace.behind c
  | .skipJobEnd => c.skipJobEnd
  | .moveTo position => c.moveTo position

/-- The cursor behind some operations. -/
def afterOperations (c : Cursor) (operations : List Operation) : Cursor :=
  operations.foldl operate c

/-- A cursor stands in the stream of another one. -/
structure SameStream (c d : Cursor) : Prop where
  /-- The bytes are the same. -/
  data_eq : d.data = c.data
  /-- Numbers are read in the same byte order. -/
  order_eq : d.order = c.order
  /-- The stream starts at the same place in its file. -/
  base_eq : d.base = c.base

/-- To be on the same stream is transitive. -/
theorem SameStream.trans {c d e : Cursor} (h : c.SameStream d) (h' : d.SameStream e) :
    c.SameStream e :=
  ⟨h'.data_eq.trans h.data_eq, h'.order_eq.trans h.order_eq, h'.base_eq.trans h.base_eq⟩

/-- A cursor that only moves stays on its stream. -/
theorem Reaches.sameStream {c d : Cursor} (h : c.Reaches d) : c.SameStream d := by
  obtain ⟨n, -, rfl⟩ := h
  exact ⟨rfl, rfl, rfl⟩

/-- No operation leaves the stream. -/
theorem sameStream_operate (c : Cursor) (o : Operation) : c.SameStream (c.operate o) := by
  cases o with
  | peek => exact (Reader.scans_peek.movesOn c).sameStream
  | byte => exact (Reader.scans_byte.movesOn c).sameStream
  | uint16 => exact (Reader.scans_uint16.movesOn c).sameStream
  | uint32 => exact (Reader.scans_uint32.movesOn c).sameStream
  | number t => exact ((Reader.scans_number t).movesOn c).sameStream
  | take n => exact ((Reader.scans_take n).movesOn c).sameStream
  | takeRaw n => exact (Reader.movesOn_takeRaw n c).sameStream
  | value t => exact ((Reader.scans_value t).movesOn c).sameStream
  | skipPadding => exact (c.reaches_skipWhile Reader.isPadding).sameStream
  | skipWhiteSpace => exact (c.reaches_skipWhile Reader.isWhiteSpace).sameStream
  | skipJobEnd => exact c.reaches_skipJobEnd.sameStream
  | moveTo position => exact ⟨rfl, rfl, rfl⟩

/-- So does one on which any operations were carried out. -/
theorem sameStream_afterOperations (c : Cursor) (operations : List Operation) :
    c.SameStream (c.afterOperations operations) := by
  induction operations generalizing c with
  | nil => exact ⟨rfl, rfl, rfl⟩
  | cons o operations ih => exact (c.sameStream_operate o).trans (ih (c.operate o))

/-- Where a cursor stands in a stream that starts at a file offset. -/
structure StandsIn (c : Cursor) (data : List UInt8) (order : ByteOrder) (base : Nat) : Prop where
  /-- The bytes are those of the stream. -/
  data_eq : c.data = data
  /-- Numbers are read in the byte order of the stream. -/
  order_eq : c.order = order
  /-- The cursor knows where the stream starts. -/
  base_eq : c.base = base
  /-- The position is not behind the end. -/
  position_le : c.position ≤ data.length
  /-- The bytes that remain are those behind the position. -/
  remaining_eq : c.remaining = data.length - c.position
  /-- The file offset counts the bytes in front of the stream. -/
  fileOffset_eq : c.fileOffset = base + c.position
  /-- It can be stored in 64 bits, if that of the end can. -/
  fileOffset_lt : base + data.length < 2 ^ 64 → c.fileOffset < 2 ^ 64

/-- Where a cursor comes from the start of a stream. -/
theorem standsIn_afterOperations (data : List UInt8) (order : ByteOrder) (base : Nat)
    (operations : List Operation) :
    ((atStart data order base).afterOperations operations).StandsIn data order base := by
  have hsame := (atStart data order base).sameStream_afterOperations operations
  generalize (atStart data order base).afterOperations operations = c at hsame
  have hdata : c.data = data := hsame.data_eq
  have hbase : c.base = base := hsame.base_eq
  have hle := c.position_le
  have hremaining := c.remaining_eq
  have hoffset : c.fileOffset = base + c.position := by rw [fileOffset, hbase]
  rw [hdata] at hle hremaining
  exact ⟨hdata, hsame.order_eq, hbase, hle, hremaining, hoffset, fun hsize => by omega⟩

/-- Moving on over bytes that are there is moving to a position. -/
theorem advance_eq_moveTo {c : Cursor} {n : Nat} (h : n ≤ c.rest.length) :
    c.advance n = c.moveTo (c.position + n) := by
  have htotal := c.position_add_rest_length
  refine eq_of_position rfl rfl rfl ?_
  rw [position_advance h]
  exact (Nat.min_eq_left (by omega)).symm

/-- The places at which a marker starts, among the next `n` of the stream. -/
def markersWithin (c : Cursor) (n : Nat) : Set Nat :=
  {i | c.position ≤ i ∧ i < min (c.position + n) c.data.length ∧ MarkerAt c.data i}

/-- A marker stands ahead of a cursor if the bytes there start with it. -/
theorem markerAt_add_iff {c : Cursor} {k : Nat} :
    MarkerAt c.data (c.position + k) ↔ jobEndMarker <+: c.rest.drop k := by
  rw [MarkerAt, c.rest_eq, List.drop_drop]

/-- Places in the stream, counted from the cursor. -/
theorem add_mem_markersWithin_iff {c : Cursor} {n k : Nat} :
    c.position + k ∈ c.markersWithin n ↔ k < n ∧ jobEndMarker <+: c.rest.drop k := by
  have htotal := c.position_add_rest_length
  constructor
  · rintro ⟨-, hlt, hmarker⟩
    exact ⟨by omega, markerAt_add_iff.1 hmarker⟩
  · rintro ⟨hk, hmarker⟩
    have hlength := length_of_marker hmarker
    have hnine : jobEndMarker.length = 9 := rfl
    exact ⟨by omega, by omega, markerAt_add_iff.2 hmarker⟩

/-- Bytes ahead are clear if no marker stands within them. -/
theorem markersWithin_eq_empty_iff {c : Cursor} {n : Nat} :
    c.markersWithin n = ∅ ↔ c.Clear n := by
  rw [Set.eq_empty_iff_forall_notMem]
  constructor
  · intro h k hk hmarker
    exact h _ (add_mem_markersWithin_iff.2 ⟨hk, hmarker⟩)
  · intro h i hi
    obtain ⟨k, rfl⟩ := Nat.exists_eq_add_of_le hi.1
    obtain ⟨hk, hmarker⟩ := add_mem_markersWithin_iff.1 hi
    exact h k hk hmarker

/-- No marker starts in front of the least place. -/
theorem exists_of_isLeast {c : Cursor} {n i : Nat} (h : IsLeast (c.markersWithin n) i) :
    ∃ k, i = c.position + k ∧ k < n ∧ c.Clear k ∧ jobEndMarker <+: c.rest.drop k := by
  obtain ⟨hmem, hleast⟩ := h
  obtain ⟨k, rfl⟩ := Nat.exists_eq_add_of_le hmem.1
  obtain ⟨hk, hmarker⟩ := add_mem_markersWithin_iff.1 hmem
  refine ⟨k, rfl, hk, fun j hj hother => ?_, hmarker⟩
  have hle := hleast (add_mem_markersWithin_iff.2 ⟨by omega, hother⟩)
  omega

end Cursor

namespace Reader

open Cursor

section Contract

variable {α : Type}

/-- How a read of `n` bytes goes that some places stop. -/
structure Reads (r : Reader α) (c : Cursor) (n : Nat) (stops : Set Nat)
    (gives : α → List UInt8 → Prop) : Prop where
  /-- At the first of these places the job ends, and the cursor moves there. -/
  stopped : ∀ i, IsLeast stops i → r c = .error (.jobEnd (c.base + i)) (c.moveTo i)
  /-- Otherwise, if the bytes do not suffice, those behind the end are lacking, and the cursor
  stays. -/
  short : stops = ∅ → c.data.length < c.position + n → r c =
    .error (.fault (.endOfStream (c.base + c.position) (c.position + n - c.data.length))) c
  /-- Otherwise the read gives the bytes, and the cursor moves behind them. -/
  whole : stops = ∅ → c.position + n ≤ c.data.length → ∃ a,
    r c = .ok a (c.moveTo (c.position + n)) ∧ gives a ((c.data.drop c.position).take n)

/-- A skip over `n` bytes goes as far as they pass a test. -/
structure Skips (r : Reader Nat) (c : Cursor) (p : UInt8 → Bool) (n : Nat) : Prop where
  /-- The cursor moves behind the bytes, and their number is given. -/
  moves : r c = .ok n (c.moveTo (c.position + n))
  /-- The bytes are in the stream. -/
  le : c.position + n ≤ c.data.length
  /-- All of them pass the test. -/
  passes : ∀ b ∈ (c.data.drop c.position).take n, p b = true
  /-- The next one does not, if there is one. -/
  stops : ∀ b ∈ c.data[c.position + n]?, p b = false
  /-- No marker starts among them. -/
  clear : c.markersWithin n = ∅

/-- A block of one part, in terms of the stream. -/
theorem ReadsBlock.reads {r : Reader α} {c : Cursor} {n : Nat} {gives : α → List UInt8 → Prop}
    (h : r.ReadsBlock c [n]) (hgives : ∀ a d, r c = .ok a d → gives a (c.rest.take n)) :
    r.Reads c n (c.markersWithin n) gives := by
  have htotal := c.position_add_rest_length
  refine ⟨fun i hi => ?_, fun hnone hshort => ?_, fun hnone hwhole => ?_⟩
  · obtain ⟨k, rfl, hk, hclear, hmarker⟩ := exists_of_isLeast hi
    have hlength := length_of_marker hmarker
    have hread := h.marker k hk hclear hmarker
    rwa [advance_eq_moveTo (by omega), Cursor.fileOffset, Nat.add_assoc] at hread
  · obtain ⟨front, width, behind, hparts, -, -, hread⟩ :=
      h.short (markersWithin_eq_empty_iff.1 hnone) (by rw [List.sum_singleton]; omega)
    obtain ⟨rfl, hwidth⟩ : front = [] ∧ n = width := by
      cases front with
      | nil => exact ⟨rfl, (List.cons.inj hparts).1⟩
      | cons first front => simp at hparts
    have hneeded : width - c.rest.length = c.position + n - c.data.length := by omega
    rwa [List.sum_nil, advance_zero, Nat.zero_add, Nat.add_zero, hneeded] at hread
  · obtain ⟨a, hread⟩ := h.whole (markersWithin_eq_empty_iff.1 hnone)
      (by rw [List.sum_singleton]; omega)
    have hbytes := hgives a _ hread
    rw [c.rest_eq] at hbytes
    rw [List.sum_singleton, advance_eq_moveTo (by omega)] at hread
    exact ⟨a, hread, hbytes⟩

/-- What is made of an unsigned number comes from its bytes. -/
theorem reads_word (width : Nat) (c : Cursor) {f : Nat → α} {gives : α → Nat → Prop}
    (hgives : ∀ n < ByteOrder.limit width, gives (f n) n) :
    (word width >>= fun n => pure (f n)).Reads c width (c.markersWithin width)
      fun a bs => gives a (c.order.value bs) := by
  refine ((readsBlock_word width c).map f).reads fun a d h => ?_
  obtain ⟨n, e, hread, hpure⟩ := bind_eq_ok_iff.1 h
  obtain ⟨rfl, -⟩ := pure_eq_ok_iff.1 hpure
  rw [← eq_value_of_word hread]
  exact hgives n (word_eq_ok_iff.1 hread).1

/-- A raw block is read without regard to markers. -/
theorem reads_takeRaw (n : Nat) (c : Cursor) :
    (takeRaw n).Reads c n ∅ fun block bs => block = bs := by
  have htotal := c.position_add_rest_length
  refine ⟨fun i hi => absurd hi.1 (Set.notMem_empty i), fun _ hshort => ?_, fun _ hwhole => ?_⟩
  · have hall : c.rest.take n = c.rest := List.take_of_length_le (by omega)
    have hneeded : c.position + n - c.data.length = n - c.rest.length := by omega
    simp only [takeRaw]
    rw [hall, if_pos (by omega), hneeded]
    rfl
  · have hread : takeRaw n c = .ok (c.rest.take n) (c.advance n) :=
      takeRaw_eq_ok_iff.2 ⟨List.length_take_of_le (by omega), List.take_prefix n c.rest, rfl⟩
    rw [advance_eq_moveTo (by omega)] at hread
    exact ⟨_, hread, by rw [c.rest_eq]⟩

/-- A skip over bytes that may be white space does not pass a marker. -/
theorem skips_skipWhile {p : UInt8 → Bool} (hblank : ∀ b, p b = true → isWhiteSpace b = true)
    (c : Cursor) : ∃ n, (skipWhile p).Skips c p n := by
  have htotal := c.position_add_rest_length
  have hprefix := List.takeWhile_prefix (l := c.rest) p
  have hpasses : ∀ b ∈ c.rest.takeWhile p, p b = true := List.all_eq_true.1 List.all_takeWhile
  have hle := hprefix.length_le
  refine ⟨(c.rest.takeWhile p).length, ?_, by omega, fun b hb => ?_, fun b hb => ?_, ?_⟩
  · rw [← advance_eq_moveTo hle]
    rfl
  · rw [← c.rest_eq, ← List.prefix_iff_eq_take.1 hprefix] at hb
    exact hpasses b hb
  · rw [← List.getElem?_drop, ← c.rest_eq, ← List.head?_drop] at hb
    exact not_of_head?_takeWhile b hb
  · rw [markersWithin_eq_empty_iff]
    exact clear_of_blank hprefix fun b hb => hblank b (hpasses b hb)

/-- A reader of the grammar does not go back, nor past the start of a marker. -/
theorem Scans.moves {r : Reader α} (h : Scans r) (c : Cursor) :
    ∃ n, r.behind c = c.moveTo (c.position + n) ∧ c.position + n ≤ c.data.length ∧
      c.markersWithin n = ∅ := by
  obtain ⟨n, hn, hclear, hbehind⟩ := h.exists_behind c
  have htotal := c.position_add_rest_length
  rw [advance_eq_moveTo hn] at hbehind
  exact ⟨n, hbehind, by omega, markersWithin_eq_empty_iff.2 hclear⟩

end Contract

end Reader

namespace Cursor

/-- What a cursor promises for whatever is done next. -/
structure Serves (c : Cursor) : Prop where
  /-- Looking at a byte does not move the cursor. -/
  peek : Reader.peek.behind c = c
  /-- A byte is read. -/
  byte : Reader.byte.Reads c 1 (c.markersWithin 1) fun b bs => b.toNat = c.order.value bs
  /-- A number of two bytes is read. -/
  uint16 : Reader.uint16.Reads c 2 (c.markersWithin 2) fun n bs => n.toNat = c.order.value bs
  /-- A number of four bytes is read. -/
  uint32 : Reader.uint32.Reads c 4 (c.markersWithin 4) fun n bs => n.toNat = c.order.value bs
  /-- A number of a type is read. -/
  number : ∀ t : ElementType, (Reader.number t).Reads c t.width (c.markersWithin t.width)
    fun x bs => x.elementType = t ∧ x.word = c.order.value bs
  /-- A block is read up to a marker. -/
  take : ∀ n, (Reader.take n).Reads c n (c.markersWithin n) fun block bs => block = bs
  /-- No marker stops the read of a raw block. -/
  takeRaw : ∀ n, (Reader.takeRaw n).Reads c n ∅ fun block bs => block = bs
  /-- Padding is skipped. -/
  skipPadding : ∃ n, Reader.skipPadding.Skips c Reader.isPadding n
  /-- White space is skipped. -/
  skipWhiteSpace : ∃ n, Reader.skipWhiteSpace.Skips c Reader.isWhiteSpace n
  /-- The marker, and nothing else, is stepped over. -/
  skipJobEnd : c.skipJobEnd.position = c.position + 9 ↔ MarkerAt c.data c.position
  /-- Elsewhere that does not move the cursor. -/
  skipJobEnd_of_not : ¬ MarkerAt c.data c.position → c.skipJobEnd = c
  /-- Reading a value does not go back, nor past the end or past the start of a marker. -/
  value : ∀ t, ∃ n, (Reader.value t).behind c = c.moveTo (c.position + n) ∧
    c.position + n ≤ c.data.length ∧ c.markersWithin n = ∅

/-- A look ahead does not move the cursor. -/
theorem behind_peek (c : Cursor) : Reader.peek.behind c = c := by
  unfold Reader.behind Reader.peek
  by_cases hmarker : c.atJobEnd = true
  · rw [if_pos hmarker]
  · rw [if_neg hmarker]
    cases c.rest with
    | nil => rfl
    | cons b bs => rfl

/-- A cursor is at the end of the job where a marker stands. -/
theorem atJobEnd_iff {c : Cursor} : c.atJobEnd = true ↔ MarkerAt c.data c.position := by
  rw [atJobEnd, List.isPrefixOf_iff_prefix, c.rest_eq]
  rfl

/-- Where no marker stands, passing it does nothing. -/
theorem skipJobEnd_of_not_markerAt {c : Cursor} (h : ¬ MarkerAt c.data c.position) :
    c.skipJobEnd = c :=
  if_neg (mt atJobEnd_iff.1 h)

/-- It moves the cursor by nine bytes exactly where one stands. -/
theorem position_skipJobEnd_iff {c : Cursor} :
    c.skipJobEnd.position = c.position + 9 ↔ MarkerAt c.data c.position := by
  constructor
  · intro h
    refine Classical.byContradiction fun hnot => ?_
    rw [skipJobEnd_of_not_markerAt hnot] at h
    omega
  · intro h
    have hprefix : jobEndMarker <+: c.rest := List.isPrefixOf_iff_prefix.1 (atJobEnd_iff.2 h)
    rw [skipJobEnd, if_pos (atJobEnd_iff.2 h), position_advance hprefix.length_le]
    rfl

/-- Every cursor keeps what a cursor promises. -/
theorem serves (c : Cursor) : c.Serves where
  peek := c.behind_peek
  byte := Reader.reads_word 1 c fun n hn => by
    change n < 256 at hn
    rw [UInt8.toNat_ofNat']
    omega
  uint16 := Reader.reads_word 2 c fun n hn => by
    change n < 65536 at hn
    rw [UInt16.toNat_ofNat']
    omega
  uint32 := Reader.reads_word 4 c fun n hn => by
    change n < 4294967296 at hn
    rw [UInt32.toNat_ofNat']
    omega
  number t := @Reader.reads_word _ t.width c (Number.ofWord t)
    (fun x n => x.elementType = t ∧ x.word = n) fun n hn =>
      ⟨Number.elementType_ofWord t n, Number.word_ofWord hn⟩
  take n := (Reader.readsBlock_take n c).reads fun bs d h => by
    obtain ⟨rfl, hholds, -⟩ := Reader.take_eq_ok_iff.1 h
    exact List.prefix_iff_eq_take.1 hholds.1
  takeRaw n := Reader.reads_takeRaw n c
  skipPadding := Reader.skips_skipWhile (fun b hb => by
    rw [Reader.isPadding, beq_iff_eq] at hb
    rw [hb]
    decide) c
  skipWhiteSpace := Reader.skips_skipWhile (fun _ hb => hb) c
  skipJobEnd := position_skipJobEnd_iff
  skipJobEnd_of_not := skipJobEnd_of_not_markerAt
  value t := (Reader.scans_value t).moves c

/-- Whatever was done with a cursor since the start of a stream, it stands in the stream, and whatever
is done next goes as the stream and the position say. -/
theorem contract_throughout (data : List UInt8) (order : ByteOrder) (base : Nat)
    (operations : List Operation) :
    ((atStart data order base).afterOperations operations).StandsIn data order base ∧
    ((atStart data order base).afterOperations operations).Serves :=
  ⟨standsIn_afterOperations data order base operations, serves _⟩

/-- A marker behind the first of two bytes stops their read, and can then be stepped over. -/
example : ((atStart (0x05 :: jobEndMarker) .highFirst 20).afterOperations
    [.uint16, .skipJobEnd]).fileOffset = 30 := by
  decide

end Cursor

end PclXl
