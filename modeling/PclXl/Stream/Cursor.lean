import PclXl.Bytes.Occurrence
import PclXl.Bytes.Order

/-!
# Read positions

A cursor stands at a position in the bytes of a stream and holds the bytes that are still to come.
The position never lies behind the end. The bytes may be preceded in their file by others, which
only moves the file offsets.
-/

namespace PclXl

/-- The byte sequence that ends a job. -/
def jobEndMarker : List UInt8 :=
  [0x1B, 0x25, 0x2D, 0x31, 0x32, 0x33, 0x34, 0x35, 0x58]

/-- A read position in the bytes of a stream. -/
structure Cursor where
  /-- The bytes of the stream. -/
  data : List UInt8
  /-- The order of the bytes in numbers. -/
  order : ByteOrder
  /-- File offset of the first byte of the stream. -/
  base : Nat
  /-- How many bytes lie before the cursor. -/
  position : Nat
  /-- The bytes that lie behind the cursor. -/
  rest : List UInt8
  /-- The position divides the stream. -/
  rest_eq : rest = data.drop position
  /-- The position is not behind the end. -/
  position_le : position ≤ data.length

namespace Cursor

/-- The cursor at the start of a stream. -/
def atStart (data : List UInt8) (order : ByteOrder) (base : Nat) : Cursor where
  data := data
  order := order
  base := base
  position := 0
  rest := data
  rest_eq := rfl
  position_le := Nat.zero_le _

/-- The offset of the cursor in the file. -/
def fileOffset (c : Cursor) : Nat :=
  c.base + c.position

/-- How many bytes are still to come. -/
def remaining (c : Cursor) : Nat :=
  c.rest.length

/-- No byte is left. -/
def atEnd (c : Cursor) : Bool :=
  c.rest.isEmpty

theorem remaining_eq (c : Cursor) : c.remaining = c.data.length - c.position := by
  rw [remaining, c.rest_eq, List.length_drop]

/-- The cursor `n` bytes further, or at the end if there are fewer. -/
def advance (c : Cursor) (n : Nat) : Cursor :=
  { c with
    position := c.position + (c.rest.take n).length
    rest := c.rest.drop n
    rest_eq := by
      have h := c.remaining_eq
      rw [remaining] at h
      rw [List.length_take, c.rest_eq, List.drop_drop, List.length_drop]
      rcases Nat.le_total n (c.data.length - c.position) with hn | hn
      · rw [Nat.min_eq_left hn]
      · rw [Nat.min_eq_right hn, List.drop_eq_nil_iff.2 (by omega),
          List.drop_eq_nil_iff.2 (by omega)]
    position_le := by
      have h := c.remaining_eq
      rw [remaining] at h
      have := c.position_le
      rw [List.length_take]
      omega }

/-- The cursor in front of the next byte that does not satisfy `p`, or at the end. -/
def skipWhile (c : Cursor) (p : UInt8 → Bool) : Cursor :=
  c.advance (c.rest.takeWhile p).length

/-- The cursor at a position of the stream, or at the end if the position lies behind it. -/
def moveTo (c : Cursor) (position : Nat) : Cursor :=
  { c with
    position := min position c.data.length
    rest := c.data.drop position
    rest_eq := by
      rcases Nat.le_total position c.data.length with h | h
      · rw [Nat.min_eq_left h]
      · rw [Nat.min_eq_right h, List.drop_eq_nil_iff.2 h, List.drop_length]
    position_le := Nat.min_le_right _ _ }

/-- The job-end marker starts at the cursor. -/
def atJobEnd (c : Cursor) : Bool :=
  jobEndMarker.isPrefixOf c.rest

/-- How far the first job-end marker is away, if it starts within the next `n` bytes. -/
def jobEndWithin? (c : Cursor) (n : Nat) : Option Nat :=
  Bytes.firstWithin? jobEndMarker n c.rest

/-- The cursor behind the job-end marker, if it stands in front of one. -/
def skipJobEnd (c : Cursor) : Cursor :=
  if c.atJobEnd then c.advance jobEndMarker.length else c

@[simp] theorem data_advance (c : Cursor) (n : Nat) : (c.advance n).data = c.data := rfl

@[simp] theorem order_advance (c : Cursor) (n : Nat) : (c.advance n).order = c.order := rfl

@[simp] theorem base_advance (c : Cursor) (n : Nat) : (c.advance n).base = c.base := rfl

@[simp] theorem rest_advance (c : Cursor) (n : Nat) : (c.advance n).rest = c.rest.drop n := rfl

theorem position_advance {c : Cursor} {n : Nat} (h : n ≤ c.rest.length) :
    (c.advance n).position = c.position + n := by
  simp [advance, Nat.min_eq_left h]

theorem fileOffset_advance {c : Cursor} {n : Nat} (h : n ≤ c.rest.length) :
    (c.advance n).fileOffset = c.fileOffset + n := by
  simp [fileOffset, position_advance h, Nat.add_assoc]

end Cursor

end PclXl
