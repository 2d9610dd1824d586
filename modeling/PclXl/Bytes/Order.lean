/-!
# Byte orders

A number of more than one byte is stored with its low byte first or with its high byte first. The
two orders read each other's bytes in reverse. The first byte of a stream header is the mark of the
order that the whole stream uses.
-/

namespace PclXl

/-- The order in which the bytes of a number are stored. -/
inductive ByteOrder where
  /-- The low byte comes first. -/
  | lowFirst
  /-- The high byte comes first. -/
  | highFirst
  deriving DecidableEq, Repr

namespace ByteOrder

/-- The mark of an order is an opening or a closing parenthesis. -/
def mark : ByteOrder → UInt8
  | lowFirst => 0x28
  | highFirst => 0x29

/-- The order that a mark stands for. -/
def ofMark? (byte : UInt8) : Option ByteOrder :=
  if byte = lowFirst.mark then some lowFirst
  else if byte = highFirst.mark then some highFirst
  else none

/-- How many numbers can be stored in some bytes. -/
def limit : Nat → Nat
  | 0 => 1
  | width + 1 => 256 * limit width

/-- The number that bytes stand for, low byte first. -/
def lowFirstValue : List UInt8 → Nat
  | [] => 0
  | b :: bs => b.toNat + 256 * lowFirstValue bs

/-- The number that bytes stand for. -/
def value : ByteOrder → List UInt8 → Nat
  | lowFirst, bs => lowFirstValue bs
  | highFirst, bs => lowFirstValue bs.reverse

theorem ofMark?_eq_some_iff {byte : UInt8} {order : ByteOrder} :
    ofMark? byte = some order ↔ byte = order.mark := by
  by_cases low : byte = lowFirst.mark
  · subst low
    cases order <;> decide
  · by_cases high : byte = highFirst.mark
    · subst high
      cases order <;> decide
    · cases order <;> simp [ofMark?, low, high]

theorem lowFirstValue_lt (bs : List UInt8) : lowFirstValue bs < limit bs.length := by
  induction bs with
  | nil => decide
  | cons b bs ih =>
    have hb := b.toNat_lt
    rw [lowFirstValue, List.length_cons, limit]
    omega

/-- The number that bytes stand for can be stored in as many bytes. -/
theorem value_lt (order : ByteOrder) (bs : List UInt8) : order.value bs < limit bs.length := by
  cases order with
  | lowFirst => exact lowFirstValue_lt bs
  | highFirst => simpa [value] using lowFirstValue_lt bs.reverse

@[simp] theorem value_singleton (order : ByteOrder) (b : UInt8) : order.value [b] = b.toNat := by
  cases order <;> simp [value, lowFirstValue]

end ByteOrder

end PclXl
