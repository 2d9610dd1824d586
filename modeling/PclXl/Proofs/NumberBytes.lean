import PclXl.Bytes.Order
import PclXl.Data.Number

/-!
# Numbers as bytes

The bytes of a number in either order, as the inverse of the number that bytes stand for: a number
that fits a width is read back from its bytes, and bytes are the bytes of the number they stand for.
-/

namespace PclXl

namespace ByteOrder

/-- The bytes of the low part of a number, low byte first. -/
def lowFirstBytes : Nat → Nat → List UInt8
  | 0, _ => []
  | width + 1, n => UInt8.ofNat n :: lowFirstBytes width (n / 256)

/-- The `width` bytes by which a number is stored. -/
def bytes (order : ByteOrder) (width n : Nat) : List UInt8 :=
  match order with
  | lowFirst => lowFirstBytes width n
  | highFirst => (lowFirstBytes width n).reverse

/-- With the low byte first, a number has as many bytes as it is wide. -/
theorem length_lowFirstBytes (width n : Nat) : (lowFirstBytes width n).length = width := by
  induction width generalizing n with
  | zero => rfl
  | succ width ih => rw [lowFirstBytes, List.length_cons, ih]

/-- So it has in either order. -/
@[simp] theorem length_bytes (order : ByteOrder) (width n : Nat) :
    (order.bytes width n).length = width := by
  cases order with
  | lowFirst => exact length_lowFirstBytes width n
  | highFirst => exact (List.length_reverse).trans (length_lowFirstBytes width n)

/-- A number behind its tag. -/
theorem length_cons_bytes (order : ByteOrder) (tag : UInt8) (width n : Nat) :
    (tag :: order.bytes width n).length = 1 + width := by
  rw [List.length_cons, length_bytes, Nat.add_comm]

/-- A number that fits is the value of its bytes. -/
theorem lowFirstValue_lowFirstBytes {width n : Nat} (h : n < limit width) :
    lowFirstValue (lowFirstBytes width n) = n := by
  induction width generalizing n with
  | zero =>
    have hn : n = 0 := Nat.lt_one_iff.1 h
    rw [hn]
    rfl
  | succ width ih =>
    rw [limit] at h
    have hn : n / 256 < limit width := by omega
    have hb : (UInt8.ofNat n).toNat = n % 256 := UInt8.toNat_ofNat'
    rw [lowFirstBytes, lowFirstValue, ih hn, hb]
    omega

/-- A number that fits the width is read back from its bytes. -/
theorem value_bytes (order : ByteOrder) {width n : Nat} (h : n < limit width) :
    order.value (order.bytes width n) = n := by
  cases order with
  | lowFirst => exact lowFirstValue_lowFirstBytes h
  | highFirst =>
    rw [bytes, value, List.reverse_reverse]
    exact lowFirstValue_lowFirstBytes h

/-- Bytes are those of their value. -/
theorem lowFirstBytes_lowFirstValue (bs : List UInt8) :
    lowFirstBytes bs.length (lowFirstValue bs) = bs := by
  induction bs with
  | nil => rfl
  | cons b bs ih =>
    have hb := b.toNat_lt
    have low : UInt8.ofNat (b.toNat + 256 * lowFirstValue bs) = b := by
      rw [← UInt8.toNat_inj, UInt8.toNat_ofNat']
      omega
    have high : (b.toNat + 256 * lowFirstValue bs) / 256 = lowFirstValue bs := by omega
    rw [List.length_cons, lowFirstValue, lowFirstBytes, low, high, ih]

/-- Bytes are the bytes of the number that they stand for. -/
theorem bytes_value (order : ByteOrder) (bs : List UInt8) :
    order.bytes bs.length (order.value bs) = bs := by
  cases order with
  | lowFirst => exact lowFirstBytes_lowFirstValue bs
  | highFirst =>
    have h := lowFirstBytes_lowFirstValue bs.reverse
    rw [List.length_reverse] at h
    rw [bytes, value, h, List.reverse_reverse]

/-- A single byte is stored as itself. -/
theorem bytes_one (order : ByteOrder) (b : UInt8) : order.bytes 1 b.toNat = [b] := by
  have h := bytes_value order [b]
  rwa [value_singleton] at h

/-- No byte is greater than the value of all. -/
theorem le_lowFirstValue {b : UInt8} {bs : List UInt8} (h : b ∈ bs) :
    b.toNat ≤ lowFirstValue bs := by
  induction bs with
  | nil => cases h
  | cons c bs ih =>
    rw [lowFirstValue]
    rcases List.mem_cons.1 h with rfl | h
    · exact Nat.le_add_right _ _
    · have hb := ih h
      omega

/-- No byte of a number is greater than the number. -/
theorem le_of_mem_bytes {order : ByteOrder} {width n : Nat} {b : UInt8} (hn : n < limit width)
    (h : b ∈ order.bytes width n) : b.toNat ≤ n := by
  have hv := value_bytes order hn
  cases order with
  | lowFirst =>
    have hb := le_lowFirstValue h
    exact Nat.le_trans hb (Nat.le_of_eq hv)
  | highFirst =>
    have hb := le_lowFirstValue (List.mem_reverse.2 h)
    exact Nat.le_trans hb (Nat.le_of_eq hv)

end ByteOrder

/-- The bytes by which a number is stored. -/
def Number.bytes (order : ByteOrder) (x : Number) : List UInt8 :=
  order.bytes x.elementType.width x.word

/-- A number of a data type has as many bytes as its type is wide. -/
@[simp] theorem Number.length_bytes (order : ByteOrder) (x : Number) :
    (x.bytes order).length = x.elementType.width :=
  ByteOrder.length_bytes order _ _

end PclXl
