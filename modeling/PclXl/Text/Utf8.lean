/-!
# UTF-8 with replacement

Bytes are read as UTF-8 and never refused. A well-formed sequence of bytes gives its character;
where none starts, the longest start of one (or a single byte, if the first byte starts none) is
replaced by the character U+FFFD.
-/

namespace PclXl.Text.Utf8

/-- Least and greatest value that a byte may have. -/
structure ByteRange where
  /-- The least value. -/
  low : Nat
  /-- The greatest value. -/
  high : Nat

/-- The byte lies in the range. -/
def ByteRange.has (r : ByteRange) (b : UInt8) : Bool :=
  r.low ≤ b.toNat && b.toNat ≤ r.high

/-- The range of the bytes that continue a sequence, where the first byte does not narrow it. -/
def continuation : ByteRange :=
  ⟨0x80, 0xBF⟩

/-- The ranges of the bytes that must follow a first byte, or none if no sequence starts with it.
The first following byte is narrowed where a sequence would be overlong, a surrogate, or too large.
-/
def followers (lead : UInt8) : Option (List ByteRange) :=
  let n := lead.toNat
  if n < 0x80 then some []
  else if n < 0xC2 then none
  else if n < 0xE0 then some [continuation]
  else if n = 0xE0 then some [⟨0xA0, 0xBF⟩, continuation]
  else if n = 0xED then some [⟨0x80, 0x9F⟩, continuation]
  else if n < 0xF0 then some [continuation, continuation]
  else if n = 0xF0 then some [⟨0x90, 0xBF⟩, continuation, continuation]
  else if n < 0xF4 then some [continuation, continuation, continuation]
  else if n = 0xF4 then some [⟨0x80, 0x8F⟩, continuation, continuation]
  else none

/-- How many bytes at the start of `bs` lie in the ranges, each in its own, up to the first that
does not. -/
def matched : List ByteRange → List UInt8 → Nat
  | r :: rs, b :: bs => if r.has b then matched rs bs + 1 else 0
  | _, _ => 0

/-- The number that a sequence encodes: the low bits of its first byte, then six bits of each byte
that follows. -/
def codePoint (lead : UInt8) (tail : List UInt8) : Nat :=
  let high := match tail.length with
    | 0 => lead.toNat
    | 1 => lead.toNat % 0x20
    | 2 => lead.toNat % 0x10
    | _ => lead.toNat % 0x08
  tail.foldl (fun n b => n * 0x40 + b.toNat % 0x40) high

/-- The character that stands for bytes that are no UTF-8. -/
def replacement : Char :=
  '\uFFFD'

/-- The text of a sequence of bytes. -/
def decode : List UInt8 → List Char
  | [] => []
  | lead :: bs =>
    match followers lead with
    | none => replacement :: decode bs
    | some ranges =>
      let n := matched ranges bs
      let c := if n = ranges.length then Char.ofNat (codePoint lead (bs.take n)) else replacement
      c :: decode (bs.drop n)
termination_by bs => bs.length
decreasing_by
  · simp
  · simp only [List.length_drop, List.length_cons]
    omega

/-- ASCII bytes are their own text, whatever follows. -/
theorem decode_append_of_ascii {as : List UInt8} (h : ∀ b ∈ as, b.toNat < 0x80) (bs : List UInt8) :
    decode (as ++ bs) = (as.map fun b => Char.ofNat b.toNat) ++ decode bs := by
  induction as with
  | nil => rfl
  | cons b as ih =>
    have hb : followers b = some [] := by simp [followers, h b (by simp)]
    have hm : matched [] (as ++ bs) = 0 := by simp [matched]
    rw [List.cons_append, decode, hb]
    simp [hm, codePoint, ih fun c hc => h c (by simp [hc])]

/-- ASCII bytes are their own text. -/
theorem decode_ascii {bs : List UInt8} (h : ∀ b ∈ bs, b.toNat < 0x80) :
    decode bs = bs.map fun b => Char.ofNat b.toNat := by
  have hnil : decode [] = [] := by rw [decode]
  have happend := decode_append_of_ascii h []
  rwa [hnil, List.append_nil, List.append_nil] at happend

end PclXl.Text.Utf8
