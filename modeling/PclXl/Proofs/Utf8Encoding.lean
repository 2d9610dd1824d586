import Mathlib.Data.List.Forall2
import PclXl.Text.Utf8

/-!
# UTF-8 and back

A text that is encoded is read as that text, whatever follows it. The bytes of a character are a
first byte and the followers that it asks for, and the number that they encode is the character's.
Only the bytes of ASCII characters are ASCII, so that a line feed among the bytes is one of the text.
-/

namespace PclXl.Text.Utf8

/-- The bytes of a text. -/
def encode (cs : List Char) : List UInt8 :=
  cs.flatMap String.utf8EncodeChar

theorem encode_cons (c : Char) (cs : List Char) :
    encode (c :: cs) = String.utf8EncodeChar c ++ encode cs :=
  List.flatMap_cons

/-- The bytes of a text are those of its parts. -/
theorem encode_append (as bs : List Char) : encode (as ++ bs) = encode as ++ encode bs :=
  List.flatMap_append

/-- A string is kept as the bytes of its text. -/
theorem toUTF8_eq_encode (s : String) : s.toUTF8.data.toList = encode s.toList := by
  change s.toByteArray.data.toList = _
  rw [← String.utf8Encode_toList, List.utf8Encode, List.data_toByteArray]
  rfl

/-- Bytes that lie in the ranges, each in its own. -/
abbrev Follow (ranges : List ByteRange) (tail : List UInt8) : Prop :=
  List.Forall₂ (fun r b => r.has b = true) ranges tail

/-- Followers in their ranges are all matched, whatever comes behind them. -/
theorem matched_of_follow {ranges : List ByteRange} {tail : List UInt8} (h : Follow ranges tail)
    (bs : List UInt8) : matched ranges (tail ++ bs) = ranges.length := by
  induction h with
  | nil => rfl
  | cons hhas _ ih => rw [List.cons_append, matched, if_pos hhas, ih, List.length_cons]

/-- A first byte and its followers encode a number. -/
structure Encodes (n : Nat) (lead : UInt8) (tail : List UInt8) : Prop where
  /-- The followers are those that the first byte asks for. -/
  sequence : ∃ ranges, followers lead = some ranges ∧ Follow ranges tail
  /-- The number is that of their bits. -/
  codePoint_eq : codePoint lead tail = n

/-- A first byte and its followers are read as the character of their number. -/
theorem Encodes.decode_append {n : Nat} {lead : UInt8} {tail : List UInt8}
    (h : Encodes n lead tail) (bs : List UInt8) :
    decode (lead :: (tail ++ bs)) = Char.ofNat n :: decode bs := by
  obtain ⟨ranges, hlead, hfollow⟩ := h.sequence
  have hlength := hfollow.length_eq
  rw [decode, hlead]
  dsimp only
  rw [matched_of_follow hfollow, if_pos rfl, hlength, List.take_left, List.drop_left,
    h.codePoint_eq]

/-- A byte is in a range if it lies between the ends. -/
theorem ByteRange.has_iff {r : ByteRange} {b : UInt8} :
    r.has b = true ↔ r.low ≤ b.toNat ∧ b.toNat ≤ r.high := by
  rw [ByteRange.has, Bool.and_eq_true, decide_eq_true_eq, decide_eq_true_eq]

/-- The byte that holds six bits of a number behind the first byte. -/
def follower (n : Nat) : UInt8 :=
  UInt8.ofNat (n % 64 + 128)

/-- A follower holds six bits and the mark of a continuation. -/
theorem toNat_follower (n : Nat) : (follower n).toNat = n % 64 + 128 :=
  UInt8.toNat_ofNat_of_lt' (by have hsize : UInt8.size = 256 := rfl; omega)

/-- A follower is a continuation byte. -/
theorem has_follower (n : Nat) : continuation.has (follower n) = true := by
  have hn := toNat_follower n
  exact ByteRange.has_iff.2 ⟨by rw [hn]; exact Nat.le_add_left _ _, by
    change _ ≤ 0xBF
    omega⟩

/-- A follower is not in the range of the single bytes. -/
theorem le_toNat_follower (n : Nat) : 0x80 ≤ (follower n).toNat := by
  rw [toNat_follower]
  exact Nat.le_add_left _ _

/-- Numbers of seven bits are encoded by themselves. -/
theorem encodes_one {n : Nat} {lead : UInt8} (h : n < 0x80) (hlead : lead.toNat = n) :
    Encodes n lead [] := by
  refine ⟨⟨[], ?_, .nil⟩, hlead⟩
  unfold followers
  dsimp only
  rw [if_pos (by omega)]

/-- Numbers of eleven bits are encoded by a first byte and one follower. -/
theorem encodes_two {n : Nat} {lead : UInt8} (h : 0x80 ≤ n) (h' : n < 0x800)
    (hlead : lead.toNat = n / 64 + 192) : Encodes n lead [follower n] := by
  refine ⟨⟨[continuation], ?_, .cons (has_follower n) .nil⟩, ?_⟩
  · unfold followers
    dsimp only
    rw [if_neg (by omega), if_neg (by omega), if_pos (by omega)]
  · have hn := toNat_follower n
    change lead.toNat % 0x20 * 0x40 + (follower n).toNat % 0x40 = n
    omega

/-- The first follower of three bytes is neither overlong nor a surrogate: the first bytes `0xE0`
and `0xED` narrow its range. -/
theorem encodes_three {n : Nat} {lead : UInt8} (h : 0x800 ≤ n) (h' : n < 0x10000)
    (hscalar : n < 0xD800 ∨ 0xDFFF < n) (hlead : lead.toNat = n / 4096 + 224) :
    Encodes n lead [follower (n / 64), follower n] := by
  have hmid := toNat_follower (n / 64)
  constructor
  · have hfirst : ∃ r, followers lead = some [r, continuation] ∧
        r.has (follower (n / 64)) = true := by
      unfold followers
      dsimp only
      rw [if_neg (by omega), if_neg (by omega), if_neg (by omega)]
      by_cases hlong : lead.toNat = 0xE0
      · rw [if_pos hlong]
        exact ⟨_, rfl, ByteRange.has_iff.2 (by dsimp only; omega)⟩
      rw [if_neg hlong]
      by_cases hsurrogate : lead.toNat = 0xED
      · rw [if_pos hsurrogate]
        exact ⟨_, rfl, ByteRange.has_iff.2 (by dsimp only; omega)⟩
      rw [if_neg hsurrogate, if_pos (by omega)]
      exact ⟨_, rfl, has_follower _⟩
    obtain ⟨r, hranges, hhas⟩ := hfirst
    exact ⟨_, hranges, .cons hhas (.cons (has_follower n) .nil)⟩
  · have hn := toNat_follower n
    change (lead.toNat % 0x10 * 0x40 + (follower (n / 64)).toNat % 0x40) * 0x40 +
      (follower n).toNat % 0x40 = n
    omega

/-- The first follower of four bytes is neither overlong nor too large. -/
theorem encodes_four {n : Nat} {lead : UInt8} (h : 0x10000 ≤ n) (h' : n < 0x110000)
    (hlead : lead.toNat = n / 262144 + 240) :
    Encodes n lead [follower (n / 4096), follower (n / 64), follower n] := by
  have hhigh := toNat_follower (n / 4096)
  constructor
  · have hfirst : ∃ r, followers lead = some [r, continuation, continuation] ∧
        r.has (follower (n / 4096)) = true := by
      unfold followers
      dsimp only
      rw [if_neg (by omega), if_neg (by omega), if_neg (by omega), if_neg (by omega),
        if_neg (by omega), if_neg (by omega)]
      by_cases hlong : lead.toNat = 0xF0
      · rw [if_pos hlong]
        exact ⟨_, rfl, ByteRange.has_iff.2 (by dsimp only; omega)⟩
      rw [if_neg hlong]
      by_cases hplain : lead.toNat < 0xF4
      · rw [if_pos hplain]
        exact ⟨_, rfl, has_follower _⟩
      rw [if_neg hplain, if_pos (by omega)]
      exact ⟨_, rfl, ByteRange.has_iff.2 (by dsimp only; omega)⟩
    obtain ⟨r, hranges, hhas⟩ := hfirst
    exact ⟨_, hranges, .cons hhas (.cons (has_follower _) (.cons (has_follower n) .nil))⟩
  · have hmid := toNat_follower (n / 64)
    have hn := toNat_follower n
    change ((lead.toNat % 0x08 * 0x40 + (follower (n / 4096)).toNat % 0x40) * 0x40 +
      (follower (n / 64)).toNat % 0x40) * 0x40 + (follower n).toNat % 0x40 = n
    omega

/-- A character of seven bits is encoded by one byte. -/
theorem utf8EncodeChar_of_ascii {c : Char} (h : c.toNat < 0x80) :
    String.utf8EncodeChar c = [UInt8.ofNat c.toNat] ∧ (UInt8.ofNat c.toNat).toNat = c.toNat := by
  have hsize : UInt8.size = 256 := rfl
  exact ⟨if_pos (by change c.toNat ≤ 127; omega), UInt8.toNat_ofNat_of_lt' (by omega)⟩

/-- A character that is not ASCII is a first byte and followers, none of which is ASCII. -/
theorem exists_encodes_followers {c : Char} (h : 0x80 ≤ c.toNat) :
    ∃ (lead : UInt8) (ns : List Nat), String.utf8EncodeChar c = lead :: ns.map follower ∧
      Encodes c.toNat lead (ns.map follower) ∧ 0x80 ≤ lead.toNat := by
  have hscalar : c.toNat < 0xD800 ∨ 0xDFFF < c.toNat ∧ c.toNat < 0x110000 := c.valid
  have hsize : UInt8.size = 256 := rfl
  have hone : ¬ c.val.toNat ≤ 127 := by change ¬ c.toNat ≤ 127; omega
  by_cases htwo : c.toNat ≤ 2047
  · have hlead : (UInt8.ofNat (c.toNat / 64 % 32 + 192)).toNat = c.toNat / 64 % 32 + 192 :=
      UInt8.toNat_ofNat_of_lt' (by omega)
    have hbytes : String.utf8EncodeChar c = UInt8.ofNat (c.toNat / 64 % 32 + 192) ::
        [c.toNat].map follower := (if_neg hone).trans (if_pos htwo)
    exact ⟨_, _, hbytes, encodes_two h (by omega) (by omega), by omega⟩
  by_cases hthree : c.toNat ≤ 65535
  · have hlead : (UInt8.ofNat (c.toNat / 4096 % 16 + 224)).toNat = c.toNat / 4096 % 16 + 224 :=
      UInt8.toNat_ofNat_of_lt' (by omega)
    have hbytes : String.utf8EncodeChar c = UInt8.ofNat (c.toNat / 4096 % 16 + 224) ::
        [c.toNat / 64, c.toNat].map follower :=
      (if_neg hone).trans ((if_neg htwo).trans (if_pos hthree))
    exact ⟨_, _, hbytes, encodes_three (by omega) (by omega) (by omega) (by omega), by omega⟩
  · have hlead : (UInt8.ofNat (c.toNat / 262144 % 8 + 240)).toNat = c.toNat / 262144 % 8 + 240 :=
      UInt8.toNat_ofNat_of_lt' (by omega)
    have hbytes : String.utf8EncodeChar c = UInt8.ofNat (c.toNat / 262144 % 8 + 240) ::
        [c.toNat / 4096, c.toNat / 64, c.toNat].map follower :=
      (if_neg hone).trans ((if_neg htwo).trans (if_neg hthree))
    exact ⟨_, _, hbytes, encodes_four (by omega) (by omega) (by omega), by omega⟩

/-- The bytes of a character are read as the character. -/
theorem decode_utf8EncodeChar (c : Char) (bs : List UInt8) :
    decode (String.utf8EncodeChar c ++ bs) = c :: decode bs := by
  have hchar : Char.ofNat c.toNat = c := Char.ofNat_toNat c
  by_cases hascii : c.toNat < 0x80
  · obtain ⟨hbytes, hlead⟩ := utf8EncodeChar_of_ascii hascii
    rw [hbytes]
    exact ((encodes_one hascii hlead).decode_append bs).trans (by rw [hchar])
  · obtain ⟨lead, ns, hbytes, hencodes, -⟩ := exists_encodes_followers (Nat.le_of_not_lt hascii)
    rw [hbytes]
    exact (hencodes.decode_append bs).trans (by rw [hchar])

/-- An ASCII byte is the byte of an ASCII character. -/
theorem toNat_of_mem_utf8EncodeChar {c : Char} {b : UInt8} (h : b ∈ String.utf8EncodeChar c)
    (hb : b.toNat < 0x80) : b.toNat = c.toNat := by
  by_cases hascii : c.toNat < 0x80
  · obtain ⟨hbytes, hlead⟩ := utf8EncodeChar_of_ascii hascii
    rw [hbytes] at h
    rw [List.mem_singleton.1 h, hlead]
  · obtain ⟨lead, ns, hbytes, -, hhigh⟩ := exists_encodes_followers (Nat.le_of_not_lt hascii)
    rw [hbytes] at h
    rcases List.mem_cons.1 h with rfl | hmem
    · omega
    · obtain ⟨n, -, rfl⟩ := List.mem_map.1 hmem
      have hn := le_toNat_follower n
      omega

/-- A text that is encoded is read as that text, whatever follows it. -/
theorem decode_encode_append (cs : List Char) (bs : List UInt8) :
    decode (encode cs ++ bs) = cs ++ decode bs := by
  induction cs with
  | nil => rfl
  | cons c cs ih =>
    rw [encode_cons, List.append_assoc, decode_utf8EncodeChar, ih, List.cons_append]

/-- A line feed among the bytes of a text is one of the text. -/
theorem lineFeed_notMem_encode {cs : List Char} (h : '\n' ∉ cs) : (0x0A : UInt8) ∉ encode cs := by
  intro hmem
  obtain ⟨c, hc, hb⟩ := List.mem_flatMap.1 hmem
  have hnumber : (0x0A : UInt8).toNat = c.toNat := toNat_of_mem_utf8EncodeChar hb (by decide)
  have hfeed : c = '\n' := Char.toNat_inj.1 hnumber.symm
  exact h (hfeed ▸ hc)

end PclXl.Text.Utf8
