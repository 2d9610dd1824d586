import Mathlib.Algebra.Order.Field.Power
import Mathlib.Algebra.Order.Field.Rat
import Mathlib.Tactic.FieldSimp
import Mathlib.Tactic.Linarith
import Mathlib.Tactic.NormNum
import Mathlib.Tactic.Positivity
import Mathlib.Tactic.Ring
import PclXl.Proofs.DecimalNumerals
import PclXl.Proofs.Scanning

/-!
# Real numbers in decimal

A real number of a stream is a rational number, unless its bits stand for an infinity or for no
number at all. Its text shows that rational number rounded to millionths: the integer of millionths
is the nearest one, and of two that are equally near it is the even one. The rounding is exact, since
every finite number is a natural number of units of one fixed negative power of two.
-/

namespace PclXl

open Text

namespace Numeric

/-- No integer is nearer to a rational number than a natural number is, and if another one is
equally near, the natural number is even. -/
structure NearestEven (q : ℚ) (n : ℕ) : Prop where
  /-- No integer is nearer. -/
  nearest : ∀ m : ℤ, |q - n| ≤ |q - m|
  /-- Of two integers that are equally near it is the even one. -/
  even : ∀ m : ℤ, m ≠ n → |q - m| = |q - n| → n % 2 = 0

/-- Away from a natural number at most half a unit away, every integer is at least half a unit
away. -/
theorem half_le_abs_sub {q : ℚ} {n : ℕ} {m : ℤ} (hle : |q - n| ≤ 1 / 2) (h : m ≠ n) :
    1 / 2 ≤ |q - m| := by
  obtain ⟨hlow, hhigh⟩ := abs_le.1 hle
  rcases Int.lt_or_gt_of_ne h with hbelow | habove
  · have hstep : (m : ℚ) + 1 ≤ n := by exact_mod_cast hbelow
    exact le_abs.2 (.inl (by linarith))
  · have hstep : (n : ℚ) + 1 ≤ m := by exact_mod_cast habove
    exact le_abs.2 (.inr (by linarith))

/-- A natural number at most half a unit away is the nearest one, if it is even wherever it is half
a unit away. -/
theorem nearestEven_of_le_half {q : ℚ} {n : ℕ} (hle : |q - n| ≤ 1 / 2)
    (heven : |q - n| = 1 / 2 → n % 2 = 0) : NearestEven q n := by
  refine ⟨fun m => ?_, fun m hm hequal => ?_⟩
  · by_cases hm : m = n
    · rw [hm, Int.cast_natCast]
    · exact hle.trans (half_le_abs_sub hle hm)
  · exact heven (le_antisymm hle (hequal ▸ half_le_abs_sub hle hm))

/-- There is only one such number: two even ones would have an integer halfway between them, which
would be nearer. -/
theorem NearestEven.unique {q : ℚ} {m n : ℕ} (hm : NearestEven q m) (hn : NearestEven q n) :
    m = n := by
  have hle := hm.nearest n
  have hge := hn.nearest m
  rw [Int.cast_natCast] at hle hge
  by_contra hne
  have hmeven := hm.even n (by omega) (by rw [Int.cast_natCast]; linarith)
  have hneven := hn.even m (by omega) (by rw [Int.cast_natCast]; linarith)
  obtain ⟨k, hk⟩ : ∃ k : ℕ, m + n = 2 * k := ⟨(m + n) / 2, by omega⟩
  have hsum : (m : ℚ) + n = 2 * k := by exact_mod_cast hk
  have hbetween := hm.nearest k
  rw [Int.cast_natCast] at hbetween
  rcases abs_eq_abs.1 (le_antisymm hle hge) with hsame | hopposite
  · have hcast : (m : ℚ) = n := by linarith
    exact hne (by exact_mod_cast hcast)
  · have hmiddle : q - k = 0 := by linarith
    rw [hmiddle, abs_zero] at hbetween
    have hzero := abs_nonpos_iff.1 hbetween
    have hcast : (m : ℚ) = n := by linarith
    exact hne (by exact_mod_cast hcast)

/-- A quotient that lies halfway between two integers leaves half of the divisor. -/
theorem twice_mod_eq {num den n : ℕ} (hpos : 0 < den) (h : 2 * num = (2 * n + 1) * den) :
    2 * (num % den) = den := by
  have hexpand : (2 * n + 1) * den = 2 * (den * n) + den := by
    rw [Nat.add_mul, Nat.one_mul, Nat.mul_assoc, Nat.mul_comm n den]
  obtain ⟨d, hd⟩ : ∃ d, num = d + den * n := ⟨num - den * n, by omega⟩
  have hden : den = 2 * d := by omega
  rw [hd, Nat.add_mul_mod_self_left, Nat.mod_eq_of_lt (by omega), ← hden]

/-- Rounding gives the nearest integer, and the even one of two. -/
theorem nearestEven_roundHalfEven {num den : ℕ} (hpos : 0 < den) :
    NearestEven ((num : ℚ) / den) (roundHalfEven num den) := by
  have hden : (0 : ℚ) < den := by exact_mod_cast hpos
  obtain ⟨hlow, hhigh⟩ : 2 * num ≤ (2 * roundHalfEven num den + 1) * den ∧
      2 * roundHalfEven num den * den ≤ 2 * num + den := roundHalfEven_within_half hpos
  have heven : 2 * (num % den) = den → roundHalfEven num den % 2 = 0 := roundHalfEven_even_of_half
  generalize roundHalfEven num den = n at *
  have hlow' : (2 : ℚ) * num ≤ (2 * n + 1) * den := by exact_mod_cast hlow
  have hhigh' : (2 : ℚ) * n * den ≤ 2 * num + den := by exact_mod_cast hhigh
  refine nearestEven_of_le_half (abs_le.2 ⟨?_, ?_⟩) fun hhalf => ?_
  · have hquotient : (n : ℚ) - 1 / 2 ≤ num / den := by
      rw [le_div_iff₀ hden]
      linarith
    linarith
  · have hquotient : (num : ℚ) / den ≤ n + 1 / 2 := by
      rw [div_le_iff₀ hden]
      linarith
    linarith
  · refine heven ?_
    rcases (abs_eq (by norm_num)).1 hhalf with habove | hbelow
    · have hquotient : (num : ℚ) / den = n + 1 / 2 := by linarith
      have hnum := (div_eq_iff hden.ne').1 hquotient
      have htwice : (2 : ℚ) * num = (2 * n + 1) * den := by linarith
      exact twice_mod_eq hpos (n := n) (by exact_mod_cast htwice)
    · have hquotient : (num : ℚ) / den = n - 1 / 2 := by linarith
      have hnum := (div_eq_iff hden.ne').1 hquotient
      have htwice : (2 : ℚ) * num + den = 2 * n * den := by linarith
      have htwice' : 2 * num + den = 2 * n * den := by exact_mod_cast htwice
      cases n with
      | zero => omega
      | succ k =>
        refine twice_mod_eq hpos (n := k) ?_
        have hexpand : 2 * (k + 1) * den = (2 * k + 1) * den + den := by ring
        omega

namespace Binary32

/-- The value of a number whose exponent is not the largest one. The smallest exponent has no
implied leading bit and the scale of the next one. -/
def value (x : Binary32) : ℚ :=
  (if x.isNegative then -1 else 1) *
    if x.exponentField = 0 then (2 : ℚ) ^ (-126 : ℤ) * (x.fraction / 2 ^ 23)
    else (2 : ℚ) ^ ((x.exponentField : ℤ) - 127) * (1 + x.fraction / 2 ^ 23)

/-- The magnitude of a number counts units of `2 ^ -150`. -/
theorem abs_value (x : Binary32) : |x.value| = x.magnitude / 2 ^ 150 := by
  have hsign : |(if x.isNegative then -1 else 1 : ℚ)| = 1 := by
    split
    · rw [abs_neg, abs_one]
    · exact abs_one
  unfold value magnitude significand
  rw [abs_mul, hsign, one_mul, Nat.shiftLeft_eq]
  by_cases hzero : x.exponentField = 0
  · rw [if_pos hzero, if_pos hzero, hzero, abs_of_nonneg (by positivity)]
    push_cast
    norm_num
    ring
  · have hmax : max 1 x.exponentField = x.exponentField := Nat.max_eq_right (by omega)
    rw [if_neg hzero, if_neg hzero, hmax, abs_of_nonneg (by positivity), zpow_sub₀ two_ne_zero,
      zpow_natCast]
    push_cast
    norm_num
    ring

/-- The millionths of a number are the nearest ones to its value. -/
theorem nearestEven_millionths (x : Binary32) :
    NearestEven (|x.value| * 10 ^ 6) x.millionths := by
  have hunits : |x.value| * (10 : ℚ) ^ 6 = ((x.magnitude * 1000000 : ℕ) : ℚ) / (1 <<< 150 : ℕ) := by
    rw [abs_value, Nat.shiftLeft_eq]
    push_cast
    ring
  rw [hunits]
  exact nearestEven_roundHalfEven (Nat.pos_of_ne_zero (by decide))

/-- The text shows a number of millionths: the numeral of the whole units, a point and the digits of
the six places behind it, all of it behind a minus sign or not. -/
def ShowsMillionths (negative : Bool) (n : ℕ) (text : String) : Prop :=
  ∃ front behind, text.toList = (if negative then ['-'] else []) ++ (front ++ '.' :: behind) ∧
    IsNumeral front (n / 10 ^ 6) ∧ FillsPlaces 6 behind (n % 10 ^ 6)

/-- The text of a finite number shows its millionths, with its sign. -/
theorem showsMillionths_text {x : Binary32} (h : x.exponentField ≠ 255) :
    ShowsMillionths x.isNegative x.millionths x.text := by
  have hfinite : x.isFinite = true := bne_iff_ne.2 h
  have hnumber : x.isNaN = false := by
    unfold isNaN
    rw [hfinite]
    rfl
  refine ⟨(decimal (x.millionths / 10 ^ 6)).toList,
    (paddedDecimal 6 '0' (x.millionths % 10 ^ 6)).toList, ?_, isNumeral_decimal _,
    fillsPlaces_paddedDecimal (by decide) (Nat.mod_lt _ (by decide))⟩
  unfold text
  rw [hnumber, if_neg Bool.false_ne_true, hfinite, if_pos rfl]
  simp only [String.toList_append, List.append_assoc]
  cases x.isNegative with
  | false => rfl
  | true => rfl

/-- The infinite numbers are shown by name, with their sign. -/
theorem text_infinite {x : Binary32} (hexponent : x.exponentField = 255) (h : x.fraction = 0) :
    x.text = if x.isNegative then "-inf" else "inf" := by
  unfold text isNaN isFinite
  rw [hexponent, h]
  cases x.isNegative with
  | false => rfl
  | true => rfl

/-- A bit pattern that is not a number is shown as such, without a sign. -/
theorem text_notANumber {x : Binary32} (hexponent : x.exponentField = 255) (h : x.fraction ≠ 0) :
    x.text = "NaN" := by
  have hfraction : (x.fraction != 0) = true := bne_iff_ne.2 h
  unfold text isNaN isFinite
  rw [hexponent, hfraction]
  rfl

end Binary32

end Numeric

namespace Reader

open Numeric

/-- The word that four bytes stand for. -/
def wordOfBytes : ByteOrder → UInt8 → UInt8 → UInt8 → UInt8 → ℕ
  | .lowFirst, a, b, c, d => a.toNat + 2 ^ 8 * b.toNat + 2 ^ 16 * c.toNat + 2 ^ 24 * d.toNat
  | .highFirst, a, b, c, d => 2 ^ 24 * a.toNat + 2 ^ 16 * b.toNat + 2 ^ 8 * c.toNat + d.toNat

/-- The value of four bytes in an order is the word that they make up. -/
theorem value_eq_wordOfBytes (order : ByteOrder) (a b c d : UInt8) :
    order.value [a, b, c, d] = wordOfBytes order a b c d := by
  cases order with
  | lowFirst =>
    simp only [ByteOrder.value, ByteOrder.lowFirstValue, wordOfBytes]
    omega
  | highFirst =>
    simp only [ByteOrder.value, List.reverse_cons, List.reverse_nil, List.nil_append,
      List.cons_append, ByteOrder.lowFirstValue, wordOfBytes]
    omega

/-- A real number that is read from four bytes has them as its bits. -/
theorem real_of_bytes {order : ByteOrder} {a b c d : UInt8} {x : Binary32}
    (hbits : x.bits.toNat = wordOfBytes order a b c d) :
    (Number.real32 x).bytes order = [a, b, c, d] := by
  have hword : (Number.real32 x).word = order.value [a, b, c, d] := by
    rw [value_eq_wordOfBytes]
    exact hbits
  rw [Number.bytes, hword]
  exact order.bytes_value [a, b, c, d]

/-- Any four bytes in either order are the bits of a real number. -/
theorem exists_real_of_bytes (order : ByteOrder) (a b c d : UInt8) :
    ∃ x : Binary32, x.bits.toNat = wordOfBytes order a b c d := by
  have hlt : order.value [a, b, c, d] < 2 ^ 32 := order.value_lt [a, b, c, d]
  rw [value_eq_wordOfBytes] at hlt
  exact ⟨⟨UInt32.ofNat (wordOfBytes order a b c d)⟩, UInt32.toNat_ofNat_of_lt' hlt⟩

/-- Four bytes alone can be read as a real number. -/
theorem number_real_atStart {order : ByteOrder} {a b c d : UInt8} {x : Binary32}
    (hbits : x.bits.toNat = wordOfBytes order a b c d) (base : ℕ) :
    number .real32 (.atStart [a, b, c, d] order base) =
      .ok (.real32 x) ((Cursor.atStart [a, b, c, d] order base).advance 4) := by
  refine number_eq_ok_iff.2 ⟨rfl, ?_, by rw [Number.length_bytes]; rfl⟩
  have hbytes := real_of_bytes hbits
  refine ⟨hbytes ▸ List.prefix_rfl, fun i hi hmarker => ?_⟩
  have hlength := hmarker.length_le
  have hmarkerLength : jobEndMarker.length = 9 := rfl
  have hrest : (Cursor.atStart [a, b, c, d] order base).rest.length = 4 := rfl
  rw [List.length_drop] at hlength
  omega

/-- Wherever they stand, they are read as that number, if they are read. -/
theorem number_real_eq {order : ByteOrder} {a b c d : UInt8} {x : Binary32} {r r' : Cursor}
    {n : Number} (hbits : x.bits.toNat = wordOfBytes order a b c d) (horder : r.order = order)
    (hbytes : [a, b, c, d] <+: r.rest) (hread : number .real32 r = .ok n r') : n = .real32 x := by
  obtain ⟨htype, hholds, -⟩ := number_eq_ok_iff.1 hread
  have hlength : (n.bytes r.order).length = 4 := by
    rw [Number.length_bytes, htype]
    rfl
  have hsame : n.bytes order = (Number.real32 x).bytes order := by
    rw [real_of_bytes hbits, ← horder]
    exact (List.prefix_of_prefix_length_le hholds.1 hbytes (le_of_eq hlength)).eq_of_length hlength
  have hword := congrArg order.value hsame
  unfold Number.bytes at hword
  rw [order.value_bytes n.word_lt, order.value_bytes (Number.real32 x).word_lt] at hword
  rw [← Number.ofWord_word n, ← Number.ofWord_word (.real32 x), htype, hword]
  rfl

/-- Real numbers are shown exactly rounded. Four bytes of a stream are read as the number that has
them as its bits. If it is finite, its text shows the nearest number of millionths to its magnitude,
the even one of two, behind a minus sign exactly if the sign bit is set. The infinities and what is
no number have texts of their own. -/
theorem real_shown_exactly (order : ByteOrder) (a b c d : UInt8) :
    ∃ x : Binary32, x.bits.toNat = wordOfBytes order a b c d ∧
      (∀ base, ∃ r, number .real32 (.atStart [a, b, c, d] order base) = .ok (.real32 x) r) ∧
      (∀ r r' n, r.order = order → [a, b, c, d] <+: r.rest →
        number .real32 r = .ok n r' → n = .real32 x) ∧
      (x.exponentField ≠ 255 → (∃! n, NearestEven (|x.value| * 10 ^ 6) n) ∧
        ∀ n, NearestEven (|x.value| * 10 ^ 6) n →
          Binary32.ShowsMillionths (x.bits.toNat.testBit 31) n (Number.real32 x).text) ∧
      (x.exponentField = 255 → x.fraction = 0 →
        (Number.real32 x).text = if x.bits.toNat.testBit 31 then "-inf" else "inf") ∧
      (x.exponentField = 255 → x.fraction ≠ 0 → (Number.real32 x).text = "NaN") := by
  obtain ⟨x, hbits⟩ := exists_real_of_bytes order a b c d
  have hsign : x.bits.toNat.testBit 31 = x.isNegative := by
    have hlt := x.bits.toNat_lt
    unfold Binary32.isNegative
    rw [Nat.testBit_eq_decide_div_mod_eq]
    exact decide_eq_decide.2 (by omega)
  refine ⟨x, hbits, fun base => ⟨_, number_real_atStart hbits base⟩,
    fun r r' n horder hbytes hread => number_real_eq hbits horder hbytes hread, fun hfinite => ?_,
    fun hexponent hfraction => ?_, fun hexponent hfraction => ?_⟩
  · have hmillionths := x.nearestEven_millionths
    refine ⟨⟨x.millionths, hmillionths, fun n hn => hn.unique hmillionths⟩, fun n hn => ?_⟩
    rw [hsign, hn.unique hmillionths]
    exact Binary32.showsMillionths_text hfinite
  · rw [hsign]
    exact Binary32.text_infinite hexponent hfraction
  · exact Binary32.text_notANumber hexponent hfraction

/-- The number `-2 ^ -7` lies halfway between two millionths, of which the even one is shown. -/
theorem real_shown_exactly_halfway :
    ∃ x : Binary32,
      (∃ r, number .real32 (.atStart [0x00, 0x00, 0x00, 0xBC] .lowFirst 0) = .ok (.real32 x) r) ∧
      Binary32.ShowsMillionths true 7812 (Number.real32 x).text ∧
      (Number.real32 x).text = "-0.007812" := by
  obtain ⟨x, hbits, hread, -, hfinite, -, -⟩ := real_shown_exactly .lowFirst 0x00 0x00 0x00 0xBC
  have hx : x = ⟨0xBC000000⟩ := congrArg Binary32.mk (UInt32.toNat_inj.1 hbits)
  have hmillionths : x.millionths = 7812 := by
    rw [hx]
    decide +kernel
  have hsign : x.bits.toNat.testBit 31 = true := by
    rw [hx]
    decide
  have hnearest := x.nearestEven_millionths
  have hshows := (hfinite (by rw [hx]; decide)).2 _ hnearest
  rw [hmillionths, hsign] at hshows
  refine ⟨x, hread 0, hshows, ?_⟩
  rw [hx]
  decide +kernel

end Reader

end PclXl
