import Mathlib.Algebra.GroupWithZero.Nat
import PclXl.Text.Numeral

/-!
# Decimal numerals read back

Counts, numbers and levels are written in decimal. The digits of a numeral stand for the number that
it was written for, none of them is superfluous, and so two numbers never have the same numeral.
-/

namespace PclXl.Text

/-- The characters are the decimal digits of a number, without superfluous zeros in front. -/
structure IsNumeral (cs : List Char) (n : Nat) : Prop where
  /-- There is at least one digit. -/
  ne_nil : cs ≠ []
  /-- Every character is a digit. -/
  digits : ∀ c ∈ cs, c.isDigit = true
  /-- The digits stand for the number. -/
  value_eq : Nat.ofDigitChars 10 cs 0 = n
  /-- A zero stands in front only if it is all there is. -/
  lead : cs.head? = some '0' → cs = ['0']

/-- The characters are as many decimal digits as there are places, and stand for a number. -/
structure FillsPlaces (places : Nat) (cs : List Char) (n : Nat) : Prop where
  /-- There is a digit for each place. -/
  length_eq : cs.length = places
  /-- Every character is a digit. -/
  digits : ∀ c ∈ cs, c.isDigit = true
  /-- The digits stand for the number. -/
  value_eq : Nat.ofDigitChars 10 cs 0 = n

/-- The digits of a number are decimal digits. -/
theorem isDigit_of_mem_digits {n : Nat} : ∀ c ∈ Nat.toDigits 10 n, c.isDigit = true :=
  fun _ hc => Nat.isDigit_of_mem_toDigits (by decide) (by decide) hc

/-- The digits of a number start with a zero only for zero itself. -/
theorem head?_digits_ne_zero {n : Nat} (h : 0 < n) : (Nat.toDigits 10 n).head? ≠ some '0' := by
  induction n using Nat.strongRecOn with
  | _ n ih =>
    rw [Nat.toDigits_eq_if (by decide)]
    split
    · rename_i hsmall
      have hall : ∀ d < 10, 0 < d → d.digitChar ≠ '0' := by decide
      intro hzero
      exact hall n hsmall h (Option.some.inj hzero)
    · rename_i hlarge
      have hfront := ih (n / 10) (by omega) (by omega)
      cases hdigits : Nat.toDigits 10 (n / 10) with
      | nil => exact absurd hdigits Nat.toDigits_ne_nil
      | cons c cs =>
        rw [hdigits] at hfront
        exact hfront

/-- The numeral of a number is one. -/
theorem isNumeral_decimal (n : Nat) : IsNumeral (decimal n).toList n := by
  unfold decimal
  rw [String.toList_ofList]
  refine ⟨Nat.toDigits_ne_nil, isDigit_of_mem_digits, Nat.ofDigitChars_ten_toDigits, fun hlead => ?_⟩
  cases n with
  | zero => exact Nat.toDigits_zero 10
  | succ n => exact absurd hlead (head?_digits_ne_zero (Nat.succ_pos n))

/-- Filled up with zeros, the numeral of a number that fits the places takes all of them. -/
theorem fillsPlaces_paddedDecimal {places n : Nat} (hplaces : 0 < places) (hn : n < 10 ^ places) :
    FillsPlaces places (paddedDecimal places '0' n).toList n := by
  have hlength : (Nat.toDigits 10 n).length ≤ places :=
    (Nat.length_toDigits_le_iff (by decide) hplaces).2 hn
  unfold paddedDecimal
  rw [String.toList_ofList]
  refine ⟨?_, fun c hc => ?_, ?_⟩
  · rw [List.length_leftpad]
    exact Nat.max_eq_left hlength
  · rw [List.leftpad] at hc
    rcases List.mem_append.1 hc with hzero | hdigit
    · rw [List.eq_of_mem_replicate hzero]
      rfl
    · exact isDigit_of_mem_digits c hdigit
  · rw [List.leftpad, Nat.ofDigitChars_append, Nat.ofDigitChars_replicate_zero, Nat.mul_zero,
      Nat.ofDigitChars_ten_toDigits]

/-- Numbers with the same numeral are the same. -/
theorem decimal_injective {m n : Nat} (h : decimal m = decimal n) : m = n := by
  rw [← (isNumeral_decimal m).value_eq, h, (isNumeral_decimal n).value_eq]

/-- A natural number is written as the integer that it is. -/
theorem signedDecimal_natCast (n : Nat) : signedDecimal n = decimal n := by
  rw [signedDecimal, if_neg (by omega), Int.natAbs_natCast]

/-- The numeral of an integer starts with a minus sign exactly if the integer is negative. -/
theorem head?_signedDecimal (i : Int) : (signedDecimal i).toList.head? = some '-' ↔ i < 0 := by
  unfold signedDecimal
  split
  · rename_i hneg
    rw [String.toList_append]
    exact iff_of_true rfl hneg
  · rename_i hnonneg
    refine iff_of_false (fun hminus => ?_) hnonneg
    have hdigit := (isNumeral_decimal i.natAbs).digits '-' (List.mem_of_mem_head? hminus)
    exact absurd hdigit (by decide)

/-- So are integers. -/
theorem signedDecimal_injective {i j : Int} (h : signedDecimal i = signedDecimal j) : i = j := by
  have hsign : i < 0 ↔ j < 0 := by rw [← head?_signedDecimal i, h, head?_signedDecimal j]
  have habs : decimal i.natAbs = decimal j.natAbs := by
    unfold signedDecimal at h
    by_cases hi : i < 0
    · rw [if_pos hi, if_pos (hsign.1 hi)] at h
      exact String.append_right_inj _ |>.1 h
    · rwa [if_neg hi, if_neg (mt hsign.2 hi)] at h
  have hnat := decimal_injective habs
  omega

/-- A numeral consists of digits, behind a minus sign if the integer is negative. -/
theorem mem_signedDecimal {i : Int} {c : Char} (h : c ∈ (signedDecimal i).toList) :
    c = '-' ∨ c.isDigit = true := by
  unfold signedDecimal at h
  split at h
  · rw [String.toList_append] at h
    rcases List.mem_append.1 h with hminus | hdigit
    · exact .inl (List.mem_singleton.1 hminus)
    · exact .inr ((isNumeral_decimal _).digits c hdigit)
  · exact .inr ((isNumeral_decimal _).digits c h)

end PclXl.Text
