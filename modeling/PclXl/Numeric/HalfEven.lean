/-!
# Rounding to the nearest integer, a half to the even neighbour

The quotient of two natural numbers is rounded from its integral part and its remainder. The result
is never more than half a unit away from the quotient, and where two integers are equally near it is
the even one.
-/

namespace PclXl.Numeric

/-- `num / den` rounded to the nearest integer; a half goes to the even neighbour. -/
def roundHalfEven (num den : Nat) : Nat :=
  let quotient := num / den
  let twice := 2 * (num % den)
  if twice < den then quotient
  else if den < twice then quotient + 1
  else quotient + quotient % 2

/-- The rounded number is at most half a unit away from the quotient. -/
theorem roundHalfEven_within_half {num den : Nat} (h : 0 < den) :
    2 * num ≤ (2 * roundHalfEven num den + 1) * den ∧
      2 * roundHalfEven num den * den ≤ 2 * num + den := by
  have hdiv := Nat.div_add_mod num den
  have hmod := Nat.mod_lt num h
  have heven : num / den % 2 = 0 ∨ num / den % 2 = 1 := by omega
  generalize hq : num / den = q at *
  generalize hr : num % den = r at *
  have expand : (2 * (q + 1) : Nat) * den = 2 * (den * q) + 2 * den := by
    rw [Nat.mul_add, Nat.add_mul, Nat.mul_assoc, Nat.mul_comm q den]
  have plain : (2 * q : Nat) * den = 2 * (den * q) := by
    rw [Nat.mul_assoc, Nat.mul_comm q den]
  simp only [roundHalfEven, hq, hr, Nat.add_mul, Nat.one_mul]
  split
  · omega
  · split
    · omega
    · rcases heven with he | he <;> simp only [he, Nat.add_zero] <;> omega

/-- A quotient halfway between two integers is rounded to an even number. -/
theorem roundHalfEven_even_of_half {num den : Nat} (h : 2 * (num % den) = den) :
    roundHalfEven num den % 2 = 0 := by
  simp only [roundHalfEven, h, Nat.lt_irrefl, if_false]
  omega

end PclXl.Numeric
