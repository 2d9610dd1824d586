/-!
# Where a pattern first occurs

The first place in a sequence of bytes at which a pattern starts, among the places before a given
bound. Only the start of the pattern has to lie before the bound, but the whole pattern has to be
there.
-/

namespace PclXl.Bytes

/-- The first of the next `bound` places at which `pattern` starts, where the bytes begin at
`place`. -/
def firstFrom? (pattern : List UInt8) (place : Nat) : Nat → List UInt8 → Option Nat
  | 0, _ => none
  | _ + 1, [] => none
  | bound + 1, b :: bs =>
    if pattern.isPrefixOf (b :: bs) then some place
    else firstFrom? pattern (place + 1) bound bs

/-- The least `i < bound` at which `pattern` starts. -/
def firstWithin? (pattern : List UInt8) (bound : Nat) (bs : List UInt8) : Option Nat :=
  firstFrom? pattern 0 bound bs

theorem firstFrom?_eq (pattern : List UInt8) (place bound : Nat) (bs : List UInt8) :
    firstFrom? pattern place bound bs = (firstWithin? pattern bound bs).map (· + place) := by
  unfold firstWithin?
  induction bs generalizing place bound with
  | nil => cases bound <;> rfl
  | cons b bs ih =>
    cases bound with
    | zero => rfl
    | succ bound =>
      simp only [firstFrom?]
      split
      · simp
      · rw [ih (place + 1), ih (0 + 1), Option.map_map]
        congr 1
        funext i
        simp only [Function.comp_apply]
        omega

@[simp] theorem firstWithin?_zero (pattern bs : List UInt8) : firstWithin? pattern 0 bs = none := by
  cases bs <;> rfl

@[simp] theorem firstWithin?_nil (pattern : List UInt8) (bound : Nat) :
    firstWithin? pattern bound [] = none := by
  cases bound <;> rfl

theorem firstWithin?_cons (pattern : List UInt8) (bound : Nat) (b : UInt8) (bs : List UInt8) :
    firstWithin? pattern (bound + 1) (b :: bs) =
      if pattern <+: b :: bs then some 0 else (firstWithin? pattern bound bs).map (· + 1) := by
  rw [firstWithin?, firstFrom?, firstFrom?_eq]
  simp only [List.isPrefixOf_iff_prefix]

/-- No place is found exactly when the pattern starts at no place before the bound. -/
theorem firstWithin?_eq_none_iff {pattern : List UInt8} {bound : Nat} {bs : List UInt8} :
    firstWithin? pattern bound bs = none ↔
      ∀ i < bound, i < bs.length → ¬ pattern <+: bs.drop i := by
  induction bs generalizing bound with
  | nil => simp
  | cons b bs ih =>
    cases bound with
    | zero => simp
    | succ bound =>
      by_cases h : pattern <+: b :: bs
      · simp only [firstWithin?_cons, h, if_true, reduceCtorEq, false_iff]
        intro hall
        exact hall 0 (by omega) (by simp) (by simpa using h)
      · simp only [firstWithin?_cons, h, if_false, Option.map_eq_none_iff, ih]
        constructor
        · intro hall i hi hl
          cases i with
          | zero => simpa using h
          | succ i => simpa using hall i (by omega) (by simpa using hl)
        · intro hall i hi hl
          simpa using hall (i + 1) (by omega) (by simpa using hl)

/-- The place that is found is the least one at which the pattern starts. -/
theorem firstWithin?_eq_some_iff {pattern : List UInt8} {bound : Nat} {bs : List UInt8} {i : Nat} :
    firstWithin? pattern bound bs = some i ↔
      i < bound ∧ i < bs.length ∧ pattern <+: bs.drop i ∧ ∀ j < i, ¬ pattern <+: bs.drop j := by
  induction bs generalizing bound i with
  | nil => simp
  | cons b bs ih =>
    cases bound with
    | zero => simp
    | succ bound =>
      by_cases h : pattern <+: b :: bs
      · simp only [firstWithin?_cons, h, if_true, Option.some.injEq]
        constructor
        · rintro rfl
          simpa using h
        · rintro ⟨-, -, -, hleast⟩
          cases i with
          | zero => rfl
          | succ i => exact absurd (by simpa using h) (hleast 0 (by omega))
      · simp only [firstWithin?_cons, h, if_false, Option.map_eq_some_iff, ih]
        constructor
        · rintro ⟨k, ⟨hk, hl, hp, hleast⟩, rfl⟩
          refine ⟨by omega, by simpa using hl, by simpa using hp, fun j hj => ?_⟩
          cases j with
          | zero => simpa using h
          | succ j => simpa using hleast j (by omega)
        · rintro ⟨hi, hl, hp, hleast⟩
          cases i with
          | zero => exact absurd (by simpa using hp) h
          | succ i =>
            refine ⟨i, ⟨by omega, by simpa using hl, by simpa using hp, fun j hj => ?_⟩, rfl⟩
            simpa using hleast (j + 1) (by omega)

end PclXl.Bytes
