/-!
# Blank characters

The characters with the Unicode property `White_Space`, and the removal of blanks from the ends of
a text. The property has twenty-five members; every character of the ASCII class of the core
library is among them.
-/

namespace PclXl.Text

/-- The Unicode property `White_Space`. -/
def isBlank (c : Char) : Bool :=
  let n := c.toNat
  (0x09 ≤ n && n ≤ 0x0D) || n == 0x20 || n == 0x85 || n == 0xA0 || n == 0x1680 ||
    (0x2000 ≤ n && n ≤ 0x200A) || n == 0x2028 || n == 0x2029 || n == 0x202F ||
    n == 0x205F || n == 0x3000

/-- A text without the blanks at its start. -/
def trimLeft (cs : List Char) : List Char :=
  cs.dropWhile isBlank

/-- A text without its longest end of characters that satisfy `p`. -/
def dropWhileEnd (p : Char → Bool) (cs : List Char) : List Char :=
  (cs.reverse.dropWhile p).reverse

/-- A text without the blanks at its start and at its end. -/
def trim (cs : List Char) : List Char :=
  dropWhileEnd isBlank (trimLeft cs)

/-- A text that starts with no blank is not changed at its start. -/
theorem trimLeft_eq_self {cs : List Char} (h : ∀ c ∈ cs.head?, isBlank c = false) :
    trimLeft cs = cs := by
  cases cs with
  | nil => rfl
  | cons c cs => simp [trimLeft, h c (by simp)]

/-- A text that ends in no such character is not changed at its end. -/
theorem dropWhileEnd_eq_self {p : Char → Bool} {cs : List Char}
    (h : ∀ c ∈ cs.getLast?, p c = false) : dropWhileEnd p cs = cs := by
  rw [← List.head?_reverse] at h
  unfold dropWhileEnd
  generalize hr : cs.reverse = rs at h
  cases rs with
  | nil => simpa using hr.symm
  | cons c rs =>
    have hc := h c (by simp)
    rw [List.dropWhile_cons_of_neg (by simp [hc]), ← hr, List.reverse_reverse]

/-- Nothing is removed in front of a character that stays. -/
theorem exists_dropWhileEnd_append {p : Char → Bool} {as : List Char} (bs : List Char)
    (h : ∀ c ∈ as.getLast?, p c = false) : ∃ cs, dropWhileEnd p (as ++ bs) = as ++ cs := by
  have hself := dropWhileEnd_eq_self h
  unfold dropWhileEnd at hself ⊢
  rw [List.reverse_append, List.dropWhile_append]
  split
  · exact ⟨[], by rw [hself, List.append_nil]⟩
  · exact ⟨(bs.reverse.dropWhile p).reverse, by rw [List.reverse_append, List.reverse_reverse]⟩

end PclXl.Text
