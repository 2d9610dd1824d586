import Mathlib.Algebra.GroupWithZero.Nat
import PclXl.Proofs.ByteAccounting
import PclXl.Proofs.Twins

/-!
# Operands as blocks

The parts of an operand are read one behind the other: the size tag and the count of an array, then
the elements, those of an array of bytes all at once and other numbers one by one. What comes of it
can be said of the whole block of bytes. A job-end marker that starts anywhere in the block ends the
reading in front of it, whether it lies in one part or goes through several of them. Otherwise the
block is taken as a whole, unless bytes are lacking; then the first part that is not all there is
the one that is reported.
-/

namespace PclXl

open Cursor

/-- The numbers of a type that bytes hold, one behind the other. -/
def ElementType.numbersIn (t : ElementType) (order : ByteOrder) : Nat → List UInt8 → List Number
  | 0, _ => []
  | n + 1, bs =>
    Number.ofWord t (order.value (bs.take t.width)) :: numbersIn t order n (bs.drop t.width)

/-- The widths of the parts in which the elements of an operand are read. -/
def DataType.elementParts (t : DataType) (count : Nat) : List Nat :=
  if t = ⟨.array, .ubyte⟩ then [count] else List.replicate count t.element.width

/-- An operand of a data type has so many elements, behind parts of the given widths. -/
inductive Cursor.Announces (c : Cursor) : DataType → List Nat → Nat → Prop where
  /-- A single number. -/
  | scalar {t : ElementType} : Announces c ⟨.scalar, t⟩ [] 1
  /-- Two numbers. -/
  | pair {t : ElementType} : Announces c ⟨.pair, t⟩ [] 2
  /-- Four numbers. -/
  | quad {t : ElementType} : Announces c ⟨.quad, t⟩ [] 4
  /-- As many numbers as the count says, which stands behind its size tag. -/
  | array {t : ElementType} (w : FieldWidth) (tag : c.rest.head? = some w.sizeTag)
      (present : 1 + w.size ≤ c.rest.length) :
      Announces c ⟨.array, t⟩ [1, w.size] (c.order.value ((c.rest.drop 1).take w.size))

/-- The size tags tell the widths apart. -/
theorem FieldWidth.eq_of_sizeTag {w w' : FieldWidth} (h : w.sizeTag = w'.sizeTag) : w = w' := by
  revert h
  cases w <;> cases w' <;> decide

/-- One, two or four numbers are stored one behind the other, and are no array. -/
theorem Operand.numbers_of_form {o : Operand} (order : ByteOrder) (offset : Nat)
    (h : o.dataType.form ≠ .array) :
    (o.value offset).items.flatMap (·.bytes order) = o.bytes order ∧
    (∀ x ∈ (o.value offset).items, x.elementType = o.dataType.element) ∧
    ∀ a, o.value offset ≠ .array a := by
  cases o with
  | scalar x => simp [Operand.value, Value.items, Operand.bytes, Operand.dataType]
  | pair x y same => simp [Operand.value, Value.items, Operand.bytes, Operand.dataType, same]
  | quad p q r s same => simp [Operand.value, Value.items, Operand.bytes, Operand.dataType, same]
  | byteArray w raw fits => exact absurd rfl h
  | array w element other items typed fits => exact absurd rfl h

namespace Reader

/-- A reader takes the bytes of a block, which consists of parts of the given widths. -/
structure ReadsBlock {α : Type} (r : Reader α) (c : Cursor) (parts : List Nat) : Prop where
  /-- The first marker that starts in the block stops the reader in front of it. -/
  marker : ∀ i < parts.sum, c.Clear i → jobEndMarker <+: c.rest.drop i →
    r c = .error (.jobEnd (c.fileOffset + i)) (c.advance i)
  /-- Where no marker starts in the block and bytes are lacking, the reader stops in front of the
  first part that is not all there, for want of the rest of that part. -/
  short : c.Clear parts.sum → c.rest.length < parts.sum → ∃ front width behind,
    parts = front ++ width :: behind ∧ front.sum ≤ c.rest.length ∧
    c.rest.length < front.sum + width ∧
    r c = .error (.fault (.endOfStream (c.fileOffset + front.sum)
      (front.sum + width - c.rest.length))) (c.advance front.sum)
  /-- Otherwise the whole block is taken. -/
  whole : c.Clear parts.sum → parts.sum ≤ c.rest.length →
    ∃ a, r c = .ok a (c.advance parts.sum)

section Composition

variable {α β : Type} {r : Reader α} {f : α → Reader β} {c : Cursor} {parts others : List Nat}

/-- A reader that takes nothing reads the empty block. -/
theorem readsBlock_of_stay {a : α} (h : r c = .ok a c) : r.ReadsBlock c [] := by
  refine ⟨fun i hi => ?_, fun _ hshort => ?_, fun _ _ => ⟨a, ?_⟩⟩
  · exact absurd hi (Nat.not_lt_zero i)
  · exact absurd hshort (Nat.not_lt_zero _)
  · rw [List.sum_nil, advance_zero]
    exact h

/-- Blocks that follow each other are one block. -/
theorem ReadsBlock.bind (hr : r.ReadsBlock c parts)
    (hf : ∀ a, r c = .ok a (c.advance parts.sum) →
      (f a).ReadsBlock (c.advance parts.sum) others) : (r >>= f).ReadsBlock c (parts ++ others) := by
  have hrest : (c.advance parts.sum).rest = c.rest.drop parts.sum := rest_advance c _
  refine ⟨fun i hi hclear hmarker => ?_, fun hclear hshort => ?_, fun hclear hwhole => ?_⟩
  · rw [List.sum_append] at hi
    by_cases hfirst : i < parts.sum
    · exact bind_eq_error_iff.2 (.inl (hr.marker i hfirst hclear hmarker))
    · -- The marker lies in the second block, so that the first one is all there.
      have hlength := length_of_marker hmarker
      obtain ⟨j, rfl⟩ := Nat.exists_eq_add_of_le (Nat.le_of_not_lt hfirst)
      obtain ⟨hfront, hbehind⟩ := clear_add.1 hclear
      obtain ⟨a, ha⟩ := hr.whole hfront (by omega)
      have hnext := (hf a ha).marker j (by omega) hbehind (by rwa [hrest, List.drop_drop])
      rw [advance_advance, fileOffset_advance (by omega), Nat.add_assoc] at hnext
      exact bind_eq_error_iff.2 (.inr ⟨a, _, ha, hnext⟩)
  · rw [List.sum_append] at hclear hshort
    obtain ⟨hfront, hbehind⟩ := clear_add.1 hclear
    by_cases hfirst : c.rest.length < parts.sum
    · obtain ⟨front, width, behind, hparts, hle, hlt, herror⟩ := hr.short hfront hfirst
      refine ⟨front, width, behind ++ others, ?_, hle, hlt, bind_eq_error_iff.2 (.inl herror)⟩
      rw [hparts, List.append_assoc, List.cons_append]
    · obtain ⟨a, ha⟩ := hr.whole hfront (by omega)
      have hlength : (c.advance parts.sum).rest.length = c.rest.length - parts.sum := by
        rw [hrest, List.length_drop]
      obtain ⟨front, width, behind, hothers, hle, hlt, herror⟩ :=
        (hf a ha).short hbehind (by omega)
      rw [advance_advance, fileOffset_advance (by omega), Nat.add_assoc, hlength] at herror
      refine ⟨parts ++ front, width, behind, ?_, ?_, ?_, bind_eq_error_iff.2 (.inr ⟨a, _, ha, ?_⟩)⟩
      · rw [hothers, List.append_assoc]
      · rw [List.sum_append]
        omega
      · rw [List.sum_append]
        omega
      · have hneeded : parts.sum + front.sum + width - c.rest.length =
            front.sum + width - (c.rest.length - parts.sum) := by
          omega
        rw [List.sum_append, hneeded]
        exact herror
  · rw [List.sum_append] at hclear hwhole ⊢
    obtain ⟨hfront, hbehind⟩ := clear_add.1 hclear
    obtain ⟨a, ha⟩ := hr.whole hfront (by omega)
    have hlength : others.sum ≤ (c.advance parts.sum).rest.length := by
      rw [hrest, List.length_drop]
      omega
    obtain ⟨b, hb⟩ := (hf a ha).whole hbehind hlength
    rw [advance_advance] at hb
    exact ⟨b, bind_eq_ok_iff.2 ⟨a, _, ha, hb⟩⟩

/-- What is made of the result takes no further bytes. -/
theorem ReadsBlock.map (hr : r.ReadsBlock c parts) (g : α → β) :
    (r >>= fun a => pure (g a)).ReadsBlock c parts := by
  have hall : (r >>= fun a => pure (g a)).ReadsBlock c (parts ++ []) :=
    hr.bind fun a _ => readsBlock_of_stay rfl
  rwa [List.append_nil] at hall

/-- Looking at the place does not take bytes. -/
theorem ReadsBlock.behind_fileOffset {k : Nat → Reader β} (h : (k c.fileOffset).ReadsBlock c parts) :
    (fileOffset >>= k).ReadsBlock c parts :=
  ReadsBlock.bind (readsBlock_of_stay (fileOffset_eq_ok_iff.2 ⟨rfl, rfl⟩)) fun n hn => by
    rw [List.sum_nil, advance_zero] at hn ⊢
    rw [(fileOffset_eq_ok_iff.1 hn).1]
    exact h

end Composition

/-- A scanned read takes its bytes as one part. -/
theorem readsBlock_take (n : Nat) (c : Cursor) : (take n).ReadsBlock c [n] := by
  refine ⟨fun i hi hclear hmarker => ?_, fun hclear hshort => ?_, fun hclear hwhole => ?_⟩
  · exact bind_eq_error_iff.2 (.inl (stopAtJobEnd_of_lt hclear hmarker hi))
  · rw [List.sum_singleton] at hclear hshort
    refine ⟨[], n, [], rfl, Nat.zero_le _, by rw [List.sum_nil]; omega, ?_⟩
    rw [List.sum_nil, advance_zero, Nat.zero_add, Nat.add_zero]
    exact take_of_short (hclear.mono (Nat.le_of_lt hshort)) hshort
  · rw [List.sum_singleton] at hclear hwhole ⊢
    have hlength : (c.rest.take n).length = n := List.length_take_of_le hwhole
    refine ⟨c.rest.take n, take_eq_ok_iff.2 ⟨hlength, ⟨List.take_prefix n c.rest, ?_⟩, rfl⟩⟩
    rwa [hlength]

/-- A word is a block of its width. -/
theorem readsBlock_word (width : Nat) (c : Cursor) : (word width).ReadsBlock c [width] := by
  have hall : (word width).ReadsBlock c ([width] ++ []) :=
    (readsBlock_take width c).bind fun _ _ => readsBlock_of_stay rfl
  exact hall

/-- A byte is a block of one. -/
theorem readsBlock_byte (c : Cursor) : byte.ReadsBlock c [1] :=
  (readsBlock_word 1 c).map _

/-- A number is a block as wide as its type. -/
theorem readsBlock_number (t : ElementType) (c : Cursor) : (number t).ReadsBlock c [t.width] :=
  (readsBlock_word t.width c).map _

/-- Numbers that are read one by one make up one block. -/
theorem readsBlock_numbers (t : ElementType) (n : Nat) (c : Cursor) :
    (numbers t n).ReadsBlock c (List.replicate n t.width) := by
  induction n generalizing c with
  | zero => exact readsBlock_of_stay rfl
  | succ n ih => exact (readsBlock_number t c).bind fun x _ => (ih _).map _

/-- Elements are blocks as wide as their type, except that bytes are one block. -/
theorem readsBlock_elements (element countType : ElementType) (count : Nat) (c : Cursor) :
    (elements element countType count).ReadsBlock c
      (DataType.elementParts ⟨.array, element⟩ count) := by
  refine ReadsBlock.behind_fileOffset ?_
  unfold DataType.elementParts
  by_cases hbyte : element = .ubyte
  · rw [if_pos hbyte, if_pos (by rw [hbyte])]
    exact (readsBlock_take count c).map _
  · rw [if_neg hbyte, if_neg fun h => hbyte (congrArg DataType.element h)]
    exact (readsBlock_numbers element count c).map _

/-- A size tag is held where it stands, since the marker does not start with it. -/
theorem holds_sizeTag {c : Cursor} {w : FieldWidth} (h : c.rest.head? = some w.sizeTag) :
    c.Holds [w.sizeTag] := by
  obtain ⟨bs, hbs⟩ := List.head?_eq_some_iff.1 h
  refine ⟨⟨bs, hbs.symm⟩, fun i hi hmarker => ?_⟩
  have hzero : i = 0 := by
    rw [List.length_singleton] at hi
    omega
  rw [hzero, List.drop_zero, hbs] at hmarker
  have hfirst : (0x1B : UInt8) = w.sizeTag := (List.cons_prefix_cons.1 hmarker).1
  cases w with
  | one => exact absurd hfirst (by decide)
  | two => exact absurd hfirst (by decide)

/-- Behind its size tag an array is read as a count and elements. -/
theorem array_of_sizeTag (element : ElementType) {c : Cursor} {w : FieldWidth}
    (h : c.rest.head? = some w.sizeTag) :
    array element c =
      (byte >>= fun _ => word w.size >>= elements element w.countType) c := by
  have hpeek : peek c = .ok w.sizeTag c := peek_eq_ok_iff.2 ⟨holds_sizeTag h, rfl⟩
  have htype : countType? w.sizeTag = some w.countType := countType?_eq_some_iff.2 ⟨w, rfl, rfl⟩
  unfold array
  rw [fileOffset_bind, bind_of_ok hpeek, htype]
  dsimp only
  rw [FieldWidth.width_countType]
  rfl

/-- A count that is read is the number that its bytes stand for. -/
theorem eq_value_of_word {width n : Nat} {c d : Cursor} (h : word width c = .ok n d) :
    n = c.order.value (c.rest.take width) := by
  obtain ⟨hn, hholds, -⟩ := word_eq_ok_iff.1 h
  have htake := List.prefix_iff_eq_take.1 hholds.1
  rw [ByteOrder.length_bytes] at htake
  rw [← htake, c.order.value_bytes hn]

/-- An array has the blocks of its size in front of those of its elements. -/
theorem readsBlock_array (element : ElementType) {c : Cursor} {w : FieldWidth}
    (h : c.rest.head? = some w.sizeTag) :
    (array element).ReadsBlock c ([1, w.size] ++
      DataType.elementParts ⟨.array, element⟩ (c.order.value ((c.rest.drop 1).take w.size))) := by
  have hparts : (byte >>= fun _ => word w.size >>= elements element w.countType).ReadsBlock c
      ([1] ++ ([w.size] ++ DataType.elementParts ⟨.array, element⟩
        (c.order.value ((c.rest.drop 1).take w.size)))) := by
    refine (readsBlock_byte c).bind fun b _ => (readsBlock_word w.size _).bind fun n hn => ?_
    have hcount := eq_value_of_word hn
    rw [List.sum_singleton, order_advance, rest_advance] at hcount
    rw [hcount]
    exact readsBlock_elements element w.countType _ _
  have hsame := array_of_sizeTag element h
  refine ⟨fun i => ?_, ?_, ?_⟩
  · rw [hsame]
    exact hparts.marker i
  · rw [hsame]
    exact hparts.short
  · rw [hsame]
    exact hparts.whole

/-- An operand is read as the block of its parts. -/
theorem readsBlock_value {t : DataType} {c : Cursor} {lead : List Nat} {count : Nat}
    (h : c.Announces t lead count) : (value t).ReadsBlock c (lead ++ t.elementParts count) := by
  cases h with
  | scalar => exact (readsBlock_number _ c).map _
  | pair => exact (readsBlock_number _ c).bind fun x _ => (readsBlock_number _ _).map _
  | quad =>
    exact (readsBlock_number _ c).bind fun a _ => (readsBlock_number _ _).bind fun b _ =>
      (readsBlock_number _ _).bind fun p _ => (readsBlock_number _ _).map _
  | array w tag present => exact (readsBlock_array _ tag).map _

/-- Numbers whose bytes stand one behind the other are those that the bytes hold. -/
theorem numbersIn_of_isPrefix {t : ElementType} {order : ByteOrder} {xs : List Number}
    {bs : List UInt8} (htyped : ∀ x ∈ xs, x.elementType = t)
    (h : xs.flatMap (·.bytes order) <+: bs) : t.numbersIn order xs.length bs = xs := by
  induction xs generalizing bs with
  | nil => rfl
  | cons x xs ih =>
    have htype := htyped x (List.mem_cons_self ..)
    have hwidth : (x.bytes order).length = t.width := by
      rw [Number.length_bytes, htype]
    rw [List.flatMap_cons] at h
    obtain ⟨hfirst, hrest⟩ := append_prefix_iff.1 h
    rw [hwidth] at hrest
    have htake := List.prefix_iff_eq_take.1 hfirst
    rw [hwidth] at htake
    have hword : order.value (x.bytes order) = x.word := order.value_bytes x.word_lt
    rw [List.length_cons, ElementType.numbersIn, ← htake, hword, ← htype, Number.ofWord_word, htype,
      ih (fun y hy => htyped y (List.mem_cons_of_mem _ hy)) hrest]

/-- What a value says that was read as a block: `count` elements behind the bytes in front. -/
structure Yields (c : Cursor) (t : DataType) (lead count : Nat) (v : Value) : Prop where
  /-- It is a value of the data type. -/
  dataType_eq : v.dataType = t
  /-- Its elements are those that the bytes hold, in order. -/
  items_eq : v.items = t.element.numbersIn c.order count (c.rest.drop lead)
  /-- An array names the place of its first element. -/
  dataOffset_eq : ∀ a, v = .array a → a.dataOffset = c.fileOffset + lead
  /-- An array of bytes, and no other, keeps the bytes of its elements. -/
  raw_eq : ∀ a, v = .array a →
    a.raw = if t.element = .ubyte then some ((c.rest.drop lead).take count) else none

/-- The count of a written array is the one that its bytes stand for. -/
theorem count_of_isPrefix {c : Cursor} {w w' : FieldWidth} {n : Nat} {elements : List UInt8}
    (tag : c.rest.head? = some w.sizeTag) (fits : n < ByteOrder.limit w'.size)
    (h : w'.sizeTag :: (c.order.bytes w'.size n ++ elements) <+: c.rest) :
    w' = w ∧ c.order.value ((c.rest.drop 1).take w.size) = n ∧
      elements <+: c.rest.drop (1 + w.size) := by
  obtain ⟨behind, hbehind⟩ := h
  rw [← hbehind] at tag ⊢
  have hwidth : w' = w := FieldWidth.eq_of_sizeTag (Option.some.inj tag)
  have hlength := ByteOrder.length_bytes c.order w.size n
  rw [hwidth] at fits ⊢
  rw [List.cons_append, ← List.drop_drop, List.drop_succ_cons, List.drop_zero, List.append_assoc,
    List.take_left' hlength, List.drop_left' hlength]
  exact ⟨rfl, c.order.value_bytes fits, List.prefix_append _ _⟩

/-- One, two or four numbers that are read are those that the bytes hold. -/
theorem yields_of_form {c : Cursor} {o : Operand} {count : Nat} (h : o.dataType.form ≠ .array)
    (hcount : (o.value c.fileOffset).items.length = count) (hholds : c.Holds (o.bytes c.order)) :
    Yields c o.dataType 0 count (o.value c.fileOffset) := by
  obtain ⟨hbytes, htyped, hnone⟩ := Operand.numbers_of_form c.order c.fileOffset h
  have hstands := hholds.1
  rw [← hbytes] at hstands
  refine ⟨o.dataType_value _, ?_, fun a ha => absurd ha (hnone a), fun a ha => absurd ha (hnone a)⟩
  rw [List.drop_zero, ← hcount]
  exact (numbersIn_of_isPrefix htyped hstands).symm

/-- The elements of an array that is read are those that the bytes hold behind its count. -/
theorem yields_of_array {c : Cursor} {o : Operand} {w : FieldWidth}
    (hform : o.dataType.form = .array) (tag : c.rest.head? = some w.sizeTag)
    (hholds : c.Holds (o.bytes c.order)) : Yields c o.dataType (1 + w.size)
      (c.order.value ((c.rest.drop 1).take w.size)) (o.value c.fileOffset) := by
  cases o with
  | byteArray w' raw fits =>
    obtain ⟨rfl, hcount, hraw⟩ := count_of_isPrefix tag fits hholds.1
    rw [hcount]
    have htyped : ∀ x ∈ raw.map Number.ubyte, x.elementType = .ubyte := by
      intro x hx
      obtain ⟨b, -, rfl⟩ := List.mem_map.1 hx
      rfl
    have hitems : ElementType.numbersIn .ubyte c.order (raw.map Number.ubyte).length
        (c.rest.drop (1 + w'.size)) = raw.map .ubyte :=
      numbersIn_of_isPrefix htyped (by rwa [flatMap_bytes_ubyte])
    rw [List.length_map] at hitems
    refine ⟨rfl, hitems.symm, fun a ha => ?_, fun a ha => ?_⟩
    · cases ha
      exact Nat.add_assoc _ _ _
    · cases ha
      exact congrArg some (List.prefix_iff_eq_take.1 hraw)
  | array w' element other items typed fits =>
    obtain ⟨rfl, hcount, hitems⟩ := count_of_isPrefix tag fits hholds.1
    rw [hcount]
    refine ⟨rfl, (numbersIn_of_isPrefix typed hitems).symm, fun a ha => ?_, fun a ha => ?_⟩
    · cases ha
      exact Nat.add_assoc _ _ _
    · cases ha
      exact (if_neg other).symm
  | _ => cases hform

/-- A value that is read yields the elements of its block. -/
theorem yields_of_value {t : DataType} {c c' : Cursor} {lead : List Nat} {count : Nat} {v : Value}
    (h : c.Announces t lead count) (hv : value t c = .ok v c') : Yields c t lead.sum count v := by
  obtain ⟨o, htype, rfl, hholds, -⟩ := value_eq_ok_iff.1 hv
  cases h with
  | scalar =>
    rw [← htype]
    cases o with
    | scalar x => exact yields_of_form (by simp [Operand.dataType]) rfl hholds
    | _ => cases htype
  | pair =>
    rw [← htype]
    cases o with
    | pair x y same => exact yields_of_form (by simp [Operand.dataType]) rfl hholds
    | _ => cases htype
  | quad =>
    rw [← htype]
    cases o with
    | quad p q r s same => exact yields_of_form (by simp [Operand.dataType]) rfl hholds
    | _ => cases htype
  | array w tag present =>
    have hyields := yields_of_array (congrArg DataType.form htype) tag hholds
    rwa [htype] at hyields

/-- An array that cannot be read is no value. -/
theorem value_of_array_error {t : DataType} {c c' : Cursor} {i : Interrupt} (hform : t.form = .array)
    (h : array t.element c = .error i c') : value t c = .error i c' := by
  unfold value
  rw [hform]
  exact bind_eq_error_iff.2 (.inl h)

/-- A value is read as one block. The reading ends in front of the first marker that starts in it,
and else at the first part that is not all there; a block that is all there is taken exactly and
yields the elements that its bytes hold. An array whose size tag or count is not all there ends for
want of that. -/
theorem value_reads_block (t : DataType) (c : Cursor) :
    (∀ lead count, c.Announces t lead count →
      (value t).ReadsBlock c (lead ++ t.elementParts count) ∧
      ∀ v c', value t c = .ok v c' → Yields c t lead.sum count v) ∧
    (t.form = .array → c.rest = [] →
      value t c = .error (.fault (.endOfStream c.fileOffset 1)) c) ∧
    (t.form = .array → ∀ w : FieldWidth, c.rest.head? = some w.sizeTag →
      c.rest.length < 1 + w.size →
      value t c = .error (.fault (.endOfStream (c.fileOffset + 1) (1 + w.size - c.rest.length)))
        (c.advance 1)) := by
  refine ⟨fun lead count h => ⟨readsBlock_value h, fun v c' hv => yields_of_value h hv⟩,
    fun hform hrest => ?_, fun hform w tag hshort => ?_⟩
  · refine value_of_array_error hform ((fileOffset_bind _ c).trans ?_)
    exact bind_eq_error_iff.2 (.inl (peek_of_nil hrest))
  · have hpos : 1 ≤ c.rest.length := (holds_sizeTag tag).1.length_le
    have hlength : (c.advance 1).rest.length = c.rest.length - 1 := List.length_drop ..
    have hclear : (c.advance 1).Clear (c.advance 1).rest.length := fun i _ hmarker => by
      have hmarker := length_of_marker hmarker
      have hnine : jobEndMarker.length = 9 := rfl
      have hsize : w.size ≤ 2 := by cases w <;> decide
      omega
    have hbyte : byte c = .ok w.sizeTag (c.advance 1) := byte_eq_ok_iff.2 ⟨holds_sizeTag tag, rfl⟩
    have htake := take_of_short hclear (n := w.size) (by omega)
    have hneeded : 1 + w.size - c.rest.length = w.size - (c.rest.length - 1) := by omega
    rw [hlength, fileOffset_advance hpos] at htake
    refine value_of_array_error hform ?_
    rw [array_of_sizeTag _ tag, bind_of_ok hbyte, hneeded]
    exact bind_eq_error_iff.2 (.inl (bind_eq_error_iff.2 (.inl htake)))

/-- Two numbers of two bytes are announced and the last byte is lacking; in the other cursors there
is no size tag, and half a count. -/
theorem value_reads_block_cut :
    (Cursor.atStart [0xC0, 0x02, 0x05, 0x00, 0x07] .lowFirst 16).Announces ⟨.array, .uint16⟩
      [1, 1] 2 ∧
    (value ⟨.array, .uint16⟩).ReadsBlock
      (Cursor.atStart [0xC0, 0x02, 0x05, 0x00, 0x07] .lowFirst 16) [1, 1, 2, 2] ∧
    value ⟨.array, .uint16⟩ (Cursor.atStart [] .lowFirst 16) =
      .error (.fault (.endOfStream 16 1)) (Cursor.atStart [] .lowFirst 16) ∧
    value ⟨.array, .uint16⟩ (Cursor.atStart [0xC1, 0x05] .lowFirst 16) =
      .error (.fault (.endOfStream 17 1)) ((Cursor.atStart [0xC1, 0x05] .lowFirst 16).advance 1) :=
  have announces : (Cursor.atStart [0xC0, 0x02, 0x05, 0x00, 0x07] .lowFirst 16).Announces
      ⟨.array, .uint16⟩ [1, 1] 2 := .array .one rfl (by decide)
  ⟨announces, ((value_reads_block _ _).1 _ _ announces).1,
    (value_reads_block _ _).2.1 rfl rfl, (value_reads_block _ _).2.2 rfl .two rfl (by decide)⟩

end Reader

end PclXl
