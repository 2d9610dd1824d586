import PclXl.Proofs.Scanning

/-!
# Operands read back

A value is read exactly where an operand of its data type is written and no job-end marker starts at
any byte of it. The bytes that are consumed are those of the operand, and the offsets in the value
are the places where its parts stand.
-/

namespace PclXl

open Cursor

/-- A size tag announces the type of a count exactly if it is the tag of one of the two widths. -/
theorem countType?_eq_some_iff {sizeTag : UInt8} {t : ElementType} :
    countType? sizeTag = some t ↔ ∃ w : FieldWidth, sizeTag = w.sizeTag ∧ t = w.countType := by
  unfold countType?
  constructor
  · intro h
    split at h
    · rename_i htag
      cases h
      exact ⟨.one, DataType.ofTag?_eq_some_iff.1 htag, rfl⟩
    · rename_i htag
      cases h
      exact ⟨.two, DataType.ofTag?_eq_some_iff.1 htag, rfl⟩
    · cases h
  · rintro ⟨w, rfl, rfl⟩
    cases w <;> decide

/-- A continuation runs on the result of what was read before. -/
theorem Reader.bind_of_ok {α β : Type} {r : Reader α} {f : α → Reader β} {c d : Cursor} {a : α}
    (h : r c = .ok a d) : (r >>= f) c = f a d := by
  change EStateM.bind r f c = _
  unfold EStateM.bind
  rw [h]

/-- The file offset of the cursor goes to the continuation. -/
theorem Reader.fileOffset_bind {β : Type} (f : Nat → Reader β) (c : Cursor) :
    (fileOffset >>= f) c = f c.fileOffset c :=
  bind_of_ok (fileOffset_eq_ok_iff.2 ⟨rfl, rfl⟩)

/-- A result that is changed afterwards comes from one that is read. -/
theorem Reader.map_eq_ok_iff {α β : Type} {r : Reader α} {f : α → β} {c c' : Cursor} {b : β} :
    (f <$> r) c = .ok b c' ↔ ∃ a, r c = .ok a c' ∧ f a = b := by
  change EStateM.map f r c = _ ↔ _
  unfold EStateM.map
  cases hr : r c with
  | ok a d =>
    simp only [EStateM.Result.ok.injEq]
    constructor
    · rintro ⟨rfl, rfl⟩
      exact ⟨a, ⟨rfl, rfl⟩, rfl⟩
    · rintro ⟨a', ⟨rfl, rfl⟩, rfl⟩
      exact ⟨rfl, rfl⟩
  | error i d =>
    simp only [reduceCtorEq, false_iff]
    rintro ⟨a, h, -⟩
    cases h

namespace Reader

/-- The elements of an array as they are read behind the count: bytes as one block, other numbers
one by one. -/
def elements (element countType : ElementType) (count : Nat) : Reader ArrayValue := do
  let dataOffset ← fileOffset
  if element = .ubyte then
    let raw ← take count
    return ⟨element, countType, raw.map .ubyte, some raw, dataOffset⟩
  else
    let items ← numbers element count
    return ⟨element, countType, items, none, dataOffset⟩

/-- The array of an operand whose first byte stands at a cursor, as it is read behind the count. -/
theorem elements_eq_ok_iff {element countType : ElementType} {count : Nat} {a : ArrayValue}
    {c c' : Cursor} :
    elements element countType count c = .ok a c' ↔
      (∃ raw : List UInt8, element = .ubyte ∧ raw.length = count ∧ c.Holds raw ∧
        a = ⟨.ubyte, countType, raw.map .ubyte, some raw, c.fileOffset⟩ ∧
        c' = c.advance raw.length) ∨
      (∃ items : List Number, element ≠ .ubyte ∧ items.length = count ∧
        (∀ x ∈ items, x.elementType = element) ∧ c.Holds (items.flatMap (·.bytes c.order)) ∧
        a = ⟨element, countType, items, none, c.fileOffset⟩ ∧
        c' = c.advance (items.flatMap (·.bytes c.order)).length) := by
  unfold elements
  rw [fileOffset_bind]
  by_cases he : element = .ubyte
  · rw [if_pos he, bind_eq_ok_iff]
    constructor
    · rintro ⟨raw, d, htake, hpure⟩
      obtain ⟨rfl, hholds, rfl⟩ := take_eq_ok_iff.1 htake
      obtain ⟨rfl, rfl⟩ := pure_eq_ok_iff.1 hpure
      exact .inl ⟨raw, he, rfl, hholds, by rw [he], rfl⟩
    · rintro (⟨raw, -, rfl, hholds, rfl, rfl⟩ | ⟨items, hne, -⟩)
      · exact ⟨raw, _, take_eq_ok_iff.2 ⟨rfl, hholds, rfl⟩, pure_eq_ok_iff.2 ⟨by rw [he], rfl⟩⟩
      · exact absurd he hne
  · rw [if_neg he, bind_eq_ok_iff]
    constructor
    · rintro ⟨items, d, hitems, hpure⟩
      obtain ⟨rfl, rfl⟩ := pure_eq_ok_iff.1 hpure
      obtain ⟨rfl, htyped, hholds, rfl⟩ := numbers_eq_ok_iff.1 hitems
      exact .inr ⟨items, he, rfl, htyped, hholds, rfl, rfl⟩
    · rintro (⟨raw, heq, -⟩ | ⟨items, -, rfl, htyped, hholds, rfl, rfl⟩)
      · exact absurd heq he
      · exact ⟨items, _, numbers_eq_ok_iff.2 ⟨rfl, htyped, hholds, rfl⟩,
          pure_eq_ok_iff.2 ⟨rfl, rfl⟩⟩

/-- In front of the elements stand a size tag and the count in its width. -/
theorem array_eq_ok_iff {element : ElementType} {a : ArrayValue} {c c' : Cursor} :
    array element c = .ok a c' ↔ ∃ (w : FieldWidth) (count : Nat), count < ByteOrder.limit w.size ∧
      c.Holds (w.sizeTag :: c.order.bytes w.size count) ∧
      elements element w.countType count (c.advance (1 + w.size)) = .ok a c' := by
  unfold array
  rw [fileOffset_bind, bind_eq_ok_iff]
  constructor
  · rintro ⟨tag, d, hpeek, h⟩
    obtain ⟨htag, rfl⟩ := peek_eq_ok_iff.1 hpeek
    cases hcount : countType? tag with
    | none =>
      rw [hcount] at h
      exact absurd h fail_ne_ok
    | some countType =>
      rw [hcount] at h
      obtain ⟨w, rfl, rfl⟩ := countType?_eq_some_iff.1 hcount
      obtain ⟨b, d, hbyte, h⟩ := bind_eq_ok_iff.1 h
      obtain ⟨-, rfl⟩ := byte_eq_ok_iff.1 hbyte
      obtain ⟨count, d, hword, h⟩ := bind_eq_ok_iff.1 h
      obtain ⟨hlt, hholds, rfl⟩ := word_eq_ok_iff.1 hword
      rw [FieldWidth.width_countType] at hlt hholds h
      rw [advance_advance] at h
      exact ⟨w, count, hlt, holds_cons.2 ⟨htag, hholds⟩, h⟩
  · rintro ⟨w, count, hlt, hholds, h⟩
    obtain ⟨htag, hcount⟩ := holds_cons.1 hholds
    have htype : countType? w.sizeTag = some w.countType := countType?_eq_some_iff.2 ⟨w, rfl, rfl⟩
    have hbyte : byte c = .ok w.sizeTag (c.advance 1) := byte_eq_ok_iff.2 ⟨htag, rfl⟩
    have hword : word w.countType.width (c.advance 1) = .ok count (c.advance (1 + w.size)) := by
      rw [FieldWidth.width_countType]
      exact word_eq_ok_iff.2 ⟨hlt, hcount, (advance_advance _ _ _).symm⟩
    refine ⟨w.sizeTag, c, peek_eq_ok_iff.2 ⟨htag, rfl⟩, ?_⟩
    rw [htype]
    dsimp only
    rw [bind_of_ok hbyte, bind_of_ok hword]
    exact h

/-- An array is read exactly where an operand with elements of its type is written. -/
theorem array_eq_ok_iff_operand {element : ElementType} {a : ArrayValue} {c c' : Cursor} :
    array element c = .ok a c' ↔ ∃ o : Operand, o.dataType = ⟨.array, element⟩ ∧
      .array a = o.value c.fileOffset ∧ c.Holds (o.bytes c.order) ∧
      c' = c.advance (o.bytes c.order).length := by
  rw [array_eq_ok_iff]
  constructor
  · rintro ⟨w, count, hlt, hholds, h⟩
    have hoffset : (c.advance (1 + w.size)).fileOffset = c.fileOffset + 1 + w.size := by
      have h := hholds.fileOffset
      rw [ByteOrder.length_cons_bytes] at h
      omega
    rcases elements_eq_ok_iff.1 h with ⟨raw, rfl, rfl, hraw, rfl, rfl⟩ |
      ⟨items, hne, rfl, htyped, hitems, rfl, rfl⟩
    · refine ⟨.byteArray w raw hlt, rfl, by rw [hoffset]; rfl, ?_, ?_⟩
      · rw [← ByteOrder.length_cons_bytes c.order w.sizeTag w.size raw.length] at hraw
        exact holds_append.2 ⟨hholds, hraw⟩
      · rw [advance_advance, Operand.length_byteArray]
    · refine ⟨.array w element hne items htyped hlt, rfl, by rw [hoffset]; rfl, ?_, ?_⟩
      · rw [← ByteOrder.length_cons_bytes c.order w.sizeTag w.size items.length] at hitems
        exact holds_append.2 ⟨hholds, hitems⟩
      · rw [advance_advance, order_advance, Operand.length_array]
  · rintro ⟨o, htype, hvalue, hholds, rfl⟩
    cases o with
    | scalar x => cases hvalue
    | pair x y same => cases hvalue
    | quad p q r s same => cases hvalue
    | byteArray w raw fits =>
      cases htype
      cases hvalue
      have hparts : c.Holds ((w.sizeTag :: c.order.bytes w.size raw.length) ++ raw) := hholds
      obtain ⟨hcount, hraw⟩ := holds_append.1 hparts
      have hoffset := hcount.fileOffset
      rw [ByteOrder.length_cons_bytes] at hraw hoffset
      refine ⟨w, raw.length, fits, hcount, elements_eq_ok_iff.2 (.inl ⟨raw, rfl, rfl, hraw, ?_, ?_⟩)⟩
      · rw [hoffset, Nat.add_assoc]
      · rw [advance_advance, Operand.length_byteArray]
    | array w element other items typed fits =>
      cases htype
      cases hvalue
      have hparts : c.Holds ((w.sizeTag :: c.order.bytes w.size items.length) ++
          items.flatMap (·.bytes c.order)) := hholds
      obtain ⟨hcount, hitems⟩ := holds_append.1 hparts
      have hoffset := hcount.fileOffset
      rw [ByteOrder.length_cons_bytes] at hitems hoffset
      refine ⟨w, items.length, fits, hcount,
        elements_eq_ok_iff.2 (.inr ⟨items, other, rfl, typed, hitems, ?_, ?_⟩)⟩
      · rw [hoffset, Nat.add_assoc]
      · rw [advance_advance, order_advance, Operand.length_array]

/-- A single number is read exactly where one is written. -/
theorem scalar_eq_ok_iff {t : ElementType} {v : Value} {c c' : Cursor} :
    value ⟨.scalar, t⟩ c = .ok v c' ↔ ∃ o : Operand, o.dataType = ⟨.scalar, t⟩ ∧
      v = o.value c.fileOffset ∧ c.Holds (o.bytes c.order) ∧
      c' = c.advance (o.bytes c.order).length := by
  unfold value
  rw [bind_eq_ok_iff]
  constructor
  · rintro ⟨x, d, hx, hpure⟩
    obtain ⟨rfl, hholds, rfl⟩ := number_eq_ok_iff.1 hx
    obtain ⟨rfl, rfl⟩ := pure_eq_ok_iff.1 hpure
    exact ⟨.scalar x, rfl, rfl, hholds, rfl⟩
  · rintro ⟨o, htype, rfl, hholds, rfl⟩
    cases o with
    | scalar x =>
      cases htype
      exact ⟨x, _, number_eq_ok_iff.2 ⟨rfl, hholds, rfl⟩, pure_eq_ok_iff.2 ⟨rfl, rfl⟩⟩
    | _ => cases htype

/-- Two numbers are read exactly where two are written. -/
theorem pair_eq_ok_iff {t : ElementType} {v : Value} {c c' : Cursor} :
    value ⟨.pair, t⟩ c = .ok v c' ↔ ∃ o : Operand, o.dataType = ⟨.pair, t⟩ ∧
      v = o.value c.fileOffset ∧ c.Holds (o.bytes c.order) ∧
      c' = c.advance (o.bytes c.order).length := by
  unfold value
  simp only [bind_eq_ok_iff, pure_eq_ok_iff, number_eq_ok_iff]
  constructor
  · rintro ⟨x, d, ⟨rfl, hx, rfl⟩, y, e, ⟨hy, hholds, rfl⟩, rfl, rfl⟩
    refine ⟨.pair x y hy, rfl, rfl, holds_append.2 ⟨hx, hholds⟩, ?_⟩
    rw [advance_advance, order_advance, Operand.bytes, List.length_append]
  · rintro ⟨o, htype, rfl, hholds, rfl⟩
    cases o with
    | pair x y same =>
      cases htype
      obtain ⟨hx, hy⟩ := holds_append.1 hholds
      refine ⟨x, _, ⟨rfl, hx, rfl⟩, y, _, ⟨same, hy, rfl⟩, rfl, ?_⟩
      rw [advance_advance, order_advance, Operand.bytes, List.length_append]
    | _ => cases htype

/-- Four numbers are read exactly where four are written. -/
theorem quad_eq_ok_iff {t : ElementType} {v : Value} {c c' : Cursor} :
    value ⟨.quad, t⟩ c = .ok v c' ↔ ∃ o : Operand, o.dataType = ⟨.quad, t⟩ ∧
      v = o.value c.fileOffset ∧ c.Holds (o.bytes c.order) ∧
      c' = c.advance (o.bytes c.order).length := by
  unfold value
  simp only [bind_eq_ok_iff, pure_eq_ok_iff, number_eq_ok_iff]
  constructor
  · rintro ⟨a, d, ⟨rfl, ha, rfl⟩, b, e, ⟨tb, hb, rfl⟩, p, f, ⟨tp, hp, rfl⟩, q, g, ⟨tq, hq, rfl⟩,
      rfl, rfl⟩
    refine ⟨.quad a b p q ⟨tb, tp, tq⟩, rfl, rfl, holds_append.2 ⟨ha, holds_append.2 ⟨hb,
      holds_append.2 ⟨hp, hq⟩⟩⟩, ?_⟩
    simp only [advance_advance, order_advance, Operand.bytes, List.length_append, Nat.add_assoc]
  · rintro ⟨o, htype, rfl, hholds, rfl⟩
    cases o with
    | quad a b p q same =>
      cases htype
      obtain ⟨ha, hholds⟩ := holds_append.1 hholds
      obtain ⟨hb, hholds⟩ := holds_append.1 hholds
      obtain ⟨hp, hq⟩ := holds_append.1 hholds
      refine ⟨a, _, ⟨rfl, ha, rfl⟩, b, _, ⟨same.1, hb, rfl⟩, p, _, ⟨same.2.1, hp, rfl⟩, q, _,
        ⟨same.2.2, hq, rfl⟩, rfl, ?_⟩
      simp only [advance_advance, order_advance, Operand.bytes, List.length_append, Nat.add_assoc]
    | _ => cases htype

/-- A value of a data type is read exactly where an operand of that type is written. -/
theorem value_eq_ok_iff {t : DataType} {v : Value} {c c' : Cursor} :
    value t c = .ok v c' ↔ ∃ o : Operand, o.dataType = t ∧ v = o.value c.fileOffset ∧
      c.Holds (o.bytes c.order) ∧ c' = c.advance (o.bytes c.order).length := by
  obtain ⟨form, element⟩ := t
  cases form with
  | scalar => exact scalar_eq_ok_iff
  | pair => exact pair_eq_ok_iff
  | quad => exact quad_eq_ok_iff
  | array =>
    unfold value
    rw [bind_eq_ok_iff]
    constructor
    · rintro ⟨a, d, ha, hpure⟩
      obtain ⟨rfl, rfl⟩ := pure_eq_ok_iff.1 hpure
      obtain ⟨o, htype, hvalue, hholds, rfl⟩ := array_eq_ok_iff_operand.1 ha
      exact ⟨o, htype, hvalue, hholds, rfl⟩
    · rintro ⟨o, htype, rfl, hholds, rfl⟩
      have harray : ∃ a, o.value c.fileOffset = .array a := by
        cases o with
        | byteArray w raw fits => exact ⟨_, rfl⟩
        | array w element other items typed fits => exact ⟨_, rfl⟩
        | _ => cases htype
      obtain ⟨a, ha⟩ := harray
      exact ⟨a, _, array_eq_ok_iff_operand.2 ⟨o, htype, ha.symm, hholds, rfl⟩,
        pure_eq_ok_iff.2 ⟨ha.symm, rfl⟩⟩

end Reader

end PclXl
