import Mathlib.Data.List.Nodup
import PclXl.Proofs.ArrayDumps

/-!
# Attributes read back

The text of an attribute is a data type, a value and a name with a space between them. Neither a data
type nor a name has a space inside, so the first space and the last one tell the three apart. What
stands between them can be read once the data type and the name are known: between quotes stand the
bytes of an array, between brackets its numbers, a label starts with a letter and a number with a
digit or a minus sign.
-/

namespace PclXl

open Text Vocabulary

section Cuts

variable {c : Char} {as bs cs ds : List Char}

/-- A text is cut in one way only at the first place where a character stands. -/
theorem append_cons_inj_of_notMem_front (has : c ∉ as) (hbs : c ∉ bs)
    (h : as ++ c :: cs = bs ++ c :: ds) : as = bs ∧ cs = ds := by
  rcases List.append_eq_append_iff.1 h with ⟨es, rfl, hrest⟩ | ⟨es, rfl, hrest⟩
  · cases es with
    | nil => exact ⟨(List.append_nil as).symm, (List.cons.inj hrest).2⟩
    | cons e es =>
      refine absurd ?_ hbs
      rw [(List.cons.inj hrest).1]
      exact List.mem_append_right _ List.mem_cons_self
  · cases es with
    | nil => exact ⟨List.append_nil bs, (List.cons.inj hrest).2.symm⟩
    | cons e es =>
      refine absurd ?_ has
      rw [(List.cons.inj hrest).1]
      exact List.mem_append_right _ List.mem_cons_self

/-- So it is at the last place. -/
theorem append_cons_inj_of_notMem_back (hcs : c ∉ cs) (hds : c ∉ ds)
    (h : as ++ c :: cs = bs ++ c :: ds) : as = bs ∧ cs = ds := by
  have hreverse : cs.reverse ++ c :: as.reverse = ds.reverse ++ c :: bs.reverse := by
    have hboth := congrArg List.reverse h
    rwa [List.reverse_append, List.reverse_append, List.reverse_cons, List.reverse_cons,
      List.append_assoc, List.append_assoc] at hboth
  obtain ⟨hback, hfront⟩ := append_cons_inj_of_notMem_front (mt List.mem_reverse.1 hcs)
    (mt List.mem_reverse.1 hds) hreverse
  exact ⟨List.reverse_inj.1 hfront, List.reverse_inj.1 hback⟩

end Cuts

namespace Number

/-- The integer that a number is; reals count as none. -/
def integer? : Number → Option Int
  | ubyte v => some v.toNat
  | uint16 v => some v.toNat
  | uint32 v => some v.toNat
  | sint16 v => some v.toInt
  | sint32 v => some v.toInt
  | real32 _ => none

/-- Numbers that are not real have an integer. -/
theorem exists_integer {n : Number} (h : n.elementType ≠ .real32) : ∃ i, n.integer? = some i := by
  cases n with
  | real32 v => exact absurd rfl h
  | _ => exact ⟨_, rfl⟩

/-- An integer is written in decimal. -/
theorem text_of_integer? {n : Number} {i : Int} (h : n.integer? = some i) :
    n.text = signedDecimal i := by
  cases n with
  | ubyte v => exact Option.some.inj h ▸ (signedDecimal_natCast _).symm
  | uint16 v => exact Option.some.inj h ▸ (signedDecimal_natCast _).symm
  | uint32 v => exact Option.some.inj h ▸ (signedDecimal_natCast _).symm
  | sint16 v => exact congrArg signedDecimal (Option.some.inj h)
  | sint32 v => exact congrArg signedDecimal (Option.some.inj h)
  | real32 v => cases h

/-- The type and the integer determine a number. -/
theorem integer?_injective {m n : Number} {i : Int} (htype : m.elementType = n.elementType)
    (hm : m.integer? = some i) (hn : n.integer? = some i) : m = n := by
  have hsame := hm.trans hn.symm
  cases m <;> cases n <;> cases htype
  case ubyte.ubyte v w =>
    exact congrArg ubyte (UInt8.toNat_inj.1 (Int.ofNat.inj (Option.some.inj hsame)))
  case uint16.uint16 v w =>
    exact congrArg uint16 (UInt16.toNat_inj.1 (Int.ofNat.inj (Option.some.inj hsame)))
  case uint32.uint32 v w =>
    exact congrArg uint32 (UInt32.toNat_inj.1 (Int.ofNat.inj (Option.some.inj hsame)))
  case sint16.sint16 v w => exact congrArg sint16 (Int16.toInt_inj.1 (Option.some.inj hsame))
  case sint32.sint32 v w => exact congrArg sint32 (Int32.toInt_inj.1 (Option.some.inj hsame))
  case real32.real32 v w => cases hm

/-- A number with a natural value is that value. -/
theorem integer?_of_toUInt32? {n : Number} {v : UInt32} (h : n.toUInt32? = some v) :
    n.integer? = some (v.toNat : Int) := by
  have hsigned : ∀ i : Int, i < 2 ^ 32 →
      (if 0 ≤ i then some (UInt32.ofNat i.toNat) else none) = some v → i = v.toNat := by
    intro i hlt hi
    split at hi
    · have hsmall : i.toNat < 2 ^ 32 := by omega
      have hvalue : v.toNat = i.toNat := by
        rw [← Option.some.inj hi]
        exact UInt32.toNat_ofNat_of_lt' hsmall
      omega
    · cases hi
  cases n with
  | ubyte w => rw [← Option.some.inj h, UInt8.toNat_toUInt32, integer?]
  | uint16 w => rw [← Option.some.inj h, UInt16.toNat_toUInt32, integer?]
  | uint32 w => rw [← Option.some.inj h, integer?]
  | sint16 w => exact congrArg some (hsigned _ (by have := w.toInt_lt; omega) h)
  | sint32 w => exact congrArg some (hsigned _ (by have := w.toInt_lt; omega) h)
  | real32 w => cases h

/-- Integers of one type with the same text are the same. -/
theorem text_injective {m n : Number} (htype : m.elementType = n.elementType)
    (hinteger : m.elementType ≠ .real32) (h : m.text = n.text) : m = n := by
  obtain ⟨i, hi⟩ := exists_integer hinteger
  obtain ⟨j, hj⟩ := exists_integer (htype ▸ hinteger)
  rw [text_of_integer? hi, text_of_integer? hj] at h
  rw [← signedDecimal_injective h] at hj
  exact integer?_injective htype hi hj

/-- The text of an integer consists of digits, behind a minus sign perhaps. -/
theorem mem_text {n : Number} (hinteger : n.elementType ≠ .real32) {c : Char}
    (h : c ∈ n.text.toList) : c = '-' ∨ c.isDigit = true := by
  obtain ⟨i, hi⟩ := exists_integer hinteger
  rw [text_of_integer? hi] at h
  exact mem_signedDecimal h

/-- There is no space in the text of an integer. -/
theorem space_notMem_text {n : Number} (hinteger : n.elementType ≠ .real32) :
    ' ' ∉ n.text.toList :=
  fun hmem => absurd (mem_text hinteger hmem) (by decide)

end Number

/-- Numbers that are integers of one type. -/
def IntegersOf (t : ElementType) (xs : List Number) : Prop :=
  ∀ n ∈ xs, n.elementType = t ∧ n.elementType ≠ .real32

/-- Integers of one type are the same if their texts are. -/
theorem IntegersOf.map_text_injective {t : ElementType} {xs ys : List Number}
    (hxs : IntegersOf t xs) (hys : IntegersOf t ys) (h : xs.map Number.text = ys.map Number.text) :
    xs = ys := by
  induction xs generalizing ys with
  | nil => exact (List.map_eq_nil_iff.1 h.symm).symm
  | cons x xs ih =>
    cases ys with
    | nil => cases h
    | cons y ys =>
      obtain ⟨hfirst, hrest⟩ := List.cons.inj h
      obtain ⟨hx, hinteger⟩ := hxs x List.mem_cons_self
      have hy := (hys y List.mem_cons_self).1
      rw [Number.text_injective (hx.trans hy.symm) hinteger hfirst,
        ih (fun n hn => hxs n (List.mem_cons_of_mem _ hn))
          (fun n hn => hys n (List.mem_cons_of_mem _ hn)) hrest]

/-- The texts in a row come back where the row is split at its spaces. -/
theorem IntegersOf.splitOn_numberRow {t : ElementType} {xs : List Number} (hxs : IntegersOf t xs)
    (hne : xs ≠ []) : (numberRow xs).toList.splitOn ' ' = (xs.map Number.text).map String.toList := by
  have hnospace : ∀ cs ∈ (xs.map Number.text).map String.toList, ' ' ∉ cs := by
    intro cs hcs
    obtain ⟨s, hs, rfl⟩ := List.mem_map.1 hcs
    obtain ⟨n, hn, rfl⟩ := List.mem_map.1 hs
    exact Number.space_notMem_text (hxs n hn).2
  have hsome : (xs.map Number.text).map String.toList ≠ [] := by simpa using hne
  unfold numberRow
  rw [String.toList_intercalate]
  exact List.splitOn_intercalate ' ' hnospace hsome

/-- Rows of integers of one type with the same text are the same. -/
theorem IntegersOf.numberRow_injective {t : ElementType} {xs ys : List Number}
    (hxs : IntegersOf t xs) (hys : IntegersOf t ys) (hx : xs ≠ []) (hy : ys ≠ [])
    (h : numberRow xs = numberRow ys) : xs = ys := by
  have htexts := hxs.splitOn_numberRow hx
  rw [h, hys.splitOn_numberRow hy] at htexts
  exact hxs.map_text_injective hys
    ((List.map_injective_iff.2 fun _ _ => String.toList_inj.1) htexts).symm

/-- Numbers between brackets stand in a row. -/
theorem Options.bracketed_eq_of_ne_nil {xs : List Number} (h : xs ≠ []) :
    bracketed xs = "[ " ++ numberRow xs ++ " ]" := by
  unfold bracketed
  rw [if_neg (by simpa using h)]

/-- Brackets around no numbers leave no room for a row. -/
theorem Options.bracketed_ne_bracketed_nil {xs : List Number} (h : xs ≠ []) :
    bracketed xs ≠ bracketed [] := by
  intro heq
  have hlength := congrArg (fun s => s.toList.length) heq
  rw [bracketed_eq_of_ne_nil h] at hlength
  have hempty : (bracketed []).toList.length = 3 := by decide
  simp only [String.toList_append, List.length_append, hempty] at hlength
  have hopen : "[ ".toList.length = 2 := by decide
  have hclose : " ]".toList.length = 2 := by decide
  omega

/-- So are integers of one type between brackets. -/
theorem IntegersOf.bracketed_injective {t : ElementType} {xs ys : List Number}
    (hxs : IntegersOf t xs) (hys : IntegersOf t ys)
    (h : Options.bracketed xs = Options.bracketed ys) : xs = ys := by
  by_cases hx : xs = []
  · by_cases hy : ys = []
    · rw [hx, hy]
    · rw [hx] at h
      exact absurd h.symm (Options.bracketed_ne_bracketed_nil hy)
  · by_cases hy : ys = []
    · rw [hy] at h
      exact absurd h (Options.bracketed_ne_bracketed_nil hx)
    · rw [Options.bracketed_eq_of_ne_nil hx, Options.bracketed_eq_of_ne_nil hy] at h
      exact hxs.numberRow_injective hys hx hy
        ((String.append_right_inj _).1 ((String.append_left_inj _).1 h))

namespace DataType

/-- All data types. -/
def all : List DataType :=
  [Form.scalar, .pair, .quad, .array].flatMap fun form =>
    [ElementType.ubyte, .uint16, .uint32, .sint16, .sint32, .real32].map fun element =>
      ⟨form, element⟩

/-- The list of all data types misses none. -/
theorem mem_all (t : DataType) : t ∈ all := by
  obtain ⟨form, element⟩ := t
  cases form <;> cases element <;> decide

/-- Data types with the same keyword are the same. -/
theorem name_injective {t u : DataType} (h : t.name = u.name) : t = u := by
  have hnodup : (all.map name).Nodup := by decide +kernel
  exact List.inj_on_of_nodup_map hnodup t.mem_all u.mem_all h

end DataType

namespace Vocabulary

/-- Attributes with the same name have the same number. -/
theorem attributeName?_injective {m n : UInt16} {name : String}
    (hm : attributeName? m = some name) (hn : attributeName? n = some name) : m = n := by
  have hnodup : (attributes.map Prod.snd).Nodup := by decide +kernel
  exact congrArg Prod.fst
    (List.inj_on_of_nodup_map hnodup (mem_of_lookup hm) (mem_of_lookup hn) rfl)

/-- Values of one attribute with the same label are the same. -/
theorem label?_injective {name label : String} {v w : UInt32} (hv : label? name v = some label)
    (hw : label? name w = some label) : v = w := by
  have hnodup : ∀ entry ∈ enumerations, (entry.2.map Prod.snd).Nodup := by decide +kernel
  obtain ⟨members, hmembers, hv⟩ := Option.bind_eq_some_iff.1 hv
  obtain ⟨members', hmembers', hw⟩ := Option.bind_eq_some_iff.1 hw
  rw [hmembers] at hmembers'
  cases hmembers'
  exact congrArg Prod.fst (List.inj_on_of_nodup_map (hnodup _ (mem_of_lookup hmembers))
    (mem_of_lookup hv) (mem_of_lookup hw) rfl)

end Vocabulary

/-- Quoted bytes with the same text are the same. -/
theorem quoted_injective {xs ys : List UInt8}
    (h : String.ofList (xs.map fun b => Char.ofNat b.toNat) =
      String.ofList (ys.map fun b => Char.ofNat b.toNat)) : xs = ys := by
  refine List.map_injective_iff.2 (fun a b hchar => ?_) (String.ofList_inj.1 h)
  have hnumber := congrArg Char.toNat hchar
  rw [toNat_ofNat_byte, toNat_ofNat_byte] at hnumber
  exact UInt8.toNat_inj.1 hnumber

/-- What is known of an attribute that was read. -/
structure Attribute.Coherent (a : Attribute) : Prop where
  /-- The name is that of the number. -/
  name_eq : attributeName? a.number = some a.name
  /-- The label is that of the value, if it is a single number. -/
  label_eq : a.label = (a.value.scalar?.bind (·.toUInt32?)).bind (label? a.name)
  /-- The numbers have the type that the data type announces. -/
  typed : ∀ n ∈ a.value.items, n.elementType = a.value.dataType.element
  /-- Bytes are kept of arrays of bytes only. -/
  isSome_raw : ∀ v, a.value = .array v → (v.raw.isSome = true ↔ v.element = .ubyte)
  /-- They are the elements. -/
  items_eq : ∀ v raw, a.value = .array v → v.raw = some raw → v.items = raw.map .ubyte

/-- What is read from bytes is coherent. -/
theorem Attribute.IsRead.coherent {a : Attribute} (h : a.IsRead) : a.Coherent := by
  obtain ⟨w, offset, rfl⟩ := h
  have harray : ∀ v, w.operand.value (offset + 1) = .array v →
      (v.element = .ubyte ∧ ∃ raw, v.raw = some raw ∧ v.items = raw.map .ubyte) ∨
        (v.element ≠ .ubyte ∧ v.raw = none) := by
    intro v hv
    cases hw : w.operand with
    | byteArray width raw fits =>
      rw [hw] at hv
      rw [← Value.array.inj hv]
      exact .inl ⟨rfl, raw, rfl, rfl⟩
    | array width element other items typed fits =>
      rw [hw] at hv
      rw [← Value.array.inj hv]
      exact .inr ⟨other, rfl⟩
    | _ =>
      rw [hw] at hv
      cases hv
  refine ⟨w.known, rfl, ?_, fun v hv => ?_, fun v raw hv hraw => ?_⟩
  · unfold WrittenAttribute.token
    dsimp only
    cases w.operand with
    | scalar x => simp [Operand.value, Value.items, Value.dataType]
    | pair x y same => simp [Operand.value, Value.items, Value.dataType, same]
    | quad p q r s same => simp [Operand.value, Value.items, Value.dataType, same]
    | byteArray width raw fits =>
      intro n hn
      obtain ⟨b, -, rfl⟩ := List.mem_map.1 hn
      rfl
    | array width element other items typed fits => exact typed
  · rcases harray v hv with ⟨hubyte, raw, hraw, -⟩ | ⟨hother, hnone⟩
    · rw [hraw]
      exact iff_of_true rfl hubyte
    · rw [hnone]
      exact iff_of_false Bool.false_ne_true hother
  · rcases harray v hv with ⟨-, raw', hraw', hitems⟩ | ⟨-, hnone⟩
    · rw [hraw'] at hraw
      rw [hitems, Option.some.inj hraw]
    · rw [hnone] at hraw
      cases hraw

namespace Options

variable {o : Options}

/-- Without dumps an array is quoted or stands between brackets. -/
theorem arrayText_cases (hhex : o.dumpHex = false) (v : ArrayValue) :
    (∃ raw, v.raw = some raw ∧ o.arrayText v =
      "\"" ++ String.ofList (raw.map fun b => Char.ofNat b.toNat) ++ "\"") ∨
      o.arrayText v = bracketed v.items := by
  unfold arrayText
  cases hraw : v.raw with
  | none => exact .inr rfl
  | some raw =>
    dsimp only
    split
    · exact .inl ⟨raw, rfl, rfl⟩
    · rw [hhex, Bool.false_and, if_neg Bool.false_ne_true]
      exact .inr rfl

/-- Quotes are no brackets. -/
theorem quoted_ne_bracketed (text : String) (xs : List Number) :
    "\"" ++ text ++ "\"" ≠ bracketed xs := by
  have hopen : (bracketed xs).toList.head? = some '[' := by
    unfold bracketed
    split
    · rfl
    · simp
  intro heq
  rw [← heq] at hopen
  simp at hopen

/-- Arrays of integers that have one text have the same elements, if there are no dumps. -/
theorem arrayText_injective (hhex : o.dumpHex = false) {v w : ArrayValue} {t : ElementType}
    (hv : ∀ raw, v.raw = some raw → v.items = raw.map .ubyte)
    (hw : ∀ raw, w.raw = some raw → w.items = raw.map .ubyte)
    (hvs : IntegersOf t v.items) (hws : IntegersOf t w.items)
    (h : o.arrayText v = o.arrayText w) : v.items = w.items := by
  rcases arrayText_cases hhex v with ⟨xs, hxs, hvtext⟩ | hvtext
  · rcases arrayText_cases hhex w with ⟨ys, hys, hwtext⟩ | hwtext
    · rw [hvtext, hwtext] at h
      rw [hv xs hxs, hw ys hys,
        quoted_injective ((String.append_right_inj _).1 ((String.append_left_inj _).1 h))]
    · rw [hvtext, hwtext] at h
      exact absurd h (quoted_ne_bracketed _ _)
  · rcases arrayText_cases hhex w with ⟨ys, hys, hwtext⟩ | hwtext
    · rw [hvtext, hwtext] at h
      exact absurd h.symm (quoted_ne_bracketed _ _)
    · rw [hvtext, hwtext] at h
      exact hvs.bracketed_injective hws h

/-- A single number is shown by its label or by itself. -/
theorem valueText_scalar_cases (o : Options) (n : Number) (label : Option String) :
    (∃ l, label = some l ∧ o.valueText (.scalar n) label = l) ∨
      o.valueText (.scalar n) label = n.text := by
  unfold valueText
  cases label with
  | none => exact .inr rfl
  | some l =>
    dsimp only
    split
    · exact .inl ⟨l, rfl, rfl⟩
    · exact .inr rfl

/-- A label is not the text of an integer. -/
theorem label_ne_text {name label : String} {value : UInt32} (h : label? name value = some label)
    {n : Number} (hinteger : n.elementType ≠ .real32) : label ≠ n.text := by
  intro heq
  have hletter := List.mem_of_mem_head? (Vocabulary.label_spelling h).2
  rw [heq] at hletter
  exact absurd (Number.mem_text hinteger hletter) (by decide)

/-- So have single integers of one data type, shown as labels or not. -/
theorem scalarText_injective {m n : Number} {name : String}
    (htype : m.elementType = n.elementType) (hinteger : m.elementType ≠ .real32)
    (h : o.valueText (.scalar m) (m.toUInt32?.bind (label? name)) =
      o.valueText (.scalar n) (n.toUInt32?.bind (label? name))) : m = n := by
  rcases o.valueText_scalar_cases m (m.toUInt32?.bind (label? name)) with
    ⟨l, hl, hmtext⟩ | hmtext
  · obtain ⟨v, hv, hl⟩ := Option.bind_eq_some_iff.1 hl
    rcases o.valueText_scalar_cases n (n.toUInt32?.bind (label? name)) with
      ⟨l', hl', hntext⟩ | hntext
    · obtain ⟨v', hv', hl'⟩ := Option.bind_eq_some_iff.1 hl'
      rw [hmtext, hntext] at h
      rw [← h] at hl'
      rw [← label?_injective hl hl'] at hv'
      exact Number.integer?_injective htype (Number.integer?_of_toUInt32? hv)
        (Number.integer?_of_toUInt32? hv')
    · rw [hmtext, hntext] at h
      exact absurd h (label_ne_text hl (htype ▸ hinteger))
  · rcases o.valueText_scalar_cases n (n.toUInt32?.bind (label? name)) with
      ⟨l', hl', hntext⟩ | hntext
    · obtain ⟨v', -, hl'⟩ := Option.bind_eq_some_iff.1 hl'
      rw [hmtext, hntext] at h
      exact absurd h.symm (label_ne_text hl' hinteger)
    · rw [hmtext, hntext] at h
      exact Number.text_injective htype hinteger h

/-- Where the names and the data types of two attributes are the same, so are their integers if the
texts of their values are. -/
theorem items_eq_of_valueText_eq (hhex : o.dumpHex = false) {a b : Attribute} (ha : a.Coherent)
    (hb : b.Coherent) (hareal : ∀ n ∈ a.value.items, n.elementType ≠ .real32)
    (hbreal : ∀ n ∈ b.value.items, n.elementType ≠ .real32) (hname : a.name = b.name)
    (htype : a.value.dataType = b.value.dataType)
    (h : o.valueText a.value a.label = o.valueText b.value b.label) :
    a.value.items = b.value.items := by
  have hxs : IntegersOf a.value.dataType.element a.value.items :=
    fun n hn => ⟨ha.typed n hn, hareal n hn⟩
  have hys : IntegersOf a.value.dataType.element b.value.items :=
    fun n hn => ⟨(hb.typed n hn).trans (congrArg DataType.element htype).symm, hbreal n hn⟩
  rw [ha.label_eq, hb.label_eq, ← hname] at h
  cases hv : a.value <;> cases hw : b.value <;> rw [hv, hw] at htype h hys <;> rw [hv] at hxs <;>
    cases congrArg DataType.form htype
  case scalar.scalar m n =>
    have hm := hxs m List.mem_cons_self
    exact congrArg (fun n => [n]) (scalarText_injective (congrArg DataType.element htype) hm.2 h)
  case pair.pair =>
    exact hxs.numberRow_injective hys (List.cons_ne_nil _ _) (List.cons_ne_nil _ _) h
  case quad.quad =>
    exact hxs.numberRow_injective hys (List.cons_ne_nil _ _) (List.cons_ne_nil _ _) h
  case array.array v w =>
    exact arrayText_injective hhex (fun raw => ha.items_eq v raw hv) (fun raw => hb.items_eq w raw hw)
      hxs hys h

end Options

/-- A value apart from where its elements stand and how they were counted. -/
def Value.placeless : Value → Value
  | .array v => .array { v with countType := .ubyte, dataOffset := 0 }
  | v => v

/-- The data type does not depend on places. -/
@[simp] theorem Value.dataType_placeless (v : Value) : v.placeless.dataType = v.dataType := by
  cases v <;> rfl

/-- Neither does a single number. -/
@[simp] theorem Value.scalar?_placeless (v : Value) : v.placeless.scalar? = v.scalar? := by
  cases v <;> rfl

namespace Attribute

/-- An attribute apart from where it stands and how the elements of an array were counted. -/
def placeless (a : Attribute) : Attribute :=
  { a with value := a.value.placeless, offset := 0 }

/-- Places are not in the text. -/
theorem attributeText_placeless (o : Options) (a : Attribute) :
    o.attributeText a.placeless = o.attributeText a := by
  have hvalue : o.valueText a.value.placeless a.label = o.valueText a.value a.label := by
    cases a.value <;> rfl
  unfold Options.attributeText placeless
  rw [hvalue, Value.dataType_placeless]

/-- Arrays with the same elements have the same bytes. -/
theorem Coherent.raw_eq {a b : Attribute} (ha : a.Coherent) (hb : b.Coherent) {v w : ArrayValue}
    (hv : a.value = .array v) (hw : b.value = .array w) (helement : v.element = w.element)
    (hitems : v.items = w.items) : v.raw = w.raw := by
  have hsome : v.raw.isSome = true ↔ w.raw.isSome = true := by
    rw [ha.isSome_raw v hv, hb.isSome_raw w hw, helement]
  cases hvraw : v.raw with
  | none =>
    rw [hvraw] at hsome
    exact (Option.not_isSome_iff_eq_none.1 fun h => Bool.false_ne_true (hsome.2 h)).symm
  | some raw =>
    rw [hvraw] at hsome
    obtain ⟨raw', hwraw⟩ := Option.isSome_iff_exists.1 (hsome.1 rfl)
    rw [ha.items_eq v raw hv hvraw, hb.items_eq w raw' hw hwraw] at hitems
    rw [hwraw, List.map_injective_iff.2 (fun _ _ => Number.ubyte.inj) hitems]

/-- Beside its places an attribute that was read has nothing but its number, its data type and the
numbers of its value. -/
theorem Coherent.placeless_eq {a b : Attribute} (ha : a.Coherent) (hb : b.Coherent)
    (hnumber : a.number = b.number) (htype : a.value.dataType = b.value.dataType)
    (hitems : a.value.items = b.value.items) : a.placeless = b.placeless := by
  have hname : a.name = b.name := by
    have hname := ha.name_eq
    rw [hnumber, hb.name_eq] at hname
    exact (Option.some.inj hname).symm
  have hvalue : a.value.placeless = b.value.placeless := by
    cases hv : a.value <;> cases hw : b.value <;> rw [hv, hw] at htype hitems <;>
      cases congrArg DataType.form htype
    case scalar.scalar m n => exact congrArg Value.scalar (List.cons.inj hitems).1
    case pair.pair =>
      cases hitems
      rfl
    case quad.quad =>
      cases hitems
      rfl
    case array.array v w =>
      have helement : v.element = w.element := congrArg DataType.element htype
      have helements : v.items = w.items := hitems
      simp only [Value.placeless, helement, helements, ha.raw_eq hb hv hw helement hitems]
  have hlabel : a.label = b.label := by
    rw [ha.label_eq, hb.label_eq, hname, ← Value.scalar?_placeless, hvalue,
      Value.scalar?_placeless]
  unfold placeless
  rw [hnumber, hname, hvalue, hlabel]

end Attribute

/-- The attributes of a run were read, also those of an operator that was not completed. -/
theorem Session.isRead_of_mem_run {s : Session} (hphase : s.phase = .scanning) {a : Attribute}
    (ha : .attr a ∈ s.run.tokens) : a.IsRead := by
  have hall : ∀ t ∈ s.run.tokens, ∀ a, t = .attr a → a.IsRead := by
    refine forall_mem_run (fun _ => True) (fun _ _ _ _ _ => trivial)
      (fun s _ t ht a heq => ?_) (fun offset a heq => ?_) hphase trivial
    · rw [heq] at ht
      exact AttributeList.isRead_attributes _ a (mem_attributes_of_mem_pass ht)
    · cases heq
  exact hall _ ha a rfl

namespace Options

variable {o : Options}

/-- The characters of the text of an attribute. -/
theorem toList_attributeText (o : Options) (a : Attribute) : (o.attributeText a).toList =
    a.value.dataType.name.toList ++ ' ' ::
      ((o.valueText a.value a.label).toList ++ ' ' :: a.name.toList) := by
  unfold attributeText
  simp only [String.toList_append, List.append_assoc]
  rfl

/-- The text of an attribute is taken apart into its data type, the text of its value and its name. -/
theorem attributeText_injective {a b : Attribute} (ha : Word a.name) (hb : Word b.name)
    (h : o.attributeText a = o.attributeText b) : a.value.dataType = b.value.dataType ∧
      o.valueText a.value a.label = o.valueText b.value b.label ∧ a.name = b.name := by
  have hchars := congrArg String.toList h
  rw [toList_attributeText, toList_attributeText] at hchars
  obtain ⟨htype, hrest⟩ := append_cons_inj_of_notMem_front
    a.value.dataType.word_name.space_notMem b.value.dataType.word_name.space_notMem hchars
  obtain ⟨hvalue, hname⟩ := append_cons_inj_of_notMem_back ha.space_notMem hb.space_notMem hrest
  exact ⟨DataType.name_injective (String.toList_inj.1 htype), String.toList_inj.1 hvalue,
    String.toList_inj.1 hname⟩

/-- The text of an attribute identifies it where dumps are off and no number is a real. Two
attributes of runs have the same text if and only if they have the same number, the same data type
and the same numbers in their values; then they differ at most in their places in the file and in
the type of an array's count. -/
theorem attributeText_eq_iff (hhex : o.dumpHex = false) {s t : Session}
    (hs : s.phase = .scanning) (ht : t.phase = .scanning) {a b : Attribute}
    (ha : .attr a ∈ s.run.tokens) (hb : .attr b ∈ t.run.tokens)
    (hareal : ∀ n ∈ a.value.items, n.elementType ≠ .real32)
    (hbreal : ∀ n ∈ b.value.items, n.elementType ≠ .real32) :
    (o.attributeText a = o.attributeText b ↔ a.number = b.number ∧
      a.value.dataType = b.value.dataType ∧ a.value.items = b.value.items) ∧
    (o.attributeText a = o.attributeText b ↔ a.placeless = b.placeless) := by
  have hacoherent := (Session.isRead_of_mem_run hs ha).coherent
  have hbcoherent := (Session.isRead_of_mem_run ht hb).coherent
  have hread : o.attributeText a = o.attributeText b → a.number = b.number ∧
      a.value.dataType = b.value.dataType ∧ a.value.items = b.value.items := by
    intro h
    obtain ⟨htype, hvalue, hname⟩ := attributeText_injective
      (word_attributeName hacoherent.name_eq) (word_attributeName hbcoherent.name_eq) h
    refine ⟨attributeName?_injective hacoherent.name_eq (hname ▸ hbcoherent.name_eq), htype, ?_⟩
    exact items_eq_of_valueText_eq hhex hacoherent hbcoherent hareal hbreal hname htype hvalue
  have hsame : (a.number = b.number ∧ a.value.dataType = b.value.dataType ∧
      a.value.items = b.value.items) → a.placeless = b.placeless :=
    fun ⟨hnumber, htype, hitems⟩ => hacoherent.placeless_eq hbcoherent hnumber htype hitems
  have htext : a.placeless = b.placeless → o.attributeText a = o.attributeText b := by
    intro h
    rw [← a.attributeText_placeless o, h, b.attributeText_placeless o]
  exact ⟨⟨hread, fun h => htext (hsame h)⟩, fun h => hsame (hread h), htext⟩

/-- A comment of two letters, with a count of one byte. -/
def commentCountedByByte : List UInt8 :=
  [0xC8, 0xC0, 0x02, 0x41, 0x42, 0xF8, 0x81, 0x47]

/-- The same comment behind white space, with a count of two bytes. -/
def commentCountedByWord : List UInt8 :=
  [0x20, 0xC8, 0xC1, 0x02, 0x00, 0x41, 0x42, 0xF8, 0x81, 0x47]

/-- The two comments have the same text, so they are the same apart from their places and counts. -/
theorem attributeText_eq_iff_comments :
    ∃ a b : Attribute, .attr a ∈ (Session.onSample commentCountedByByte).run.tokens ∧
      .attr b ∈ (Session.onSample commentCountedByWord).run.tokens ∧ a ≠ b ∧
      ({ dumpHex := false } : Options).attributeText a = "ubyte_array \"AB\" CommentData" ∧
      ({ dumpHex := false } : Options).attributeText b = "ubyte_array \"AB\" CommentData" ∧
      a.placeless = b.placeless := by
  have ha : .attr ⟨129, "CommentData", .array ⟨.ubyte, .ubyte, [.ubyte 0x41, .ubyte 0x42],
      some [0x41, 0x42], 19⟩, none, 16⟩ ∈ (Session.onSample commentCountedByByte).run.tokens := by
    decide +kernel
  have hb : .attr ⟨129, "CommentData", .array ⟨.ubyte, .uint16, [.ubyte 0x41, .ubyte 0x42],
      some [0x41, 0x42], 21⟩, none, 17⟩ ∈ (Session.onSample commentCountedByWord).run.tokens := by
    decide +kernel
  exact ⟨_, _, ha, hb, by decide, by decide +kernel, by decide +kernel,
    (attributeText_eq_iff (o := { dumpHex := false }) rfl rfl rfl ha hb (by decide)
      (by decide)).2.1 (by decide +kernel)⟩

end Options

end PclXl
