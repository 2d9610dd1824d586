import PclXl.Proofs.OperatorReading

/-!
# Where reading fails

A fault is shown by the bytes at its place: an unknown code stands there, or the tag of what has the
wrong type or lacks an attribute. Where the bytes run out, the bytes in front are the beginning of an
operator, and what is wanted is its next field, of a width that the beginning lays down.

Every reader fails only in this way, with the cursor in front of the unknown code or of the field
that is not complete.
-/

namespace PclXl

open Cursor Vocabulary

/-- How many numbers a value of a form holds, where none counts them. -/
def Form.numbers : Form → Nat
  | scalar => 1
  | pair => 2
  | quad => 4
  | array => 0

/-- Behind some of `n` numbers of a type comes a further one. -/
structure NumbersAwait (order : ByteOrder) (t : ElementType) (n : Nat) (front : List UInt8)
    (width : Nat) : Prop where
  /-- A number has the width of its type. -/
  width_eq : width = t.width
  /-- Fewer numbers stand in front. -/
  written : ∃ xs : List Number, (∀ x ∈ xs, x.elementType = t) ∧ xs.length < n ∧
    front = xs.flatMap (·.bytes order)

/-- Behind the beginning of an operand of a data type comes a field of a width. -/
inductive Operand.Awaits (order : ByteOrder) : DataType → List UInt8 → Nat → Prop where
  /-- One of one, two or four numbers. -/
  | number {t : DataType} {front : List UInt8} {width : Nat}
      (h : NumbersAwait order t.element t.form.numbers front width) : Awaits order t front width
  /-- The size tag of an array. -/
  | sizeTag {element : ElementType} : Awaits order ⟨.array, element⟩ [] 1
  /-- The count of an array. -/
  | count {element : ElementType} (w : FieldWidth) :
      Awaits order ⟨.array, element⟩ [w.sizeTag] w.size
  /-- The bytes of an array of bytes. -/
  | raw (w : FieldWidth) (n : Nat) (fits : n < ByteOrder.limit w.size) :
      Awaits order ⟨.array, .ubyte⟩ (w.sizeTag :: order.bytes w.size n) n
  /-- An element of another array. -/
  | item {element : ElementType} {front : List UInt8} {width : Nat} (w : FieldWidth) (n : Nat)
      (fits : n < ByteOrder.limit w.size) (other : element ≠ .ubyte)
      (h : NumbersAwait order element n front width) :
      Awaits order ⟨.array, element⟩ (w.sizeTag :: (order.bytes w.size n ++ front)) width

/-- Behind the beginning of an attribute comes a field of a width. -/
inductive WrittenAttribute.Awaits (order : ByteOrder) : List UInt8 → Nat → Prop where
  /-- A part of the operand. -/
  | operand (t : DataType) {front : List UInt8} {width : Nat}
      (h : Operand.Awaits order t front width) : Awaits order (t.tag :: front) width
  /-- The tag in front of the number of the attribute. -/
  | numberTag (o : Operand) (gap : Space) :
      Awaits order (o.dataType.tag :: (o.bytes order ++ gap.bytes)) 1
  /-- The number of the attribute. -/
  | number (o : Operand) (gap : Space) (w : FieldWidth) :
      Awaits order (o.dataType.tag :: (o.bytes order ++ (gap.bytes ++ [w.numberTag]))) w.size

/-- Behind white space and attributes comes a field of a width. -/
inductive AttributeList.Awaits (order : ByteOrder) : List UInt8 → Nat → Prop where
  /-- The tag of a further attribute or of the operator. -/
  | tag (space : Space) (as : List WrittenAttribute) :
      Awaits order (space.bytes ++ WrittenAttribute.listBytes order as) 1
  /-- A part of a further attribute. -/
  | part (space : Space) (as : List WrittenAttribute) {front : List UInt8} {width : Nat}
      (h : WrittenAttribute.Awaits order front width) :
      Awaits order (space.bytes ++ (WrittenAttribute.listBytes order as ++ front)) width

/-- Behind the beginning of an operator comes a field of a width. -/
inductive Sequence.Awaits (order : ByteOrder) : List UInt8 → Nat → Prop where
  /-- A part of the attributes, or the tag of the operator. -/
  | list {front : List UInt8} {width : Nat} (h : AttributeList.Awaits order front width) :
      Awaits order front width
  /-- The length of the data block. -/
  | length (g : Heading) (source : PayloadSource) (announced : g.info.payload = some source) :
      Awaits order (g.stem order) source.lengthWidth
  /-- The body of the data block. -/
  | body (g : Heading) (source : PayloadSource) (n : Nat)
      (announced : g.info.payload = some source) (sized : source.Allows g.declared? n) :
      Awaits order (g.stem order ++ source.lengthField order n) n

/-- White space in front of more white space. -/
def Space.append (s t : Space) : Space where
  bytes := s.bytes ++ t.bytes
  blank := by
    intro b hb
    rcases List.mem_append.1 hb with hs | ht
    · exact s.blank b hs
    · exact t.blank b ht

/-- White space in front changes nothing. -/
theorem AttributeList.Awaits.behindSpace {order : ByteOrder} {front : List UInt8} {width : Nat}
    (s : Space) (h : Awaits order front width) : Awaits order (s.bytes ++ front) width := by
  cases h with
  | tag space as =>
    rw [← List.append_assoc]
    exact .tag (s.append space) as
  | part space as h =>
    rw [← List.append_assoc]
    exact .part (s.append space) as h

/-- Nor does an attribute in front. -/
theorem AttributeList.Awaits.behindAttribute {order : ByteOrder} {front : List UInt8} {width : Nat}
    (s : Space) (a : WrittenAttribute) (h : Awaits order front width) :
    Awaits order ((s.bytes ++ a.stem order) ++ front) width := by
  have hlist : ∀ (space : Space) (as : List WrittenAttribute) (tail : List UInt8),
      (s.bytes ++ a.stem order) ++ (space.bytes ++ (WrittenAttribute.listBytes order as ++ tail)) =
        s.bytes ++ (WrittenAttribute.listBytes order (a.withSpace space :: as) ++ tail) := by
    intro space as tail
    rw [WrittenAttribute.listBytes, WrittenAttribute.listBytes, List.flatMap_cons,
      WrittenAttribute.bytes_withSpace]
    simp only [List.append_assoc]
  cases h with
  | tag space as =>
    have htag := hlist space as []
    rw [List.append_nil, List.append_nil] at htag
    rw [htag]
    exact .tag s _
  | part space as h =>
    rw [hlist]
    exact .part s _ h

/-- A code stands at a place of some bytes that is none of its kind. -/
def CodeKind.ShownIn (order : ByteOrder) (bs : List UInt8) (place : Nat) (code : UInt16) :
    CodeKind → Prop
  | attributeTag => ∃ b, bs[place]? = some b ∧ code = b.toUInt16 ∧ b ≠ 0xF8 ∧ b ≠ 0xF9
  | arraySizeTag => ∃ b, bs[place]? = some b ∧ code = b.toUInt16 ∧ b ≠ 0xC0 ∧ b ≠ 0xC1
  | operatorTag => ∃ b, bs[place]? = some b ∧ code = b.toUInt16 ∧ ∀ info ∈ operators, info.tag ≠ b
  | attributeNumber => (∀ entry ∈ attributes, entry.1 ≠ code) ∧ ∃ w : FieldWidth, 0 < place ∧
      bs[place - 1]? = some w.numberTag ∧ place + w.size ≤ bs.length ∧
      code.toNat = order.value ((bs.drop place).take w.size)

/-- What stands at the place of a fault in some bytes is what the fault says. Where there is no
header, there is no such place. -/
def Fault.ShownIn (order : ByteOrder) (bs : List UInt8) (place : Nat) : Fault → Prop
  | missingHeader => False
  | unsupportedBinding _ found => bs[place]? = some found ∧ ByteOrder.ofMark? found = none
  | unknownCode _ code kind => kind.ShownIn order bs place code
  | typeMismatch _ name expected found => name = vendorLengthName ∧ expected = "uint32" ∧
      ∃ t : DataType, bs[place]? = some t.tag ∧ t.tag ≠ 0xC2 ∧ found = t.name
  | missingAttribute _ operatorName name => operatorName = "VendorUnique" ∧
      name = vendorLengthName ∧ bs[place]? = some 0x46
  | endOfStream _ needed => place ≤ bs.length ∧ 1 ≤ needed

/-- The fault leaves the cursor at its place. -/
def Fault.stays : Fault → Bool
  | unknownCode _ _ _ => true
  | endOfStream _ _ => true
  | _ => false

/-- A code that is shown behind some bytes is shown at a place so much further on. -/
theorem CodeKind.ShownIn.of_drop {order : ByteOrder} {bs : List UInt8} {n place : Nat}
    {code : UInt16} {kind : CodeKind} (h : kind.ShownIn order (bs.drop n) place code) :
    kind.ShownIn order bs (n + place) code := by
  cases kind with
  | attributeTag =>
    obtain ⟨b, hb, hcode⟩ := h
    rw [List.getElem?_drop] at hb
    exact ⟨b, hb, hcode⟩
  | arraySizeTag =>
    obtain ⟨b, hb, hcode⟩ := h
    rw [List.getElem?_drop] at hb
    exact ⟨b, hb, hcode⟩
  | operatorTag =>
    obtain ⟨b, hb, hcode⟩ := h
    rw [List.getElem?_drop] at hb
    exact ⟨b, hb, hcode⟩
  | attributeNumber =>
    obtain ⟨hunknown, w, hpos, htag, hle, hcode⟩ := h
    rw [List.getElem?_drop] at htag
    rw [List.length_drop] at hle
    rw [List.drop_drop] at hcode
    have hplace : n + (place - 1) = n + place - 1 := by omega
    have hsize : 0 < w.size := by cases w <;> decide
    rw [hplace] at htag
    exact ⟨hunknown, w, by omega, htag, by omega, hcode⟩

/-- The bytes in front do not matter. -/
theorem Fault.ShownIn.of_drop {order : ByteOrder} {bs : List UInt8} {n place : Nat} {f : Fault}
    (hn : n ≤ bs.length) (h : f.ShownIn order (bs.drop n) place) :
    f.ShownIn order bs (n + place) := by
  cases f with
  | missingHeader => cases h
  | unsupportedBinding offset found =>
    obtain ⟨hfound, hmark⟩ := h
    rw [List.getElem?_drop] at hfound
    exact ⟨hfound, hmark⟩
  | unknownCode offset code kind => exact CodeKind.ShownIn.of_drop h
  | typeMismatch offset name expected found =>
    obtain ⟨hname, hexpected, t, htag, hfound⟩ := h
    rw [List.getElem?_drop] at htag
    exact ⟨hname, hexpected, t, htag, hfound⟩
  | missingAttribute offset operatorName name =>
    obtain ⟨hoperator, hname, htag⟩ := h
    rw [List.getElem?_drop] at htag
    exact ⟨hoperator, hname, htag⟩
  | endOfStream offset needed =>
    obtain ⟨hle, hneeded⟩ := h
    rw [List.length_drop] at hle
    exact ⟨by omega, hneeded⟩

/-- Reading from a cursor stops with a fault behind some bytes. -/
structure Cursor.StopsBehind (c : Cursor) (f : Fault) (P : List UInt8 → Nat → Prop)
    (front : List UInt8) : Prop where
  /-- The bytes are held. -/
  holds : c.Holds front
  /-- The fault is shown by the bytes at its place. -/
  shown : ∃ i ≤ front.length, f.offset? = some (c.fileOffset + i) ∧ f.ShownIn c.order c.rest i
  /-- An unknown code and the end of the bytes lie where the reading stops. -/
  stays : f.stays = true → f.offset? = some (c.fileOffset + front.length)
  /-- Where the bytes run out, what is wanted is the field that comes next. -/
  awaits : ∀ offset needed, f = .endOfStream offset needed →
    ∃ width, P front width ∧ front.length + width = c.rest.length + needed

/-- Reading from a cursor fails at another one, where the next fields are described by `P`. -/
def Cursor.FailsAt (c : Cursor) (f : Fault) (d : Cursor) (P : List UInt8 → Nat → Prop) : Prop :=
  ∃ front, d = c.advance front.length ∧ c.StopsBehind f P front

namespace Cursor

/-- Reading fails behind what was read in front. -/
theorem FailsAt.behind {c d : Cursor} {f : Fault} {front : List UInt8}
    {P P' : List UInt8 → Nat → Prop} (hfront : c.Holds front)
    (h : (c.advance front.length).FailsAt f d P)
    (hP : ∀ x width, P x width → P' (front ++ x) width) : c.FailsAt f d P' := by
  obtain ⟨next, hd, hholds, ⟨i, hi, hoffset, hshown⟩, hstays, hawaits⟩ := h
  have hlength := hfront.length_le
  have hplace := hfront.fileOffset
  refine ⟨front ++ next, ?_, holds_append.2 ⟨hfront, hholds⟩, ⟨front.length + i, ?_, ?_, ?_⟩,
    fun hf => ?_, fun offset needed hf => ?_⟩
  · rw [hd, advance_advance, List.length_append]
  · rw [List.length_append]
    omega
  · rw [hoffset, hplace, Nat.add_assoc]
  · rw [rest_advance] at hshown
    exact hshown.of_drop hlength
  · rw [hstays hf, hplace, List.length_append, Nat.add_assoc]
  · obtain ⟨width, hwidth, hsum⟩ := hawaits offset needed hf
    rw [rest_advance, List.length_drop] at hsum
    refine ⟨width, hP next width hwidth, ?_⟩
    rw [List.length_append]
    omega

/-- What may be missing where a reader fails may be told more loosely. -/
theorem FailsAt.mono {c d : Cursor} {f : Fault} {P P' : List UInt8 → Nat → Prop}
    (h : c.FailsAt f d P) (hP : ∀ x width, P x width → P' x width) : c.FailsAt f d P' := by
  obtain ⟨front, hd, hholds, hshown, hstays, hawaits⟩ := h
  refine ⟨front, hd, hholds, hshown, hstays, fun offset needed hf => ?_⟩
  obtain ⟨width, hwidth, hsum⟩ := hawaits offset needed hf
  exact ⟨width, hP front width hwidth, hsum⟩

/-- The bytes run out in the next field. -/
theorem failsAt_endOfStream {c : Cursor} {width : Nat} {P : List UInt8 → Nat → Prop}
    (hP : P [] width) (hshort : c.rest.length < width) :
    c.FailsAt (.endOfStream c.fileOffset (width - c.rest.length)) c P := by
  refine ⟨[], (advance_zero c).symm, c.holds_nil, ⟨0, Nat.le_refl _, rfl, ?_⟩, fun _ => rfl,
    fun offset needed hf => ⟨width, hP, ?_⟩⟩
  · exact ⟨Nat.zero_le _, by omega⟩
  · cases hf
    rw [List.length_nil]
    omega

/-- An unknown code stands at the cursor. -/
theorem failsAt_unknownCode {c : Cursor} {code : UInt16} {kind : CodeKind}
    {P : List UInt8 → Nat → Prop} (h : kind.ShownIn c.order c.rest 0 code) :
    c.FailsAt (.unknownCode c.fileOffset code kind) c P := by
  refine ⟨[], (advance_zero c).symm, c.holds_nil, ⟨0, Nat.le_refl _, rfl, h⟩, fun _ => rfl,
    fun offset needed hf => ?_⟩
  cases hf

/-- The first of the bytes that a cursor has ahead is the next one. -/
theorem Holds.getElem?_zero {c : Cursor} {b : UInt8} {bs : List UInt8} (h : c.Holds (b :: bs)) :
    c.rest[0]? = some b := by
  rw [← List.head?_eq_getElem?]
  exact h.head?

end Cursor

namespace Reader

/-- Every fault of a reader is shown by the bytes, and `P` describes the fields that may lack bytes.
-/
def FailsFrom {α : Type} (r : Reader α) (c : Cursor) (P : List UInt8 → Nat → Prop) : Prop :=
  ∀ f d, r c = .error (.fault f) d → c.FailsAt f d P

section Composition

variable {α β : Type} {r : Reader α} {k : α → Reader β} {c : Cursor}
  {P : List UInt8 → Nat → Prop}

/-- A reader that reads nothing does not fail. -/
theorem failsFrom_pure (a : α) : (pure a : Reader α).FailsFrom c P := by
  intro f d h
  cases h

/-- What may be missing may be told more loosely. -/
theorem FailsFrom.mono {P' : List UInt8 → Nat → Prop} (hr : r.FailsFrom c P)
    (hP : ∀ x width, P x width → P' x width) : r.FailsFrom c P' := by
  intro f d h
  exact (hr f d h).mono hP

/-- Behind a reader that gives a result, only the next one can fail. -/
theorem failsFrom_bind_of_ok {a : α} {front : List UInt8} (hfront : c.Holds front)
    (hr : r c = .ok a (c.advance front.length))
    (hk : (k a).FailsFrom (c.advance front.length) fun x width => P (front ++ x) width) :
    (r >>= k).FailsFrom c P := by
  intro f d h
  rw [bind_of_ok hr] at h
  exact (hk f d h).behind hfront fun _ _ hP => hP

/-- White space cannot fail. -/
theorem failsFrom_skipWhiteSpace_bind {r : Reader β}
    (h : ∀ s : Space, r.FailsFrom (c.advance s.bytes.length) fun x width => P (s.bytes ++ x) width) :
    (skipWhiteSpace >>= fun _ => r).FailsFrom c P := by
  obtain ⟨s, hs, hskip, -⟩ := c.exists_space
  have hspace := skipWhiteSpace_eq c
  rw [hskip] at hspace
  exact failsFrom_bind_of_ok hs hspace (h s)

/-- Readers one behind the other fail in the first one or behind what it read. -/
theorem FailsFrom.bind (hr : r.FailsFrom c P)
    (hk : ∀ a c', r c = .ok a c' → ∃ front, c.Holds front ∧ c' = c.advance front.length ∧
      (k a).FailsFrom c' fun x width => P (front ++ x) width) : (r >>= k).FailsFrom c P := by
  intro f d h
  rcases bind_eq_error_iff.1 h with herror | ⟨a, c', hok, herror⟩
  · exact hr f d herror
  · obtain ⟨front, hfront, hc', hfails⟩ := hk a c' hok
    rw [hc'] at hfails herror
    exact (hfails f d herror).behind hfront fun _ _ hP => hP

/-- What is made of the result cannot fail. -/
theorem FailsFrom.map (hr : r.FailsFrom c P) (g : α → β) :
    (r >>= fun a => pure (g a)).FailsFrom c P := by
  intro f d h
  rcases bind_eq_error_iff.1 h with herror | ⟨a, c', -, herror⟩
  · exact hr f d herror
  · cases herror

/-- A reader that goes on with the file offset. -/
theorem failsFrom_fileOffset_bind {k : Nat → Reader β} (h : (k c.fileOffset).FailsFrom c P) :
    (fileOffset >>= k).FailsFrom c P := by
  intro f d herror
  rw [fileOffset_bind] at herror
  exact h f d herror

/-- A byte is wanted where none is left. -/
theorem failsFrom_peek (hP : P [] 1) : peek.FailsFrom c P := by
  intro f d h
  unfold peek at h
  split at h
  · cases h
  · cases hrest : c.rest with
    | nil =>
      have hfails := failsAt_endOfStream (c := c) hP (by rw [hrest]; exact Nat.one_pos)
      rw [hrest] at h hfails
      cases h
      exact hfails
    | cons b bs =>
      rw [hrest] at h
      cases h

/-- A reader that goes on with the byte at the cursor. -/
theorem failsFrom_peek_bind {k : UInt8 → Reader β} (hP : P [] 1)
    (h : ∀ b, c.Holds [b] → (k b).FailsFrom c P) : (peek >>= k).FailsFrom c P := by
  intro f d herror
  rcases bind_eq_error_iff.1 herror with hpeek | ⟨b, c', hpeek, hk⟩
  · exact failsFrom_peek hP f d hpeek
  · obtain ⟨hb, hc'⟩ := peek_eq_ok_iff.1 hpeek
    rw [hc'] at hk
    exact h b hb f d hk

/-- A code at the cursor that is rejected. -/
theorem failsFrom_unknownCode {b : UInt8} {kind : CodeKind}
    (h : kind.ShownIn c.order c.rest 0 b.toUInt16) :
    (fail (.unknownCode c.fileOffset b.toUInt16 kind) : Reader α).FailsFrom c P := by
  intro f d herror
  cases herror
  exact failsAt_unknownCode h

end Composition

variable {c : Cursor} {P : List UInt8 → Nat → Prop}

/-- Raw bytes are wanted where there are fewer. -/
theorem failsFrom_takeRaw {n : Nat} (hP : P [] n) : (takeRaw n).FailsFrom c P := by
  intro f d h
  unfold takeRaw at h
  dsimp only at h
  split at h
  · rename_i hshort
    rw [List.length_take] at hshort
    have hblock : c.rest.take n = c.rest := List.take_of_length_le (by omega)
    rw [hblock] at h
    cases h
    exact failsAt_endOfStream hP (by omega)
  · cases h

/-- Bytes that are taken at once are missing at once. -/
theorem failsFrom_take {n : Nat} (hP : P [] n) : (take n).FailsFrom c P := by
  intro f d h
  rcases bind_eq_error_iff.1 h with hstop | ⟨u, c', hstop, hraw⟩
  · unfold stopAtJobEnd at hstop
    split at hstop <;> cases hstop
  · obtain ⟨-, hc'⟩ := stopAtJobEnd_eq_ok_iff.1 hstop
    rw [hc'] at hraw
    exact failsFrom_takeRaw hP f d hraw

/-- So are those of a word. -/
theorem failsFrom_word {width : Nat} (hP : P [] width) : (word width).FailsFrom c P := by
  intro f d h
  rcases bind_eq_error_iff.1 h with htake | ⟨block, c', -, hvalue⟩
  · exact failsFrom_take hP f d htake
  · cases hvalue

/-- A single byte is missing by itself. -/
theorem failsFrom_byte (hP : P [] 1) : byte.FailsFrom c P :=
  (failsFrom_word hP).map _

/-- So is a number. -/
theorem failsFrom_number {t : ElementType} (hP : P [] t.width) : (number t).FailsFrom c P :=
  (failsFrom_word hP).map _

/-- One of several numbers, and those behind it. -/
theorem failsFrom_number_bind {β : Type} {t : ElementType} {n : Nat} {k : Number → Reader β}
    (hk : ∀ x c', (k x).FailsFrom c' (NumbersAwait c'.order t n)) :
    (number t >>= k).FailsFrom c (NumbersAwait c.order t (n + 1)) := by
  intro f d h
  rcases bind_eq_error_iff.1 h with herror | ⟨x, c', hok, herror⟩
  · exact failsFrom_number ⟨rfl, [], by simp, Nat.succ_pos n, rfl⟩ f d herror
  · obtain ⟨htype, hx, hc'⟩ := number_eq_ok_iff.1 hok
    have hfails := hk x c' f d herror
    rw [hc', order_advance] at hfails
    refine hfails.behind hx fun front width hawait => ?_
    obtain ⟨hwidth, xs, htyped, hfewer, hfront⟩ := hawait
    refine ⟨hwidth, x :: xs, fun y hy => ?_, Nat.succ_lt_succ hfewer, ?_⟩
    · rcases List.mem_cons.1 hy with hfirst | hrest
      · rw [hfirst]
        exact htype
      · exact htyped y hrest
    · rw [hfront, List.flatMap_cons]

/-- Of several numbers one is missing behind those that were read. -/
theorem failsFrom_numbers (t : ElementType) (n : Nat) (c : Cursor) :
    (numbers t n).FailsFrom c (NumbersAwait c.order t n) := by
  induction n generalizing c with
  | zero => exact failsFrom_pure []
  | succ n ih => exact failsFrom_number_bind fun x c' => (ih c').map _

/-- The elements of an array are missing at once, or one behind others. -/
theorem failsFrom_elements {element countType : ElementType} {count : Nat}
    (hraw : element = .ubyte → P [] count)
    (hitem : element ≠ .ubyte → ∀ front width,
      NumbersAwait c.order element count front width → P front width) :
    (elements element countType count).FailsFrom c P := by
  refine failsFrom_fileOffset_bind ?_
  by_cases hbyte : element = .ubyte
  · rw [if_pos hbyte]
    exact (failsFrom_take (hraw hbyte)).map _
  · rw [if_neg hbyte]
    have hnumbers : (numbers element count).FailsFrom c P := fun f d h =>
      (failsFrom_numbers element count c f d h).mono (hitem hbyte)
    exact hnumbers.map _

/-- An array fails for its size or for one of its elements. -/
theorem failsFrom_array (element : ElementType) (c : Cursor) :
    (array element).FailsFrom c (Operand.Awaits c.order ⟨.array, element⟩) := by
  refine failsFrom_fileOffset_bind (failsFrom_peek_bind .sizeTag fun tag htag => ?_)
  cases hcount : countType? tag with
  | none =>
    refine failsFrom_unknownCode ⟨tag, htag.getElem?_zero, rfl, fun hone => ?_, fun htwo => ?_⟩
    · rw [hone] at hcount
      exact absurd hcount (by decide)
    · rw [htwo] at hcount
      exact absurd hcount (by decide)
  | some countType =>
    obtain ⟨w, hw, ht⟩ := countType?_eq_some_iff.1 hcount
    rw [hw] at htag
    dsimp only
    rw [ht, FieldWidth.width_countType]
    refine FailsFrom.bind (k := fun _ => word w.size >>= elements element w.countType)
      (failsFrom_byte .sizeTag) fun b c' hbyte => ?_
    obtain ⟨-, hc'⟩ := byte_eq_ok_iff.1 hbyte
    refine ⟨[w.sizeTag], htag, hc', FailsFrom.bind (failsFrom_word (.count w)) fun n c'' hword => ?_⟩
    obtain ⟨hfits, hholds, hc''⟩ := word_eq_ok_iff.1 hword
    rw [hc'] at hholds
    refine ⟨c.order.bytes w.size n, ?_, ?_, failsFrom_elements (fun hbyte => ?_)
      fun hother front width hawait => ?_⟩
    · rw [hc']
      exact hholds
    · rw [hc'', ByteOrder.length_bytes]
    · rw [hbyte, List.append_nil]
      exact .raw w n hfits
    · rw [hc'', hc'] at hawait
      exact .item w n hfits hother hawait

/-- A value fails where a field of an operand of its type comes next. -/
theorem failsFrom_value (t : DataType) (c : Cursor) :
    (value t).FailsFrom c (Operand.Awaits c.order t) := by
  obtain ⟨form, element⟩ := t
  have hlast : ∀ (c : Cursor) (g : Number → Value),
      (number element >>= fun x => pure (g x)).FailsFrom c (NumbersAwait c.order element 1) :=
    fun c g => failsFrom_number_bind fun x c' => failsFrom_pure (g x)
  cases form with
  | scalar => exact (hlast c .scalar).mono fun _ _ hawait => .number hawait
  | pair =>
    have hpair := failsFrom_number_bind (c := c) fun x c₁ => hlast c₁ (.pair x)
    exact hpair.mono fun _ _ hawait => .number hawait
  | quad =>
    have hquad := failsFrom_number_bind (c := c) fun x c₁ => failsFrom_number_bind fun y c₂ =>
      failsFrom_number_bind fun z c₃ => hlast c₃ (.quad x y z)
    exact hquad.mono fun _ _ hawait => .number hawait
  | array =>
    exact (failsFrom_array element c).map Value.array

end Reader

end PclXl
