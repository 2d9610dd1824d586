import PclXl.Proofs.DecimalNumerals
import PclXl.Proofs.DumpRows
import PclXl.Proofs.WrittenForm

/-!
# Lines of a listing

A listing is put together from lines, and it can be taken apart into them again because no line has
a line feed inside. For the line of an attribute that is a fact about every text in it: keywords,
numbers, labels, names, and bytes between quotes. All of them consist of printable characters of
ASCII, and those that are words of the language have no spaces either. Where a text of lines is cut
behind a line feed, it is then cut between two lines.
-/

namespace PclXl

open Text

namespace Text

/-- A text without line feeds. -/
def OneLine (s : String) : Prop :=
  '\n' ∉ s.toList

instance (s : String) : Decidable (OneLine s) :=
  inferInstanceAs (Decidable ('\n' ∉ s.toList))

/-- A text of characters of ASCII from the space up to the tilde. -/
def Printable (s : String) : Prop :=
  ∀ c ∈ s.toList, 0x20 ≤ c.toNat ∧ c.toNat ≤ 0x7E

instance (s : String) : Decidable (Printable s) :=
  decidable_of_iff (s.toList.all fun c => Nat.ble 0x20 c.toNat && Nat.ble c.toNat 0x7E)
    (by simp [Printable])

/-- A printable text without spaces. -/
def Word (s : String) : Prop :=
  ∀ c ∈ s.toList, 0x20 < c.toNat ∧ c.toNat ≤ 0x7E

instance (s : String) : Decidable (Word s) :=
  decidable_of_iff (s.toList.all fun c => Nat.ble 0x21 c.toNat && Nat.ble c.toNat 0x7E)
    (by simp [Word, Nat.succ_le_iff])

/-- A printable text has no line feed. -/
theorem Printable.oneLine {s : String} (h : Printable s) : OneLine s :=
  fun hmem => absurd (h _ hmem) (by decide)

/-- A word is printable. -/
theorem Word.printable {s : String} (h : Word s) : Printable s :=
  fun c hc => ⟨Nat.le_of_lt (h c hc).1, (h c hc).2⟩

/-- A word has no space. -/
theorem Word.space_notMem {s : String} (h : Word s) : ' ' ∉ s.toList :=
  fun hmem => absurd (h _ hmem) (by decide)

/-- Printable texts may stand one behind the other. -/
theorem Printable.append {s t : String} (hs : Printable s) (ht : Printable t) :
    Printable (s ++ t) := by
  intro c hc
  rw [String.toList_append] at hc
  rcases List.mem_append.1 hc with hfront | hbehind
  · exact hs c hfront
  · exact ht c hbehind

/-- So may any number of them. -/
theorem printable_join {texts : List String} (h : ∀ t ∈ texts, Printable t) :
    Printable (String.join texts) := by
  intro c hc
  rw [String.toList_join] at hc
  obtain ⟨t, ht, hmem⟩ := List.mem_flatMap.1 hc
  exact h t ht c hmem

/-- They may have printable separators between them. -/
theorem Printable.intercalate {separator : String} {texts : List String}
    (hseparator : Printable separator) (htexts : ∀ t ∈ texts, Printable t) :
    Printable (separator.intercalate texts) := by
  induction texts with
  | nil =>
    intro c hc
    rw [String.toList_intercalate] at hc
    cases hc
  | cons t texts ih =>
    have hfirst := htexts t List.mem_cons_self
    have hrest := ih fun u hu => htexts u (List.mem_cons_of_mem _ hu)
    cases texts with
    | nil => rwa [String.intercalate_singleton]
    | cons u texts =>
      rw [String.intercalate_cons_cons]
      exact (hfirst.append hseparator).append hrest

/-- Digits are printable. -/
theorem printable_of_isDigit {s : String} (h : ∀ c ∈ s.toList, c.isDigit = true) :
    Printable s := by
  intro c hc
  obtain ⟨hzero, hnine⟩ := Char.isDigit_iff_toNat.1 (h c hc)
  exact ⟨Nat.le_trans (by decide) hzero, Nat.le_trans hnine (by decide)⟩

/-- So are decimal numerals. -/
theorem printable_decimal (n : Nat) : Printable (decimal n) :=
  printable_of_isDigit (isNumeral_decimal n).digits

/-- So are those with a sign. -/
theorem printable_signedDecimal (i : Int) : Printable (signedDecimal i) := by
  have hminus : Printable "-" := by decide
  unfold signedDecimal
  split
  · exact hminus.append (printable_decimal _)
  · exact printable_decimal _

/-- A hexadecimal digit is a character between zero and the letter f. -/
theorem toNat_of_hexDigit? {c : Char} {d : Nat} (h : hexDigit? c = some d) :
    0x30 ≤ c.toNat ∧ c.toNat ≤ 0x66 := by
  unfold hexDigit? at h
  split at h
  · rename_i hrange
    exact ⟨Char.le_def.1 hrange.1, Nat.le_trans (Char.le_def.1 hrange.2) (by decide)⟩
  · split at h
    · rename_i hrange
      exact ⟨Nat.le_trans (by decide) (Char.le_def.1 hrange.1), Char.le_def.1 hrange.2⟩
    · cases h

/-- Hexadecimal numerals are printable. -/
theorem printable_hex (places n : Nat) : Printable (hex places n) := by
  intro c hc
  have hdigit := isSome_hexDigit? (hexNumber?_hex places n) c hc
  obtain ⟨d, hd⟩ := Option.isSome_iff_exists.1 hdigit
  have hrange := toNat_of_hexDigit? hd
  omega

/-- So are spaces. -/
theorem printable_spaces (n : Nat) : Printable (spaces n) := by
  intro c hc
  rw [spaces, String.toList_ofList] at hc
  rw [List.eq_of_mem_replicate hc]
  decide

end Text

/-- A byte is the number of the character that it is shown as. -/
theorem toNat_ofNat_byte (b : UInt8) : (Char.ofNat b.toNat).toNat = b.toNat := by
  have hvalid : b.toNat.isValidChar := .inl (Nat.lt_trans b.toNat_lt (by decide))
  rw [Char.ofNat, dif_pos hvalid]
  rfl

/-- A printable byte is shown as a printable character. -/
theorem printable_ofNat_byte {b : UInt8} (h : isPrintable b = true) :
    0x20 ≤ (Char.ofNat b.toNat).toNat ∧ (Char.ofNat b.toNat).toNat ≤ 0x7E := by
  rw [toNat_ofNat_byte]
  exact isPrintable_iff.1 h

/-- Bytes that are quoted are printable. -/
theorem printable_of_isQuotable {raw : List UInt8} (h : isQuotable raw = true) :
    Printable (String.ofList (raw.map fun b => Char.ofNat b.toNat)) := by
  obtain ⟨-, hall⟩ := Bool.and_eq_true_iff.1 h
  intro c hc
  rw [String.toList_ofList] at hc
  obtain ⟨b, hb, rfl⟩ := List.mem_map.1 hc
  exact printable_ofNat_byte (Bool.and_eq_true_iff.1 (List.all_eq_true.1 hall b hb)).1

/-- So is the text of a real number, whatever its bits. -/
theorem Numeric.Binary32.printable_text (x : Numeric.Binary32) : Printable x.text := by
  have hsign : Printable (if x.isNegative then "-" else "") := by
    split <;> decide
  have hpoint : Printable "." := by decide
  have hplaces : Printable (paddedDecimal 6 '0' (x.millionths % 1000000)) :=
    printable_of_isDigit
      (fillsPlaces_paddedDecimal (by decide) (Nat.mod_lt _ (by decide))).digits
  unfold text
  split
  · decide
  · refine hsign.append ?_
    split
    · exact ((printable_decimal _).append hpoint).append hplaces
    · decide

/-- So is that of any number. -/
theorem Number.printable_text (n : Number) : Printable n.text := by
  cases n with
  | ubyte v => exact printable_decimal _
  | uint16 v => exact printable_decimal _
  | uint32 v => exact printable_decimal _
  | sint16 v => exact printable_signedDecimal _
  | sint32 v => exact printable_signedDecimal _
  | real32 v => exact v.printable_text

/-- So is a row of numbers. -/
theorem printable_numberRow (numbers : List Number) : Printable (numberRow numbers) := by
  refine Printable.intercalate (by decide) fun t ht => ?_
  obtain ⟨n, -, rfl⟩ := List.mem_map.1 ht
  exact n.printable_text

/-- The keyword of a data type is a word. -/
theorem DataType.word_name (t : DataType) : Word t.name := by
  obtain ⟨form, element⟩ := t
  cases form <;> cases element <;> decide

namespace Options

variable (o : Options)

/-- A list of numbers between brackets is printable. -/
theorem printable_bracketed (numbers : List Number) : Printable (bracketed numbers) := by
  have hopen : Printable "[ " := by decide
  unfold bracketed
  split
  · decide
  · exact (hopen.append (printable_numberRow numbers)).append (by decide)

/-- So is the text of an array, quoted or not. -/
theorem printable_arrayText (v : ArrayValue) : Printable (o.arrayText v) := by
  have hquote : Printable "\"" := by decide
  have hopen : Printable "[ " := by decide
  unfold arrayText
  cases v.raw with
  | none => exact printable_bracketed v.items
  | some raw =>
    dsimp only
    split
    · rename_i hquoted
      exact (hquote.append (printable_of_isQuotable (Bool.and_eq_true_iff.1 hquoted).2)).append
        hquote
    · split
      · exact (hopen.append (printable_decimal _)).append (by decide)
      · exact printable_bracketed v.items

/-- The text of an attribute is printable if its name and its label are. -/
theorem printable_attributeText {a : Attribute} (hname : Printable a.name)
    (hlabel : ∀ label, a.label = some label → Printable label) :
    Printable (o.attributeText a) := by
  have hspace : Printable " " := by decide
  have hvalue : Printable (o.valueText a.value a.label) := by
    unfold valueText
    cases a.value with
    | scalar n =>
      cases hl : a.label with
      | none => exact n.printable_text
      | some label =>
        dsimp only
        split
        · exact hlabel label hl
        · exact n.printable_text
    | pair x y => exact printable_numberRow _
    | quad p q r s => exact printable_numberRow _
    | array v => exact o.printable_arrayText v
  exact (((a.value.dataType.word_name.printable.append hspace).append hvalue).append
    hspace).append hname

end Options

namespace Vocabulary

/-- What is found in a table is one of its entries. -/
theorem mem_of_lookup {α β : Type} [BEq α] [LawfulBEq α] {entries : List (α × β)} {a : α} {b : β}
    (h : entries.lookup a = some b) : (a, b) ∈ entries := by
  obtain ⟨front, behind, rfl, -⟩ := List.lookup_eq_some_iff.1 h
  exact List.mem_append_right _ List.mem_cons_self

/-- The name of an attribute is a word. -/
theorem word_attributeName {number : UInt16} {name : String}
    (h : attributeName? number = some name) : Word name := by
  have hall : ∀ entry ∈ attributes, Word entry.2 := by decide +kernel
  exact hall _ (mem_of_lookup h)

/-- The members of an enumeration that a label was found in. -/
theorem exists_of_label? {name label : String} {value : UInt32}
    (h : label? name value = some label) :
    ∃ members, (name, members) ∈ enumerations ∧ (value, label) ∈ members := by
  obtain ⟨members, hmembers, hlabel⟩ := Option.bind_eq_some_iff.1 h
  exact ⟨members, mem_of_lookup hmembers, mem_of_lookup hlabel⟩

/-- The label of a value is a word that starts with a letter. -/
theorem label_spelling {name label : String} {value : UInt32} (h : label? name value = some label) :
    Word label ∧ label.toList.head? = some 'e' := by
  have hall : ∀ entry ∈ enumerations, ∀ member ∈ entry.2,
      Word member.2 ∧ member.2.toList.head? = some 'e' := by decide +kernel
  obtain ⟨members, hmembers, hlabel⟩ := exists_of_label? h
  exact hall _ hmembers _ hlabel

end Vocabulary

/-- A line stands in front of the others with a line feed behind it. -/
theorem toList_unlines_cons (l : String) (ls : List String) :
    (unlines (l :: ls)).toList = l.toList ++ '\n' :: (unlines ls).toList := by
  unfold unlines
  rw [List.map_cons, String.join_cons, String.toList_append, String.toList_append,
    List.append_assoc]
  rfl

/-- A text of lines is empty or ends in a line feed. -/
theorem toList_unlines_eq_nil_or_concat (ls : List String) :
    (unlines ls).toList = [] ∨ ∃ as, (unlines ls).toList = as ++ ['\n'] := by
  induction ls with
  | nil => exact .inl rfl
  | cons l ls ih =>
    rw [toList_unlines_cons]
    rcases ih with hnil | ⟨as, has⟩
    · exact .inr ⟨l.toList, by rw [hnil]⟩
    · exact .inr ⟨l.toList ++ '\n' :: as, by rw [has, List.append_assoc, List.cons_append]⟩

/-- A text of lines that is cut behind a line feed is cut between two lines. -/
theorem exists_drop_of_unlines_eq {ls : List String} (h : ∀ l ∈ ls, OneLine l) {as cs : List Char}
    (htext : (unlines ls).toList = as ++ '\n' :: cs) :
    ∃ k, cs = (unlines (ls.drop k)).toList := by
  induction ls generalizing as with
  | nil => exact absurd htext.symm (List.append_ne_nil_of_right_ne_nil as (List.cons_ne_nil _ cs))
  | cons l ls ih =>
    rw [toList_unlines_cons] at htext
    rcases List.append_eq_append_iff.1 htext with ⟨bs, -, hrest⟩ | ⟨bs, hfirst, hrest⟩
    · cases bs with
      | nil => exact ⟨1, (List.cons.inj hrest).2.symm⟩
      | cons b bs =>
        obtain ⟨k, hk⟩ := ih (fun m hm => h m (List.mem_cons_of_mem _ hm)) (List.cons.inj hrest).2
        exact ⟨k + 1, hk⟩
    · cases bs with
      | nil => exact ⟨1, (List.cons.inj hrest).2⟩
      | cons b bs =>
        refine absurd ?_ (h l List.mem_cons_self)
        rw [hfirst, ← (List.cons.inj hrest).1]
        exact List.mem_append_right _ List.mem_cons_self

/-- What starts behind lines starts behind lines of each text of lines that it is a part of. -/
theorem exists_drop_of_unlines_append {ls before : List String} (h : ∀ l ∈ ls, OneLine l)
    {text : String} (htext : unlines ls = unlines before ++ text) :
    ∃ k, text.toList = (unlines (ls.drop k)).toList := by
  have hchars : (unlines ls).toList = (unlines before).toList ++ text.toList := by
    rw [htext, String.toList_append]
  rcases toList_unlines_eq_nil_or_concat before with hnil | ⟨as, has⟩
  · rw [hnil] at hchars
    exact ⟨0, hchars.symm⟩
  · rw [has, List.append_assoc] at hchars
    exact exists_drop_of_unlines_eq h hchars

end PclXl
