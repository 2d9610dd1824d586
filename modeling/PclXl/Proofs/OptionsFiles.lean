import Mathlib.Data.List.Basic
import PclXl.CommandLine.OptionsFile

/-!
# What options files give

A file gives options in one way only. It must be there, be a text, be understood by the reader of the
format, and ask for rows of at least one byte; whichever of these fails first is the error. Nothing is
asked of the reader for this. What is documented of one tells what the file of a single line gives.
-/

namespace PclXl.OptionsFile

variable {toml : TomlReader}

/-- The bytes of a text. -/
def encoded (text : String) : List UInt8 :=
  text.toUTF8.data.toList

/-- What the contents of a file give, with a reader of the format. -/
inductive Gives (toml : TomlReader) :
    Except SystemError (List UInt8) → Except OptionsError Options → Prop
  /-- A file that cannot be read gives what the system says about it. -/
  | unreadable (error : SystemError) : Gives toml (.error error) (.error (.unreadable error))
  /-- Bytes that are those of no text are an error of their own. -/
  | notUtf8 {bytes : List UInt8} (h : ∀ text, encoded text ≠ bytes) :
    Gives toml (.ok bytes) (.error .notUtf8)
  /-- A text that the reader refuses gives what the reader says about it. -/
  | malformed {text : String} {error : TomlError} (h : toml text = .error error) :
    Gives toml (.ok (encoded text)) (.error (.malformed error))
  /-- Options with rows of no bytes cannot be used. -/
  | zeroWidth {text : String} {o : Options} (h : toml text = .ok o) (hwidth : o.dumpWidth = 0) :
    Gives toml (.ok (encoded text)) (.error .zeroWidth)
  /-- All others are used as the reader gives them. -/
  | options {text : String} {o : Options} (h : toml text = .ok o) (hwidth : o.dumpWidth ≠ 0) :
    Gives toml (.ok (encoded text)) (.ok o)

/-- The bytes of a text are read as the text. -/
theorem fromUTF8?_encoded (text : String) :
    String.fromUTF8? ⟨(encoded text).toArray⟩ = some text := by
  have hbytes : (⟨(encoded text).toArray⟩ : ByteArray) = text.toByteArray := rfl
  rw [hbytes, String.fromUTF8?, dif_pos text.isValidUTF8]
  rfl

/-- Bytes that are read as a text are those of the text. -/
theorem encoded_of_fromUTF8? {bytes : List UInt8} {text : String}
    (h : String.fromUTF8? ⟨bytes.toArray⟩ = some text) : encoded text = bytes := by
  unfold String.fromUTF8? at h
  split at h
  · rw [← Option.some.inj h]
    rfl
  · cases h

/-- A text is loaded as what it sets. -/
theorem load_encoded (text : String) : load toml (.ok (encoded text)) = ofText toml text := by
  unfold load
  dsimp only
  rw [fromUTF8?_encoded]

/-- What is loaded from a file is what the file gives. -/
theorem gives_load (toml : TomlReader) (contents : Except SystemError (List UInt8)) :
    Gives toml contents (load toml contents) := by
  cases contents with
  | error error => exact .unreadable error
  | ok bytes =>
    cases hbytes : String.fromUTF8? ⟨bytes.toArray⟩ with
    | none =>
      have hload : load toml (.ok bytes) = .error .notUtf8 := by
        unfold load
        dsimp only
        rw [hbytes]
      rw [hload]
      refine .notUtf8 fun text htext => ?_
      rw [← htext, fromUTF8?_encoded] at hbytes
      cases hbytes
    | some text =>
      rw [← encoded_of_fromUTF8? hbytes, load_encoded, ofText]
      cases htoml : toml text with
      | error error => exact .malformed htoml
      | ok o =>
        dsimp only
        split
        · rename_i hwidth
          exact .zeroWidth htoml hwidth
        · rename_i hwidth
          exact .options htoml hwidth

/-- A file gives nothing else. -/
theorem Gives.eq_load {contents : Except SystemError (List UInt8)}
    {loaded : Except OptionsError Options} (h : Gives toml contents loaded) :
    load toml contents = loaded := by
  cases h with
  | unreadable error => rfl
  | notUtf8 hbytes =>
    rename_i bytes
    unfold load
    dsimp only
    cases htext : String.fromUTF8? ⟨bytes.toArray⟩ with
    | none => rfl
    | some text => exact absurd (encoded_of_fromUTF8? htext) (hbytes text)
  | malformed htoml => rw [load_encoded, ofText, htoml]
  | zeroWidth htoml hwidth =>
    rw [load_encoded, ofText, htoml]
    exact if_pos hwidth
  | options htoml hwidth =>
    rw [load_encoded, ofText, htoml]
    exact if_neg hwidth

/-- What single lines give: an empty file the defaults, a switch the options with that switch, rows of
no bytes and unknown keys an error. -/
structure GivesLines (toml : TomlReader) : Prop where
  /-- An empty file is as good as none. -/
  empty : Gives toml (.ok []) (.ok {})
  /-- A switch is set, and all other options keep their defaults. -/
  switch : ∀ entry ∈ switches, ∀ on,
    Gives toml (.ok (encoded (switchLine entry.1 on))) (.ok (entry.2 on))
  /-- Rows of no bytes are refused. -/
  zeroWidth : Gives toml (.ok (encoded "dump_width = 0\n")) (.error .zeroWidth)
  /-- A key that names no option is refused. -/
  unknownKey : ∀ key, key ∉ names → key.toList ≠ [] →
    (∀ c ∈ key.toList, isKeyChar c = true) →
    ∀ on, ∃ error, Gives toml (.ok (encoded (switchLine key on))) (.error (.malformed error))

/-- A reader that does what is documented gives them so. -/
theorem givesLines_of_documented (h : toml.Documented) : GivesLines toml where
  empty := .options h.empty (by decide)
  switch entry hentry on := by
    have hwidth : ∀ entry ∈ switches, ∀ on, (entry.2 on).dumpWidth ≠ 0 := by decide
    exact .options (h.switch entry hentry on) (hwidth entry hentry on)
  zeroWidth := .zeroWidth h.zeroWidth rfl
  unknownKey key hkey hsome hchars on := by
    obtain ⟨error, herror⟩ := h.unknownKey key hkey hsome hchars on
    exact ⟨error, .malformed herror⟩

/-- Some texts that set at most one option, and what they set. -/
def knownTexts : List (String × Options) :=
  ("", {}) :: ("dump_width = 0\n", { dumpWidth := 0 }) ::
    switches.flatMap fun entry => [true, false].map fun on => (switchLine entry.1 on, entry.2 on)

/-- A reader that knows these texts only. -/
def knownReader : TomlReader := fun text =>
  match knownTexts.lookup text with
  | some o => .ok o
  | none => .error ⟨"unknown text", "UnknownText"⟩

/-- A line starts with its key. -/
theorem takeWhile_switchLine {key : String} (h : ∀ c ∈ key.toList, isKeyChar c = true) (on : Bool) :
    (switchLine key on).toList.takeWhile isKeyChar = key.toList := by
  unfold switchLine
  simp only [String.toList_append, List.append_assoc]
  rw [List.takeWhile_append_of_pos h]
  exact List.append_right_eq_self.2 (List.takeWhile_cons_of_neg (by decide))

/-- It does what is documented. -/
theorem documented_knownReader : knownReader.Documented where
  empty := rfl
  switch entry hentry on := by
    simp only [switches, List.mem_cons, List.not_mem_nil, or_false] at hentry
    rcases hentry with rfl | rfl | rfl | rfl <;> cases on <;> rfl
  zeroWidth := rfl
  unknownKey key hkey hsome hchars on := by
    have hkeys : ∀ entry ∈ knownTexts,
        entry.1.toList.takeWhile isKeyChar ∈ [] :: names.map String.toList := by decide +kernel
    have hnone : knownTexts.lookup (switchLine key on) = none := by
      refine List.lookup_eq_none_iff.2 fun entry hentry => ?_
      refine bne_iff_ne.2 fun heq => ?_
      have hmem := hkeys entry hentry
      rw [← heq, takeWhile_switchLine hchars] at hmem
      rcases List.mem_cons.1 hmem with hnil | hname
      · exact hsome hnil
      · obtain ⟨name, hname, hlist⟩ := List.mem_map.1 hname
        exact hkey (String.toList_injective hlist ▸ hname)
    unfold knownReader
    rw [hnone]
    exact ⟨_, rfl⟩

end PclXl.OptionsFile
