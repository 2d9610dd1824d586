import PclXl.CommandLine.Sink

/-!
# What a sink receives

Texts are written one after the other to a sink that fills up, each whatever became of those before.
However small the portions are that the sink takes, it receives the first bytes of all texts together,
as far as there is room. A text is written if it is empty or ends within the room; otherwise the sink
gives its error, also for all later texts with bytes.
-/

namespace PclXl

namespace Sink

/-- The bytes of texts, one behind the other. -/
def bytesOf (texts : List String) : List UInt8 :=
  texts.flatMap fun text => text.toUTF8.data.toList

/-- The bytes of texts are those of the first one and of the others. -/
theorem bytesOf_cons (text : String) (texts : List String) :
    bytesOf (text :: texts) = text.toUTF8.data.toList ++ bytesOf texts :=
  List.flatMap_cons

/-- Only the empty text has no bytes. -/
theorem toUTF8_eq_nil_iff {text : String} : text.toUTF8.data.toList = [] ↔ text = "" := by
  have hsize : text.toUTF8.data.toList.length = text.utf8ByteSize := by
    rw [Array.length_toList]
    rfl
  rw [← List.length_eq_zero_iff, hsize, String.utf8ByteSize_eq_zero_iff]

@[simp] theorem behind_nil (s : Sink) : s.behind [] = s := by
  simp [behind]

/-- Bytes that are taken one behind the other. -/
theorem behind_behind (s : Sink) (as bs : List UInt8) :
    (s.behind as).behind bs = s.behind (as ++ bs) := by
  simp [behind, Nat.sub_sub]

@[simp] theorem room_behind (s : Sink) (bytes : List UInt8) :
    (s.behind bytes).room = s.room - bytes.length := rfl

@[simp] theorem error_behind (s : Sink) (bytes : List UInt8) : (s.behind bytes).error = s.error := rfl

/-- Offering the rest again makes up for portions: as many bytes are taken as there is room for. The
rest finds as much less room as was taken, so that it fits exactly if all did. -/
theorem writeBytes_eq (s : Sink) (bytes : List UInt8) :
    s.writeBytes bytes =
      (if bytes.length ≤ s.room then .ok () else .error s.error, s.behind (bytes.take s.room)) := by
  fun_induction writeBytes s bytes with
  | case1 s => simp
  | case2 s bytes hne e s' hoffer =>
    obtain ⟨-, hfull, rfl, rfl⟩ := offer_eq_error hoffer
    have hlength := List.length_pos_iff.2 hne
    rw [if_neg (by omega), hfull, List.take_zero, behind_nil]
  | case3 s bytes hne n s' hoffer ih =>
    obtain ⟨-, hbytes, hroom, rfl⟩ := offer_eq_ok hoffer
    have htaken : (bytes.take n).length = n := List.length_take_of_le hbytes
    have hsum : n + (s.room - n) = s.room := by omega
    have hall : bytes.take n ++ (bytes.drop n).take (s.room - n) = bytes.take s.room := by
      rw [← List.take_add, hsum]
    have hfits : (bytes.drop n).length ≤ s.room - n ↔ bytes.length ≤ s.room := by
      rw [List.length_drop]
      omega
    rw [ih, behind_behind, room_behind, error_behind, htaken, hall]
    simp only [hfits]

/-- A sink takes as many bytes of a text as it has room for, and says whether all fitted. -/
theorem write_eq (s : Sink) (text : String) :
    s.write text = (if text.toUTF8.data.toList.length ≤ s.room then .ok () else .error s.error,
      s.behind (text.toUTF8.data.toList.take s.room)) :=
  s.writeBytes_eq _

/-- A text uses up its length of the room, or all of it. -/
theorem room_write (s : Sink) (text : String) :
    (s.write text).2.room = s.room - text.toUTF8.data.toList.length := by
  rw [write_eq, room_behind, List.length_take]
  omega

/-- A write does not change the error that the sink refuses with. -/
theorem error_write (s : Sink) (text : String) : (s.write text).2.error = s.error := by
  rw [write_eq, error_behind]

/-- The sink takes the first bytes of all texts, as many as there is room for. -/
theorem writeAll_sink (s : Sink) (texts : List String) :
    (s.writeAll texts).2 = s.behind ((bytesOf texts).take s.room) := by
  induction texts generalizing s with
  | nil => simp [writeAll, bytesOf]
  | cons text texts ih =>
    have hnext : (s.writeAll (text :: texts)).2 = ((s.write text).2.writeAll texts).2 := rfl
    rw [hnext, ih, room_write, write_eq, bytesOf_cons, List.take_append, behind_behind]

/-- A text is among the bytes up to its end. -/
theorem length_le_bytesOf {texts : List String} {text : String} {i : Nat}
    (h : texts[i]? = some text) :
    text.toUTF8.data.toList.length ≤ (bytesOf (texts.take (i + 1))).length := by
  have htake : texts.take (i + 1) = texts.take i ++ [text] := by
    rw [List.take_add_one, h, Option.toList_some]
  rw [htake, bytesOf, List.flatMap_append, List.length_append, List.flatMap_singleton]
  omega

/-- Room that is used up may be counted with the texts instead. A text with bytes does not fit where
others fill the room. -/
theorem fits_sub_iff {texts : List String} {text : String} {i : Nat} (h : texts[i]? = some text)
    (room used : Nat) :
    text = "" ∨ (bytesOf (texts.take (i + 1))).length ≤ room - used ↔
      text = "" ∨ used + (bytesOf (texts.take (i + 1))).length ≤ room := by
  by_cases hempty : text = ""
  · simp only [hempty, true_or]
  · have hbytes := List.length_pos_iff.2 (mt toUTF8_eq_nil_iff.1 hempty)
    have hle := length_le_bytesOf h
    simp only [hempty, false_or]
    omega

/-- Each text has its result. -/
theorem length_writeAll (s : Sink) (texts : List String) :
    (s.writeAll texts).1.length = texts.length := by
  induction texts generalizing s with
  | nil => rfl
  | cons text texts ih => exact congrArg (· + 1) (ih (s.write text).2)

/-- The result for each text: whether it ends within the room, counted from the first text. -/
theorem writeAll_results (s : Sink) (texts : List String) (i : Nat) :
    (s.writeAll texts).1[i]? = texts[i]?.map fun text =>
      if text = "" ∨ (bytesOf (texts.take (i + 1))).length ≤ s.room then .ok ()
      else .error s.error := by
  induction texts generalizing s i with
  | nil => rfl
  | cons text texts ih =>
    have hresults : (s.writeAll (text :: texts)).1 =
        (s.write text).1 :: ((s.write text).2.writeAll texts).1 := rfl
    cases i with
    | zero =>
      have hfits : text = "" ∨ (bytesOf [text]).length ≤ s.room ↔
          text.toUTF8.data.toList.length ≤ s.room := by
        rw [bytesOf_cons, bytesOf, List.flatMap_nil, List.append_nil, or_iff_right_of_imp]
        rintro rfl
        exact Nat.zero_le _
      rw [hresults, write_eq, List.getElem?_cons_zero, List.getElem?_cons_zero, Option.map_some,
        Nat.zero_add, List.take_succ_cons, List.take_zero]
      simp only [hfits]
    | succ i =>
      rw [hresults, List.getElem?_cons_succ, List.getElem?_cons_succ, ih, room_write, error_write,
        List.take_succ_cons, bytesOf_cons, List.length_append]
      cases hnext : texts[i]? with
      | none => rfl
      | some next =>
        rw [Option.map_some, Option.map_some]
        simp only [fits_sub_iff hnext]

/-- Texts that are written in turn to a sink: each is written if it is empty or if it and those before
it do not take up more than the room, and gives the sink's error otherwise. The sink receives the first
bytes of all texts together, as many as there is room for. -/
theorem delivers_prefix (s : Sink) (texts : List String) :
    (s.writeAll texts).1.length = texts.length ∧
    (∀ i : Fin texts.length,
      ((s.writeAll texts).1[i.val]? = some (.ok ()) ↔
        texts[i] = "" ∨ (bytesOf (texts.take (i + 1))).length ≤ s.room) ∧
      ((s.writeAll texts).1[i.val]? = some (.ok ()) ∨ (s.writeAll texts).1[i.val]? =
        some (.error (if s.kind = .brokenPipe then .closed else .refused s.message)))) ∧
    (s.writeAll texts).2.taken =
      s.taken ++ (bytesOf texts).take (min s.room (bytesOf texts).length) := by
  refine ⟨length_writeAll s texts, fun i => ?_, ?_⟩
  · have hresult := writeAll_results s texts i
    rw [List.getElem?_eq_getElem i.isLt, Option.map_some] at hresult
    by_cases hfits : texts[i.val] = "" ∨ (bytesOf (texts.take (i + 1))).length ≤ s.room
    · rw [if_pos hfits] at hresult
      exact ⟨iff_of_true hresult hfits, .inl hresult⟩
    · rw [if_neg hfits] at hresult
      refine ⟨iff_of_false ?_ hfits, .inr hresult⟩
      rw [hresult]
      simp
  · rw [writeAll_sink, ← List.take_eq_take_min]
    rfl

/-- The second text is cut off, behind which only empty texts are written. -/
example : let s : Sink :=
      { room := 4, kind := .other, message := "full", taken := [], portion := fun _ _ => 1 }
    s.writeAll ["ab", "cde", "", "f"] =
      ([.ok (), .error (.refused "full"), .ok (), .error (.refused "full")],
        { s with room := 0, taken := [0x61, 0x62, 0x63, 0x64] }) := by
  cbv

end Sink

end PclXl
