import PclXl.Proofs.AttributeReading

/-!
# Reads up to the end of a job or of the bytes

A read that is part of the grammar sees no further than the first job-end marker in front of it. Two
cursors share some room if they stand at one place and the same bytes follow them there, up to a
marker at both of them or to the end of the bytes of the second. From such cursors a read does the
same as long as it stays in the room, and stays there: it gives the same result or the same
interrupt, or the bytes of the second cursor run out.

Two cursors are twins if the marker follows both, or if they are one cursor. From twins a read always
does the same.
-/

namespace PclXl

open Cursor

/-- Two cursors stand at one place, and what they see is the same for the next `room` bytes, in which
no job-end marker starts. Behind them stands a marker at both, or the bytes of the second end. -/
structure Cursor.Shares (c d : Cursor) (room : Nat) : Prop where
  /-- Numbers are read in the same byte order. -/
  order_eq : d.order = c.order
  /-- The places are the same in their files. -/
  fileOffset_eq : d.fileOffset = c.fileOffset
  /-- No marker starts in front. -/
  clear : c.Clear room
  /-- The same bytes follow. -/
  shared : d.rest.take room = c.rest.take room
  /-- Then the marker follows both, or the end of the second. -/
  ended : jobEndMarker <+: c.rest.drop room ∧ jobEndMarker <+: d.rest.drop room ∨
    d.rest.length = room

/-- Two cursors share all that they see: up to the first job-end marker, or they are one cursor. -/
structure Cursor.Twins (c d : Cursor) (room : Nat) : Prop extends c.Shares d room where
  /-- A marker ends the room, or the cursors are the same. -/
  whole : jobEndMarker <+: d.rest.drop room ∨ d = c

/-- What an interrupt says about the room in front of the marker, where the cursor had moved on by
`n` bytes. A lack of bytes is only reported where no marker follows at all. -/
def Interrupt.Meets (c : Cursor) (n room : Nat) : Interrupt → Prop
  | .jobEnd offset =>
    n = room ∧ offset = c.fileOffset + room ∧ jobEndMarker <+: c.rest.drop room
  | .fault (.endOfStream _ _) => room = c.rest.length
  | .fault (.unknownCode offset _ _) => offset = c.fileOffset + n ∧ n < room
  | .fault _ => True

namespace Cursor

variable {c d : Cursor} {room : Nat}

/-- The room lies in front of both cursors. -/
theorem Shares.room_le (h : c.Shares d room) : room ≤ c.rest.length ∧ room ≤ d.rest.length := by
  rcases h.ended with hmarker | hend
  · have hle := length_of_marker hmarker.1
    have hother := length_of_marker hmarker.2
    omega
  · have hlength := congrArg List.length h.shared
    rw [List.length_take, List.length_take] at hlength
    omega

/-- Whether bytes stand at a place in the room is the same for both cursors. -/
theorem Shares.prefix_iff {i : Nat} {bs : List UInt8} (h : c.Shares d room)
    (hi : i + bs.length ≤ room) : bs <+: d.rest.drop i ↔ bs <+: c.rest.drop i :=
  prefix_drop_iff_of_take_eq h.shared hi

/-- No marker starts in the room at the second cursor. -/
theorem Shares.clear_other (h : c.Shares d room) : d.Clear room := by
  have hroom := h.room_le
  have hlength : jobEndMarker.length = 9 := rfl
  intro i hi hmarker
  by_cases hinside : i + jobEndMarker.length ≤ room
  · exact h.clear i hi ((h.prefix_iff hinside).1 hmarker)
  · rcases h.ended with hends | hend
    · -- The marker would reach into the one behind the room, which stands at both cursors.
      have hthrough : d.rest.take (room + jobEndMarker.length) =
          c.rest.take (room + jobEndMarker.length) := by
        rw [List.take_add, List.take_add, h.shared, ← List.prefix_iff_eq_take.1 hends.1,
          ← List.prefix_iff_eq_take.1 hends.2]
      exact h.clear i hi ((prefix_drop_iff_of_take_eq hthrough (by omega)).1 hmarker)
    · have hle := length_of_marker hmarker
      omega

/-- What is held within the room is held by both cursors. -/
theorem Shares.holds {bs : List UInt8} (h : c.Shares d room) (hn : bs.length ≤ room)
    (hpre : bs <+: c.rest) : c.Holds bs ∧ d.Holds bs := by
  have hother : bs <+: d.rest.drop 0 := (h.prefix_iff (by omega)).2 (by rwa [List.drop_zero])
  rw [List.drop_zero] at hother
  exact ⟨⟨hpre, h.clear.mono hn⟩, hother, h.clear_other.mono hn⟩

/-- Nothing that the second cursor holds goes beyond the room. -/
theorem Shares.length_le {bs : List UInt8} (h : c.Shares d room) (hholds : d.Holds bs) :
    bs.length ≤ room := by
  rcases h.ended with hmarker | hend
  · refine Classical.byContradiction fun hnot => ?_
    exact hholds.2 room (by omega) hmarker.2
  · have hle := hholds.length_le
    omega

/-- Cursors that move on alike within the room share what is left of it. -/
theorem Shares.advance {n : Nat} (h : c.Shares d room) (hn : n ≤ room) :
    (c.advance n).Shares (d.advance n) (room - n) := by
  have hroom := h.room_le
  have hsum : n + (room - n) = room := by omega
  refine ⟨h.order_eq, ?_, ?_, ?_, ?_⟩
  · have hoffset := h.fileOffset_eq
    rw [fileOffset_advance (by omega), fileOffset_advance (by omega), hoffset]
  · have hclear := h.clear
    rw [← hsum] at hclear
    exact (clear_add.1 hclear).2
  · have hshared := congrArg (List.drop n) h.shared
    rw [List.drop_take, List.drop_take] at hshared
    exact hshared
  · rw [rest_advance, rest_advance, List.drop_drop, List.drop_drop, hsum, List.length_drop]
    rcases h.ended with hmarker | hend
    · exact .inl hmarker
    · exact .inr (by omega)

/-- White space ends in front of a marker, whose first byte is none. It is the same at both cursors,
or goes up to the end of the second. -/
theorem Shares.skipSpace (h : c.Shares d room) :
    (∃ n, n ≤ room ∧ c.skipWhile Reader.isWhiteSpace = c.advance n ∧
      d.skipWhile Reader.isWhiteSpace = d.advance n) ∨
    (d.rest.length = room ∧ d.skipWhile Reader.isWhiteSpace = d.advance room) := by
  obtain ⟨s, hd, hskip, hnot⟩ := d.exists_space
  have hle := h.length_le hd
  have hc : s.bytes <+: c.rest := by
    have hfront : s.bytes <+: d.rest.drop 0 := hd.1
    exact (h.prefix_iff (by omega)).1 hfront
  have hsame (hnext : ∀ b ∈ (c.rest.drop s.bytes.length).head?, Reader.isWhiteSpace b = false) :
      c.skipWhile Reader.isWhiteSpace = c.advance s.bytes.length :=
    skipWhile_eq hc s.blank hnext
  by_cases hinside : s.bytes.length < room
  · refine .inl ⟨s.bytes.length, hle, hsame fun b hb => ?_, hskip⟩
    have hfirst : [b] <+: c.rest.drop s.bytes.length := by
      obtain ⟨bs, hbs⟩ := List.head?_eq_some_iff.1 hb
      exact ⟨bs, hbs.symm⟩
    obtain ⟨bs, hbs⟩ := (h.prefix_iff (by rw [List.length_singleton]; omega)).2 hfirst
    exact hnot b (by rw [← hbs]; rfl)
  · have hroom : s.bytes.length = room := by omega
    rw [hroom] at hsame hskip
    rcases h.ended with hmarker | hend
    · refine .inl ⟨room, Nat.le_refl _, hsame fun b hb => ?_, hskip⟩
      obtain ⟨tail, htail⟩ := hmarker.1
      rw [← htail] at hb
      rw [← Option.some.inj hb]
      decide
    · exact .inr ⟨hend, hskip⟩

/-- Every cursor is its own twin. -/
theorem exists_twins (c : Cursor) : ∃ room, c.Twins c room := by
  cases hfirst : Bytes.firstWithin? jobEndMarker c.rest.length c.rest with
  | none =>
    have hclear : c.Clear c.rest.length :=
      clear_iff_of_length_le.2 (Bytes.firstWithin?_eq_none_iff.1 hfirst)
    exact ⟨_, ⟨rfl, rfl, hclear, rfl, .inr rfl⟩, .inr rfl⟩
  | some room =>
    obtain ⟨-, -, hmarker, hleast⟩ := Bytes.firstWithin?_eq_some_iff.1 hfirst
    exact ⟨room, ⟨rfl, rfl, hleast, rfl, .inl ⟨hmarker, hmarker⟩⟩, .inr rfl⟩

/-- Cursors that the same bytes follow up to the end of the first marker are twins. -/
theorem twins_of_take_eq (horder : d.order = c.order) (hoffset : d.fileOffset = c.fileOffset)
    (hclear : c.Clear room) (hmarker : jobEndMarker <+: c.rest.drop room)
    (hshared : d.rest.take (room + jobEndMarker.length) =
      c.rest.take (room + jobEndMarker.length)) : c.Twins d room := by
  have hother := (prefix_drop_iff_of_take_eq hshared (Nat.le_refl _)).2 hmarker
  have hfront := take_eq_of_le hshared (Nat.le_add_right room _)
  exact ⟨⟨horder, hoffset, hclear, hfront, .inl ⟨hmarker, hother⟩⟩, .inl hother⟩

/-- A cursor whose bytes end with the room is its own only twin. -/
theorem Twins.eq_of_length (h : c.Twins d room) (hend : d.rest.length = room) : d = c := by
  rcases h.whole with hmarker | hsame
  · have hle := length_of_marker hmarker
    have hlength : jobEndMarker.length = 9 := rfl
    omega
  · exact hsame

/-- A marker behind the room follows both twins. -/
theorem Twins.marker (h : c.Twins d room) (hmarker : jobEndMarker <+: c.rest.drop room) :
    jobEndMarker <+: d.rest.drop room := by
  rcases h.whole with hother | hsame
  · exact hother
  · rwa [hsame]

/-- Nothing that is held goes beyond the room of twins. -/
theorem Twins.length_le {bs : List UInt8} (h : c.Twins d room) (hholds : c.Holds bs) :
    bs.length ≤ room := by
  rcases h.ended with hmarker | hend
  · refine Classical.byContradiction fun hnot => ?_
    exact hholds.2 room (by omega) hmarker.1
  · have hle := hholds.length_le
    rw [h.eq_of_length hend] at hend
    omega

/-- Cursors that move on alike within the room stay twins. -/
theorem Twins.advance {n : Nat} (h : c.Twins d room) (hn : n ≤ room) :
    (c.advance n).Twins (d.advance n) (room - n) := by
  have hsum : n + (room - n) = room := by omega
  refine ⟨h.toShares.advance hn, ?_⟩
  rcases h.whole with hmarker | hsame
  · rw [rest_advance, List.drop_drop, hsum]
    exact .inl hmarker
  · exact .inr (by rw [hsame])

end Cursor

/-- What an interrupt says about the room is not changed by what was read in front. -/
theorem Interrupt.meets_advance {c : Cursor} {i : Interrupt} {m n room : Nat}
    (hm : m ≤ room) (hroom : room ≤ c.rest.length) (h : i.Meets (c.advance m) n (room - m)) :
    i.Meets c (m + n) room := by
  have hoffset := fileOffset_advance (c := c) (n := m) (by omega)
  have hsum : m + (room - m) = room := by omega
  cases i with
  | jobEnd offset =>
    obtain ⟨hn, ho, hmarker⟩ := h
    rw [rest_advance, List.drop_drop, hsum] at hmarker
    exact ⟨by omega, by omega, hmarker⟩
  | fault fault =>
    cases fault with
    | endOfStream offset needed =>
      have hend : room - m = (c.rest.drop m).length := h
      rw [List.length_drop] at hend
      change room = c.rest.length
      omega
    | unknownCode offset code kind =>
      obtain ⟨ho, hn⟩ := h
      exact ⟨by omega, by omega⟩
    | missingHeader => trivial
    | unsupportedBinding offset found => trivial
    | typeMismatch offset name expected found => trivial
    | missingAttribute offset operatorName attributeName => trivial

namespace Reader

/-- A reader does the same from two cursors and stays in the room, or the bytes of the second cursor
end with the room and run out. -/
inductive Tracks {α : Type} (r : Reader α) (c d : Cursor) (room : Nat) : Prop where
  /-- Both give the same result. -/
  | gives (n : Nat) (a : α) (le : n ≤ room) (first : r c = .ok a (c.advance n))
      (second : r d = .ok a (d.advance n))
  /-- Both are interrupted alike. -/
  | stops (n : Nat) (i : Interrupt) (le : n ≤ room) (first : r c = .error i (c.advance n))
      (second : r d = .error i (d.advance n)) (meets : i.Meets c n room)
  /-- The bytes of the second run out. -/
  | lacks (n offset needed : Nat) (le : n ≤ room) (ends : d.rest.length = room)
      (second : r d = .error (.fault (.endOfStream offset needed)) (d.advance n))

/-- A reader that is part of the grammar: it does the same from cursors that share some room, as long
as there are bytes. -/
def Scans {α : Type} (r : Reader α) : Prop :=
  ∀ (c d : Cursor) (room : Nat), c.Shares d room → r.Tracks c d room

section Composition

variable {α β : Type} {r : Reader α} {f : α → Reader β} {c d : Cursor} {room : Nat}

/-- A reader that reads nothing does the same. -/
theorem tracks_of_stay {a : α} (hc : r c = .ok a c) (hd : r d = .ok a d) : r.Tracks c d room := by
  refine .gives 0 a (Nat.zero_le _) ?_ ?_
  · rw [advance_zero]
    exact hc
  · rw [advance_zero]
    exact hd

/-- A reader that is interrupted without reading is interrupted alike. -/
theorem stops_of_stay {i : Interrupt} (hc : r c = .error i c) (hd : r d = .error i d)
    (hmeets : i.Meets c 0 room) : r.Tracks c d room := by
  refine .stops 0 i (Nat.zero_le _) ?_ ?_ hmeets
  · rw [advance_zero]
    exact hc
  · rw [advance_zero]
    exact hd

/-- A reader whose bytes run out where it stands. -/
theorem lacks_of_stay {offset needed : Nat} (hend : d.rest.length = room)
    (hd : r d = .error (.fault (.endOfStream offset needed)) d) : r.Tracks c d room := by
  refine .lacks 0 offset needed (Nat.zero_le _) hend ?_
  rw [advance_zero]
  exact hd

/-- Readers one behind the other do the same. The second one may use what the first one gave. -/
theorem Tracks.bind (hs : c.Shares d room) (hr : r.Tracks c d room)
    (hf : ∀ n a, n ≤ room → r c = .ok a (c.advance n) →
      (f a).Tracks (c.advance n) (d.advance n) (room - n)) : (r >>= f).Tracks c d room := by
  obtain ⟨hroom, hother⟩ := hs.room_le
  cases hr with
  | gives m a hm hc hd =>
    cases hf m a hm hc with
    | gives n b hn hc' hd' =>
      rw [advance_advance] at hc' hd'
      exact .gives (m + n) b (by omega) (bind_eq_ok_iff.2 ⟨a, _, hc, hc'⟩)
        (bind_eq_ok_iff.2 ⟨a, _, hd, hd'⟩)
    | stops n i hn hc' hd' hmeets =>
      rw [advance_advance] at hc' hd'
      exact .stops (m + n) i (by omega) (bind_eq_error_iff.2 (.inr ⟨a, _, hc, hc'⟩))
        (bind_eq_error_iff.2 (.inr ⟨a, _, hd, hd'⟩)) (Interrupt.meets_advance hm hroom hmeets)
    | lacks n offset needed hn hend hd' =>
      rw [advance_advance] at hd'
      rw [rest_advance, List.length_drop] at hend
      exact .lacks (m + n) offset needed (by omega) (by omega)
        (bind_eq_error_iff.2 (.inr ⟨a, _, hd, hd'⟩))
  | stops m i hm hc hd hmeets =>
    exact .stops m i hm (bind_eq_error_iff.2 (.inl hc)) (bind_eq_error_iff.2 (.inl hd)) hmeets
  | lacks m offset needed hm hend hd =>
    exact .lacks m offset needed hm hend (bind_eq_error_iff.2 (.inl hd))

/-- Two parts of the grammar in turn are a part of it. -/
theorem Scans.bind (hr : Scans r) (hf : ∀ a, Scans (f a)) : Scans (r >>= f) := by
  intro c d room hs
  exact (hr c d room hs).bind hs fun n a hn _ => hf a _ _ _ (hs.advance hn)

theorem scans_pure (a : α) : Scans (pure a : Reader α) :=
  fun _ _ _ _ => tracks_of_stay rfl rfl

/-- A part of the grammar stays one where its results are mapped. -/
theorem Scans.map (hr : Scans r) (g : α → β) : Scans (g <$> r) := by
  intro c d room hs
  rw [map_eq_pure_bind]
  exact hr.bind (fun a => scans_pure (g a)) c d room hs

/-- From twins a reader of the grammar does the same, whatever comes. -/
theorem Scans.alike (hr : Scans r) (ht : c.Twins d room) :
    (∃ n a, n ≤ room ∧ r c = .ok a (c.advance n) ∧ r d = .ok a (d.advance n)) ∨
    (∃ n i, n ≤ room ∧ r c = .error i (c.advance n) ∧ r d = .error i (d.advance n) ∧
      i.Meets c n room) := by
  cases hr c d room ht.toShares with
  | gives n a hn hc hd => exact .inl ⟨n, a, hn, hc, hd⟩
  | stops n i hn hc hd hmeets => exact .inr ⟨n, i, hn, hc, hd, hmeets⟩
  | lacks n offset needed hn hend hd =>
    have hsame := ht.eq_of_length hend
    rw [hsame] at hend hd ⊢
    exact .inr ⟨n, _, hn, hd, hd, hend.symm⟩

end Composition

theorem scans_fileOffset : Scans fileOffset := by
  intro c d room hs
  have hoffset := hs.fileOffset_eq
  exact tracks_of_stay (fileOffset_eq_ok_iff.2 ⟨rfl, rfl⟩)
    (fileOffset_eq_ok_iff.2 ⟨hoffset.symm, rfl⟩)

/-- Where no byte is left, none is seen. -/
theorem peek_of_nil {c : Cursor} (h : c.rest = []) :
    peek c = .error (.fault (.endOfStream c.fileOffset 1)) c := by
  have hmarker : ¬ c.atJobEnd = true := by
    rw [atJobEnd, h]
    decide
  unfold peek
  rw [if_neg hmarker, h]

theorem scans_peek : Scans peek := by
  intro c d room hs
  have hroom := hs.room_le.1
  have hoffset := hs.fileOffset_eq
  cases room with
  | zero =>
    rcases hs.ended with hmarker | hend
    · rw [List.drop_zero, List.drop_zero] at hmarker
      have hother := peek_of_jobEnd hmarker.2
      rw [hoffset] at hother
      exact stops_of_stay (peek_of_jobEnd hmarker.1) hother ⟨rfl, rfl, by
        rw [List.drop_zero]
        exact hmarker.1⟩
    · exact lacks_of_stay hend (peek_of_nil (List.length_eq_zero_iff.1 hend))
  | succ room =>
    cases hrest : c.rest with
    | nil =>
      rw [hrest] at hroom
      cases hroom
    | cons b bs =>
      have hb : [b] <+: c.rest := ⟨bs, hrest.symm⟩
      obtain ⟨hc, hd⟩ := hs.holds (by rw [List.length_singleton]; omega) hb
      exact tracks_of_stay (peek_eq_ok_iff.2 ⟨hc, rfl⟩) (peek_eq_ok_iff.2 ⟨hd, rfl⟩)

/-- A marker within the next bytes stops a read in front of it. -/
theorem stopAtJobEnd_of_lt {c : Cursor} {n room : Nat} (hclear : c.Clear room)
    (hmarker : jobEndMarker <+: c.rest.drop room) (hn : room < n) :
    stopAtJobEnd n c = .error (.jobEnd (c.fileOffset + room)) (c.advance room) := by
  have hle := length_of_marker hmarker
  have hlength : jobEndMarker.length = 9 := rfl
  have hfirst : c.jobEndWithin? n = some room :=
    Bytes.firstWithin?_eq_some_iff.2 ⟨hn, by omega, hmarker, hclear⟩
  unfold stopAtJobEnd
  rw [hfirst]

/-- Where no marker follows and there are fewer bytes, none is read. -/
theorem take_of_short {c : Cursor} {n : Nat} (hclear : c.Clear c.rest.length)
    (hn : c.rest.length < n) :
    take n c = .error (.fault (.endOfStream c.fileOffset (n - c.rest.length))) c := by
  have hall : c.Clear n := clear_iff_of_length_le.2 fun i _ hi => hclear i hi
  have hstop : stopAtJobEnd n c = .ok () c := stopAtJobEnd_eq_ok_iff.2 ⟨hall, rfl⟩
  have hblock : c.rest.take n = c.rest := List.take_of_length_le (Nat.le_of_lt hn)
  have hraw : takeRaw n c = .error (.fault (.endOfStream c.fileOffset (n - c.rest.length))) c := by
    unfold takeRaw
    rw [hblock, if_pos hn]
  exact bind_eq_error_iff.2 (.inr ⟨(), c, hstop, hraw⟩)

/-- Bytes without a marker among them are a part of the grammar. -/
theorem scans_take (n : Nat) : Scans (take n) := by
  intro c d room hs
  have hroom := hs.room_le.1
  by_cases hn : n ≤ room
  · have hlength : (c.rest.take n).length = n := by
      rw [List.length_take]
      omega
    obtain ⟨hc, hd⟩ := hs.holds (by omega) (List.take_prefix n c.rest)
    exact .gives n _ hn (take_eq_ok_iff.2 ⟨hlength, hc, rfl⟩) (take_eq_ok_iff.2 ⟨hlength, hd, rfl⟩)
  · rcases hs.ended with hmarker | hend
    · have hc := stopAtJobEnd_of_lt hs.clear hmarker.1 (by omega : room < n)
      have hd := stopAtJobEnd_of_lt hs.clear_other hmarker.2 (by omega : room < n)
      rw [hs.fileOffset_eq] at hd
      exact .stops room _ (Nat.le_refl _) (bind_eq_error_iff.2 (.inl hc))
        (bind_eq_error_iff.2 (.inl hd)) ⟨rfl, rfl, hmarker.1⟩
    · have hclear := hs.clear_other
      rw [← hend] at hclear
      exact lacks_of_stay hend (take_of_short hclear (by omega))

theorem scans_word (width : Nat) : Scans (word width) := by
  intro c d room hs
  refine (scans_take width c d room hs).bind hs fun n block hn _ => ?_
  have horder : (d.advance n).order = (c.advance n).order := hs.order_eq
  have hd : (do return (← get).order.value block : Reader Nat) (d.advance n) =
      .ok ((c.advance n).order.value block) (d.advance n) := by
    rw [← horder]
    rfl
  exact tracks_of_stay rfl hd

theorem scans_byte : Scans byte :=
  (scans_word 1).bind fun _ => scans_pure _

theorem scans_uint16 : Scans uint16 :=
  (scans_word 2).bind fun _ => scans_pure _

theorem scans_uint32 : Scans uint32 :=
  (scans_word 4).bind fun _ => scans_pure _

theorem scans_number (t : ElementType) : Scans (number t) :=
  (scans_word t.width).bind fun _ => scans_pure _

/-- Runs of numbers are a part of the grammar. -/
theorem scans_numbers (t : ElementType) (n : Nat) : Scans (numbers t n) := by
  induction n with
  | zero => exact scans_pure []
  | succ n ih =>
    refine (scans_number t).bind fun x => ?_
    exact ih.bind fun xs => scans_pure (x :: xs)

/-- A reader that fails where no byte is left. -/
def NeedsByte {α : Type} (r : Reader α) : Prop :=
  ∀ c, c.rest = [] → r c = .error (.fault (.endOfStream c.fileOffset 1)) c

/-- Whatever looks at the next byte first needs one. -/
theorem needsByte_peek_bind {α : Type} (f : UInt8 → Reader α) : NeedsByte (peek >>= f) :=
  fun _ h => bind_eq_error_iff.2 (.inl (peek_of_nil h))

/-- Asking for the place first, a reader needs a byte just as well. -/
theorem needsByte_fileOffset_bind {α : Type} {f : Nat → Reader α} (hf : ∀ n, NeedsByte (f n)) :
    NeedsByte (fileOffset >>= f) := by
  intro c h
  rw [fileOffset_bind]
  exact hf _ c h

/-- A reader that needs a byte needs it whatever follows. -/
theorem needsByte_bind {α β : Type} {r : Reader α} (hr : NeedsByte r) (f : α → Reader β) :
    NeedsByte (r >>= f) :=
  fun c h => bind_eq_error_iff.2 (.inl (hr c h))

/-- White space may go up to the end of the bytes, where the next reader fails. -/
theorem Scans.behindSpace {α : Type} {r : Reader α} (hr : Scans r) (hneeds : NeedsByte r) :
    Scans (skipWhiteSpace >>= fun _ => r) := by
  intro c d room hs
  rcases hs.skipSpace with ⟨n, hn, hc, hd⟩ | ⟨hend, hd⟩
  · have hspace := skipWhiteSpace_eq c
    have hspace' := skipWhiteSpace_eq d
    rw [hc] at hspace
    rw [hd] at hspace'
    have hskip : (skipWhiteSpace >>= fun _ => pure () : Reader Unit).Tracks c d room :=
      .gives n () hn (bind_of_ok hspace) (bind_of_ok hspace')
    have hall := hskip.bind hs (f := fun _ => r) fun m _ hm _ => hr _ _ _ (hs.advance hm)
    simpa only [bind_assoc, pure_bind] using hall
  · have hspace := skipWhiteSpace_eq d
    rw [hd] at hspace
    have hnil : (d.advance room).rest = [] := by
      rw [rest_advance, ← hend, List.drop_length]
    refine .lacks room (d.advance room).fileOffset 1 (Nat.le_refl _) hend ?_
    rw [bind_of_ok hspace]
    exact hneeds _ hnil

/-- A reader that looks at a byte and rejects it does so in the room. -/
theorem tracks_unknownCode {α : Type} {c d : Cursor} {room : Nat} {b : UInt8} (kind : CodeKind)
    (hs : c.Shares d room) (hb : d.Holds [b]) :
    (fail (.unknownCode c.fileOffset b.toUInt16 kind) : Reader α).Tracks c d room := by
  have hle := hs.length_le hb
  rw [List.length_singleton] at hle
  exact stops_of_stay rfl rfl ⟨rfl, hle⟩

/-- A failure is a part of the grammar, if its fault fits any room. -/
theorem scans_fail_of_meets {α : Type} {fault : Fault}
    (h : ∀ c n room, Interrupt.Meets c n room (.fault fault)) :
    Scans (fail fault : Reader α) :=
  fun c _ room _ => stops_of_stay rfl rfl (h c 0 room)

section Looking

variable {α β : Type} {c d : Cursor} {room : Nat}

/-- Tracking only looks at what a reader does from the two cursors. -/
theorem Tracks.congr {r r' : Reader α} (h : r'.Tracks c d room) (hc : r c = r' c)
    (hd : r d = r' d) : r.Tracks c d room := by
  cases h with
  | gives n a hn hc' hd' => exact .gives n a hn (hc.trans hc') (hd.trans hd')
  | stops n i hn hc' hd' hmeets => exact .stops n i hn (hc.trans hc') (hd.trans hd') hmeets
  | lacks n offset needed hn hend hd' => exact .lacks n offset needed hn hend (hd.trans hd')

/-- Both cursors have the same file offset. -/
theorem tracks_fileOffset_bind {f : Nat → Reader β} (hs : c.Shares d room)
    (h : (f c.fileOffset).Tracks c d room) : (fileOffset >>= f).Tracks c d room := by
  have hother := fileOffset_bind f d
  rw [hs.fileOffset_eq] at hother
  exact h.congr (fileOffset_bind f c) hother

/-- Both cursors see the same byte, if they see any. -/
theorem tracks_peek_bind {f : UInt8 → Reader β} (hs : c.Shares d room)
    (h : ∀ b, d.Holds [b] → (f b).Tracks c d room) : (peek >>= f).Tracks c d room := by
  cases scans_peek c d room hs with
  | gives n b hn hc hd =>
    obtain ⟨-, hcn⟩ := peek_eq_ok_iff.1 hc
    obtain ⟨hb, hdn⟩ := peek_eq_ok_iff.1 hd
    rw [hcn] at hc
    rw [hdn] at hd
    exact (h b hb).congr (bind_of_ok hc) (bind_of_ok hd)
  | stops n i hn hc hd hmeets =>
    exact .stops n i hn (bind_eq_error_iff.2 (.inl hc)) (bind_eq_error_iff.2 (.inl hd)) hmeets
  | lacks n offset needed hn hend hd =>
    exact .lacks n offset needed hn hend (bind_eq_error_iff.2 (.inl hd))

end Looking

/-- The elements of an array are a part of the grammar. -/
theorem scans_elements (element countType : ElementType) (count : Nat) :
    Scans (elements element countType count) := by
  refine scans_fileOffset.bind fun dataOffset => ?_
  by_cases hbyte : element = .ubyte
  · rw [if_pos hbyte]
    exact (scans_take count).bind fun raw => scans_pure _
  · rw [if_neg hbyte]
    exact (scans_numbers element count).bind fun items => scans_pure _

/-- Arrays are a part of the grammar. -/
theorem scans_array (element : ElementType) : Scans (array element) := by
  intro c d room hs
  refine tracks_fileOffset_bind hs (tracks_peek_bind hs fun tag htag => ?_)
  cases countType? tag with
  | none => exact tracks_unknownCode .arraySizeTag hs htag
  | some countType =>
    have hrest := scans_elements element countType
    exact (scans_byte.bind fun _ => (scans_word countType.width).bind hrest) c d room hs

/-- Values of any type are a part of the grammar. -/
theorem scans_value (t : DataType) : Scans (value t) := by
  have one := scans_number t.element
  unfold value
  cases t.form with
  | scalar => exact one.bind fun x => scans_pure _
  | pair => exact one.bind fun x => one.bind fun y => scans_pure _
  | quad =>
    exact one.bind fun a => one.bind fun b => one.bind fun c => one.bind fun d => scans_pure _
  | array => exact (scans_array t.element).bind fun v => scans_pure _

/-- The number of an attribute is rejected in front of it. -/
theorem tracks_number (width : Nat) {c d : Cursor} {room : Nat} (hwidth : 0 < width)
    (hs : c.Shares d room) : ((do
      let place ← get
      let number ← UInt16.ofNat <$> word width
      match Vocabulary.attributeName? number with
      | none =>
        set place
        fail (.unknownCode place.fileOffset number .attributeNumber)
      | some name => return (number, name)) : Reader (UInt16 × String)).Tracks c d room := by
  have hgetc : (get : Reader Cursor) c = .ok c c := get_eq_ok_iff.2 ⟨rfl, rfl⟩
  have hgetd : (get : Reader Cursor) d = .ok d d := get_eq_ok_iff.2 ⟨rfl, rfl⟩
  have hoffset := hs.fileOffset_eq
  cases (scans_word width).map UInt16.ofNat c d room hs with
  | gives n number hn hc hd =>
    obtain ⟨k, hword, -⟩ := map_eq_ok_iff.1 hd
    obtain ⟨-, hholds, -⟩ := word_eq_ok_iff.1 hword
    have hle := hs.length_le hholds
    rw [ByteOrder.length_bytes] at hle
    cases hname : Vocabulary.attributeName? number with
    | none =>
      refine stops_of_stay (i := .fault (.unknownCode c.fileOffset number .attributeNumber)) ?_ ?_
        ⟨rfl, by omega⟩
      · rw [bind_of_ok hgetc, bind_of_ok hc, hname]
        rfl
      · rw [bind_of_ok hgetd, bind_of_ok hd, hname, ← hoffset]
        rfl
    | some name =>
      refine .gives n (number, name) hn ?_ ?_
      · rw [bind_of_ok hgetc, bind_of_ok hc, hname]
        rfl
      · rw [bind_of_ok hgetd, bind_of_ok hd, hname]
        rfl
  | stops n i hn hc hd hmeets =>
    refine .stops n i hn ?_ ?_ hmeets
    · rw [bind_of_ok hgetc]
      exact bind_eq_error_iff.2 (.inl hc)
    · rw [bind_of_ok hgetd]
      exact bind_eq_error_iff.2 (.inl hd)
  | lacks n offset needed hn hend hd =>
    refine .lacks n offset needed hn hend ?_
    rw [bind_of_ok hgetd]
    exact bind_eq_error_iff.2 (.inl hd)

/-- Attribute numbers are a part of the grammar. -/
theorem scans_attrNumber : Scans attrNumber := by
  intro c d room hs
  refine tracks_fileOffset_bind hs (tracks_peek_bind hs fun tag htag => ?_)
  cases hwidth : attributeNumberWidth? tag with
  | none => exact tracks_unknownCode .attributeTag hs htag
  | some width =>
    have hpos : 0 < width := by
      obtain ⟨w, -, hw⟩ := attributeNumberWidth?_eq_some_iff.1 hwidth
      rw [hw]
      cases w <;> decide
    refine (scans_byte c d room hs).bind hs fun n b hn _ => ?_
    exact tracks_number width hpos (hs.advance hn)

/-- Attributes are a part of the grammar. -/
theorem scans_attr (t : DataType) : Scans (attr t) := by
  refine scans_fileOffset.bind fun offset => scans_byte.bind fun _ => (scans_value t).bind fun v => ?_
  refine (scans_attrNumber.bind fun entry => ?_).behindSpace
    (needsByte_bind (needsByte_fileOffset_bind fun _ => needsByte_peek_bind _) _)
  dsimp only
  split
  · exact scans_fail_of_meets fun c n room => trivial
  · exact scans_pure _

/-- An attribute, if one follows, is a part of the grammar. -/
theorem scans_attr? : Scans attr? := by
  refine Scans.behindSpace ?_ (needsByte_peek_bind _)
  intro c d room hs
  refine tracks_peek_bind hs fun tag htag => ?_
  cases DataType.ofTag? tag with
  | none => exact scans_pure none c d room hs
  | some t => exact ((scans_attr t).bind fun a => scans_pure (some a)) c d room hs

end Reader

/-- Attribute lists are read alike, or the bytes of the second cursor run out behind attributes that
both lists start with. -/
theorem AttributeList.read_shares {c d : Cursor} {room : Nat} (hs : c.Shares d room) :
    ∃ n as i?, n ≤ room ∧ read d = ⟨as, i?, d.advance n⟩ ∧
      ((read c = ⟨as, i?, c.advance n⟩ ∧ ∀ i, i? = some i → i.Meets c n room) ∨
      (d.rest.length = room ∧ as <+: (read c).attributes ∧
        ∃ offset needed, i? = some (.fault (.endOfStream offset needed)))) := by
  induction hlength : c.rest.length using Nat.strongRecOn generalizing c d room with
  | _ length ih =>
    obtain ⟨hroom, hother⟩ := hs.room_le
    cases Reader.scans_attr? c d room hs with
    | gives n a? hn hc hd =>
      cases a? with
      | none =>
        refine ⟨n, [], none, hn, by rw [read, hd], .inl ⟨by rw [read, hc], ?_⟩⟩
        intro i hi
        cases hi
      | some a =>
        have hless := Reader.attr?_consumes hc
        obtain ⟨m, as, i?, hm, hd', hc'⟩ := ih _ (by omega) (hs.advance hn) rfl
        have hsecond : read d = ⟨a :: as, i?, d.advance (n + m)⟩ := by
          rw [advance_advance] at hd'
          rw [read, hd]
          dsimp only
          rw [hd']
        have hfirst : (read c).attributes = a :: (read (c.advance n)).attributes := by
          rw [read, hc]
        refine ⟨n + m, a :: as, i?, by omega, hsecond, ?_⟩
        rcases hc' with ⟨hc', hmeets⟩ | ⟨hend, hprefix, hlack⟩
        · refine .inl ⟨?_, fun i hi => Interrupt.meets_advance hn hroom (hmeets i hi)⟩
          rw [advance_advance] at hc'
          rw [read, hc]
          dsimp only
          rw [hc']
        · rw [rest_advance, List.length_drop] at hend
          refine .inr ⟨by omega, ?_, hlack⟩
          rw [hfirst]
          exact List.cons_prefix_cons.2 ⟨rfl, hprefix⟩
    | stops n i hn hc hd hmeets =>
      refine ⟨n, [], some i, hn, by rw [read, hd], .inl ⟨by rw [read, hc], fun j hj => ?_⟩⟩
      rw [← Option.some.inj hj]
      exact hmeets
    | lacks n offset needed hn hend hd =>
      exact ⟨n, [], _, hn, by rw [read, hd], .inr ⟨hend, List.nil_prefix, offset, needed, rfl⟩⟩

/-- Attribute lists are read alike from twins. -/
theorem AttributeList.read_twins {c d : Cursor} {room : Nat} (ht : c.Twins d room) :
    ∃ n as i?, n ≤ room ∧ read c = ⟨as, i?, c.advance n⟩ ∧ read d = ⟨as, i?, d.advance n⟩ ∧
      ∀ i, i? = some i → i.Meets c n room := by
  obtain ⟨n, as, i?, hn, hd, hc⟩ := read_shares ht.toShares
  rcases hc with ⟨hc, hmeets⟩ | ⟨hend, -, offset, needed, hi⟩
  · exact ⟨n, as, i?, hn, hc, hd, hmeets⟩
  · have hsame := ht.eq_of_length hend
    rw [hsame] at hend hd ⊢
    refine ⟨n, as, i?, hn, hd, hd, fun i hj => ?_⟩
    rw [hi] at hj
    rw [← Option.some.inj hj]
    exact hend.symm

theorem Session.scans_operatorTag : Reader.Scans operatorTag := by
  refine Reader.Scans.behindSpace ?_
    (Reader.needsByte_fileOffset_bind fun _ => Reader.needsByte_peek_bind _)
  intro c d room hs
  refine Reader.tracks_fileOffset_bind hs (Reader.tracks_peek_bind hs fun tag htag => ?_)
  cases OperatorInfo.ofTag? tag with
  | none => exact Reader.tracks_unknownCode .operatorTag hs htag
  | some info => exact (Reader.scans_byte.bind fun _ => Reader.scans_pure _) c d room hs

/-- The length of a data block is a part of the grammar. -/
theorem Reader.scans_payloadLength (source : PayloadSource) (declared : Option UInt32)
    (name : String) (tagOffset : Nat) :
    Scans (payloadLength source declared name tagOffset) := by
  cases source with
  | inlineUInt32 => exact scans_word 4
  | inlineUByte => exact scans_word 1
  | vendorLength =>
    cases declared with
    | none => exact scans_fail_of_meets fun c n room => trivial
    | some length => exact scans_pure length.toNat

end PclXl
