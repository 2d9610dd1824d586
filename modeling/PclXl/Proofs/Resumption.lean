import PclXl.Proofs.Twins

/-!
# Reading on when more bytes come

A reader that lacks bytes says at which place and how many. If fewer than that follow, it lacks the
rest of them at the same place, unless a job-end marker is completed in front of it. If enough
follow, the place lies behind: whatever the reader gives or lacks then comes later. This is stated
for readers and kept by their composition, up to the reader of a whole operator.
-/

namespace PclXl

open Cursor

/-- A cursor stands at the place of another one and has more bytes behind those of the other. -/
structure Cursor.Extends (c d : Cursor) (more : List UInt8) : Prop where
  /-- Numbers are read in the same byte order. -/
  order_eq : c.order = d.order
  /-- The places are the same in their files. -/
  fileOffset_eq : c.fileOffset = d.fileOffset
  /-- More bytes follow. -/
  rest_eq : c.rest = d.rest ++ more

namespace Cursor

variable {c d : Cursor} {more : List UInt8}

/-- The longer stream has so many bytes more. -/
theorem Extends.length_eq (h : c.Extends d more) :
    c.rest.length = d.rest.length + more.length := by
  rw [h.rest_eq, List.length_append]

/-- Cursors that move on alike over the bytes of the second. -/
theorem Extends.advance {n : Nat} (h : c.Extends d more) (hn : n ≤ d.rest.length) :
    (c.advance n).Extends (d.advance n) more := by
  have hlength := h.length_eq
  refine ⟨h.order_eq, ?_, ?_⟩
  · rw [fileOffset_advance (by omega), fileOffset_advance hn, h.fileOffset_eq]
  · rw [rest_advance, rest_advance, h.rest_eq, List.drop_append_of_le_length hn]

/-- Bytes that the second cursor holds are held by the first, unless a marker is completed. -/
theorem Extends.holds {bs : List UInt8} (h : c.Extends d more) (hd : d.Holds bs)
    (hclear : c.Clear bs.length) : c.Holds bs := by
  refine ⟨hd.1.trans ?_, hclear⟩
  rw [h.rest_eq]
  exact List.prefix_append _ _

/-- White space is the same at both cursors, or it goes up to the end of the second, and at the first
perhaps further. -/
theorem Extends.skipSpace (h : c.Extends d more) :
    (∃ n, n ≤ d.rest.length ∧ c.skipWhile Reader.isWhiteSpace = c.advance n ∧
      d.skipWhile Reader.isWhiteSpace = d.advance n) ∨
    (d.skipWhile Reader.isWhiteSpace = d.advance d.rest.length ∧ ∃ n, n ≤ more.length ∧
      c.skipWhile Reader.isWhiteSpace = c.advance (d.rest.length + n)) := by
  obtain ⟨s, hs, hd, hnot⟩ := d.exists_space
  have hle := hs.length_le
  by_cases hinside : s.bytes.length < d.rest.length
  · refine .inl ⟨s.bytes.length, hle, skipWhile_eq ?_ s.blank fun b hb => hnot b ?_, hd⟩
    · rw [h.rest_eq]
      exact hs.1.trans (List.prefix_append _ _)
    · rw [h.rest_eq, List.drop_append_of_le_length hle] at hb
      cases hdrop : d.rest.drop s.bytes.length with
      | nil => exact absurd (List.drop_eq_nil_iff.1 hdrop) (Nat.not_le_of_lt hinside)
      | cons x xs =>
        rw [hdrop] at hb
        exact hb
  · have hall : s.bytes = d.rest := hs.1.eq_of_length (by omega)
    refine .inr ⟨by rw [hd, hall], (more.takeWhile Reader.isWhiteSpace).length,
      (List.takeWhile_prefix _).length_le, ?_⟩
    rw [Cursor.skipWhile, h.rest_eq, ← hall, List.takeWhile_append_of_pos s.blank,
      List.length_append]

end Cursor

namespace Reader

section Definitions

variable {α : Type}

/-- A reader stops at a job-end marker. -/
def EndsJob (r : Reader α) (c : Cursor) : Prop :=
  ∃ offset c', r c = .error (.jobEnd offset) c'

/-- A reader lacks so many bytes at a place. -/
def Lacks (r : Reader α) (c : Cursor) (place needed : Nat) : Prop :=
  ∃ c', r c = .error (.fault (.endOfStream place needed)) c'

/-- A reader does not go back. -/
structure Onward (r : Reader α) : Prop where
  /-- Where it gives a result, it stands no further in front. -/
  ok : ∀ {c a c'}, r c = .ok a c' → c.fileOffset ≤ c'.fileOffset
  /-- It lacks no bytes in front. -/
  lacks : ∀ {c place needed}, r.Lacks c place needed → c.fileOffset ≤ place

/-- A reader comes past a place. Some results may leave the cursor at it, in front of a byte. -/
structure Passes (r : Reader α) (stays : α → Prop) (c : Cursor) (place : Nat) : Prop where
  /-- Where it gives a result, the place lies behind. -/
  ok : ∀ {a c'}, r c = .ok a c' →
    place < c'.fileOffset ∨ stays a ∧ place = c'.fileOffset ∧ c'.rest ≠ []
  /-- It lacks no bytes there. -/
  lacks : ∀ {offset needed}, r.Lacks c offset needed → place < offset

/-- What a reader does that would lack bytes at a place if these did not follow. -/
inductive Resumes (r : Reader α) (stays : α → Prop) (c : Cursor) (more : List UInt8)
    (place needed : Nat) : Prop where
  /-- A job-end marker is completed. -/
  | ends (h : r.EndsJob c)
  /-- There are too few, and the rest is lacking. -/
  | lacks (few : more.length < needed) (h : r.Lacks c place (needed - more.length))
  /-- There are enough. -/
  | passes (enough : needed ≤ more.length) (h : r.Passes stays c place)

/-- More bytes never matter but for what lacked before, and then exactly as many as were needed. -/
structure Resumable (r : Reader α) (stays : α → Prop) : Prop extends Onward r where
  /-- A lack of bytes is resumed. -/
  resumes : ∀ {c d more place needed}, c.Extends d more → r.Lacks d place needed →
    r.Resumes stays c more place needed

/-- A reader that gives a result does so whatever follows, unless a job-end marker is completed. -/
def Keeps (r : Reader α) : Prop :=
  ∀ (c d : Cursor) (more : List UInt8), c.Extends d more → ∀ a d', r d = .ok a d' →
    r.EndsJob c ∨ ∃ n, n ≤ d.rest.length ∧ d' = d.advance n ∧ r c = .ok a (c.advance n)

/-- A reader whose results and lacks are both settled by the bytes that it takes. -/
structure Steady (r : Reader α) : Prop extends Resumable r fun _ => False where
  /-- A result is kept. -/
  keeps : Keeps r

end Definitions

section Composition

variable {α β : Type} {r : Reader α} {f : α → Reader β} {stays : α → Prop} {stays' : β → Prop}
  {c : Cursor} {place needed : Nat}

/-- A reader that stops at a marker never comes to the next one. -/
theorem EndsJob.bind (h : r.EndsJob c) : (r >>= f).EndsJob c := by
  obtain ⟨offset, c', h⟩ := h
  exact ⟨offset, c', bind_eq_error_iff.2 (.inl h)⟩

/-- A reader that lacks bytes never comes to the next one. -/
theorem Lacks.bind (h : r.Lacks c place needed) : (r >>= f).Lacks c place needed := by
  obtain ⟨c', h⟩ := h
  exact ⟨c', bind_eq_error_iff.2 (.inl h)⟩

/-- Of two readers in turn either the first lacks the bytes or the second does. -/
theorem lacks_bind_iff : (r >>= f).Lacks c place needed ↔
    r.Lacks c place needed ∨ ∃ a c', r c = .ok a c' ∧ (f a).Lacks c' place needed := by
  constructor
  · rintro ⟨c', h⟩
    rcases bind_eq_error_iff.1 h with hr | ⟨a, d, hr, hf⟩
    · exact .inl ⟨c', hr⟩
    · exact .inr ⟨a, d, hr, c', hf⟩
  · rintro (h | ⟨a, d, hr, c', hf⟩)
    · exact h.bind
    · exact ⟨c', bind_eq_error_iff.2 (.inr ⟨a, d, hr, hf⟩)⟩

/-- Readers that do not go back do not go back one after the other. -/
theorem Onward.bind (hr : Onward r) (hf : ∀ a, Onward (f a)) : Onward (r >>= f) where
  ok h := by
    obtain ⟨a, d, ha, hb⟩ := bind_eq_ok_iff.1 h
    exact Nat.le_trans (hr.ok ha) ((hf a).ok hb)
  lacks h := by
    rcases lacks_bind_iff.1 h with hlack | ⟨a, d, ha, hlack⟩
    · exact hr.lacks hlack
    · exact Nat.le_trans (hr.ok ha) ((hf a).lacks hlack)

/-- Behind a reader that comes past a place, the next one only has to do so itself where the cursor
stayed. -/
theorem Passes.bind (hr : r.Passes stays c place) (hf : ∀ a, Onward (f a))
    (hstays : ∀ a, stays a → ∀ d : Cursor, d.rest ≠ [] → (f a).Passes stays' d d.fileOffset) :
    (r >>= f).Passes stays' c place where
  ok h := by
    obtain ⟨a, d, ha, hb⟩ := bind_eq_ok_iff.1 h
    rcases hr.ok ha with hlt | ⟨hstay, rfl, hrest⟩
    · exact .inl (Nat.lt_of_lt_of_le hlt ((hf a).ok hb))
    · exact (hstays a hstay d hrest).ok hb
  lacks h := by
    rcases lacks_bind_iff.1 h with hlack | ⟨a, d, ha, hlack⟩
    · exact hr.lacks hlack
    · rcases hr.ok ha with hlt | ⟨hstay, rfl, hrest⟩
      · exact Nat.lt_of_lt_of_le hlt ((hf a).lacks hlack)
      · exact (hstays a hstay d hrest).lacks hlack

/-- What is read behind a result. -/
theorem Resumes.behind {more : List UInt8} {a : α} {c' : Cursor} (hr : r c = .ok a c')
    (h : (f a).Resumes stays' c' more place needed) :
    (r >>= f).Resumes stays' c more place needed := by
  have hsame : (r >>= f) c = f a c' := bind_of_ok hr
  cases h with
  | ends h =>
    obtain ⟨offset, d, h⟩ := h
    exact .ends ⟨offset, d, hsame.trans h⟩
  | lacks few h =>
    obtain ⟨d, h⟩ := h
    exact .lacks few ⟨d, hsame.trans h⟩
  | passes enough h =>
    refine .passes enough ⟨fun hok => h.ok (hsame.symm.trans hok), fun hlack => ?_⟩
    obtain ⟨d, hlack⟩ := hlack
    exact h.lacks ⟨d, hsame.symm.trans hlack⟩

/-- Readers that keep their results keep them one after the other. -/
theorem Keeps.bind (hr : Keeps r) (hf : ∀ a, Keeps (f a)) : Keeps (r >>= f) := by
  intro c d more h b d' hok
  obtain ⟨a, d₁, ha, hb⟩ := bind_eq_ok_iff.1 hok
  rcases hr c d more h a d₁ ha with hend | ⟨m, hm, rfl, hc⟩
  · exact .inl hend.bind
  · rcases hf a _ _ more (h.advance hm) b d' hb with ⟨offset, c', hend⟩ | ⟨n, hn, rfl, hc'⟩
    · exact .inl ⟨offset, c', bind_eq_error_iff.2 (.inr ⟨a, _, hc, hend⟩)⟩
    · rw [rest_advance, List.length_drop] at hn
      rw [advance_advance] at hc' ⊢
      exact .inr ⟨m + n, by omega, rfl, bind_eq_ok_iff.2 ⟨a, _, hc, hc'⟩⟩

/-- Two resumable readers in turn are resumable, if the second comes past the place that some
results of the first stay at. -/
theorem Resumable.bind (hkeeps : Keeps r) (hr : Resumable r stays)
    (hf : ∀ a, Resumable (f a) stays')
    (hstays : ∀ a, stays a → ∀ d : Cursor, d.rest ≠ [] → (f a).Passes stays' d d.fileOffset) :
    Resumable (r >>= f) stays' := by
  refine ⟨hr.toOnward.bind fun a => (hf a).toOnward, fun h hlack => ?_⟩
  rcases lacks_bind_iff.1 hlack with hlack | ⟨a, d', ha, hlack⟩
  · cases hr.resumes h hlack with
    | ends hend => exact .ends hend.bind
    | lacks few hlack => exact .lacks few hlack.bind
    | passes enough hpasses =>
      exact .passes enough (hpasses.bind (fun a => (hf a).toOnward) hstays)
  · rcases hkeeps _ _ _ h a d' ha with hend | ⟨n, hn, rfl, hc⟩
    · exact .ends hend.bind
    · exact Resumes.behind hc ((hf a).resumes (h.advance hn) hlack)

/-- Behind a steady reader any resumable one may follow. -/
theorem Steady.bind_resumable (hr : Steady r) (hf : ∀ a, Resumable (f a) stays') :
    Resumable (r >>= f) stays' :=
  hr.toResumable.bind hr.keeps hf fun _ hnever => hnever.elim

/-- Two steady readers in turn are steady. -/
theorem Steady.bind (hr : Steady r) (hf : ∀ a, Steady (f a)) : Steady (r >>= f) :=
  ⟨hr.bind_resumable fun a => (hf a).toResumable, hr.keeps.bind fun a => (hf a).keeps⟩

/-- What is made of the result lacks nothing. -/
theorem Resumable.map (hr : Resumable r fun _ => False) (g : α → β) :
    Resumable (r >>= fun a => pure (g a)) fun _ => False := by
  have hpure : ∀ a, Onward (pure (g a) : Reader β) := fun a =>
    ⟨fun h => Nat.le_of_eq (by cases h; rfl), fun ⟨c', h⟩ => by cases h⟩
  refine ⟨hr.toOnward.bind hpure, fun h hlack => ?_⟩
  rcases lacks_bind_iff.1 hlack with hlack | ⟨a, d, -, c', hnever⟩
  · cases hr.resumes h hlack with
    | ends hend => exact .ends hend.bind
    | lacks few hlack => exact .lacks few hlack.bind
    | passes enough hpasses =>
      exact .passes enough (hpasses.bind hpure fun _ hnever => hnever.elim)
  · cases hnever

/-- A reader that never lacks bytes has nothing to resume. -/
theorem resumable_of_not_lacks (honward : ∀ {c a c'}, r c = .ok a c' → c.fileOffset ≤ c'.fileOffset)
    (h : ∀ c place needed, ¬ r.Lacks c place needed) : Resumable r stays where
  ok := honward
  lacks hlack := absurd hlack (h _ _ _)
  resumes _ hlack := absurd hlack (h _ _ _)

/-- A constant lacks no bytes. -/
theorem resumable_pure (a : α) : Resumable (pure a : Reader α) stays := by
  refine resumable_of_not_lacks (fun h => ?_) fun c place needed h => ?_
  · cases h
    exact Nat.le_refl _
  · obtain ⟨c', h⟩ := h
    cases h

/-- A constant is settled by no bytes at all. -/
theorem steady_pure (a : α) : Steady (pure a : Reader α) := by
  refine ⟨resumable_pure a, fun c d more h b d' hok => ?_⟩
  cases hok
  exact .inr ⟨0, Nat.zero_le _, (advance_zero _).symm, by rw [advance_zero]; rfl⟩

/-- A result that may stay does so in front of a byte. -/
theorem passes_pure {a : α} (ha : stays a) (hrest : c.rest ≠ []) :
    (pure a : Reader α).Passes stays c c.fileOffset where
  ok h := by
    cases h
    exact .inr ⟨ha, rfl, hrest⟩
  lacks h := by
    obtain ⟨c', h⟩ := h
    cases h

/-- A fault of another kind never gives a result and lacks no bytes. -/
theorem steady_fail {fault : Fault} (hf : ∀ place needed, fault ≠ .endOfStream place needed) :
    Steady (fail fault : Reader α) := by
  refine ⟨resumable_of_not_lacks (fun h => absurd h fail_ne_ok) fun c place needed h => ?_,
    fun c d more h b d' hok => absurd hok fail_ne_ok⟩
  obtain ⟨c', h⟩ := h
  cases h
  exact hf place needed rfl

end Composition

theorem steady_fileOffset : Steady fileOffset := by
  refine ⟨resumable_of_not_lacks (fun h => ?_) fun c place needed h => ?_,
    fun c d more h offset d' hok => ?_⟩
  · exact Nat.le_of_eq (by rw [(fileOffset_eq_ok_iff.1 h).2])
  · obtain ⟨c', h⟩ := h
    cases h
  · obtain ⟨rfl, rfl⟩ := fileOffset_eq_ok_iff.1 hok
    refine .inr ⟨0, Nat.zero_le _, (advance_zero _).symm, ?_⟩
    rw [advance_zero]
    exact fileOffset_eq_ok_iff.2 ⟨h.fileOffset_eq.symm, rfl⟩

/-- The next bytes hold a marker or they do not. -/
theorem endsJob_or_clear (n : Nat) (c : Cursor) : (stopAtJobEnd n).EndsJob c ∨ c.Clear n := by
  cases hstop : stopAtJobEnd n c with
  | ok u c' => exact .inr (stopAtJobEnd_eq_ok_iff.1 hstop).1
  | error i c' =>
    unfold stopAtJobEnd at hstop
    split at hstop <;> cases hstop
    rename_i i hfirst
    refine .inl ⟨c.fileOffset + i, c.advance i, ?_⟩
    unfold stopAtJobEnd
    rw [hfirst]

/-- Looking for a marker stops at it or goes on, and lacks nothing. -/
theorem steady_stopAtJobEnd (n : Nat) : Steady (stopAtJobEnd n) := by
  refine ⟨resumable_of_not_lacks (fun h => ?_) fun c place needed h => ?_,
    fun c d more h u d' hok => ?_⟩
  · exact Nat.le_of_eq (by rw [(stopAtJobEnd_eq_ok_iff.1 h).2])
  · obtain ⟨c', h⟩ := h
    unfold stopAtJobEnd at h
    split at h <;> cases h
  · obtain ⟨-, rfl⟩ := stopAtJobEnd_eq_ok_iff.1 hok
    rcases endsJob_or_clear n c with hend | hclear
    · exact .inl hend
    · refine .inr ⟨0, Nat.zero_le _, (advance_zero _).symm, ?_⟩
      rw [advance_zero]
      exact stopAtJobEnd_eq_ok_iff.2 ⟨hclear, rfl⟩

/-- Raw bytes are lacking where there are fewer. -/
theorem lacks_takeRaw_iff {n place needed : Nat} {c : Cursor} : (takeRaw n).Lacks c place needed ↔
    c.rest.length < n ∧ place = c.fileOffset ∧ needed = n - c.rest.length := by
  unfold Lacks takeRaw
  dsimp only
  constructor
  · rintro ⟨c', h⟩
    split at h
    · rename_i hshort
      rw [List.length_take] at hshort h
      cases h
      exact ⟨by omega, rfl, by omega⟩
    · cases h
  · rintro ⟨hshort, rfl, rfl⟩
    rw [List.take_of_length_le (Nat.le_of_lt hshort), if_pos hshort]
    exact ⟨c, rfl⟩

/-- Raw bytes are settled by as many bytes as are taken. -/
theorem steady_takeRaw (n : Nat) : Steady (takeRaw n) := by
  refine ⟨⟨⟨fun h => ?_, fun h => ?_⟩, fun {c d more place needed} h hlack => ?_⟩,
    fun c d more h bs d' hok => ?_⟩
  · obtain ⟨rfl, hbs, rfl⟩ := takeRaw_eq_ok_iff.1 h
    rw [fileOffset_advance hbs.length_le]
    exact Nat.le_add_right _ _
  · exact Nat.le_of_eq (by rw [(lacks_takeRaw_iff.1 h).2.1])
  · obtain ⟨hshort, rfl, rfl⟩ := lacks_takeRaw_iff.1 hlack
    have hlength := h.length_eq
    have hplace := h.fileOffset_eq
    by_cases hmore : c.rest.length < n
    · exact .lacks (by omega) (lacks_takeRaw_iff.2 ⟨hmore, hplace.symm, by omega⟩)
    · refine .passes (by omega) ⟨fun hok => ?_, fun hlack' => ?_⟩
      · obtain ⟨rfl, hbs, rfl⟩ := takeRaw_eq_ok_iff.1 hok
        rw [fileOffset_advance hbs.length_le]
        exact .inl (by omega)
      · exact absurd (lacks_takeRaw_iff.1 hlack').1 hmore
  · obtain ⟨rfl, hbs, rfl⟩ := takeRaw_eq_ok_iff.1 hok
    have hall : bs <+: c.rest := by
      rw [h.rest_eq]
      exact hbs.trans (List.prefix_append _ _)
    exact .inr ⟨bs.length, hbs.length_le, rfl, takeRaw_eq_ok_iff.2 ⟨rfl, hall, rfl⟩⟩

/-- Bytes without a marker among them are settled by as many bytes as are taken. -/
theorem steady_take (n : Nat) : Steady (take n) :=
  (steady_stopAtJobEnd n).bind fun _ => steady_takeRaw n

/-- A word is settled by the bytes of its width. -/
theorem steady_word (width : Nat) : Steady (word width) := by
  refine (steady_take width).bind fun block => ?_
  refine ⟨resumable_of_not_lacks (fun h => ?_) fun c place needed h => ?_,
    fun c d more h n d' hok => ?_⟩
  · cases h
    exact Nat.le_refl _
  · obtain ⟨c', h⟩ := h
    cases h
  · cases hok
    refine .inr ⟨0, Nat.zero_le _, (advance_zero _).symm, ?_⟩
    rw [advance_zero, ← h.order_eq]
    rfl

theorem steady_byte : Steady byte :=
  (steady_word 1).bind fun _ => steady_pure _

theorem steady_number (t : ElementType) : Steady (number t) :=
  (steady_word t.width).bind fun _ => steady_pure _

/-- A run of numbers is settled number by number. -/
theorem steady_numbers (t : ElementType) (n : Nat) : Steady (numbers t n) := by
  induction n with
  | zero => exact steady_pure []
  | succ n ih => exact (steady_number t).bind fun x => ih.bind fun xs => steady_pure (x :: xs)

section Looking

variable {β : Type} {stays : β → Prop} {c : Cursor} {b : UInt8}

/-- At a cursor a job ends, the bytes end, or a byte is held. -/
theorem peek_cases (c : Cursor) : peek.EndsJob c ∨ c.rest = [] ∨ ∃ b, c.Holds [b] := by
  by_cases hmarker : jobEndMarker <+: c.rest
  · exact .inl ⟨_, c, peek_of_jobEnd hmarker⟩
  · cases hrest : c.rest with
    | nil => exact .inr (.inl rfl)
    | cons b bs =>
      refine .inr (.inr ⟨b, ⟨bs, hrest.symm⟩, fun i hi hstands => hmarker ?_⟩)
      rw [List.length_singleton, Nat.lt_one_iff] at hi
      rwa [hi, List.drop_zero] at hstands

/-- Looking at the next byte lacks one byte, and that at the end of the stream only. -/
theorem lacks_peek_iff {place needed : Nat} : peek.Lacks c place needed ↔
    c.rest = [] ∧ place = c.fileOffset ∧ needed = 1 := by
  constructor
  · rintro ⟨c', h⟩
    rcases peek_cases c with ⟨offset, d, hend⟩ | hnil | ⟨b, hb⟩
    · rw [h] at hend
      cases hend
    · rw [peek_of_nil hnil] at h
      cases h
      exact ⟨hnil, rfl, rfl⟩
    · rw [peek_eq_ok_iff.2 ⟨hb, rfl⟩] at h
      cases h
  · rintro ⟨hnil, rfl, rfl⟩
    exact ⟨c, peek_of_nil hnil⟩

/-- Looking at the next byte stays in place. -/
theorem onward_peek : Onward peek where
  ok h := Nat.le_of_eq (by rw [(peek_eq_ok_iff.1 h).2])
  lacks h := Nat.le_of_eq (lacks_peek_iff.1 h).2.1.symm

/-- The next byte is the same whatever follows it. -/
theorem keeps_peek : Keeps peek := by
  intro c d more h b d' hok
  obtain ⟨hb, rfl⟩ := peek_eq_ok_iff.1 hok
  rcases peek_cases c with hend | hnil | ⟨b', hb'⟩
  · exact .inl hend
  · have hlength := hb.length_le
    rw [h.rest_eq, List.append_eq_nil_iff] at hnil
    rw [hnil.1] at hlength
    cases hlength
  · refine .inr ⟨0, Nat.zero_le _, (advance_zero _).symm, ?_⟩
    rw [advance_zero]
    exact peek_eq_ok_iff.2 ⟨h.holds hb hb'.2, rfl⟩

/-- A reader that looks at a byte lacks one at the end. Where a byte follows, it has to come past it.
-/
theorem resumable_peek_bind {f : UInt8 → Reader β} (hf : ∀ b, Resumable (f b) stays)
    (hpasses : ∀ b c, c.Holds [b] → (f b).Passes stays c c.fileOffset) :
    Resumable (peek >>= f) stays := by
  refine ⟨onward_peek.bind fun b => (hf b).toOnward, fun {c d more place needed} h hlack => ?_⟩
  have hplace := h.fileOffset_eq
  rcases lacks_bind_iff.1 hlack with hlack | ⟨b, d', hb, hlack⟩
  · obtain ⟨hnil, rfl, rfl⟩ := lacks_peek_iff.1 hlack
    rcases peek_cases c with hend | hnil' | ⟨b, hb⟩
    · exact .ends hend.bind
    · have hlength := h.length_eq
      rw [hnil, hnil', List.length_nil, Nat.zero_add] at hlength
      rw [← hplace]
      exact .lacks (by omega) (Lacks.bind (lacks_peek_iff.2 ⟨hnil', rfl, by omega⟩))
    · have hlength := h.length_eq
      have hheld := hb.length_le
      rw [hnil, List.length_nil, Nat.zero_add] at hlength
      rw [List.length_singleton] at hheld
      rw [← hplace]
      exact Resumes.behind (peek_eq_ok_iff.2 ⟨hb, rfl⟩) (.passes (by omega) (hpasses b c hb))
  · rcases keeps_peek _ _ _ h b d' hb with hend | ⟨n, hn, rfl, hc⟩
    · exact .ends hend.bind
    · exact Resumes.behind hc ((hf b).resumes (h.advance hn) hlack)

/-- A steady reader that comes past the byte in front of it, where one is held. -/
structure Eager (r : Reader β) : Prop extends Steady r where
  /-- The byte lies behind whatever comes. -/
  passes : ∀ {c : Cursor} {b : UInt8}, c.Holds [b] → r.Passes (fun _ => False) c c.fileOffset

/-- A fault of another kind does not stay anywhere. -/
theorem eager_fail {fault : Fault} (hf : ∀ place needed, fault ≠ .endOfStream place needed) :
    Eager (fail fault : Reader β) := by
  refine ⟨steady_fail hf, fun _ => ⟨fun h => absurd h fail_ne_ok, fun h => ?_⟩⟩
  obtain ⟨c', h⟩ := h
  cases h
  exact absurd rfl (hf _ _)

/-- The byte is taken. -/
theorem eager_byte_bind {f : UInt8 → Reader β} (hf : ∀ b, Steady (f b)) : Eager (byte >>= f) := by
  refine ⟨steady_byte.bind hf, fun {c b} hb => ?_⟩
  have hbyte : (byte >>= f) c = f b (c.advance 1) := bind_of_ok (byte_eq_ok_iff.2 ⟨hb, rfl⟩)
  have hplace : (c.advance 1).fileOffset = c.fileOffset + 1 := hb.fileOffset
  refine ⟨fun h => ?_, fun ⟨c', h⟩ => ?_⟩
  · rw [hbyte] at h
    have hle := (hf b).ok h
    exact .inl (by omega)
  · rw [hbyte] at h
    have hle := (hf b).toOnward.lacks ⟨c', h⟩
    omega

/-- Asking for the place first does not matter to an eager reader. -/
theorem eager_fileOffset_bind {f : Nat → Reader β} (hf : ∀ n, Eager (f n)) :
    Eager (fileOffset >>= f) := by
  refine ⟨steady_fileOffset.bind fun n => (hf n).toSteady, fun {c b} hb => ?_⟩
  have hsame := fileOffset_bind f c
  refine ⟨fun h => ((hf _).passes hb).ok (hsame.symm.trans h), fun ⟨c', h⟩ => ?_⟩
  exact ((hf _).passes hb).lacks ⟨c', hsame.symm.trans h⟩

/-- Looking at a byte that the next reader takes at once is steady. -/
theorem steady_peek_bind {f : UInt8 → Reader β} (hf : ∀ b, Eager (f b)) : Steady (peek >>= f) :=
  ⟨resumable_peek_bind (fun b => (hf b).toResumable) fun b _ hb => (hf b).passes hb,
    keeps_peek.bind fun b => (hf b).keeps⟩

/-- Where there is a byte, it is passed, or a job ends there. -/
theorem passes_peek_bind {f : UInt8 → Reader β} (hrest : c.rest ≠ []) (hf : ∀ b, Eager (f b)) :
    (peek >>= f).Passes (fun _ => False) c c.fileOffset := by
  rcases peek_cases c with ⟨offset, d, hend⟩ | hnil | ⟨b, hb⟩
  · have hall : (peek >>= f) c = .error (.jobEnd offset) d := bind_eq_error_iff.2 (.inl hend)
    refine ⟨fun h => ?_, fun ⟨c', h⟩ => ?_⟩
    · rw [hall] at h
      cases h
    · rw [hall] at h
      cases h
  · exact absurd hnil hrest
  · have hsame : (peek >>= f) c = f b c := bind_of_ok (peek_eq_ok_iff.2 ⟨hb, rfl⟩)
    exact ⟨fun h => ((hf b).passes hb).ok (hsame.symm.trans h),
      fun ⟨c', h⟩ => ((hf b).passes hb).lacks ⟨c', hsame.symm.trans h⟩⟩

end Looking

/-- Skipping bytes of a kind does not go back. -/
theorem onward_skipWhile (p : UInt8 → Bool) : Onward (skipWhile p) where
  ok {c a c'} h := by
    cases h
    rw [Cursor.skipWhile, fileOffset_advance (List.takeWhile_prefix _).length_le]
    exact Nat.le_add_right _ _
  lacks h := by
    obtain ⟨c', h⟩ := h
    cases h

/-- White space may go on in the bytes that follow, if the next reader lacks a byte where there is
none. -/
theorem Resumable.behindSpace {β : Type} {r : Reader β} {stays : β → Prop} (hr : Resumable r stays)
    (hneeds : NeedsByte r) : Resumable (skipWhiteSpace >>= fun _ => r) stays := by
  refine ⟨(onward_skipWhile _).bind fun _ => hr.toOnward,
    fun {c d more place needed} h hlack => ?_⟩
  have hc := skipWhiteSpace_eq c
  have hd := skipWhiteSpace_eq d
  rcases lacks_bind_iff.1 hlack with ⟨c', hnever⟩ | ⟨a, d', ha, hlack⟩
  · cases hnever
  · cases ha
    rcases h.skipSpace with ⟨n, hn, hskip, hskip'⟩ | ⟨hskip', n, hn, hskip⟩
    · rw [hskip] at hc
      rw [hskip'] at hlack
      exact Resumes.behind hc (hr.resumes (h.advance hn) hlack)
    · rw [hskip] at hc
      rw [hskip'] at hlack
      have hnil : (d.advance d.rest.length).rest = [] := List.drop_length
      have hlength := h.length_eq
      have hplace := h.fileOffset_eq
      have hend : (d.advance d.rest.length).fileOffset = d.fileOffset + d.rest.length :=
        fileOffset_advance (Nat.le_refl _)
      have hend' : (c.advance (d.rest.length + n)).fileOffset = c.fileOffset + (d.rest.length + n) :=
        fileOffset_advance (by omega)
      by_cases hzero : n = 0
      · rw [hzero, Nat.add_zero] at hc
        exact Resumes.behind hc (hr.resumes (h.advance (Nat.le_refl _)) hlack)
      · -- The white space that follows lies behind the place, and so does all behind it.
        obtain ⟨d₁, hlack⟩ := hlack
        rw [hneeds _ hnil] at hlack
        cases hlack
        refine Resumes.behind hc (.passes (by omega) ⟨fun hok => ?_, fun hlack' => ?_⟩)
        · have hle := hr.ok hok
          exact .inl (by omega)
        · have hle := hr.toOnward.lacks hlack'
          omega

/-- A reader that comes past a byte does so behind white space. -/
theorem Passes.behindSpace {β : Type} {r : Reader β} {stays : β → Prop} {c : Cursor}
    (hrest : c.rest ≠ []) (hr : Onward r)
    (h : ∀ d : Cursor, d.rest ≠ [] → r.Passes stays d d.fileOffset) :
    (skipWhiteSpace >>= fun _ => r).Passes stays c c.fileOffset := by
  obtain ⟨s, hs, hskip, -⟩ := c.exists_space
  have hplace := hs.fileOffset
  have hspace := skipWhiteSpace_eq c
  rw [hskip] at hspace
  have hsame : (skipWhiteSpace >>= fun _ => r) c = r (c.advance s.bytes.length) := bind_of_ok hspace
  by_cases hzero : s.bytes.length = 0
  · rw [hzero, advance_zero] at hsame
    exact ⟨fun hok => (h c hrest).ok (hsame.symm.trans hok),
      fun ⟨c', hlack⟩ => (h c hrest).lacks ⟨c', hsame.symm.trans hlack⟩⟩
  · refine ⟨fun hok => ?_, fun ⟨c', hlack⟩ => ?_⟩
    · have hle := hr.ok (hsame.symm.trans hok)
      exact .inl (by omega)
    · have hle := hr.lacks ⟨c', hsame.symm.trans hlack⟩
      omega

/-- Where no byte is left, there is no white space. -/
theorem needsByte_behindSpace {β : Type} {r : Reader β} (h : NeedsByte r) :
    NeedsByte (skipWhiteSpace >>= fun _ => r) := by
  intro c hnil
  have hspace := skipWhiteSpace_eq c
  rw [Cursor.skipWhile, hnil] at hspace
  rw [bind_of_ok hspace, List.takeWhile_nil, List.length_nil, advance_zero]
  exact h c hnil

/-- A result behind white space is kept, if the reader of it needs a byte. -/
theorem Keeps.behindSpace {β : Type} {r : Reader β} (hr : Keeps r) (hneeds : NeedsByte r) :
    Keeps (skipWhiteSpace >>= fun _ => r) := by
  intro c d more h b d' hok
  have hc := skipWhiteSpace_eq c
  obtain ⟨a, d₁, hd, hok⟩ := bind_eq_ok_iff.1 hok
  cases hd
  rcases h.skipSpace with ⟨n, hn, hskip, hskip'⟩ | ⟨hskip', -⟩
  · rw [hskip] at hc
    rw [hskip'] at hok
    rcases hr _ _ _ (h.advance hn) b d' hok with ⟨offset, c', hend⟩ | ⟨m, hm, rfl, hc'⟩
    · exact .inl ⟨offset, c', bind_eq_error_iff.2 (.inr ⟨_, _, hc, hend⟩)⟩
    · rw [rest_advance, List.length_drop] at hm
      rw [advance_advance] at hc' ⊢
      exact .inr ⟨n + m, by omega, rfl, bind_eq_ok_iff.2 ⟨_, _, hc, hc'⟩⟩
  · have hnil : (d.advance d.rest.length).rest = [] := List.drop_length
    rw [hskip', hneeds _ hnil] at hok
    cases hok

/-- A steady reader that needs a byte is steady behind white space. -/
theorem Steady.behindSpace {β : Type} {r : Reader β} (hr : Steady r) (hneeds : NeedsByte r) :
    Steady (skipWhiteSpace >>= fun _ => r) :=
  ⟨hr.toResumable.behindSpace hneeds, Keeps.behindSpace hr.keeps hneeds⟩

end Reader

end PclXl
