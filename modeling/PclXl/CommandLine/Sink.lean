/-!
# Sinks that fill up

A sink takes bytes until it has no more room and refuses all others. It may take less than it is
offered at once; the rest is then offered again, so that a text that is longer than the room is taken
in part. Where the reader of the sink has gone away there is nobody to tell, which is not counted as a
failure to write.
-/

namespace PclXl

/-- The kinds of reasons for which a sink refuses bytes for good. An interruption is none of them: the
same bytes are offered again behind it, so that no text fails for it, and it is left out here. -/
inductive RefusalKind where
  /-- The reader has gone away. -/
  | brokenPipe
  /-- Writing is not allowed. -/
  | permissionDenied
  /-- The connection was given up by the other side. -/
  | connectionReset
  /-- Any other reason. -/
  | other
  deriving DecidableEq, Repr

/-- Why a text could not be written. -/
inductive SinkError where
  /-- The reader has gone away. -/
  | closed
  /-- The sink refused bytes, with a message. -/
  | refused (message : String)
  deriving DecidableEq, Repr

/-- The message for an error. -/
def SinkError.message : SinkError → String
  | closed => "Output closed by reader"
  | refused message => "Write failed: " ++ message

/-- A sink for bytes. -/
structure Sink where
  /-- How many more bytes the sink takes. -/
  room : Nat
  /-- Why it refuses the others. -/
  kind : RefusalKind
  /-- The message with which it refuses them. -/
  message : String
  /-- The bytes that it took. -/
  taken : List UInt8
  /-- How many of the bytes that it is offered the sink would take at once, behind those that it
  took. -/
  portion : List UInt8 → List UInt8 → Nat := fun _ offered => offered.length

namespace Sink

/-- The error with which a sink refuses bytes. -/
def error (s : Sink) : SinkError :=
  if s.kind = .brokenPipe then .closed else .refused s.message

/-- The sink behind bytes that it takes. -/
def behind (s : Sink) (bytes : List UInt8) : Sink :=
  { s with room := s.room - bytes.length, taken := s.taken ++ bytes }

/-- How many of some bytes a sink takes at once: at least one as long as there is room. -/
def acceptance (s : Sink) (bytes : List UInt8) : Nat :=
  min (max 1 (s.portion s.taken bytes)) (min bytes.length s.room)

/-- Offer bytes to a sink. It takes the first ones and tells how many, or refuses all if there are
some and it has no room. -/
def offer (s : Sink) (bytes : List UInt8) : Except SinkError Nat × Sink :=
  if bytes ≠ [] ∧ s.room = 0 then (.error s.error, s)
  else (.ok (s.acceptance bytes), s.behind (bytes.take (s.acceptance bytes)))

/-- A sink refuses bytes only if it has no room, and then takes none. -/
theorem offer_eq_error {s s' : Sink} {bytes : List UInt8} {e : SinkError}
    (h : s.offer bytes = (.error e, s')) : bytes ≠ [] ∧ s.room = 0 ∧ e = s.error ∧ s' = s := by
  unfold offer at h
  split at h
  · rename_i hfull
    cases h
    exact ⟨hfull.1, hfull.2, rfl, rfl⟩
  · cases h

/-- Otherwise it takes some of the bytes, if any are offered, and no more than it has room for. -/
theorem offer_eq_ok {s s' : Sink} {bytes : List UInt8} {n : Nat}
    (h : s.offer bytes = (.ok n, s')) :
    (bytes ≠ [] → 0 < n) ∧ n ≤ bytes.length ∧ n ≤ s.room ∧ s' = s.behind (bytes.take n) := by
  unfold offer at h
  split at h
  · cases h
  · rename_i hroom
    cases h
    refine ⟨fun hne => ?_, ?_, ?_, rfl⟩
    · have hlength := List.length_pos_iff.2 hne
      have hpos : s.room ≠ 0 := fun hzero => hroom ⟨hne, hzero⟩
      unfold acceptance
      omega
    · unfold acceptance
      omega
    · unfold acceptance
      omega

/-- Write bytes: those that the sink does not take at once are offered again, until it refuses. -/
def writeBytes (s : Sink) (bytes : List UInt8) : Except SinkError Unit × Sink :=
  if _hne : bytes = [] then (.ok (), s)
  else
    match _h : s.offer bytes with
    | (.error e, s') => (.error e, s')
    | (.ok n, s') => s'.writeBytes (bytes.drop n)
termination_by bytes.length
decreasing_by
  obtain ⟨hpos, hle, -⟩ := offer_eq_ok _h
  have htaken := hpos _hne
  rw [List.length_drop]
  omega

/-- Write a text in UTF-8. -/
def write (s : Sink) (text : String) : Except SinkError Unit × Sink :=
  s.writeBytes text.toUTF8.data.toList

/-- Write texts in turn, each whatever became of those before. -/
def writeAll (s : Sink) : List String → List (Except SinkError Unit) × Sink
  | [] => ([], s)
  | text :: texts =>
    let (result, s) := s.write text
    let (results, s) := s.writeAll texts
    (result :: results, s)

end Sink

end PclXl
