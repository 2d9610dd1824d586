import PclXl.Data.Number
import PclXl.Stream.Cursor
import PclXl.Stream.Fault

/-!
# Reading from a cursor

A reader takes a cursor to a result and to the cursor behind what it read. It may be interrupted,
by the end of the job or by a fault; then too it says where the cursor stands.

A job end wins over a lack of bytes: a read that is part of the grammar stops at the first job-end
marker that starts within it, even if the stream ends before the read would. A block of raw bytes
is read without looking for markers.
-/

namespace PclXl

/-- Why a read gave no result. -/
inductive Interrupt where
  /-- The job-end marker starts at a file offset. -/
  | jobEnd (offset : Nat)
  /-- The stream cannot be read on. -/
  | fault (fault : Fault)
  deriving DecidableEq, Repr

/-- A computation that reads from a cursor. -/
abbrev Reader (α : Type) := EStateM Interrupt Cursor α

namespace Reader

/-- Stop with a fault. -/
def fail {α : Type} (fault : Fault) : Reader α :=
  throw (.fault fault)

/-- The file offset of the cursor. -/
def fileOffset : Reader Nat := do
  return (← get).fileOffset

/-- The byte at the cursor, which stays where it is. -/
def peek : Reader UInt8 := fun c =>
  if c.atJobEnd then .error (.jobEnd c.fileOffset) c
  else
    match c.rest with
    | [] => .error (.fault (.endOfStream c.fileOffset 1)) c
    | b :: _ => .ok b c

/-- Stop if a job-end marker starts within the next `n` bytes, and leave the cursor in front of the
first one. -/
def stopAtJobEnd (n : Nat) : Reader Unit := fun c =>
  match c.jobEndWithin? n with
  | some i => .error (.jobEnd (c.fileOffset + i)) (c.advance i)
  | none => .ok () c

/-- The next `n` bytes, whatever they are. If there are fewer, none is read. -/
def takeRaw (n : Nat) : Reader (List UInt8) := fun c =>
  let block := c.rest.take n
  if block.length < n then .error (.fault (.endOfStream c.fileOffset (n - block.length))) c
  else .ok block (c.advance n)

/-- The next `n` bytes, none of which starts a job-end marker. -/
def take (n : Nat) : Reader (List UInt8) := do
  stopAtJobEnd n
  takeRaw n

/-- The bytes of an unsigned number of `width` bytes. -/
def word (width : Nat) : Reader Nat := do
  let block ← take width
  return (← get).order.value block

/-- An unsigned number of one byte. -/
def byte : Reader UInt8 := do
  return UInt8.ofNat (← word 1)

/-- An unsigned number of two bytes. -/
def uint16 : Reader UInt16 := do
  return UInt16.ofNat (← word 2)

/-- An unsigned number of four bytes. -/
def uint32 : Reader UInt32 := do
  return UInt32.ofNat (← word 4)

/-- A number of a type. -/
def number (t : ElementType) : Reader Number := do
  return Number.ofWord t (← word t.width)

/-- As many numbers of a type as are asked for. -/
def numbers (t : ElementType) : Nat → Reader (List Number)
  | 0 => return []
  | n + 1 => do
    let x ← number t
    let xs ← numbers t n
    return x :: xs

/-- Move over the bytes that satisfy `p`, up to the first that does not, and count them. -/
def skipWhile (p : UInt8 → Bool) : Reader Nat := fun c =>
  .ok (c.rest.takeWhile p).length (c.skipWhile p)

/-- A byte that may fill the place behind a data block. -/
def isPadding (b : UInt8) : Bool :=
  b == 0x00

/-- A byte that may stand between the parts of an operator. -/
def isWhiteSpace (b : UInt8) : Bool :=
  b == 0x00 || (0x09 ≤ b && b ≤ 0x0D) || b == 0x20

/-- Move over the padding at the cursor. -/
def skipPadding : Reader Nat :=
  skipWhile isPadding

/-- Move over the white space at the cursor. -/
def skipWhiteSpace : Reader Nat :=
  skipWhile isWhiteSpace

section Composition

variable {α β : Type}

theorem bind_eq_ok_iff {r : Reader α} {f : α → Reader β} {c c' : Cursor} {b : β} :
    (r >>= f) c = .ok b c' ↔ ∃ a d, r c = .ok a d ∧ f a d = .ok b c' := by
  change EStateM.bind r f c = _ ↔ _
  unfold EStateM.bind
  cases r c <;> simp [and_assoc]

theorem bind_eq_error_iff {r : Reader α} {f : α → Reader β} {c c' : Cursor} {i : Interrupt} :
    (r >>= f) c = .error i c' ↔
      r c = .error i c' ∨ ∃ a d, r c = .ok a d ∧ f a d = .error i c' := by
  change EStateM.bind r f c = _ ↔ _
  unfold EStateM.bind
  cases r c <;> simp [and_assoc]

theorem pure_eq_ok_iff {a b : α} {c c' : Cursor} :
    (pure a : Reader α) c = .ok b c' ↔ a = b ∧ c = c' := by
  change EStateM.Result.ok a c = _ ↔ _
  simp

/-- Where a reader gives a result, it has read at least `n` bytes. -/
def Consumes (n : Nat) (r : Reader α) : Prop :=
  ∀ c a c', r c = .ok a c' → c'.rest.length + n ≤ c.rest.length

theorem Consumes.mono {m n : Nat} {r : Reader α} (h : Consumes n r) (hle : m ≤ n) :
    Consumes m r := by
  intro c a c' hr
  have := h c a c' hr
  omega

theorem Consumes.bind {m n : Nat} {r : Reader α} {f : α → Reader β} (hr : Consumes m r)
    (hf : ∀ a, Consumes n (f a)) : Consumes (m + n) (r >>= f) := by
  intro c b c' h
  obtain ⟨a, d, ha, hb⟩ := bind_eq_ok_iff.1 h
  have h₁ := hr c a d ha
  have h₂ := hf a d b c' hb
  omega

theorem Consumes.map {n : Nat} {r : Reader α} (hr : Consumes n r) (f : α → β) :
    Consumes n (r >>= fun a => pure (f a)) := by
  intro c b c' h
  obtain ⟨a, d, ha, hb⟩ := bind_eq_ok_iff.1 h
  obtain ⟨-, rfl⟩ := pure_eq_ok_iff.1 hb
  exact hr c a d ha

theorem consumes_pure (a : α) : Consumes 0 (pure a : Reader α) := by
  intro c b c' h
  obtain ⟨-, rfl⟩ := pure_eq_ok_iff.1 h
  exact Nat.le_refl _

theorem consumes_fail (n : Nat) (fault : Fault) : Consumes n (fail fault : Reader α) := by
  intro c a c' h
  cases h

end Composition

theorem consumes_get : Consumes 0 (get : Reader Cursor) := by
  intro c a c' h
  cases h
  exact Nat.le_refl _

theorem consumes_fileOffset : Consumes 0 fileOffset :=
  consumes_get.map _

theorem consumes_peek : Consumes 0 peek := by
  intro c a c' h
  unfold peek at h
  split at h
  · cases h
  · split at h <;> cases h
    exact Nat.le_refl _

theorem consumes_stopAtJobEnd (n : Nat) : Consumes 0 (stopAtJobEnd n) := by
  intro c a c' h
  unfold stopAtJobEnd at h
  split at h <;> cases h
  exact Nat.le_refl _

theorem consumes_takeRaw (n : Nat) : Consumes n (takeRaw n) := by
  intro c a c' h
  simp only [takeRaw] at h
  split at h
  · cases h
  · cases h
    rename_i hn
    simp only [List.length_take] at hn
    simp only [Cursor.rest_advance, List.length_drop]
    omega

theorem consumes_take (n : Nat) : Consumes n (take n) :=
  ((consumes_stopAtJobEnd n).bind fun _ => consumes_takeRaw n).mono (by omega)

theorem consumes_word (width : Nat) : Consumes width (word width) :=
  (consumes_take width).bind fun _ => consumes_get.map _

theorem consumes_byte : Consumes 1 byte :=
  (consumes_word 1).map _

theorem consumes_number (t : ElementType) : Consumes t.width (number t) :=
  (consumes_word t.width).map _

theorem consumes_numbers (t : ElementType) (n : Nat) : Consumes (n * t.width) (numbers t n) := by
  induction n with
  | zero => exact (consumes_pure _).mono (by omega)
  | succ n ih =>
    exact ((consumes_number t).bind fun _ => ih.map _).mono (by rw [Nat.succ_mul]; omega)

theorem consumes_skipWhile (p : UInt8 → Bool) : Consumes 0 (skipWhile p) := by
  intro c a c' h
  cases h
  simp [Cursor.skipWhile]

theorem consumes_skipWhiteSpace : Consumes 0 skipWhiteSpace :=
  consumes_skipWhile _

theorem consumes_skipPadding : Consumes 0 skipPadding :=
  consumes_skipWhile _

end Reader

end PclXl
