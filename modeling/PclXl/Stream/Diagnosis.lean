import PclXl.Stream.Transcript

/-!
# Diagnoses

A stream that cannot be taken apart is reported with the tokens that were read before the fault and
with the bytes that lead up to it.
-/

namespace PclXl

open Text

/-- How many bytes a diagnosis shows at most. -/
def contextLimit : Nat := 25

/-- The last bytes up to and including a position, and the position of the first of them. A position
behind the end stands for the last byte. -/
def contextWindow (data : List UInt8) (position : Nat) : Nat × List UInt8 :=
  let stop := min (position + 1) data.length
  let start := stop - contextLimit
  (start, (data.drop start).take (stop - start))

/-- A fault with what is known about its place. -/
structure Diagnosis where
  /-- What is wrong. -/
  fault : Fault
  /-- The tokens that were read before. -/
  tokens : List Token
  /-- File offset of the first byte that is shown. -/
  contextOffset : Nat
  /-- The bytes that lead up to the fault. -/
  context : List UInt8
  deriving DecidableEq

namespace Diagnosis

/-- The diagnosis of a fault in bytes whose first one has the file offset `base`. A fault without a
place is shown with the first byte. -/
def ofFault (fault : Fault) (tokens : List Token) (data : List UInt8) (base : Nat) : Diagnosis :=
  let position := match fault.offset? with
    | some offset => offset - base
    | none => 0
  let (start, context) := contextWindow data position
  { fault, tokens, contextOffset := base + start, context }

/-- The message for the fault, and a line with the bytes that lead up to it if there are any. -/
def report (d : Diagnosis) : String :=
  if d.context.isEmpty then d.fault.message
  else
    d.fault.message ++ "\n  bytes from " ++ hexOffset d.contextOffset ++ ":" ++
      String.join (d.context.map fun b => " " ++ hex 2 b.toNat)

end Diagnosis

/-- The diagnosis of a fault in the stream of a session. -/
def Session.diagnose (s : Session) (fault : Fault) (tokens : List Token) : Diagnosis :=
  .ofFault fault tokens s.cursor.data s.cursor.base

/-- A stream that was taken apart up to the end of its job. -/
structure Disassembly where
  /-- The header of the stream. -/
  header : Header
  /-- All tokens in order; the last one is the end of the job. -/
  tokens : List Token
  deriving DecidableEq

namespace Disassembly

/-- The operators of a stream in order. -/
def operators (d : Disassembly) : List Operator :=
  d.tokens.filterMap Token.operator?

/-- Take the stream in a file apart. Running out of bytes before the end of the job is a fault, even
between two operators. -/
def ofFile (data : List UInt8) : Except Diagnosis Disassembly :=
  match Session.openFile data with
  | .error fault => .error (.ofFault fault [] data 0)
  | .ok s =>
    let transcript := s.run
    match transcript.ending.fault? with
    | none => .ok ⟨s.header, transcript.tokens⟩
    | some fault => .error (transcript.session.diagnose fault transcript.tokens)

end Disassembly

end PclXl
