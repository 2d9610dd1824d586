import PclXl.Stream.AttributeList
import PclXl.Stream.DataBlock
import PclXl.Stream.Header

/-!
# Sessions

A session takes a stream apart step by step. A step reads one operator with its attributes and its
data block. The session counts the operators and keeps track of how many graphics states are saved:
an operator that saves one still runs at the level before, and one that restores it at the level
after.

A session ends at the end of the job, at the end of the bytes or at a fault. What the last step had
read until then is kept, and every further step gives the same ending again.
-/

namespace PclXl

open Vocabulary

/-- How a session ended. -/
inductive Ending where
  /-- The job-end marker was found at a file offset. -/
  | jobEnd (offset : Nat)
  /-- The bytes ran out. The step was `atBoundary` if only white space was left when it began. -/
  | exhausted (offset needed : Nat) (atBoundary : Bool)
  /-- The stream cannot be read on. -/
  | failed (fault : Fault)
  deriving DecidableEq, Repr

namespace Ending

/-- The ending that an interrupt brings about. -/
def ofInterrupt (atBoundary : Bool) : Interrupt → Ending
  | .jobEnd offset => jobEnd offset
  | .fault (.endOfStream offset needed) => exhausted offset needed atBoundary
  | .fault fault => failed fault

/-- What was wrong with the stream; nothing is if its job ended. -/
def fault? : Ending → Option Fault
  | jobEnd _ => none
  | exhausted offset needed _ => some (.endOfStream offset needed)
  | failed fault => some fault

/-- The last token of a stream whose job ended. -/
def tokens : Ending → List Token
  | jobEnd offset => [.jobEnd offset]
  | _ => []

end Ending

/-- Whether a session goes on. -/
inductive Phase where
  /-- More steps can be made. -/
  | scanning
  /-- The session has ended; its last step had read some tokens of an unfinished operator. -/
  | ended (ending : Ending) (unfinished : List Token)
  deriving DecidableEq

/-- A stream that is being taken apart. -/
structure Session where
  /-- The header of the stream. -/
  header : Header
  /-- The read position in the stream. -/
  cursor : Cursor
  /-- The declared length of the next data block, if one was declared and has not served yet. -/
  declared : Option UInt32
  /-- Saved graphics states minus restored ones. -/
  level : Int
  /-- How many counted operators were read. -/
  operatorCount : Nat
  /-- Whether the session goes on. -/
  phase : Phase

/-- What a step gives. -/
inductive Step where
  /-- The tokens of one operator. -/
  | sequence (tokens : List Token)
  /-- The session has ended. -/
  | ended (ending : Ending)
  deriving DecidableEq

namespace Session

/-- A session on a stream that starts with its header, at a file offset. -/
def start (stream : List UInt8) (base : Nat) : Except Fault Session := do
  let header ← Header.read stream base
  return {
    header
    cursor := (Cursor.atStart stream header.order base).moveTo header.length
    declared := none
    level := 0
    operatorCount := 0
    phase := .scanning }

/-- A session on the stream in a file. -/
def openFile (data : List UInt8) : Except Fault Session := do
  let n ← Header.locate data
  start (data.drop n) n

/-- The file offset of the read position. -/
def fileOffset (s : Session) : Nat :=
  s.cursor.fileOffset

/-- No further tokens will come. -/
def isFinished (s : Session) : Bool :=
  match s.phase with
  | .scanning => false
  | .ended _ _ => true

/-- The tokens of the operator that the ending interrupted. -/
def unfinished (s : Session) : List Token :=
  match s.phase with
  | .scanning => []
  | .ended _ tokens => tokens

/-- The session after an attribute list was read at its cursor. -/
def afterAttributes (s : Session) (list : AttributeList) : Session :=
  { s with cursor := list.cursor, declared := list.vendorLength? }

/-- The session after an operator's tag was read, up to the given cursor. -/
def afterOperator (s : Session) (info : OperatorInfo) (c : Cursor) : Session :=
  { s with
    cursor := c
    level :=
      if info.tag = popTag then s.level - 1
      else if info.tag = pushTag then s.level + 1
      else s.level
    operatorCount := if info.counted then s.operatorCount + 1 else s.operatorCount }

/-- The next operator of a session, whose attributes start at a file offset. -/
def nextOperator (s : Session) (info : OperatorInfo) (offset tagOffset : Nat) : Operator where
  tag := info.tag
  name := info.name
  offset := offset
  tagOffset := tagOffset
  level := if info.tag = popTag then s.level - 1 else s.level
  position := if info.counted then some (s.operatorCount + 1) else none

/-- Read a data block at the cursor of a session. -/
def readPayload (source : PayloadSource) (operatorName : String) (tagOffset : Nat) :
    EStateM Interrupt Session Payload := fun s =>
  let declared := source.declaredAfter s.declared
  match Reader.payload source s.declared operatorName tagOffset s.cursor with
  | .ok p c => .ok p { s with cursor := c, declared }
  | .error i c => .error i { s with cursor := c, declared }

/-- What reading one operator with its attributes and its data block led to. -/
structure Pass where
  /-- The tokens that were read. -/
  tokens : List Token
  /-- What stopped the reading before the operator was complete. -/
  interrupt : Option Interrupt
  /-- The session after the reading. -/
  session : Session

/-- The tag of an operator at the cursor and its file offset. -/
def operatorTag : Reader (OperatorInfo × Nat) := do
  let _ ← Reader.skipWhiteSpace
  let tagOffset ← Reader.fileOffset
  let tag ← Reader.peek
  match OperatorInfo.ofTag? tag with
  | none => Reader.fail (.unknownCode tagOffset tag.toUInt16 .operatorTag)
  | some info =>
    let _ ← Reader.byte
    return (info, tagOffset)

/-- Read the data block that an operator's table entry announces, if any. -/
def passPayload (s : Session) (info : OperatorInfo) (tagOffset : Nat) (tokens : List Token) :
    Pass :=
  match info.payload with
  | none => ⟨tokens, none, s⟩
  | some source =>
    match s.readPayload source info.name tagOffset with
    | .ok p s => ⟨tokens ++ [.payload p], none, s⟩
    | .error i s => ⟨tokens, some i, s⟩

/-- Read an operator's tag and its data block. The attributes in front of it start at a file
offset. -/
def passOperator (s : Session) (offset : Nat) (tokens : List Token) : Pass :=
  match operatorTag s.cursor with
  | .error i c => ⟨tokens, some i, { s with cursor := c }⟩
  | .ok (info, tagOffset) c =>
    passPayload (s.afterOperator info c) info tagOffset
      (tokens ++ [.operator (s.nextOperator info offset tagOffset)])

/-- Read one operator with its attributes and its data block. -/
def pass (s : Session) : Pass :=
  let list := AttributeList.read s.cursor
  let tokens := list.attributes.map Token.attr
  let after := s.afterAttributes list
  match list.interrupt with
  | some i => ⟨tokens, some i, after⟩
  | none => passOperator after s.fileOffset tokens

/-- The session after an interrupt. The job-end marker is stepped over. -/
def finish (s : Session) (ending : Ending) (unfinished : List Token) : Session :=
  { s with
    cursor := match ending with
      | .jobEnd _ => s.cursor.skipJobEnd
      | _ => s.cursor
    phase := .ended ending unfinished }

/-- Read the next operator, or give the ending again if the session has ended. -/
def step (s : Session) : Step × Session :=
  match s.phase with
  | .ended ending _ => (.ended ending, s)
  | .scanning =>
    let s := { s with cursor := s.cursor.skipWhile Reader.isWhiteSpace }
    let pass := s.pass
    match pass.interrupt with
    | none => (.sequence pass.tokens, pass.session)
    | some i =>
      let ending := Ending.ofInterrupt s.cursor.atEnd i
      (.ended ending, pass.session.finish ending pass.tokens)

end Session

end PclXl
