import PclXl.Proofs.Absorption
import PclXl.Proofs.FileByFile

/-!
# Progress

No loop of the reader counts its rounds. They end because every round takes bytes: an attribute at
least four, and an operator at least the one of its tag, even if arrays and data blocks are empty and
although the cursor goes back in front of an unknown number. So the length of a stream bounds what
can be read from it, and every file is read up to the end of its job, the end of its bytes or a fault.
On the way the cursor never leaves the stream, and every read takes bytes that are there.
-/

namespace PclXl

open Cursor

namespace Cursor

/-- A cursor comes to another one over bytes that are there. -/
def Reaches (c d : Cursor) : Prop :=
  ∃ n, n ≤ c.rest.length ∧ d = c.advance n

theorem Reaches.refl (c : Cursor) : c.Reaches c :=
  ⟨0, Nat.zero_le _, (advance_zero c).symm⟩

/-- What a cursor reaches by way of another one it reaches. -/
theorem Reaches.trans {c d e : Cursor} (h : c.Reaches d) (h' : d.Reaches e) : c.Reaches e := by
  obtain ⟨m, hm, rfl⟩ := h
  obtain ⟨n, hn, rfl⟩ := h'
  rw [rest_advance, List.length_drop] at hn
  exact ⟨m + n, by omega, advance_advance c m n⟩

/-- A cursor that was reached has no more bytes in front of it. -/
theorem Reaches.rest_length_le {c d : Cursor} (h : c.Reaches d) :
    d.rest.length ≤ c.rest.length := by
  obtain ⟨n, -, rfl⟩ := h
  rw [rest_advance, List.length_drop]
  omega

/-- Bytes behind a cursor and bytes in front of it are all bytes of its stream. -/
theorem position_add_rest_length (c : Cursor) :
    c.position + c.rest.length = c.data.length := by
  have hrest := c.remaining_eq
  have hposition := c.position_le
  rw [remaining] at hrest
  omega

/-- Skipping bytes of a kind stays in the stream. -/
theorem reaches_skipWhile (c : Cursor) (p : UInt8 → Bool) : c.Reaches (c.skipWhile p) :=
  ⟨_, (List.takeWhile_prefix p).length_le, rfl⟩

/-- Only a marker that is there is stepped over. -/
theorem reaches_skipJobEnd (c : Cursor) : c.Reaches c.skipJobEnd := by
  unfold skipJobEnd
  split
  · rename_i hat
    exact ⟨_, (List.isPrefixOf_iff_prefix.1 hat).length_le, rfl⟩
  · exact .refl c

/-- Some bytes are those of the stream from the position of one cursor to that of another. -/
structure Slice (c : Cursor) (bs : List UInt8) (d : Cursor) : Prop where
  /-- The bytes end in the stream. -/
  le : c.position + bs.length ≤ c.data.length
  /-- They are the bytes at the position. -/
  eq_take : bs = (c.data.drop c.position).take bs.length
  /-- The other cursor stands behind them. -/
  position_eq : d.position = c.position + bs.length
  /-- It is a cursor on the same stream. -/
  data_eq : d.data = c.data

/-- Bytes in front of a cursor that moves over them. -/
theorem slice_of_prefix {c : Cursor} {bs : List UInt8} (h : bs <+: c.rest) :
    c.Slice bs (c.advance bs.length) := by
  have hle := h.length_le
  have htotal := c.position_add_rest_length
  refine ⟨by omega, ?_, position_advance hle, rfl⟩
  rw [← c.rest_eq]
  exact List.prefix_iff_eq_take.1 h

end Cursor

namespace Reader

/-- The cursor behind a reader, whether it gave a result or was interrupted. -/
def behind {α : Type} (r : Reader α) (c : Cursor) : Cursor :=
  match r c with
  | .ok _ d => d
  | .error _ d => d

/-- A reader leaves the cursor in the stream, not in front of where it stood. -/
def MovesOn {α : Type} (r : Reader α) : Prop :=
  ∀ c : Cursor, c.Reaches (r.behind c)

/-- Behind a reader that gave a result stands the cursor of the result. -/
theorem behind_of_ok {α : Type} {r : Reader α} {c d : Cursor} {a : α} (h : r c = .ok a d) :
    r.behind c = d := by
  rw [behind, h]

/-- Behind a reader that was interrupted stands the cursor of the interrupt. -/
theorem behind_of_error {α : Type} {r : Reader α} {c d : Cursor} {i : Interrupt}
    (h : r c = .error i d) : r.behind c = d := by
  rw [behind, h]

/-- Two readers that move on, one after the other, move on. -/
theorem MovesOn.bind {α β : Type} {r : Reader α} {f : α → Reader β} (hr : MovesOn r)
    (hf : ∀ a, MovesOn (f a)) : MovesOn (r >>= f) := by
  intro c
  have hfirst := hr c
  cases hread : r c with
  | ok a d =>
    rw [behind_of_ok hread] at hfirst
    have hsame : (r >>= f).behind c = (f a).behind d := by
      unfold behind
      rw [bind_of_ok hread]
    rw [hsame]
    exact hfirst.trans (hf a d)
  | error i d =>
    rw [behind_of_error hread] at hfirst
    rwa [behind_of_error (bind_eq_error_iff.2 (.inl hread))]

/-- Every reader of the grammar moves over bytes that are there, and not past a marker: it does what it
does from its own twin. -/
theorem Scans.exists_behind {α : Type} {r : Reader α} (h : Scans r) (c : Cursor) :
    ∃ n, n ≤ c.rest.length ∧ c.Clear n ∧ r.behind c = c.advance n := by
  obtain ⟨room, ht⟩ := c.exists_twins
  have hroom := ht.room_le.1
  rcases h.alike ht with ⟨n, a, hn, hread, -⟩ | ⟨n, i, hn, hread, -, -⟩
  · exact ⟨n, by omega, ht.clear.mono hn, behind_of_ok hread⟩
  · exact ⟨n, by omega, ht.clear.mono hn, behind_of_error hread⟩

/-- A reader that is part of the grammar moves on. -/
theorem Scans.movesOn {α : Type} {r : Reader α} (h : Scans r) : MovesOn r := by
  intro c
  obtain ⟨n, hn, -, hbehind⟩ := h.exists_behind c
  exact ⟨n, hn, hbehind⟩

/-- Taking raw bytes moves on. -/
theorem movesOn_takeRaw (n : Nat) : MovesOn (takeRaw n) := by
  intro c
  by_cases hless : (c.rest.take n).length < n
  · have hread : takeRaw n c = .error _ c := if_pos hless
    rw [behind_of_error hread]
    exact .refl c
  · have hread : takeRaw n c = .ok _ (c.advance n) := if_neg hless
    rw [behind_of_ok hread]
    rw [List.length_take] at hless
    exact ⟨n, by omega, rfl⟩

/-- Reading a data block moves on, wherever its length is written. -/
theorem movesOn_payload (source : PayloadSource) (declared : Option UInt32) (name : String)
    (tagOffset : Nat) : MovesOn (payload source declared name tagOffset) := by
  have hskip : MovesOn skipPadding := fun c => c.reaches_skipWhile isPadding
  refine (scans_payloadLength source declared name tagOffset).movesOn.bind fun n => ?_
  refine scans_fileOffset.movesOn.bind fun offset => (movesOn_takeRaw n).bind fun bytes => ?_
  exact hskip.bind fun padding => (scans_pure _).movesOn

/-- Every block of bytes that is read is a slice of the stream. -/
theorem slice_of_take {n : Nat} {bs : List UInt8} {c d : Cursor}
    (h : take n c = .ok bs d ∨ takeRaw n c = .ok bs d) : bs.length = n ∧ c.Slice bs d := by
  rcases h with h | h
  · obtain ⟨rfl, hholds, rfl⟩ := take_eq_ok_iff.1 h
    exact ⟨rfl, slice_of_prefix hholds.1⟩
  · obtain ⟨rfl, hprefix, rfl⟩ := takeRaw_eq_ok_iff.1 h
    exact ⟨rfl, slice_of_prefix hprefix⟩

end Reader

namespace AttributeList

/-- Read an attribute list in at most so many rounds, or give none if they do not suffice. -/
def readWithin : Nat → Cursor → Option AttributeList
  | 0, _ => none
  | rounds + 1, c =>
    match Reader.attr? c with
    | .error i c' => some ⟨[], some i, c'⟩
    | .ok none c' => some ⟨[], none, c'⟩
    | .ok (some a) c' =>
      (readWithin rounds c').map fun list => { list with attributes := a :: list.attributes }

/-- An attribute list ends, since every attribute takes four bytes. -/
theorem readWithin_eq {rounds : Nat} {c : Cursor} (h : c.rest.length < 4 * rounds) :
    readWithin rounds c = some (read c) := by
  induction rounds generalizing c with
  | zero => omega
  | succ rounds ih =>
    rw [readWithin, read]
    cases hread : Reader.attr? c with
    | error i c' => rfl
    | ok a? c' =>
      cases a? with
      | none => rfl
      | some a =>
        have hless := Reader.attr?_consumes hread
        dsimp only
        rw [ih (by omega)]
        rfl

/-- The attributes of a list take four bytes each, also of a list that is interrupted. -/
theorem read_takes (c : Cursor) : c.Reaches (read c).cursor ∧
    4 * (read c).attributes.length + (read c).cursor.rest.length ≤ c.rest.length := by
  fun_induction read c with
  | case1 c i c' found =>
    have hmoves := Reader.scans_attr?.movesOn c
    rw [Reader.behind_of_error found] at hmoves
    exact ⟨hmoves, Nat.le_trans (Nat.le_of_eq (Nat.zero_add _)) hmoves.rest_length_le⟩
  | case2 c c' found =>
    have hmoves := Reader.scans_attr?.movesOn c
    rw [Reader.behind_of_ok found] at hmoves
    exact ⟨hmoves, Nat.le_trans (Nat.le_of_eq (Nat.zero_add _)) hmoves.rest_length_le⟩
  | case3 c a c' found list ih =>
    have hmoves := Reader.scans_attr?.movesOn c
    rw [Reader.behind_of_ok found] at hmoves
    have hless := Reader.attr?_consumes found
    obtain ⟨hrest, htakes⟩ := ih
    refine ⟨hmoves.trans hrest, ?_⟩
    change 4 * list.attributes.length + list.cursor.rest.length ≤ c'.rest.length at htakes
    change 4 * (list.attributes.length + 1) + list.cursor.rest.length ≤ c.rest.length
    omega

end AttributeList

namespace Token

/-- The token is an attribute. -/
def isAttr : Token → Bool
  | attr _ => true
  | _ => false

/-- The token is an operator. -/
def isOperator (t : Token) : Bool :=
  t.operator?.isSome

/-- How many bytes tokens take at least: four for an attribute, and one for an operator. -/
def leastBytes (ts : List Token) : Nat :=
  4 * ts.countP isAttr + ts.countP isOperator

/-- The least bytes of two runs of tokens add up. -/
theorem leastBytes_append (ts us : List Token) :
    leastBytes (ts ++ us) = leastBytes ts + leastBytes us := by
  simp only [leastBytes, List.countP_append]
  omega

/-- Each attribute takes at least four bytes. -/
theorem leastBytes_attrs (as : List Attribute) : leastBytes (as.map attr) = 4 * as.length := by
  induction as with
  | nil => rfl
  | cons a as ih =>
    have hone : leastBytes [attr a] = 4 := rfl
    rw [List.map_cons, ← List.singleton_append, leastBytes_append, hone, ih, List.length_cons]
    omega

/-- Data blocks may be empty, so they count for no bytes. -/
theorem leastBytes_payloads (ps : List Payload) : leastBytes (ps.map payload) = 0 := by
  induction ps with
  | nil => rfl
  | cons p ps ih =>
    have hzero : leastBytes [payload p] = 0 := rfl
    rw [List.map_cons, ← List.singleton_append, leastBytes_append, hzero, ih]

/-- The tokens of one operator take a byte for it and four for each attribute. -/
theorem leastBytes_of_belongTo {op : Operator} {ts : List Token} (h : BelongTo op ts) :
    leastBytes ts = 4 * ts.countP isAttr + 1 := by
  have hone : ts.countP isOperator = 1 := by
    have hops := congrArg List.length h.filterMap_operator?
    rwa [List.length_filterMap_eq_countP] at hops
  rw [leastBytes, hone]

end Token

namespace Session

open Token

/-- A direct reading leaves the cursor in its stream, not in front of where it stood. -/
theorem reaches_call (call : Call) : call.session.cursor.Reaches call.after.cursor := by
  cases call with
  | attributes s => exact (AttributeList.read_takes s.cursor).1
  | payload s source name tagOffset =>
    have hmoves := Reader.movesOn_payload source s.declared name tagOffset s.cursor
    unfold Call.after readPayload
    dsimp only
    cases hread : Reader.payload source s.declared name tagOffset s.cursor with
    | ok p c => rwa [Reader.behind_of_ok hread] at hmoves
    | error i c => rwa [Reader.behind_of_error hread] at hmoves

/-- A data block moves the cursor on, and adds no attribute or operator. -/
theorem passPayload_takes (s : Session) (info : OperatorInfo) (tagOffset : Nat)
    (ts : List Token) : s.cursor.Reaches (passPayload s info tagOffset ts).session.cursor ∧
    leastBytes (passPayload s info tagOffset ts).tokens = leastBytes ts := by
  constructor
  · unfold passPayload
    cases info.payload with
    | none => exact .refl _
    | some source =>
      have hreach := reaches_call (.payload s source info.name tagOffset)
      unfold Call.after at hreach
      dsimp only at hreach ⊢
      cases hread : s.readPayload source info.name tagOffset with
      | ok p t => rwa [hread] at hreach
      | error i t => rwa [hread] at hreach
  · obtain ⟨ps, htokens⟩ := passPayload_tokens s info tagOffset ts
    rw [htokens, leastBytes_append, leastBytes_payloads, Nat.add_zero]

/-- An operator takes the byte of its tag. -/
theorem passOperator_takes (s : Session) (offset : Nat) (ts : List Token) :
    s.cursor.Reaches (passOperator s offset ts).session.cursor ∧
    leastBytes (passOperator s offset ts).tokens +
        (passOperator s offset ts).session.cursor.rest.length ≤
      leastBytes ts + s.cursor.rest.length := by
  unfold passOperator
  have hmoves := scans_operatorTag.movesOn s.cursor
  cases htag : operatorTag s.cursor with
  | error i c =>
    rw [Reader.behind_of_error htag] at hmoves
    have hless := hmoves.rest_length_le
    exact ⟨hmoves, Nat.add_le_add_left hless _⟩
  | ok entry c =>
    obtain ⟨info, tagOffset⟩ := entry
    rw [Reader.behind_of_ok htag] at hmoves
    have htagByte := consumes_operatorTag s.cursor _ c htag
    obtain ⟨hblock, hadds⟩ := passPayload_takes (s.afterOperator info c) info tagOffset
      (ts ++ [.operator (s.nextOperator info offset tagOffset)])
    have hless : _ ≤ c.rest.length := hblock.rest_length_le
    have hone : leastBytes [.operator (s.nextOperator info offset tagOffset)] = 1 := rfl
    refine ⟨hmoves.trans hblock, ?_⟩
    dsimp only
    rw [hadds, leastBytes_append, hone]
    omega

/-- What is read of an operator takes its bytes, also if it is interrupted. -/
theorem pass_takes (s : Session) : s.cursor.Reaches s.pass.session.cursor ∧
    leastBytes s.pass.tokens + s.pass.session.cursor.rest.length ≤ s.cursor.rest.length := by
  have hlist := AttributeList.read_takes s.cursor
  cases hread : AttributeList.read s.cursor with
  | mk as interrupt c =>
    rw [hread] at hlist
    obtain ⟨hreach, htakes⟩ := hlist
    dsimp only at hreach htakes
    rw [← leastBytes_attrs] at htakes
    cases interrupt with
    | some i =>
      rw [pass_eq_of_interrupt hread]
      exact ⟨hreach, htakes⟩
    | none =>
      rw [pass_eq hread]
      obtain ⟨hbehind, hoperator⟩ := passOperator_takes
        { s with cursor := c, declared := (as.filterMap Attribute.vendorLength?).getLast? }
        s.fileOffset (as.map .attr)
      exact ⟨hreach.trans hbehind, Nat.le_trans hoperator htakes⟩

/-- A step takes the bytes of the tokens that it gives or leaves. -/
theorem step_takes {s : Session} (h : s.phase = .scanning) : s.cursor.Reaches s.step.2.cursor ∧
    leastBytes (s.step.1.tokens ++ s.step.2.unfinished) + s.step.2.cursor.rest.length ≤
      s.cursor.rest.length := by
  have hspace : s.cursor.Reaches s.skipSpace.cursor := s.cursor.reaches_skipWhile _
  obtain ⟨hreach, htakes⟩ := s.skipSpace.pass_takes
  have hpass : s.skipSpace.pass.session.cursor.Reaches s.step.2.cursor := by
    rw [step_of_scanning h]
    cases s.skipSpace.pass.interrupt with
    | none => exact .refl _
    | some i =>
      dsimp only [finish]
      split
      · exact reaches_skipJobEnd _
      · exact .refl _
  have hless := hspace.rest_length_le
  have hfinish := hpass.rest_length_le
  refine ⟨hspace.trans (hreach.trans hpass), ?_⟩
  rw [(step_tokens h).1]
  omega

/-- A step that completes an operator moves the cursor by the bytes of its tokens. -/
theorem position_of_step {s s' : Session} {ts : List Token} (h : s.step = (.sequence ts, s')) :
    s.cursor.position + (4 * ts.countP isAttr + 1) ≤ s'.cursor.position := by
  obtain ⟨op, hop⟩ := belongTo_of_step h
  have hleast := leastBytes_of_belongTo hop
  have hstep := step_takes (step_eq_sequence_iff.1 h).1
  rw [h] at hstep
  obtain ⟨⟨n, -, hn⟩, htakes⟩ := hstep
  have hdata : s'.cursor.data = (s.cursor.advance n).data := congrArg Cursor.data hn
  have hbefore := s.cursor.position_add_rest_length
  have hbehind := s'.cursor.position_add_rest_length
  rw [hdata, data_advance] at hbehind
  rw [leastBytes_append] at htakes
  change leastBytes ts + _ + s'.cursor.rest.length ≤ _ at htakes
  omega

/-- An action leaves the cursor in its stream, not in front of where it stood. -/
theorem reaches_act (s : Session) (a : Action) : s.cursor.Reaches (s.act a).cursor := by
  cases a with
  | attributes => exact reaches_call (.attributes s)
  | payload source name tagOffset => exact reaches_call (.payload s source name tagOffset)
  | step =>
    cases hphase : s.phase with
    | scanning => exact (step_takes hphase).1
    | ended e ts =>
      have hsame : s.act .step = s := congrArg Prod.snd (step_of_ended hphase)
      rw [hsame]
      exact .refl _

/-- Whatever is done with a session, its cursor moves on inside the stream. -/
theorem reaches_afterActions (s : Session) (actions : List Action) :
    s.cursor.Reaches (s.afterActions actions).cursor := by
  induction actions generalizing s with
  | nil => exact .refl _
  | cons a actions ih => exact (s.reaches_act a).trans (ih (s.act a))

/-- The tokens that the first steps read, those of an unfinished operator included. -/
def tokensRead (s : Session) (k : Nat) : List Token :=
  s.emitted k ++ (s.after k).unfinished

/-- The tokens of the first steps take bytes of the stream. -/
theorem tokensRead_takes {s : Session} (h : s.phase = .scanning) (k : Nat) :
    leastBytes (s.tokensRead k) + (s.after k).cursor.rest.length ≤ s.cursor.rest.length := by
  induction k with
  | zero =>
    have hnone : s.tokensRead 0 = [] := unfinished_of_scanning h
    rw [hnone]
    exact Nat.le_of_eq (Nat.zero_add _)
  | succ k ih =>
    cases hk : (s.after k).phase with
    | scanning =>
      have hstep := (step_takes hk).2
      unfold tokensRead at ih ⊢
      rw [unfinished_of_scanning hk, List.append_nil] at ih
      rw [emitted_succ, List.append_assoc, leastBytes_append]
      change _ + (s.after k).step.2.cursor.rest.length ≤ _
      change _ + leastBytes (_ ++ (s.after k).step.2.unfinished) + _ ≤ _
      omega
    | ended e ts =>
      have hstep := step_of_ended hk
      unfold tokensRead at ih ⊢
      rw [emitted_of_step_ended hstep, after_of_step hstep]
      exact ih

end Session

/-- The step completed an operator. -/
def Step.isSequence : Step → Bool
  | sequence _ => true
  | ended _ => false

namespace Session

open Token

/-- Every step that completes an operator takes a byte. -/
theorem steps_take (s : Session) (k : Nat) :
    (s.outcomes k).countP Step.isSequence + (s.after k).cursor.rest.length ≤
      s.cursor.rest.length := by
  induction k with
  | zero => exact Nat.le_of_eq (Nat.zero_add _)
  | succ k ih =>
    rw [outcomes, List.countP_append, List.countP_singleton]
    cases hstep : (s.after k).step with
    | mk outcome s' =>
      rw [after_of_step hstep]
      cases outcome with
      | sequence ts =>
        have hless := step_rest_lt hstep
        have hone : Step.isSequence (.sequence ts) = true := rfl
        dsimp only
        rw [if_pos hone]
        omega
      | ended e =>
        have hless := ((s.after k).reaches_act .step).rest_length_le
        have hact : (s.after k).act .step = s' := congrArg Prod.snd hstep
        have hnone : ¬ Step.isSequence (.ended e) = true := Bool.false_ne_true
        rw [hact] at hless
        dsimp only
        rw [if_neg hnone]
        omega

/-- As long as a session goes on, all its steps complete operators. -/
theorem countP_outcomes_of_scanning {s : Session} {k : Nat} (h : (s.after k).phase = .scanning) :
    (s.outcomes k).countP Step.isSequence = k := by
  induction k with
  | zero => rfl
  | succ k ih =>
    obtain ⟨ts, hstep⟩ := step_of_phase h
    have hbefore := ih (exists_of_step hstep).1
    have hone : Step.isSequence (.sequence ts) = true := rfl
    rw [outcomes, List.countP_append, List.countP_singleton, hstep, hbefore]
    exact congrArg (k + ·) (if_pos hone)

/-- A file opens in front of the bytes behind its header line. -/
theorem position_of_openFile {data : List UInt8} {s : Session} (hopen : openFile data = .ok s) :
    s.cursor.position = s.header.length ∧
      s.header.length + s.cursor.rest.length = s.cursor.data.length := by
  obtain ⟨preamble, w, rest, -, -, hs⟩ := openFile_eq_ok_iff.1 hopen
  have hlength := w.order_length_header.2
  have hposition : s.cursor.position = s.header.length := by
    rw [hs]
    change min w.header.length (w.bytes ++ rest).length = w.header.length
    rw [hlength, List.length_append]
    omega
  have htotal := s.cursor.position_add_rest_length
  exact ⟨hposition, by omega⟩

/-- A run that ends with a step takes the file apart, and lists what the steps give. -/
theorem run_of_endsAt {data : List UInt8} {s s' : Session} {k : Nat} {e : Ending}
    (hopen : openFile data = .ok s) (hends : s.EndsAt k e s') :
    (Disassembly.ofFile data = match e.fault? with
      | none => .ok ⟨s.header, s.emitted k ++ s'.unfinished ++ e.tokens⟩
      | some fault => .error (s'.diagnose fault (s.emitted k ++ s'.unfinished ++ e.tokens))) ∧
    ∀ (o : Options) (path : String), Run.ofData o path data =
      Run.ofTexts path (Options.headerText s.header ::
          ((s.outcomes k).map fun step => o.listing step.tokens) ++
            [o.listing (s'.unfinished ++ e.tokens)])
        (e.fault?.map fun fault => (s'.diagnose fault s'.unfinished).report) := by
  have hrun := run_of_step_ended hends.1 hends.2
  refine ⟨?_, fun o path => ?_⟩
  · unfold Disassembly.ofFile Transcript.tokens
    rw [hopen]
    dsimp only
    rw [hrun]
    dsimp only
    rw [← List.flatMap_def]
    rfl
  · have hsteps := Run.stepThrough_eq o path [Options.headerText s.header] s
    unfold Run.ofData
    rw [hopen]
    refine hsteps.trans ?_
    rw [hrun]
    simp only [Options.pieces, Run.endMessage?, List.map_map, List.reverse_singleton,
      List.cons_append]
    rfl

/-- The length of a stream bounds what is read from it. A step that completes an operator with `n`
attributes moves the cursor by `4 * n + 1` bytes or more, and all attributes and operators of a run,
those of an unfinished operator included, take four bytes and one. So an attribute list ends at every
cursor within as many rounds as four bytes fit behind it and one, no more steps complete an operator
than there are bytes behind the header, and the step behind them gives an ending, with which the file
is taken apart and listed. Whatever is done, the cursor stays between the header and the end of the
stream, and what is read are slices of the stream. -/
theorem progress_and_end {data : List UInt8} {s : Session} (hopen : openFile data = .ok s) :
    (∀ k ts s', (s.after k).step = (.sequence ts, s') →
      (s.after k).cursor.position + (4 * ts.countP isAttr + 1) ≤ s'.cursor.position) ∧
    (∀ k, s.header.length + (4 * (s.tokensRead k).countP isAttr +
      (s.tokensRead k).countP isOperator) ≤ s.cursor.data.length) ∧
    (∀ k, s.header.length + (s.outcomes k).countP Step.isSequence ≤ s.cursor.data.length) ∧
    (∀ c : Cursor, AttributeList.readWithin (c.remaining / 4 + 1) c =
      some (AttributeList.read c)) ∧
    (∃ k e s', s.header.length + k ≤ s.cursor.data.length ∧ s.EndsAt k e s' ∧
      (Disassembly.ofFile data = match e.fault? with
        | none => .ok ⟨s.header, s.emitted k ++ s'.unfinished ++ e.tokens⟩
        | some fault => .error (s'.diagnose fault (s.emitted k ++ s'.unfinished ++ e.tokens))) ∧
      ∀ (o : Options) (path : String), Run.ofData o path data =
        Run.ofTexts path (Options.headerText s.header ::
            ((s.outcomes k).map fun step => o.listing step.tokens) ++
              [o.listing (s'.unfinished ++ e.tokens)])
          (e.fault?.map fun fault => (s'.diagnose fault s'.unfinished).report)) ∧
    (∀ actions, (s.afterActions actions).cursor.data = data.drop s.cursor.base ∧
      s.header.length ≤ (s.afterActions actions).cursor.position ∧
      (s.afterActions actions).cursor.position ≤ (data.drop s.cursor.base).length) ∧
    (∀ (c d : Cursor) (n : Nat) (bs : List UInt8),
      Reader.take n c = .ok bs d ∨ Reader.takeRaw n c = .ok bs d →
        bs.length = n ∧ c.Slice bs d) ∧
    ∀ (c : Cursor) (n i : Nat), c.jobEndWithin? n = some i →
      i < n ∧ c.position + i + jobEndMarker.length ≤ c.data.length := by
  obtain ⟨hon, hphase⟩ := on_of_openFile hopen
  obtain ⟨hposition, hlength⟩ := position_of_openFile hopen
  refine ⟨fun k ts s' => position_of_step, fun k => ?_, fun k => ?_, fun c => ?_, ?_,
    fun actions => ?_, fun c d n bs => Reader.slice_of_take, fun c n i hfirst => ?_⟩
  · have htakes := tokensRead_takes hphase k
    rw [leastBytes] at htakes
    omega
  · have htakes := s.steps_take k
    omega
  · refine AttributeList.readWithin_eq ?_
    rw [remaining]
    omega
  · obtain ⟨k, e, s', hscanning, hstep⟩ := exists_step_ended (s := s) (k := 0) hphase
    have htakes := s.steps_take k
    rw [countP_outcomes_of_scanning hscanning] at htakes
    obtain ⟨hfile, hlisting⟩ := run_of_endsAt hopen ⟨hscanning, hstep⟩
    exact ⟨k, e, s', by omega, ⟨hscanning, hstep⟩, hfile, hlisting⟩
  · obtain ⟨n, hn, hcursor⟩ := s.reaches_afterActions actions
    rw [hcursor, data_advance, position_advance hn, hon.data_eq]
    have hdata := congrArg List.length hon.data_eq
    exact ⟨rfl, by omega, by omega⟩
  · obtain ⟨hlt, -, hmarker, -⟩ := Bytes.firstWithin?_eq_some_iff.1 hfirst
    have hle := length_of_marker hmarker
    have htotal := c.position_add_rest_length
    exact ⟨hlt, by omega⟩

/-- An attribute whose array is empty, an operator whose data block is empty, and a value with a
number that no attribute has. -/
def emptyFields : List UInt8 :=
  [0xC8, 0xC0, 0x00, 0xF8, 0x25, 0xFB, 0x00, 0xC0, 0x02, 0xF8, 0x00]

/-- The empty fields take five bytes and two, which the first step passes. The next step ends the
file with the unknown number, in front of which the cursor goes back. -/
theorem progress_and_end_emptyFields :
    (∃ ts s', ((onSample emptyFields).after 0).step = (.sequence ts, s') ∧
      ts.countP isAttr = 1 ∧ (onSample emptyFields).cursor.position + (4 * 1 + 1) ≤
        s'.cursor.position ∧ s'.cursor.position = 23) ∧
    ((onSample emptyFields).after 1).step.1 =
      .ended (.failed (.unknownCode 26 0 .attributeNumber)) ∧
    ∃ k e s', 16 + k ≤ 27 ∧ (onSample emptyFields).EndsAt k e s' := by
  obtain ⟨hmoves, -, -, -, ⟨k, e, s', hk, hends, -⟩, -⟩ :=
    progress_and_end (openFile_onSample emptyFields)
  have hstep : ((onSample emptyFields).after 0).step = (.sequence
      [.attr ⟨0x25, "MediaSize", .array ⟨.ubyte, .ubyte, [], some [], 19⟩, none, 16⟩,
        .operator ⟨0xFB, "embedded_data_byte", 16, 21, 0, none⟩,
        .payload ⟨.inlineUByte, [], 23, 0⟩], _) := Prod.ext (by decide +kernel) rfl
  exact ⟨⟨_, _, hstep, rfl, hmoves 0 _ _ hstep, by decide +kernel⟩, by decide +kernel,
    k, e, s', hk, hends⟩

end Session

end PclXl
