import PclXl.Proofs.Nesting

/-!
# The declared length

A data block of an operator of a vendor has the length that an attribute `VUDataLength` declares. A
session keeps a declared length between the attribute list that declares it and the block that uses
it. Steps, attribute lists and data blocks can be read in any order. Whatever the order, a block
finds a length exactly where the last attribute list declared one and no block has used it since.
-/

namespace PclXl

open Cursor Vocabulary

namespace Operand

/-- The bytes of an attribute `VUDataLength` with an operand. -/
def declarationBytes (order : ByteOrder) (o : Operand) (gap : Space) (w : FieldWidth) :
    List UInt8 :=
  o.dataType.tag :: (o.bytes order ++ (gap.bytes ++
    w.numberTag :: order.bytes w.size vendorLengthNumber.toNat))

end Operand

/-- Only one attribute has the name of the declared length. -/
theorem number_eq_of_vendorLengthName {number : UInt16}
    (h : attributeName? number = some vendorLengthName) : number = vendorLengthNumber := by
  have hmem : (number, vendorLengthName) ∈ attributes := by
    obtain ⟨front, behind, hattributes, -⟩ := List.lookup_eq_some_iff.1 h
    rw [hattributes]
    exact List.mem_append_right front List.mem_cons_self
  have hall : ∀ entry ∈ attributes, entry.2 = vendorLengthName → entry.1 = vendorLengthNumber := by
    decide
  exact hall _ hmem rfl

namespace Reader

/-- The declared length must be a single number of type `uint32`. -/
theorem attr_of_declarationBytes {o : Operand} {gap : Space} {w : FieldWidth} {c : Cursor}
    (hother : ∀ n, o ≠ .scalar (.uint32 n)) (h : c.Holds (o.declarationBytes c.order gap w)) :
    attr o.dataType c =
      .error (.fault (.typeMismatch c.fileOffset vendorLengthName ElementType.uint32.name
        o.dataType.name)) (c.advance (o.declarationBytes c.order gap w).length) := by
  have hfits : vendorLengthNumber.toNat < ByteOrder.limit w.size := by cases w <;> decide
  have hname : attributeName? vendorLengthNumber = some vendorLengthName := by decide
  have hnone : ∀ a : Attribute, a.value = o.value (c.fileOffset + 1) → a.vendorLength? = none := by
    intro a ha
    unfold Attribute.vendorLength?
    rw [ha]
    cases o with
    | scalar x =>
      cases x with
      | uint32 n => exact absurd rfl (hother n)
      | _ => rfl
    | _ => rfl
  refine (attr_of_parts hname hfits h).trans ?_
  exact congrFun (if_pos ⟨rfl, hnone _ rfl⟩) _

/-- The next attribute fails behind white space, if it declares a length with another operand. -/
theorem attr?_of_declarationBytes {s : Space} {o : Operand} {gap : Space} {w : FieldWidth}
    {c : Cursor} (hother : ∀ n, o ≠ .scalar (.uint32 n))
    (h : c.Holds (s.bytes ++ o.declarationBytes c.order gap w)) :
    attr? c =
      .error (.fault (.typeMismatch (c.fileOffset + s.bytes.length) vendorLengthName
        ElementType.uint32.name o.dataType.name))
        (c.advance (s.bytes.length + (o.declarationBytes c.order gap w).length)) := by
  obtain ⟨hs, hstem⟩ := holds_append.1 h
  have hread := attr_of_declarationBytes hother hstem
  rw [hs.fileOffset, advance_advance, order_advance] at hread
  rw [attr?_of_tag h]
  exact bind_eq_error_iff.2 (.inl hread)

end Reader

namespace WrittenAttribute

/-- An attribute declares a length exactly where it has the name for it. -/
theorem declares_token (a : WrittenAttribute) (offset : Nat) :
    ((a.token offset).name = vendorLengthName → ∃ n,
      (a.token offset).value = .scalar (.uint32 n) ∧ (a.token offset).vendorLength? = some n) ∧
    ((a.token offset).name ≠ vendorLengthName → (a.token offset).vendorLength? = none) := by
  rw [vendorLength?_token]
  refine ⟨fun hname => ?_, fun hname => ?_⟩
  · have hnumber := number_eq_of_vendorLengthName (a.known.trans (congrArg some hname))
    obtain ⟨n, hn⟩ := a.declares hnumber
    refine ⟨n, ?_, ?_⟩
    · unfold token
      rw [hn]
      rfl
    · unfold declared?
      rw [hn]
      exact if_pos hnumber
  · have hnumber : a.number ≠ vendorLengthNumber := by
      intro heq
      have hknown := a.known
      rw [heq] at hknown
      exact hname (Option.some.inj hknown).symm
    unfold declared?
    split
    · exact if_neg hnumber
    · rfl

end WrittenAttribute

/-- An attribute has the name of the declared length. -/
def Attribute.namesLength (a : Attribute) : Bool :=
  a.name == vendorLengthName

namespace AttributeList

/-- The values of the attributes `VUDataLength` of a list, in order. -/
def declaredValues (list : AttributeList) : List Value :=
  (list.attributes.filter Attribute.namesLength).map Attribute.value

/-- All of them are lengths that the list declares. -/
theorem declaredValues_read (c : Cursor) : (read c).declaredValues =
    ((read c).attributes.filterMap Attribute.vendorLength?).map fun n => .scalar (.uint32 n) := by
  unfold declaredValues
  fun_induction read c with
  | case1 c i c' found => rfl
  | case2 c c' found => rfl
  | case3 c a c' found list ih =>
    rcases Reader.exists_of_attr? found with ⟨s, w, hsome, -⟩ | ⟨s, b, hnone, -⟩
    · obtain ⟨hyes, hno⟩ := w.declares_token (c.fileOffset + s.bytes.length)
      rw [← Option.some.inj hsome] at hyes hno
      by_cases hname : a.name = vendorLengthName
      · obtain ⟨n, hvalue, hlength⟩ := hyes hname
        have hkept : a.namesLength = true := beq_iff_eq.2 hname
        dsimp only
        rw [List.filter_cons_of_pos hkept, List.filterMap_cons_some hlength, List.map_cons,
          List.map_cons, hvalue, ih]
      · have hskipped : ¬ a.namesLength = true := fun h => hname (beq_iff_eq.1 h)
        dsimp only
        rw [List.filter_cons_of_neg hskipped, List.filterMap_cons_none (hno hname), ih]
    · cases hnone

/-- A list that comes to an attribute `VUDataLength` with another operand ends there in a fault. The
attribute is not among those that were read. -/
theorem read_of_declarationBytes {s : Space} {as : List WrittenAttribute} {o : Operand}
    {gap : Space} {w : FieldWidth} {c : Cursor} (hother : ∀ n, o ≠ .scalar (.uint32 n))
    (h : c.Holds (s.bytes ++ (WrittenAttribute.listBytes c.order as ++
      o.declarationBytes c.order gap w))) :
    read c = ⟨WrittenAttribute.listTokens c.order (c.fileOffset + s.bytes.length) as,
      some (.fault (.typeMismatch
        (c.fileOffset + s.bytes.length + (WrittenAttribute.listBytes c.order as).length)
        vendorLengthName ElementType.uint32.name o.dataType.name)),
      c.advance (s.bytes.length + (WrittenAttribute.listBytes c.order as).length +
        (o.declarationBytes c.order gap w).length)⟩ := by
  refine @read_of_end c.order (o.declarationBytes c.order gap w)
    (fun offset => some (.fault (.typeMismatch offset vendorLengthName ElementType.uint32.name
      o.dataType.name))) _ (fun s d horder hd => ?_) s as c rfl h
  rw [← horder] at hd ⊢
  rw [read, Reader.attr?_of_declarationBytes hother hd]

end AttributeList

/-- A data block with its length in front does not use the declared length. -/
theorem PayloadSource.declaredAfter_of_ne {source : PayloadSource} (h : source ≠ .vendorLength)
    (declared : Option UInt32) : source.declaredAfter declared = declared := by
  cases source with
  | vendorLength => exact absurd rfl h
  | inlineUInt32 => rfl
  | inlineUByte => rfl

namespace Session

/-- A data block of declared length is read, or the bytes run out. The length has served in either
case. -/
theorem readPayload_of_some {t : Session} {n : UInt32} (h : t.declared = some n) (name : String)
    (offset : Nat) :
    (n.toNat ≤ t.cursor.rest.length → ∃ p t',
      t.readPayload .vendorLength name offset = .ok p t' ∧
      p.bytes = t.cursor.rest.take n.toNat ∧ p.bytes.length = n.toNat ∧ t'.declared = none) ∧
    (t.cursor.rest.length < n.toNat →
      t.readPayload .vendorLength name offset =
        .error (.fault (.endOfStream t.fileOffset (n.toNat - t.cursor.rest.length)))
          { t with declared := none }) := by
  have hlength : Reader.payloadLength .vendorLength t.declared name offset t.cursor =
      .ok n.toNat t.cursor := by
    rw [h]
    rfl
  refine ⟨fun hle => ?_, fun hlt => ?_⟩
  · have htake : (t.cursor.rest.take n.toNat).length = n.toNat := by
      rw [List.length_take]
      omega
    have hraw : Reader.takeRaw n.toNat t.cursor =
        .ok (t.cursor.rest.take n.toNat) (t.cursor.advance n.toNat) := by
      unfold Reader.takeRaw
      rw [if_neg (by rw [htake]; omega)]
    unfold readPayload Reader.payload
    rw [Reader.bind_of_ok hlength, Reader.fileOffset_bind, Reader.bind_of_ok hraw]
    exact ⟨_, _, rfl, rfl, htake, rfl⟩
  · have hraw : Reader.takeRaw n.toNat t.cursor =
        .error (.fault (.endOfStream t.fileOffset (n.toNat - t.cursor.rest.length))) t.cursor := by
      unfold Reader.takeRaw
      dsimp only
      rw [List.take_of_length_le (Nat.le_of_lt hlt), if_pos hlt]
      rfl
    have hread : Reader.payload .vendorLength t.declared name offset t.cursor =
        .error (.fault (.endOfStream t.fileOffset (n.toNat - t.cursor.rest.length))) t.cursor := by
      unfold Reader.payload
      rw [Reader.bind_of_ok hlength, Reader.fileOffset_bind]
      exact Reader.bind_eq_error_iff.2 (.inl hraw)
    unfold readPayload
    dsimp only
    rw [hread]
    rfl

/-- Without a declared length no data block is read, and the cursor stays where it is. -/
theorem readPayload_of_none {t : Session} (h : t.declared = none) (name : String) (offset : Nat) :
    t.readPayload .vendorLength name offset =
      .error (.fault (.missingAttribute offset name vendorLengthName)) t := by
  cases t
  cases h
  rfl

end Session

/-- What can be done with a session. -/
inductive Action where
  /-- Make the next step. -/
  | step
  /-- Read the attribute list at the cursor. -/
  | attributes
  /-- Read the data block at the cursor, for an operator whose tag has a file offset. -/
  | payload (source : PayloadSource) (operatorName : String) (tagOffset : Nat)

/-- A reading of an attribute list or of a data block, and the session in which it starts. -/
inductive Call where
  /-- The attribute list at the cursor is read. -/
  | attributes (s : Session)
  /-- The data block at the cursor is read. -/
  | payload (s : Session) (source : PayloadSource) (operatorName : String) (tagOffset : Nat)

namespace Call

/-- The session in which a reading starts. -/
def session : Call → Session
  | attributes s => s
  | payload s _ _ _ => s

/-- The session behind a reading. -/
def after : Call → Session
  | attributes s => s.afterAttributes (AttributeList.read s.cursor)
  | payload s source operatorName tagOffset =>
    match s.readPayload source operatorName tagOffset with
    | .ok _ t => t
    | .error _ t => t

/-- The tokens of what was read. -/
def tokens : Call → List Token
  | attributes s => (AttributeList.read s.cursor).attributes.map .attr
  | payload s source operatorName tagOffset =>
    match s.readPayload source operatorName tagOffset with
    | .ok p _ => [.payload p]
    | .error _ _ => []

/-- What interrupted a reading. -/
def interrupt? : Call → Option Interrupt
  | attributes s => (AttributeList.read s.cursor).interrupt
  | payload s source operatorName tagOffset =>
    match s.readPayload source operatorName tagOffset with
    | .ok _ _ => none
    | .error i _ => some i

/-- A reading that has nothing to do with the declared length: of a data block with its length in
front. -/
def IsInline : Call → Prop
  | attributes _ => False
  | payload _ source _ _ => source ≠ .vendorLength

end Call

namespace Session

/-- The readings behind an attribute list that ended by itself: of a data block, if the operator has
one. -/
def operatorCalls (s : Session) : List Call :=
  match operatorTag s.cursor with
  | .error _ _ => []
  | .ok (info, tagOffset) c =>
    match info.payload with
    | none => []
    | some source => [.payload (s.afterOperator info c) source info.name tagOffset]

/-- The readings of one operator. -/
def passCalls (s : Session) : List Call :=
  .attributes s ::
    match (AttributeList.read s.cursor).interrupt with
    | some _ => []
    | none => operatorCalls (s.afterAttributes (AttributeList.read s.cursor))

/-- The readings of an action. A step of a session that has ended reads nothing. -/
def calls (s : Session) : Action → List Call
  | .step => if s.phase = .scanning then s.skipSpace.passCalls else []
  | .attributes => [.attributes s]
  | .payload source operatorName tagOffset => [.payload s source operatorName tagOffset]

/-- The session behind an action. -/
def act (s : Session) : Action → Session
  | .step => s.step.2
  | .attributes => (Call.attributes s).after
  | .payload source operatorName tagOffset => (Call.payload s source operatorName tagOffset).after

/-- The readings of actions, one after the other. -/
def history (s : Session) : List Action → List Call
  | [] => []
  | a :: actions => s.calls a ++ (s.act a).history actions

/-- The value that the last attribute list gave to `VUDataLength`, as long as no data block has used
it. -/
def Pending (past : List Call) (v : Value) : Prop :=
  ∃ before t since, past = before ++ .attributes t :: since ∧ (∀ call ∈ since, call.IsInline) ∧
    (AttributeList.read t.cursor).declaredValues.getLast? = some v

/-- A further reading gives a value or leaves the one before. -/
theorem pending_concat {past : List Call} {call : Call} {v : Value} :
    Pending (past ++ [call]) v ↔
      (∃ t, call = .attributes t ∧
        (AttributeList.read t.cursor).declaredValues.getLast? = some v) ∨
      (call.IsInline ∧ Pending past v) := by
  constructor
  · intro h
    obtain ⟨before, t, since, hpast, hsince, hv⟩ := h
    rcases List.eq_nil_or_concat since with rfl | ⟨since, last, rfl⟩
    · obtain ⟨-, hcall⟩ := List.append_inj' hpast rfl
      exact .inl ⟨t, List.singleton_inj.1 hcall, hv⟩
    · rw [List.concat_eq_append] at hpast hsince
      rw [← List.cons_append, ← List.append_assoc] at hpast
      obtain ⟨hfront, hcall⟩ := List.append_inj' hpast rfl
      have hlast := hsince last (List.mem_append_right since (List.mem_singleton_self last))
      rw [← List.singleton_inj.1 hcall] at hlast
      exact .inr ⟨hlast, before, t, since, hfront,
        fun other hother => hsince other (List.mem_append_left _ hother), hv⟩
  · intro h
    rcases h with ⟨t, rfl, hv⟩ | ⟨hinline, before, t, since, rfl, hsince, hv⟩
    · exact ⟨past, t, [], rfl, by simp, hv⟩
    · refine ⟨before, t, since ++ [call], by simp, fun other hother => ?_, hv⟩
      rcases List.mem_append.1 hother with hold | hnew
      · exact hsince other hold
      · rw [List.mem_singleton.1 hnew]
        exact hinline

/-- A declared length is what is pending behind some readings. -/
def Keeps (declared : Option UInt32) (past : List Call) : Prop :=
  ∀ v, Pending past v ↔ ∃ n, declared = some n ∧ v = .scalar (.uint32 n)

/-- Before any call no length is kept. -/
theorem keeps_nil : Keeps none [] := by
  intro v
  constructor
  · intro h
    obtain ⟨before, t, since, hpast, -⟩ := h
    cases before with
    | nil => cases hpast
    | cons first before => cases hpast
  · intro h
    obtain ⟨n, hn, -⟩ := h
    cases hn

/-- What a read of a data block leaves of the declared length depends on its source only. -/
theorem declared_after_payload (t : Session) (source : PayloadSource) (operatorName : String)
    (tagOffset : Nat) : (Call.payload t source operatorName tagOffset).after.declared =
      source.declaredAfter t.declared := by
  unfold Call.after readPayload
  dsimp only
  cases Reader.payload source t.declared operatorName tagOffset t.cursor with
  | ok p c => rfl
  | error i c => rfl

/-- One reading: an attribute list replaces the length that was kept, and a data block takes it or
leaves it. -/
theorem Keeps.concat {past : List Call} {call : Call} (h : Keeps call.session.declared past) :
    Keeps call.after.declared (past ++ [call]) := by
  intro v
  rw [pending_concat]
  cases call with
  | attributes t =>
    have hlast : (AttributeList.read t.cursor).declaredValues.getLast? =
        (AttributeList.read t.cursor).vendorLength?.map fun n => .scalar (.uint32 n) := by
      rw [AttributeList.declaredValues_read, List.getLast?_map]
      rfl
    constructor
    · intro hpending
      rcases hpending with ⟨t', ht', hv⟩ | ⟨hinline, -⟩
      · cases ht'
        rw [hlast] at hv
        obtain ⟨n, hn, hvalue⟩ := Option.map_eq_some_iff.1 hv
        exact ⟨n, hn, hvalue.symm⟩
      · cases hinline
    · intro hkept
      obtain ⟨n, hn, rfl⟩ := hkept
      exact .inl ⟨t, rfl, hlast.trans (congrArg _ hn)⟩
  | payload t source operatorName tagOffset =>
    rw [declared_after_payload]
    by_cases hsource : source = .vendorLength
    · rw [hsource]
      constructor
      · intro hpending
        rcases hpending with ⟨t', ht', -⟩ | ⟨hinline, -⟩
        · cases ht'
        · exact absurd rfl hinline
      · intro hkept
        obtain ⟨n, hn, -⟩ := hkept
        cases hn
    · rw [PayloadSource.declaredAfter_of_ne hsource]
      refine Iff.trans ?_ (h v)
      constructor
      · intro hpending
        rcases hpending with ⟨t', ht', -⟩ | ⟨-, hpending⟩
        · cases ht'
        · exact hpending
      · intro hpending
        exact .inr ⟨hsource, hpending⟩

/-- Readings hand a declared length on from one to the next. -/
inductive Chain : Option UInt32 → List Call → Option UInt32 → Prop where
  /-- No reading leaves it as it is. -/
  | nil (declared : Option UInt32) : Chain declared [] declared
  /-- A reading starts with the length and hands on the one that it leaves. -/
  | cons {call : Call} {calls : List Call} {declared : Option UInt32}
    (h : Chain call.after.declared calls declared) :
    Chain call.session.declared (call :: calls) declared

/-- Chains that meet are one chain. -/
theorem Chain.append {d₁ d₂ d₃ : Option UInt32} {front behind : List Call}
    (h₁ : Chain d₁ front d₂) (h₂ : Chain d₂ behind d₃) : Chain d₁ (front ++ behind) d₃ := by
  induction h₁ with
  | nil declared => exact h₂
  | cons h ih => exact .cons (ih h₂)

/-- Each reading of a chain starts with the length that is pending in front of it. -/
theorem Chain.keeps {d₁ d₂ : Option UInt32} {calls past : List Call} (h : Chain d₁ calls d₂)
    (hkeeps : Keeps d₁ past) {front behind : List Call} {call : Call}
    (hcalls : calls = front ++ call :: behind) : Keeps call.session.declared (past ++ front) := by
  induction h generalizing past front with
  | nil declared => exact absurd hcalls (by simp)
  | @cons first rest declared h ih =>
    cases front with
    | nil =>
      cases hcalls
      rw [List.append_nil]
      exact hkeeps
    | cons other front =>
      obtain ⟨rfl, hrest⟩ := List.cons.inj hcalls
      have hnext := ih hkeeps.concat hrest
      rwa [List.append_assoc] at hnext

/-- The calls of an operator are a chain from the declared length before it to the one behind it. -/
theorem chain_passOperator (s : Session) (offset : Nat) (ts : List Token) :
    Chain s.declared s.operatorCalls (passOperator s offset ts).session.declared := by
  unfold operatorCalls passOperator
  cases operatorTag s.cursor with
  | error i c => exact .nil _
  | ok entry c =>
    obtain ⟨info, tagOffset⟩ := entry
    dsimp only
    unfold passPayload
    cases info.payload with
    | none => exact .nil _
    | some source =>
      have hone := @Chain.cons (.payload (s.afterOperator info c) source info.name tagOffset) [] _
        (.nil _)
      unfold Call.after at hone
      dsimp only at hone ⊢
      cases hread : (s.afterOperator info c).readPayload source info.name tagOffset with
      | ok p t =>
        rw [hread] at hone
        exact hone
      | error i t =>
        rw [hread] at hone
        exact hone

/-- So are those of a whole pass. -/
theorem chain_pass (s : Session) : Chain s.declared s.passCalls s.pass.session.declared := by
  unfold pass passCalls
  dsimp only
  cases (AttributeList.read s.cursor).interrupt with
  | some i => exact @Chain.cons (.attributes s) [] _ (.nil _)
  | none => exact @Chain.cons (.attributes s) _ _ (chain_passOperator _ _ _)

/-- So are those of any action. -/
theorem chain_calls (s : Session) (a : Action) :
    Chain s.declared (s.calls a) (s.act a).declared := by
  cases a with
  | attributes => exact @Chain.cons (.attributes s) [] _ (.nil _)
  | payload source operatorName tagOffset =>
    exact @Chain.cons (.payload s source operatorName tagOffset) [] _ (.nil _)
  | step =>
    unfold calls act
    dsimp only
    cases hphase : s.phase with
    | ended e unfinished =>
      rw [step_of_ended hphase]
      exact .nil _
    | scanning =>
      have hpass := chain_pass s.skipSpace
      rw [if_pos rfl, step_of_scanning hphase]
      cases s.skipSpace.pass.interrupt with
      | none => exact hpass
      | some i => exact hpass

/-- So are those of all actions together. -/
theorem chain_history (s : Session) (actions : List Action) :
    ∃ declared, Chain s.declared (s.history actions) declared := by
  induction actions generalizing s with
  | nil => exact ⟨_, .nil _⟩
  | cons a actions ih =>
    obtain ⟨declared, hrest⟩ := ih (s.act a)
    exact ⟨declared, (chain_calls s a).append hrest⟩

/-- What reading an operator and its data block adds to the tokens in front, apart from the operator
itself. -/
theorem passOperator_calls (s : Session) (offset : Nat) (ts : List Token) :
    (passOperator s offset ts).tokens.filter (fun token => token.operator?.isNone) =
      ts.filter (fun token => token.operator?.isNone) ++ s.operatorCalls.flatMap Call.tokens ∧
    ∀ call ∈ s.operatorCalls, ∀ i, call.interrupt? = some i →
      (passOperator s offset ts).interrupt = some i := by
  unfold operatorCalls passOperator
  cases operatorTag s.cursor with
  | error i c => simp
  | ok entry c =>
    obtain ⟨info, tagOffset⟩ := entry
    dsimp only
    unfold passPayload
    cases info.payload with
    | none => simp [Token.operator?]
    | some source =>
      dsimp only
      cases hread : (s.afterOperator info c).readPayload source info.name tagOffset with
      | ok p t => simp [Call.tokens, Call.interrupt?, hread, Token.operator?]
      | error i t => simp [Call.tokens, Call.interrupt?, hread, Token.operator?]

/-- The tokens of an operator are its tag and what its readings gave, and what interrupts one of
them interrupts the operator. -/
theorem pass_calls (s : Session) :
    s.pass.tokens.filter (fun token => token.operator?.isNone) = s.passCalls.flatMap Call.tokens ∧
    ∀ call ∈ s.passCalls, ∀ i, call.interrupt? = some i → s.pass.interrupt = some i := by
  have hattrs : ∀ as : List Attribute, (as.map Token.attr).filter
      (fun token => token.operator?.isNone) = as.map Token.attr := by
    intro as
    refine List.filter_eq_self.2 fun token htoken => ?_
    obtain ⟨a, -, rfl⟩ := List.mem_map.1 htoken
    rfl
  unfold pass passCalls
  dsimp only
  cases hinterrupt : (AttributeList.read s.cursor).interrupt with
  | some i =>
    dsimp only
    refine ⟨?_, fun call hcall i' hi' => ?_⟩
    · rw [hattrs, List.flatMap_singleton]
      rfl
    · rw [List.mem_singleton.1 hcall] at hi'
      exact hinterrupt.symm.trans hi'
  | none =>
    obtain ⟨htokens, hcalls⟩ := passOperator_calls
      (s.afterAttributes (AttributeList.read s.cursor)) s.fileOffset
      ((AttributeList.read s.cursor).attributes.map Token.attr)
    dsimp only
    refine ⟨?_, fun call hcall i hi => ?_⟩
    · rw [htokens, hattrs]
      rfl
    · rcases List.mem_cons.1 hcall with rfl | hcall
      · exact absurd (hinterrupt.symm.trans hi) nofun
      · exact hcalls call hcall i hi

/-- A session starts without a declared length. -/
theorem declared_of_start {stream : List UInt8} {base : Nat} {s : Session}
    (h : start stream base = .ok s) : s.declared = none := by
  obtain ⟨header, -, rfl⟩ := start_eq_ok_iff.1 h
  rfl

/-- Whatever was done with a session, a data block of declared length is read with the value that
the last attribute list gave to `VUDataLength`, if there is one and no such block was read since.
Otherwise the operator is reported and the cursor stays where it is. In either case no length is
left. Other data blocks leave the length alone, and so does an attribute with a wrong operand, which
stops the list. -/
theorem declared_length_never_leaks {stream : List UInt8} {base : Nat} {s : Session}
    (hstart : start stream base = .ok s) (actions : List Action) :
    (∀ past t name offset later,
      s.history actions = past ++ .payload t .vendorLength name offset :: later →
      (∀ v, Pending past v → ∃ n, v = .scalar (.uint32 n) ∧
        (n.toNat ≤ t.cursor.rest.length → ∃ p t',
          t.readPayload .vendorLength name offset = .ok p t' ∧
          p.bytes = t.cursor.rest.take n.toNat ∧ p.bytes.length = n.toNat ∧ t'.declared = none) ∧
        (t.cursor.rest.length < n.toNat →
          t.readPayload .vendorLength name offset =
            .error (.fault (.endOfStream t.fileOffset (n.toNat - t.cursor.rest.length)))
              { t with declared := none })) ∧
      ((∀ v, ¬ Pending past v) → t.declared = none ∧
        t.readPayload .vendorLength name offset =
          .error (.fault (.missingAttribute offset name vendorLengthName)) t)) ∧
    (∀ t source name offset, source ≠ .vendorLength →
      (Call.payload t source name offset).after.declared = t.declared) ∧
    (∀ (t : Session) (space : Space) (as : List WrittenAttribute) (o : Operand) (gap : Space)
      (w : FieldWidth), (∀ n, o ≠ .scalar (.uint32 n)) →
      t.cursor.Holds (space.bytes ++ (WrittenAttribute.listBytes t.cursor.order as ++
        o.declarationBytes t.cursor.order gap w)) →
      (Call.attributes t).after.declared = WrittenAttribute.listDeclared? as ∧
      AttributeList.read t.cursor =
        ⟨WrittenAttribute.listTokens t.cursor.order (t.fileOffset + space.bytes.length) as,
          some (.fault (.typeMismatch (t.fileOffset + space.bytes.length +
            (WrittenAttribute.listBytes t.cursor.order as).length) vendorLengthName
            ElementType.uint32.name o.dataType.name)),
          t.cursor.advance (space.bytes.length +
            (WrittenAttribute.listBytes t.cursor.order as).length +
            (o.declarationBytes t.cursor.order gap w).length)⟩) ∧
    ∀ t : Session, t.phase = .scanning →
      (t.step.1.tokens ++ t.step.2.unfinished).filter (fun token => token.operator?.isNone) =
        (t.calls .step).flatMap Call.tokens ∧
      ∀ call ∈ t.calls .step, ∀ i, call.interrupt? = some i →
        t.step.1 = .ended (.ofInterrupt t.skipSpace.cursor.atEnd i) := by
  refine ⟨fun past t name offset later hhistory => ?_, fun t source name offset hsource => ?_,
    fun t space as o gap w hother hholds => ?_, fun t hphase => ?_⟩
  · obtain ⟨declared, hchain⟩ := chain_history s actions
    rw [declared_of_start hstart] at hchain
    have hkeeps : Keeps t.declared past := hchain.keeps keeps_nil hhistory
    refine ⟨fun v hpending => ?_, fun hnone => ?_⟩
    · obtain ⟨n, hn, hv⟩ := (hkeeps v).1 hpending
      exact ⟨n, hv, readPayload_of_some hn name offset⟩
    · cases hdeclared : t.declared with
      | none => exact ⟨rfl, readPayload_of_none hdeclared name offset⟩
      | some n => exact absurd ((hkeeps _).2 ⟨n, hdeclared, rfl⟩) (hnone _)
  · rw [declared_after_payload, PayloadSource.declaredAfter_of_ne hsource]
  · have hread := AttributeList.read_of_declarationBytes hother hholds
    have hdeclared := WrittenAttribute.filterMap_vendorLength?_listTokens t.cursor.order
      (t.fileOffset + space.bytes.length) as
    refine ⟨?_, hread⟩
    change (AttributeList.read t.cursor).vendorLength? = _
    rw [hread]
    exact congrArg List.getLast? hdeclared
  · obtain ⟨htokens, hinterrupts⟩ := pass_calls t.skipSpace
    have hcalls : t.calls .step = t.skipSpace.passCalls := if_pos hphase
    rw [(step_tokens hphase).1, hcalls]
    refine ⟨htokens, fun call hcall i hi => ?_⟩
    rw [step_of_scanning hphase, hinterrupts call hcall i hi]

/-- An attribute that declares two bytes, and two bytes that can be read. -/
def twoBytes : List UInt8 :=
  [0xC2, 0x02, 0x00, 0x00, 0x00, 0xF8, 0x92, 0xAA, 0xBB]

/-- The length serves for one data block and not for another one behind it. -/
theorem declared_length_never_leaks_twoBytes :
    (∃ p t,
      (Call.attributes (onSample twoBytes)).after.readPayload .vendorLength "VendorUnique" 23 =
        .ok p t ∧ p.bytes = [0xAA, 0xBB]) ∧
    ∃ t, (onSample twoBytes).history [.attributes, .payload .vendorLength "VendorUnique" 23,
        .payload .vendorLength "VendorUnique" 23] =
      [.attributes (onSample twoBytes),
        .payload (Call.attributes (onSample twoBytes)).after .vendorLength "VendorUnique" 23,
        .payload t .vendorLength "VendorUnique" 23] ∧
      t.readPayload .vendorLength "VendorUnique" 23 =
        .error (.fault (.missingAttribute 23 "VendorUnique" "VUDataLength")) t := by
  obtain ⟨n, header, -, hheader, hs⟩ := openFile_eq_ok_iff_read.1 (openFile_onSample twoBytes)
  have hstart : start ((WrittenHeader.sample.bytes ++ twoBytes).drop n) n =
      .ok (onSample twoBytes) := by
    unfold start
    rw [hheader, hs]
    rfl
  obtain ⟨hblocks, -⟩ := declared_length_never_leaks hstart
    [.attributes, .payload .vendorLength "VendorUnique" 23,
      .payload .vendorLength "VendorUnique" 23]
  have hrest : ((onSample twoBytes).act .attributes).cursor.rest = [0xAA, 0xBB] := by
    decide +kernel
  have hpending : Pending [.attributes (onSample twoBytes)] (.scalar (.uint32 2)) :=
    ⟨[], _, [], rfl, by simp, by decide +kernel⟩
  refine ⟨?_, _, rfl, ?_⟩
  · obtain ⟨m, hm, hread, -⟩ := (hblocks [.attributes (onSample twoBytes)] _ _ _ _ rfl).1 _ hpending
    cases hm
    obtain ⟨p, t, hp, hbytes, -⟩ := hread (by rw [hrest]; decide)
    rw [hrest] at hbytes
    exact ⟨p, t, hp, hbytes⟩
  · refine ((hblocks (_ :: [_]) _ _ _ [] rfl).2 fun v hv => ?_).2
    have hcases := (@pending_concat [.attributes (onSample twoBytes)] _ v).1 hv
    rcases hcases with ⟨t, ht, -⟩ | ⟨hinline, -⟩
    · cases ht
    · exact hinline rfl

end Session

end PclXl
