import PclXl.Proofs.Runs

/-!
# Every byte of a step is accounted for

The bytes that a step takes from a file are one written form of the tokens that it gives, neither
more nor less, and each offset in the tokens is the place of the file where that part stands.
-/

namespace PclXl

open Cursor

/-- Bytes stand at a place of a file. -/
def StandsAt (data : List UInt8) (place : Nat) (bs : List UInt8) : Prop :=
  bs <+: data.drop place

/-- Bytes stand at a place if both parts of them stand one behind the other. -/
theorem standsAt_append {data as bs : List UInt8} {place : Nat} : StandsAt data place (as ++ bs) ↔
    StandsAt data place as ∧ StandsAt data (place + as.length) bs := by
  unfold StandsAt
  rw [append_prefix_iff, List.drop_drop]

/-- So do a byte and those behind it. -/
theorem standsAt_cons {data bs : List UInt8} {b : UInt8} {place : Nat} :
    StandsAt data place (b :: bs) ↔ StandsAt data place [b] ∧ StandsAt data (place + 1) bs :=
  @standsAt_append data [b] bs place

/-- A token names the places of a file where its parts stand. -/
def Token.StandsIn (order : ByteOrder) (data : List UInt8) : Token → Prop
  | attr a => StandsAt data a.offset [a.value.dataType.tag] ∧
      ∀ v, a.value = .array v → StandsAt data v.dataOffset (v.items.flatMap (·.bytes order))
  | operator op => StandsAt data op.tagOffset [op.tag] ∧
      ∃ b, StandsAt data op.offset [b] ∧ Reader.isWhiteSpace b = false
  | payload p => StandsAt data p.offset (p.bytes ++ List.replicate p.padding 0)
  | jobEnd offset => StandsAt data offset jobEndMarker

/-- A number of one byte is stored as that byte. -/
theorem flatMap_bytes_ubyte (order : ByteOrder) (raw : List UInt8) :
    (raw.map Number.ubyte).flatMap (·.bytes order) = raw := by
  induction raw with
  | nil => rfl
  | cons b raw ih =>
    have hb : (Number.ubyte b).bytes order = [b] := order.bytes_one b
    rw [List.map_cons, List.flatMap_cons, ih, hb]
    rfl

/-- The elements of an array stand behind its count. -/
theorem Operand.standsAt_items {order : ByteOrder} {data : List UInt8} {offset : Nat} {o : Operand}
    {v : ArrayValue} (h : StandsAt data offset (o.bytes order)) (hv : o.value offset = .array v) :
    StandsAt data v.dataOffset (v.items.flatMap (·.bytes order)) := by
  cases o with
  | scalar x => cases hv
  | pair x y same => cases hv
  | quad a b c d same => cases hv
  | byteArray width raw fits =>
    have hbehind := (standsAt_append.1 (standsAt_cons.1 h).2).2
    rw [ByteOrder.length_bytes] at hbehind
    cases hv
    rw [flatMap_bytes_ubyte]
    exact hbehind
  | array width element other items typed fits =>
    have hbehind := (standsAt_append.1 (standsAt_cons.1 h).2).2
    rw [ByteOrder.length_bytes] at hbehind
    cases hv
    exact hbehind

/-- An attribute names the places of its data-type tag and its elements. -/
theorem WrittenAttribute.standsIn_token {order : ByteOrder} {data : List UInt8} {offset : Nat}
    {a : WrittenAttribute} (h : StandsAt data offset (a.bytes order)) :
    (Token.attr (a.token offset)).StandsIn order data := by
  have hstem := (standsAt_append.1 h).1
  obtain ⟨htag, hbehind⟩ := standsAt_cons.1 hstem
  have hoperand := (standsAt_append.1 hbehind).1
  refine ⟨?_, fun v hv => Operand.standsAt_items hoperand hv⟩
  change StandsAt data offset [(a.operand.value (offset + 1)).dataType.tag]
  rw [Operand.dataType_value]
  exact htag

/-- So do attributes that follow each other. -/
theorem WrittenAttribute.standsIn_listTokens {order : ByteOrder} {data : List UInt8} {offset : Nat}
    {as : List WrittenAttribute} (h : StandsAt data offset (listBytes order as)) :
    ∀ a ∈ listTokens order offset as, (Token.attr a).StandsIn order data := by
  induction as generalizing offset with
  | nil =>
    intro a ha
    cases ha
  | cons w as ih =>
    rw [listBytes, List.flatMap_cons] at h
    obtain ⟨hfirst, hrest⟩ := standsAt_append.1 h
    intro a ha
    rcases List.mem_cons.1 ha with heq | hmem
    · rw [heq]
      exact standsIn_token hfirst
    · exact ih hrest a hmem

/-- The tokens of a written operator name the places of their parts. -/
theorem Sequence.standsIn_tokens {order : ByteOrder} {data : List UInt8} {offset : Nat} {t : Tally}
    {q : Sequence} (h : StandsAt data offset (q.bytes order)) :
    ∀ token ∈ q.tokens order (offset + q.space.bytes.length) t, token.StandsIn order data := by
  have hhead := (standsAt_append.1 h).1
  have hstem := (standsAt_append.1 hhead).1
  have hbehind := (standsAt_append.1 hstem).2
  obtain ⟨hlist, htag⟩ := standsAt_append.1 hbehind
  intro token htoken
  rcases List.mem_append.1 htoken with hlead | hblock
  · rcases List.mem_append.1 hlead with hattr | hoperator
    · obtain ⟨a, ha, heq⟩ := List.mem_map.1 hattr
      rw [← heq]
      exact WrittenAttribute.standsIn_listTokens hlist a ha
    · rw [List.mem_singleton.1 hoperator]
      obtain ⟨b, bs, hfirst, hb⟩ := q.exists_first order
      rw [hfirst] at hbehind
      exact ⟨htag, b, (standsAt_cons.1 hbehind).1, hb⟩
  · unfold Sequence.blockTokens at hblock
    cases hb : q.block with
    | none =>
      rw [hb] at hblock
      cases hblock
    | some b =>
      have hbody := (standsAt_append.1 h).2
      rw [hb] at hblock
      have heq := List.mem_singleton.1 hblock
      have hplace := (Sequence.offset_of_payload_mem (t := t) (heq ▸ htoken)).1
      rw [heq]
      change StandsAt data (b.token _).offset (b.body ++ List.replicate b.padding 0)
      rw [hplace]
      rwa [Sequence.body, hb] at hbody

namespace Session

/-- The bytes between the file offsets in front of a step and behind it are the written form of the
tokens that the step gives. All padding behind a data block belongs to it, and every offset among
the tokens is the place where that part stands in the file. -/
theorem exists_written_of_step {data : List UInt8} {s s' : Session} {k : Nat} {ts : List Token}
    (hopen : openFile data = .ok s) (hstep : (s.after k).step = (.sequence ts, s')) :
    ∃ q : Sequence,
      ts = q.tokens s.header.order ((s.after k).fileOffset + q.space.bytes.length)
        (s.after k).tally ∧
      data.drop (s.after k).fileOffset = q.bytes s.header.order ++ data.drop s'.fileOffset ∧
      s'.fileOffset = (s.after k).fileOffset + (q.bytes s.header.order).length ∧
      (q.block.isSome → data[s'.fileOffset]? ≠ some 0) ∧
      ∀ t ∈ ts, t.StandsIn s.header.order data := by
  obtain ⟨hphase, q, hholds, hts, hs'⟩ := exists_of_step hstep
  obtain ⟨hon, hheader⟩ := on_after hopen hphase
  have horder : (s.after k).cursor.order = s.header.order := by rw [hon.order_eq, hheader]
  have hrest := hon.rest_eq
  have hstands := hholds.stands
  have hoffset := fileOffset_afterSequence hholds
  rw [horder, ← hs'] at hoffset
  rw [horder, hrest] at hstands
  have hsplit : data.drop (s.after k).fileOffset =
      q.bytes s.header.order ++ data.drop s'.fileOffset := by
    obtain ⟨tail, htail⟩ := hstands
    have hdrop := congrArg (List.drop (q.bytes s.header.order).length) htail
    rw [List.drop_left, List.drop_drop, ← hoffset] at hdrop
    rw [← hdrop, htail]
  refine ⟨q, ?_, hsplit, hoffset, fun hb => ?_, ?_⟩
  · rw [hts, horder]
  · have hended := hholds.ended hb
    rwa [horder, hrest, List.drop_drop, ← hoffset, List.head?_drop] at hended
  · rw [hts, horder]
    exact Sequence.standsIn_tokens hstands

/-- A file with a data block of two bytes, two bytes of padding and the tag of another operator. -/
def blockFile : List UInt8 :=
  WrittenHeader.sample.bytes ++ [0x20, 0xFB, 0x02, 0x07, 0x08, 0x00, 0x00, 0x42]

/-- The first step on that file takes the white space, the tag, the length, the block and the
padding. -/
theorem exists_written_of_step_blockFile : ∃ s s' : Session, openFile blockFile = .ok s ∧
    (s.after 0).step = (.sequence [.operator ⟨0xFB, "embedded_data_byte", 17, 17, 0, none⟩,
      .payload ⟨.inlineUByte, [0x07, 0x08], 19, 2⟩], s') ∧
    ∃ q : Sequence, blockFile.drop 16 = q.bytes .lowFirst ++ blockFile.drop s'.fileOffset ∧
      s'.fileOffset = 16 + (q.bytes .lowFirst).length ∧
      (q.block.isSome → blockFile[s'.fileOffset]? ≠ some 0) := by
  have hopen : openFile blockFile = .ok (behindHeader WrittenHeader.sample.header blockFile 0) :=
    openFile_eq_ok_iff.2 ⟨[], .sample, _, rfl, by decide, rfl⟩
  have hstep : ((behindHeader WrittenHeader.sample.header blockFile 0).after 0).step =
      (.sequence [.operator ⟨0xFB, "embedded_data_byte", 17, 17, 0, none⟩,
        .payload ⟨.inlineUByte, [0x07, 0x08], 19, 2⟩], _) :=
    Prod.ext (by decide +kernel) rfl
  obtain ⟨q, -, hbytes, hoffset, hended, -⟩ := exists_written_of_step hopen hstep
  exact ⟨_, _, hopen, hstep, q, hbytes, hoffset, hended⟩

end Session

end PclXl
