import PclXl.Proofs.Locality

/-!
# Levels and positions

The operators of a run are numbered by what comes before them. The level of an operator counts the
graphics states that were saved in front of it and takes off those that were restored up to it; its
position counts the operators in front that do not merely carry data. Both hold for the operators
that were read so far, the one of an interrupted step included, and say where matching operators
stand.
-/

namespace PclXl

open Vocabulary

namespace Operator

/-- The operator is `PushGS`, which saves the graphics state. -/
def saves (op : Operator) : Bool :=
  op.tag == pushTag

/-- The operator is `PopGS`, which restores the graphics state. -/
def restores (op : Operator) : Bool :=
  op.tag == popTag

/-- The operator takes a number among the others: it does more than carry data. -/
def isCounted (op : Operator) : Bool :=
  op.name != "embedded_data" && op.name != "embedded_data_byte"

end Operator

/-- Saved graphics states minus restored ones. -/
def netLevel (ops : List Operator) : Int :=
  (ops.countP Operator.saves : Int) - ops.countP Operator.restores

/-- Every operator of a list has the level and the position that those in front of it give. -/
structure Numbered (ops : List Operator) : Prop where
  /-- The level counts what was saved in front and restored up to the operator. -/
  level_eq : ∀ i (h : i < ops.length), ops[i].level =
    ((ops.take i).countP Operator.saves : Int) - (ops.take (i + 1)).countP Operator.restores
  /-- The position counts the operators in front, unless the operator only carries data. -/
  position_eq : ∀ i (h : i < ops.length), ops[i].position =
    if ops[i].isCounted then some (1 + (ops.take i).countP Operator.isCounted) else none

/-- As many graphics states are restored as are saved, and none that was not saved before. -/
structure Balanced (ops : List Operator) : Prop where
  /-- No more is restored than was saved. -/
  covered : ∀ n, (ops.take n).countP Operator.restores ≤ (ops.take n).countP Operator.saves
  /-- All that was saved is restored. -/
  settled : ops.countP Operator.restores = ops.countP Operator.saves

/-- No operators are numbered as they should be. -/
theorem numbered_nil : Numbered [] := by
  refine ⟨fun i h => ?_, fun i h => ?_⟩
  · cases h
  · cases h

/-- One more operator behind others. -/
theorem Numbered.concat {ops : List Operator} {op : Operator} (h : Numbered ops)
    (hlevel : op.level = netLevel ops - if op.restores then 1 else 0)
    (hposition : op.position =
      if op.isCounted then some (1 + ops.countP Operator.isCounted) else none) :
    Numbered (ops ++ [op]) := by
  have hlast : ∀ i, i < (ops ++ [op]).length → ¬ i < ops.length → i = ops.length := by
    intro i hi hnot
    rw [List.length_append, List.length_singleton] at hi
    omega
  refine ⟨fun i hi => ?_, fun i hi => ?_⟩
  · by_cases hlt : i < ops.length
    · have hold := h.level_eq i hlt
      rw [List.getElem_append_left hlt, List.take_append_of_le_length (Nat.le_of_lt hlt),
        List.take_append_of_le_length hlt]
      exact hold
    · obtain rfl := hlast i hi hlt
      have hlength : (ops ++ [op]).length = ops.length + 1 := List.length_append
      have hall : (ops ++ [op]).take (ops.length + 1) = ops ++ [op] :=
        List.take_of_length_le (Nat.le_of_eq hlength)
      rw [List.getElem_concat_length rfl, List.take_left, hall, List.countP_append,
        List.countP_singleton, hlevel, netLevel]
      split
      · omega
      · omega
  · by_cases hlt : i < ops.length
    · have hold := h.position_eq i hlt
      rw [List.getElem_append_left hlt, List.take_append_of_le_length (Nat.le_of_lt hlt)]
      exact hold
    · obtain rfl := hlast i hi hlt
      rw [List.getElem_concat_length rfl, List.take_left]
      exact hposition

section Counts

variable {ops : List Operator} {p : Operator → Bool}

/-- Operators may be counted in two parts. -/
theorem countP_take_add (i n : Nat) : (ops.take (i + n)).countP p =
    (ops.take i).countP p + ((ops.drop i).take n).countP p := by
  rw [List.take_add, List.countP_append]

/-- One more operator counts by itself. -/
theorem countP_take_succ {n : Nat} (hn : n < ops.length) : (ops.take (n + 1)).countP p =
    (ops.take n).countP p + if p ops[n] then 1 else 0 := by
  rw [← List.take_append_getElem hn, List.countP_append, List.countP_singleton]

end Counts

/-- No operator both saves and restores. -/
theorem Operator.restores_of_saves {op : Operator} (h : op.saves = true) : op.restores = false := by
  have htag : op.tag = pushTag := by simpa [saves] using h
  rw [restores, htag]
  decide

/-- Where a balanced list stands between two places of another, as much is restored as is saved
between them, and up to each place within not more. -/
theorem Balanced.counts_take {ops : List Operator} {i j : Nat} (hij : i ≤ j)
    (h : Balanced ((ops.drop i).take (j - i))) :
    ((ops.take j).countP Operator.saves : Int) - (ops.take j).countP Operator.restores =
      (ops.take i).countP Operator.saves - (ops.take i).countP Operator.restores ∧
    ∀ m, i ≤ m → m ≤ j →
      ((ops.take i).countP Operator.saves : Int) - (ops.take i).countP Operator.restores ≤
        (ops.take m).countP Operator.saves - (ops.take m).countP Operator.restores := by
  refine ⟨?_, fun m him hmj => ?_⟩
  · obtain ⟨n, rfl⟩ := Nat.exists_eq_add_of_le hij
    have hall := h.settled
    rw [Nat.add_sub_cancel_left] at hall
    rw [countP_take_add, countP_take_add]
    omega
  · obtain ⟨n, rfl⟩ := Nat.exists_eq_add_of_le him
    have hpart := h.covered n
    rw [List.take_take, Nat.min_eq_left (by omega)] at hpart
    rw [countP_take_add, countP_take_add]
    omega

/-- The operator that restores what another saved runs at the same level, and all operators in
between run at higher levels: an operator that saves runs at the level that the operators in front
of it leave. -/
theorem Numbered.level_of_matching {ops : List Operator} (h : Numbered ops) {i j : Nat} (hij : i < j)
    (hj : j < ops.length) (hsaves : ops[i].saves = true) (hrestores : ops[j].restores = true)
    (hbalanced : Balanced ((ops.drop (i + 1)).take (j - (i + 1)))) :
    ops[i].level = ops[j].level ∧ ∀ m (hm : m < j), i < m → ops[i].level < ops[m].level := by
  have hle : i + 1 ≤ j := hij
  have hlevel := h.level_eq i (by omega)
  obtain ⟨hsettled, hcovered⟩ := hbalanced.counts_take hle
  have hsaved := countP_take_succ (p := Operator.saves) (by omega : i < ops.length)
  rw [if_pos hsaves] at hsaved
  refine ⟨?_, fun m hm him => ?_⟩
  · have hother := h.level_eq j hj
    have hrestored := countP_take_succ (p := Operator.restores) hj
    rw [if_pos hrestores] at hrestored
    omega
  · have hother := h.level_eq m (by omega)
    have hnext := countP_take_succ (p := Operator.saves) (by omega : m < ops.length)
    have hlast := countP_take_succ (p := Operator.restores) (by omega : m < ops.length)
    cases hm' : ops[m].saves with
    | true =>
      have hbefore := hcovered m him (by omega)
      rw [if_neg (by rw [Operator.restores_of_saves hm']; decide)] at hlast
      omega
    | false =>
      have hbehind := hcovered (m + 1) (by omega) hm
      rw [if_neg (by rw [hm']; decide)] at hnext
      omega

/-- A list cannot leave a level that exceeds its length. -/
theorem natAbs_netLevel_le (ops : List Operator) : (netLevel ops).natAbs ≤ ops.length := by
  have hsaves := List.countP_le_length (p := Operator.saves) (l := ops)
  have hrestores := List.countP_le_length (p := Operator.restores) (l := ops)
  rw [netLevel]
  omega

/-- No level is further from zero than there are operators. -/
theorem Numbered.natAbs_level_le {ops : List Operator} (h : Numbered ops) :
    ∀ op ∈ ops, op.level.natAbs ≤ ops.length := by
  intro op hop
  obtain ⟨i, hi, rfl⟩ := List.getElem_of_mem hop
  have hlevel := h.level_eq i hi
  have hsaves := List.countP_le_length (p := Operator.saves) (l := ops.take i)
  have hrestores := List.countP_le_length (p := Operator.restores) (l := ops.take (i + 1))
  rw [List.length_take] at hsaves hrestores
  omega

/-- An operator is counted by its table entry exactly if it does more than carry data. -/
theorem OperatorInfo.counted_eq {info : OperatorInfo} (h : ofTag? info.tag = some info) :
    info.counted = (info.name != "embedded_data" && info.name != "embedded_data_byte") := by
  have hmem : info ∈ operators := List.mem_of_find?_eq_some h
  have hall : ∀ i ∈ operators,
      i.counted = (i.name != "embedded_data" && i.name != "embedded_data_byte") := by decide
  exact hall info hmem

namespace Session

/-- The operators among the tokens of the first steps, the one of an interrupted step included. -/
def operators (s : Session) (k : Nat) : List Operator :=
  (s.emitted k ++ (s.after k).unfinished).filterMap Token.operator?

/-- A session has counted the operators that were read so far. -/
structure Counts (s : Session) (ops : List Operator) : Prop where
  /-- The operators are numbered. -/
  numbered : Numbered ops
  /-- The level of the session is what they leave. -/
  level_eq : s.level = netLevel ops
  /-- The counter of the session counts them. -/
  operatorCount_eq : s.operatorCount = ops.countP Operator.isCounted

/-- A session that reads one more operator has counted it as well. -/
theorem Counts.concat {s t : Session} {ops : List Operator} {info : OperatorInfo}
    (h : s.Counts ops) (hknown : OperatorInfo.ofTag? info.tag = some info)
    (htally : t.tally = s.tally.after info) (offset tagOffset : Nat) :
    t.Counts (ops ++ [s.nextOperator info offset tagOffset]) := by
  have hbefore := h.level_eq
  have hcounted := OperatorInfo.counted_eq hknown
  have hlevel : t.level = (s.tally.after info).level := congrArg Tally.level htally
  have hcount : t.operatorCount = (s.tally.after info).count := congrArg Tally.count htally
  have hisCounted : (s.nextOperator info offset tagOffset).isCounted = info.counted :=
    hcounted.symm
  refine ⟨h.numbered.concat ?_ ?_, ?_, ?_⟩
  · simp only [nextOperator, Operator.restores, beq_iff_eq]
    split
    · omega
    · omega
  · rw [hisCounted, ← h.operatorCount_eq, Nat.add_comm]
    rfl
  · rw [hlevel, netLevel, List.countP_append, List.countP_append, List.countP_singleton,
      List.countP_singleton]
    rw [netLevel] at hbefore
    simp only [Tally.after, tally, nextOperator, Operator.saves, Operator.restores, beq_iff_eq]
    split
    · rename_i hpop
      have hnot : info.tag ≠ pushTag := by
        rw [hpop]
        decide
      rw [if_neg hnot]
      omega
    · split
      · omega
      · omega
  · rw [hcount, List.countP_append, List.countP_singleton, hisCounted, ← h.operatorCount_eq]
    simp only [Tally.after, tally]
    split
    · rfl
    · rfl

/-- Attributes are no operators. -/
theorem filterMap_operator?_attr (as : List Attribute) :
    (as.map Token.attr).filterMap Token.operator? = [] := by
  rw [List.filterMap_map]
  exact List.filterMap_eq_nil_iff.2 fun a _ => rfl

/-- A data block is no operator and changes no count. -/
theorem passPayload_operators (s : Session) (info : OperatorInfo) (tagOffset : Nat)
    (ts : List Token) :
    (passPayload s info tagOffset ts).tokens.filterMap Token.operator? =
      ts.filterMap Token.operator? ∧
    (passPayload s info tagOffset ts).session.tally = s.tally := by
  unfold passPayload readPayload
  cases info.payload with
  | none => exact ⟨rfl, rfl⟩
  | some source =>
    dsimp only
    cases Reader.payload source s.declared info.name tagOffset s.cursor with
    | error i c => exact ⟨rfl, rfl⟩
    | ok p c =>
      refine ⟨?_, rfl⟩
      rw [List.filterMap_append]
      exact List.append_nil _

/-- The tokens of one operator hold the operator only, if its tag was read, and the session has then
counted it. -/
theorem pass_operators (s : Session) :
    (s.pass.tokens.filterMap Token.operator? = [] ∧ s.pass.session.tally = s.tally) ∨
    ∃ info offset tagOffset, OperatorInfo.ofTag? info.tag = some info ∧
      s.pass.tokens.filterMap Token.operator? = [s.nextOperator info offset tagOffset] ∧
      s.pass.session.tally = s.tally.after info ∧ 0 < s.cursor.rest.length := by
  cases hread : AttributeList.read s.cursor with
  | mk as interrupt c =>
    cases interrupt with
    | some i =>
      rw [pass_eq_of_interrupt hread]
      exact .inl ⟨filterMap_operator?_attr as, rfl⟩
    | none =>
      rw [pass_eq hread]
      unfold passOperator
      cases htag : operatorTag c with
      | error i c' =>
        exact .inl ⟨filterMap_operator?_attr as, rfl⟩
      | ok entry c' =>
        obtain ⟨info, tagOffset⟩ := entry
        obtain ⟨space, hknown, hstands, -⟩ := exists_of_operatorTag htag
        have hlist := AttributeList.four_mul_length_le s.cursor (by rw [hread])
        have hpos := hstands.length_le
        rw [hread] at hlist
        rw [List.length_append, List.length_singleton] at hpos
        dsimp only at hlist
        obtain ⟨htokens, htally⟩ := passPayload_operators
          (({ s with cursor := c, declared := (as.filterMap Attribute.vendorLength?).getLast? } :
            Session).afterOperator info c') info tagOffset
          (as.map .attr ++ [.operator (s.nextOperator info s.fileOffset tagOffset)])
        rw [List.filterMap_append, filterMap_operator?_attr] at htokens
        exact .inr ⟨info, s.fileOffset, tagOffset, hknown, htokens, htally, by omega⟩

/-- The operators that a step reads, counted. -/
theorem Counts.pass {s : Session} {ops : List Operator} (h : s.Counts ops) :
    s.skipSpace.pass.session.Counts
      (ops ++ s.skipSpace.pass.tokens.filterMap Token.operator?) := by
  rcases s.skipSpace.pass_operators with ⟨htokens, htally⟩ |
    ⟨info, offset, tagOffset, hknown, htokens, htally, -⟩
  · rw [htokens, List.append_nil]
    refine ⟨h.numbered, ?_, ?_⟩
    · rw [← h.level_eq]
      exact congrArg Tally.level htally
    · rw [← h.operatorCount_eq]
      exact congrArg Tally.count htally
  · rw [htokens]
    exact Counts.concat (s := s) h hknown htally offset tagOffset

/-- A session that goes on has left nothing unfinished. -/
theorem unfinished_of_scanning {s : Session} (h : s.phase = .scanning) : s.unfinished = [] := by
  rw [unfinished, h]

/-- What a step of a session that goes on reads is given at once or kept as unfinished. -/
theorem step_tokens {s : Session} (h : s.phase = .scanning) :
    s.step.1.tokens ++ s.step.2.unfinished = s.skipSpace.pass.tokens ∧
      s.step.2.tally = s.skipSpace.pass.session.tally := by
  cases hi : s.skipSpace.pass.interrupt with
  | none =>
    have hstep : s.step = (.sequence s.skipSpace.pass.tokens, s.skipSpace.pass.session) :=
      step_eq_sequence_iff.2 ⟨h, hi, rfl, rfl⟩
    obtain ⟨-, q, -, -, hafter⟩ := exists_of_step hstep
    have hnone : s.skipSpace.pass.session.unfinished = [] := by
      rw [hafter]
      exact unfinished_of_scanning h
    rw [hstep]
    refine ⟨?_, rfl⟩
    dsimp only
    rw [hnone]
    exact List.append_nil _
  | some i =>
    rw [step_of_scanning h, hi]
    exact ⟨rfl, rfl⟩

/-- One more step of a session that goes on reads the operators of its pass. -/
theorem operators_succ {s : Session} {k : Nat} (h : (s.after k).phase = .scanning) :
    s.operators (k + 1) =
      s.operators k ++ (s.after k).skipSpace.pass.tokens.filterMap Token.operator? := by
  have hnone := unfinished_of_scanning h
  obtain ⟨htokens, -⟩ := step_tokens h
  have hafter : s.after (k + 1) = (s.after k).step.2 := rfl
  unfold operators
  rw [emitted_succ, hnone, List.append_nil, ← List.filterMap_append, List.append_assoc, hafter,
    htokens]

/-- A step behind the end of a session reads no operators. -/
theorem operators_of_ended {s : Session} {k : Nat} {e : Ending} {unfinished : List Token}
    (h : (s.after k).phase = .ended e unfinished) : s.operators (k + 1) = s.operators k := by
  have hstep := step_of_ended h
  unfold operators
  rw [emitted_of_step_ended hstep, after_of_step hstep]

/-- Nothing was read before the first step. -/
theorem operators_zero {s : Session} (hphase : s.phase = .scanning) : s.operators 0 = [] := by
  change ([] ++ s.unfinished).filterMap Token.operator? = []
  rw [unfinished_of_scanning hphase]
  rfl

/-- After any number of steps a session that started with nothing counted has counted the operators
that were read. -/
theorem counts_after {s : Session} (hphase : s.phase = .scanning) (htally : s.tally = .zero)
    (k : Nat) : (s.after k).Counts (s.operators k) := by
  induction k with
  | zero =>
    rw [operators_zero hphase]
    exact ⟨numbered_nil, congrArg Tally.level htally, congrArg Tally.count htally⟩
  | succ k ih =>
    cases hk : (s.after k).phase with
    | scanning =>
      obtain ⟨-, hsame⟩ := step_tokens hk
      obtain ⟨hnumbered, hlevel, hcount⟩ := ih.pass
      rw [← operators_succ hk] at hnumbered hlevel hcount
      refine ⟨hnumbered, ?_, ?_⟩
      · rw [← hlevel]
        exact congrArg Tally.level hsame
      · rw [← hcount]
        exact congrArg Tally.count hsame
    | ended e unfinished =>
      rw [operators_of_ended hk, after_of_step (step_of_ended hk)]
      exact ih

/-- The session that opens a file goes on and has counted nothing. -/
theorem start_of_openFile {data : List UInt8} {s : Session} (hopen : openFile data = .ok s) :
    s.phase = .scanning ∧ s.tally = .zero := by
  obtain ⟨preamble, w, rest, -, -, hs⟩ := openFile_eq_ok_iff.1 hopen
  rw [hs]
  exact ⟨rfl, rfl⟩

/-- Every operator takes up at least a byte of its file, so that no count exceeds its length. -/
theorem length_operators_le {data : List UInt8} {s : Session} (hopen : openFile data = .ok s)
    (k : Nat) : (s.operators k).length ≤ data.length ∧
      ((s.after k).phase = .scanning → (s.operators k).length ≤ (s.after k).fileOffset) := by
  have hphase := (on_of_openFile hopen).2
  induction k with
  | zero =>
    rw [operators_zero hphase]
    exact ⟨Nat.zero_le _, fun _ => Nat.zero_le _⟩
  | succ k ih =>
    cases hk : (s.after k).phase with
    | ended e unfinished =>
      rw [operators_of_ended hk, after_of_step (step_of_ended hk)]
      exact ih
    | scanning =>
      obtain ⟨hwhole, hpart⟩ := ih
      have hplace := hpart hk
      have hrest := congrArg List.length (on_after hopen hk).1.rest_eq
      rw [List.length_drop] at hrest
      have hnext : (s.operators (k + 1)).length ≤ (s.operators k).length + 1 ∧
          (s.operators (k + 1)).length ≤ data.length := by
        rw [operators_succ hk, List.length_append]
        rcases (s.after k).skipSpace.pass_operators with ⟨htokens, -⟩ |
          ⟨info, offset, tagOffset, -, htokens, -, hpos⟩
        · rw [htokens, List.length_nil]
          omega
        · have hskip : (s.after k).skipSpace.cursor.rest.length ≤
              (s.after k).cursor.rest.length := by
            change ((s.after k).cursor.rest.drop _).length ≤ _
            rw [List.length_drop]
            omega
          rw [htokens, List.length_singleton]
          omega
      refine ⟨hnext.2, fun hscanning => ?_⟩
      obtain ⟨ts, hstep⟩ := step_of_phase hscanning
      have hless := fileOffset_lt_of_step hk (by rw [hstep]; trivial)
      have hafter : s.after (k + 1) = (s.after k).step.2 := rfl
      rw [hafter]
      omega

/-- Levels and positions over any number of steps. The operators that were read so far are numbered
by those in front of them, and the session has counted them, however its run may have ended. An
operator that restores what another saved runs at the same level, and all in between run higher. A
level is below zero exactly where more was restored than saved. No level or counter exceeds the
length of the file, so that those of a file of less than `2 ^ 31` bytes fit 32 bits. -/
theorem levels_and_positions {data : List UInt8} {s : Session} (hopen : openFile data = .ok s)
    (k : Nat) :
    Numbered (s.operators k) ∧
    (s.after k).level = netLevel (s.operators k) ∧
    (s.after k).operatorCount = (s.operators k).countP Operator.isCounted ∧
    (∀ i j (hij : i < j) (hj : j < (s.operators k).length), (s.operators k)[i].saves = true →
      (s.operators k)[j].restores = true →
      Balanced (((s.operators k).drop (i + 1)).take (j - (i + 1))) →
      (s.operators k)[i].level = (s.operators k)[j].level ∧
      ∀ m (hm : m < j), i < m → (s.operators k)[i].level < (s.operators k)[m].level) ∧
    (∀ i (h : i < (s.operators k).length), (s.operators k)[i].level < 0 ↔
      ((s.operators k).take i).countP Operator.saves <
        ((s.operators k).take (i + 1)).countP Operator.restores) ∧
    (∀ op ∈ s.operators k, op.level.natAbs ≤ data.length) ∧
    (s.after k).level.natAbs ≤ data.length ∧ (s.after k).operatorCount ≤ data.length := by
  obtain ⟨hphase, htally⟩ := start_of_openFile hopen
  obtain ⟨hnumbered, hlevel, hcount⟩ := counts_after hphase htally k
  have hlength := (length_operators_le hopen k).1
  refine ⟨hnumbered, hlevel, hcount, fun i j hij hj hsaves hrestores hbalanced =>
    hnumbered.level_of_matching hij hj hsaves hrestores hbalanced, fun i h => ?_, fun op hop => ?_,
    ?_, ?_⟩
  · have hi := hnumbered.level_eq i h
    omega
  · have hle := hnumbered.natAbs_level_le op hop
    omega
  · have hle := natAbs_netLevel_le (s.operators k)
    omega
  · have hle := List.countP_le_length (p := Operator.isCounted) (l := s.operators k)
    omega

/-- A session on two operators that restore, the second of which restores what was saved in front of
a data block, and on a last operator whose data block is cut off. -/
def nested : Session :=
  onSample [0x60, 0x61, 0xFB, 0x01, 0x07, 0x60, 0xFB, 0x09]

/-- After its end the session has counted all five operators, and the data block between the
operators that match runs at a higher level. -/
theorem levels_and_positions_nested :
    openFile (WrittenHeader.sample.bytes ++ [0x60, 0x61, 0xFB, 0x01, 0x07, 0x60, 0xFB, 0x09]) =
      .ok nested ∧
    (nested.after 5).isFinished = true ∧
    nested.operators 5 =
      [⟨0x60, "PopGS", 16, 16, -1, some 1⟩, ⟨0x61, "PushGS", 17, 17, -1, some 2⟩,
        ⟨0xFB, "embedded_data_byte", 18, 18, 0, none⟩, ⟨0x60, "PopGS", 21, 21, -1, some 3⟩,
        ⟨0xFB, "embedded_data_byte", 22, 22, -1, none⟩] ∧
    (nested.after 5).level = -1 ∧ (nested.after 5).operatorCount = 3 ∧
    ∀ op ∈ (nested.operators 5)[2]?, -1 < op.level := by
  have hopen : openFile (WrittenHeader.sample.bytes ++
      [0x60, 0x61, 0xFB, 0x01, 0x07, 0x60, 0xFB, 0x09]) = .ok nested := openFile_onSample _
  have hops : nested.operators 5 =
      [⟨0x60, "PopGS", 16, 16, -1, some 1⟩, ⟨0x61, "PushGS", 17, 17, -1, some 2⟩,
        ⟨0xFB, "embedded_data_byte", 18, 18, 0, none⟩, ⟨0x60, "PopGS", 21, 21, -1, some 3⟩,
        ⟨0xFB, "embedded_data_byte", 22, 22, -1, none⟩] := by decide +kernel
  have hbalanced : Balanced [⟨0xFB, "embedded_data_byte", 18, 18, 0, none⟩] := by
    refine ⟨fun n => ?_, by decide⟩
    cases n with
    | zero => exact Nat.le_refl _
    | succ n => rw [List.take_succ_cons, List.take_nil]; decide
  obtain ⟨-, hlevel, hcount, hmatching, -⟩ := levels_and_positions hopen 5
  simp only [hops] at hlevel hcount hmatching
  have hbetween := (hmatching 1 3 (by decide) (by decide) rfl rfl hbalanced).2 2
    (by decide) (by decide)
  refine ⟨hopen, by decide +kernel, hops, ?_, ?_, fun op hop => ?_⟩
  · rw [hlevel]
    decide
  · rw [hcount]
    decide
  · rw [hops] at hop
    rw [← Option.some.inj hop]
    exact hbetween

end Session

end PclXl
