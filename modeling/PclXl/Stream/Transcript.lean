import PclXl.Stream.Session

/-!
# Transcripts

A session that is stepped until it ends leaves a transcript: the tokens of each complete operator,
and the session in its ended state. Every step that completes an operator reads at least its tag,
so every session ends.
-/

namespace PclXl

namespace AttributeList

/-- Every attribute of a list takes up at least four bytes. -/
theorem four_mul_length_le (c : Cursor) (h : (read c).interrupt = none) :
    4 * (read c).attributes.length + (read c).cursor.rest.length ≤ c.rest.length := by
  fun_induction read c with
  | case1 c i c' found => simp at h
  | case2 c c' found =>
    obtain ⟨_, c₁, h₁, found⟩ := Reader.bind_eq_ok_iff.1 found
    obtain ⟨tag, c₂, h₂, found⟩ := Reader.bind_eq_ok_iff.1 found
    have le₁ := Reader.consumes_skipWhiteSpace c _ c₁ h₁
    have le₂ := Reader.consumes_peek c₁ tag c₂ h₂
    cases ht : DataType.ofTag? tag with
    | none =>
      simp only [ht] at found
      obtain ⟨-, rfl⟩ := Reader.pure_eq_ok_iff.1 found
      simp only [List.length_nil]
      omega
    | some t =>
      simp only [ht] at found
      obtain ⟨_, _, -, found⟩ := Reader.bind_eq_ok_iff.1 found
      cases (Reader.pure_eq_ok_iff.1 found).1
  | case3 c a c' found list ih =>
    have read_four := Reader.attr?_consumes found
    have read_rest : 4 * list.attributes.length + list.cursor.rest.length ≤ c'.rest.length := ih h
    simp only [List.length_cons]
    omega

end AttributeList

namespace Session

theorem consumes_operatorTag : Reader.Consumes 1 operatorTag := by
  refine (Reader.consumes_skipWhiteSpace.bind (n := 1) fun _ => ?_).mono (by omega)
  refine (Reader.consumes_fileOffset.bind (n := 1) fun _ => ?_).mono (by omega)
  refine (Reader.consumes_peek.bind (n := 1) fun tag => ?_).mono (by omega)
  cases OperatorInfo.ofTag? tag with
  | none => exact Reader.consumes_fail 1 _
  | some info => exact Reader.consumes_byte.map _

/-- A data block that was read to its end does not move the cursor back. -/
theorem passPayload_rest_le {s : Session} {info : OperatorInfo} {tagOffset : Nat}
    {tokens : List Token} (h : (passPayload s info tagOffset tokens).interrupt = none) :
    (passPayload s info tagOffset tokens).session.cursor.rest.length ≤ s.cursor.rest.length := by
  unfold passPayload readPayload at *
  cases hp : info.payload with
  | none => simp
  | some source =>
    cases hr : Reader.payload source s.declared info.name tagOffset s.cursor with
    | error i c => simp [hp, hr] at h
    | ok p c =>
      have := Reader.consumes_payload source s.declared info.name tagOffset s.cursor p c hr
      simpa [hr] using this

/-- An operator that was read to its end takes up at least its tag. -/
theorem passOperator_rest_lt {s : Session} {offset : Nat} {tokens : List Token}
    (h : (passOperator s offset tokens).interrupt = none) :
    (passOperator s offset tokens).session.cursor.rest.length < s.cursor.rest.length := by
  unfold passOperator at *
  cases hr : operatorTag s.cursor with
  | error i c => simp [hr] at h
  | ok entry c =>
    have tag := consumes_operatorTag s.cursor entry c hr
    simp only [hr] at h ⊢
    refine Nat.lt_of_le_of_lt (passPayload_rest_le h) ?_
    change c.rest.length < _
    omega

theorem pass_rest_lt {s : Session} (h : s.pass.interrupt = none) :
    s.pass.session.cursor.rest.length < s.cursor.rest.length := by
  unfold pass at *
  cases hi : (AttributeList.read s.cursor).interrupt with
  | some i => simp [hi] at h
  | none =>
    have list := AttributeList.four_mul_length_le s.cursor hi
    simp only [hi] at h ⊢
    refine Nat.lt_of_lt_of_le (passOperator_rest_lt h) ?_
    change (AttributeList.read s.cursor).cursor.rest.length ≤ _
    omega

/-- A step that completes an operator leaves fewer bytes. -/
theorem step_rest_lt {s s' : Session} {tokens : List Token} (h : s.step = (.sequence tokens, s')) :
    s'.cursor.rest.length < s.cursor.rest.length := by
  unfold step at h
  cases hp : s.phase with
  | ended ending unfinished => simp [hp] at h
  | scanning =>
    simp only [hp] at h
    split at h
    · rename_i hnone
      cases h
      refine Nat.lt_of_lt_of_le (pass_rest_lt hnone) ?_
      simp [Cursor.skipWhile]
    · cases h

end Session

/-- A session that was stepped until its end. -/
structure Transcript where
  /-- The tokens of each complete operator. -/
  sequences : List (List Token)
  /-- How the session ended. -/
  ending : Ending
  /-- The session after its end. -/
  session : Session

namespace Transcript

/-- Every token of a transcript, those of an unfinished operator and the end of the job included. -/
def tokens (t : Transcript) : List Token :=
  t.sequences.flatten ++ t.session.unfinished ++ t.ending.tokens

end Transcript

namespace Session

/-- Step a session until its end. The sequences that were read before stand in `earlier`, the last
one first. -/
def runAfter (earlier : List (List Token)) (s : Session) : Transcript :=
  match _h : s.step with
  | (.ended ending, s') => ⟨earlier.reverse, ending, s'⟩
  | (.sequence tokens, s') => runAfter (tokens :: earlier) s'
termination_by s.cursor.rest.length
decreasing_by exact step_rest_lt _h

/-- Step a session until its end. -/
def run (s : Session) : Transcript :=
  runAfter [] s

theorem runAfter_eq (earlier : List (List Token)) (s : Session) :
    runAfter earlier s = { run s with sequences := earlier.reverse ++ (run s).sequences } := by
  induction hn : s.cursor.rest.length using Nat.strongRecOn generalizing earlier s with
  | _ n ih =>
    subst hn
    cases hs : s.step with
    | mk result s' =>
      unfold run
      rw [runAfter, runAfter.eq_def [] s, hs]
      cases result with
      | ended ending => simp
      | sequence tokens =>
        have less := step_rest_lt hs
        simp only [ih _ less (tokens :: earlier) s' rfl, ih _ less [tokens] s' rfl]
        simp

/-- A session whose next step ends it leaves an empty transcript. -/
theorem run_of_ended {s s' : Session} {ending : Ending} (h : s.step = (.ended ending, s')) :
    s.run = ⟨[], ending, s'⟩ := by
  rw [run, runAfter, h]
  rfl

/-- The transcript starts with the tokens of the next step. -/
theorem run_of_sequence {s s' : Session} {tokens : List Token}
    (h : s.step = (.sequence tokens, s')) :
    s.run = { s'.run with sequences := tokens :: s'.run.sequences } := by
  rw [run, runAfter, h]
  exact runAfter_eq [tokens] s'

end Session

end PclXl
