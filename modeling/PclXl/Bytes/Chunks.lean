/-!
# Chunks

Bytes are cut into chunks of equal length, in order; only the last chunk may be shorter, and none is
empty. A length of zero counts as one.
-/

namespace PclXl.Bytes

/-- The chunks of length `n`, behind those that were cut off before, the last one of them first. -/
def chunksAfter (earlier : List (List UInt8)) (n : Nat) : List UInt8 → List (List UInt8)
  | [] => earlier.reverse
  | b :: bs => chunksAfter ((b :: bs.take (n - 1)) :: earlier) n (bs.drop (n - 1))
termination_by bs => bs.length
decreasing_by simp only [List.length_drop, List.length_cons]; omega

/-- The chunks of length `n`. -/
def chunks (n : Nat) (bs : List UInt8) : List (List UInt8) :=
  chunksAfter [] n bs

theorem chunksAfter_eq (earlier : List (List UInt8)) (n : Nat) (bs : List UInt8) :
    chunksAfter earlier n bs = earlier.reverse ++ chunks n bs := by
  induction hn : bs.length using Nat.strongRecOn generalizing earlier bs with
  | _ length ih =>
    subst hn
    cases bs with
    | nil => simp [chunks, chunksAfter]
    | cons b bs =>
      have shorter : (bs.drop (n - 1)).length < (b :: bs).length := by
        simp only [List.length_drop, List.length_cons]
        omega
      change _ = earlier.reverse ++ chunksAfter [] n (b :: bs)
      rw [chunksAfter, chunksAfter, ih _ shorter _ _ rfl, ih _ shorter [_] _ rfl]
      simp

@[simp] theorem chunks_nil (n : Nat) : chunks n [] = [] := by
  simp [chunks, chunksAfter]

theorem chunks_cons (n : Nat) (b : UInt8) (bs : List UInt8) :
    chunks n (b :: bs) = (b :: bs.take (n - 1)) :: chunks n (bs.drop (n - 1)) := by
  rw [chunks, chunksAfter, chunksAfter_eq]
  rfl

/-- The chunks together are the bytes. -/
theorem flatten_chunks (n : Nat) (bs : List UInt8) : (chunks n bs).flatten = bs := by
  induction hn : bs.length using Nat.strongRecOn generalizing bs with
  | _ length ih =>
    subst hn
    cases bs with
    | nil => simp
    | cons b bs =>
      have shorter : (bs.drop (n - 1)).length < (b :: bs).length := by
        simp only [List.length_drop, List.length_cons]
        omega
      rw [chunks_cons, List.flatten_cons, ih _ shorter _ rfl, List.cons_append,
        List.take_append_drop]

end PclXl.Bytes
