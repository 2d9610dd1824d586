import PclXl.Proofs.WrittenForm

/-!
# Scanned reads

How far a cursor moves, and what the readers of the grammar check on the way: they give a result
exactly where its bytes stand and the job-end marker starts at none of them. Every read here is
described by one equivalence, so that later proofs need not open it.
-/

namespace PclXl

namespace Cursor

/-- A cursor is determined by its stream and its position. -/
theorem eq_of_position {c d : Cursor} (hdata : c.data = d.data) (horder : c.order = d.order)
    (hbase : c.base = d.base) (hposition : c.position = d.position) : c = d := by
  have hrest : c.rest = d.rest := by rw [c.rest_eq, d.rest_eq, hdata, hposition]
  cases c
  cases d
  simp_all

@[simp] theorem advance_zero (c : Cursor) : c.advance 0 = c :=
  eq_of_position rfl rfl rfl (by simp [advance])

/-- Moving on twice is moving on by the sum. -/
theorem advance_advance (c : Cursor) (m n : Nat) :
    (c.advance m).advance n = c.advance (m + n) := by
  refine eq_of_position rfl rfl rfl ?_
  simp only [advance, List.length_take, List.length_drop]
  omega

/-- The job-end marker starts at none of the next `n` bytes. -/
def Clear (c : Cursor) (n : Nat) : Prop :=
  ∀ i < n, ¬ jobEndMarker <+: c.rest.drop i

/-- No marker starts among no bytes. -/
theorem clear_zero (c : Cursor) : c.Clear 0 := by
  intro i hi
  omega

/-- Where no marker starts, none starts in a part of it. -/
theorem Clear.mono {c : Cursor} {m n : Nat} (h : c.Clear n) (hle : m ≤ n) : c.Clear m := by
  intro i hi
  exact h i (by omega)

/-- A stretch is clear if both of its parts are. -/
theorem clear_add {c : Cursor} {m n : Nat} :
    c.Clear (m + n) ↔ c.Clear m ∧ (c.advance m).Clear n := by
  constructor
  · intro h
    refine ⟨h.mono (by omega), fun i hi => ?_⟩
    have hm := h (m + i) (by omega)
    rwa [rest_advance, List.drop_drop]
  · rintro ⟨hm, hn⟩ i hi
    by_cases hlt : i < m
    · exact hm i hlt
    · have hni := hn (i - m) (by omega)
      rw [rest_advance, List.drop_drop] at hni
      have he : m + (i - m) = i := by omega
      rwa [he] at hni

/-- No marker starts behind the end. -/
theorem clear_iff_of_length_le {c : Cursor} {n : Nat} :
    c.Clear n ↔ ∀ i < n, i < c.rest.length → ¬ jobEndMarker <+: c.rest.drop i := by
  constructor
  · intro h i hi _
    exact h i hi
  · intro h i hi
    by_cases hlt : i < c.rest.length
    · exact h i hi hlt
    · rw [List.drop_eq_nil_iff.2 (by omega)]
      simp [jobEndMarker]

/-- The next bytes are `bs`, and the job-end marker starts at none of them. -/
def Holds (c : Cursor) (bs : List UInt8) : Prop :=
  bs <+: c.rest ∧ c.Clear bs.length

/-- A cursor always holds no bytes. -/
theorem holds_nil (c : Cursor) : c.Holds [] :=
  ⟨List.nil_prefix, c.clear_zero⟩

/-- The bytes that a cursor holds are there. -/
theorem Holds.length_le {c : Cursor} {bs : List UInt8} (h : c.Holds bs) :
    bs.length ≤ c.rest.length :=
  h.1.length_le

/-- A list starts with two lists in turn if it starts with the first and goes on with the second. -/
theorem append_prefix_iff {as bs cs : List UInt8} :
    as ++ bs <+: cs ↔ as <+: cs ∧ bs <+: cs.drop as.length := by
  constructor
  · rintro ⟨tail, rfl⟩
    refine ⟨⟨bs ++ tail, by rw [List.append_assoc]⟩, tail, ?_⟩
    rw [List.append_assoc, List.drop_left]
  · rintro ⟨⟨rest, rfl⟩, tail, h⟩
    rw [List.drop_left] at h
    exact ⟨tail, by rw [List.append_assoc, h]⟩

/-- Lists that start alike have the same first elements. -/
theorem take_eq_of_le {as bs : List UInt8} {m n : Nat} (h : as.take n = bs.take n) (hle : m ≤ n) :
    as.take m = bs.take m := by
  have htake := congrArg (List.take m) h
  rw [List.take_take, List.take_take, Nat.min_eq_left hle] at htake
  exact htake

/-- Whether bytes stand at a place is settled by the bytes up to their end. -/
theorem prefix_drop_iff_of_take_eq {as bs xs : List UInt8} {i n : Nat} (h : as.take n = bs.take n)
    (hn : i + xs.length ≤ n) : xs <+: as.drop i ↔ xs <+: bs.drop i := by
  have htake : (as.drop i).take xs.length = (bs.drop i).take xs.length := by
    have hdrop := congrArg (List.take xs.length) (congrArg (List.drop i) h)
    rw [List.drop_take, List.drop_take, List.take_take, List.take_take,
      Nat.min_eq_left (by omega)] at hdrop
    exact hdrop
  rw [List.prefix_iff_eq_take, List.prefix_iff_eq_take, htake]

/-- Bytes that follow each other are held one behind the other. -/
theorem holds_append {c : Cursor} {as bs : List UInt8} :
    c.Holds (as ++ bs) ↔ c.Holds as ∧ (c.advance as.length).Holds bs := by
  unfold Holds
  rw [append_prefix_iff, List.length_append, clear_add, rest_advance]
  constructor
  · rintro ⟨⟨ha, hb⟩, hca, hcb⟩
    exact ⟨⟨ha, hca⟩, hb, hcb⟩
  · rintro ⟨⟨ha, hca⟩, hb, hcb⟩
    exact ⟨⟨ha, hb⟩, hca, hcb⟩

/-- A cursor holds bytes if it holds the first one and, a byte on, the others. -/
theorem holds_cons {c : Cursor} {b : UInt8} {bs : List UInt8} :
    c.Holds (b :: bs) ↔ c.Holds [b] ∧ (c.advance 1).Holds bs :=
  @holds_append c [b] bs

/-- The first of the bytes that a cursor holds is the next byte. -/
theorem Holds.head? {c : Cursor} {b : UInt8} {bs : List UInt8} (h : c.Holds (b :: bs)) :
    c.rest.head? = some b := by
  obtain ⟨⟨tail, htail⟩, -⟩ := h
  rw [← htail]
  rfl

/-- The file offset behind bytes that are held. -/
theorem Holds.fileOffset {c : Cursor} {bs : List UInt8} (h : c.Holds bs) :
    (c.advance bs.length).fileOffset = c.fileOffset + bs.length :=
  fileOffset_advance h.length_le

/-- No byte of white space starts the marker. -/
theorem clear_of_blank {c : Cursor} {ws : List UInt8} (hws : ws <+: c.rest)
    (hblank : ∀ b ∈ ws, Reader.isWhiteSpace b = true) : c.Clear ws.length := by
  intro i hi hmarker
  obtain ⟨tail, htail⟩ := hmarker
  obtain ⟨rest, hrest⟩ := hws
  have hb := hblank ws[i] (List.getElem_mem hi)
  have hdrop : c.rest.drop i = ws[i] :: (ws.drop (i + 1) ++ rest) := by
    rw [← hrest, List.drop_append_of_le_length (by omega), List.drop_eq_getElem_cons hi,
      List.cons_append]
  rw [hdrop] at htail
  have hesc : ws[i] = 0x1B := (List.cons.inj htail).1.symm
  rw [hesc] at hb
  exact absurd hb (by decide)

/-- The byte behind those that a scan takes does not satisfy the test. -/
theorem not_of_head?_takeWhile {bs : List UInt8} {p : UInt8 → Bool} :
    ∀ b ∈ (bs.drop (bs.takeWhile p).length).head?, p b = false := by
  intro b hb
  have hsplit : bs.takeWhile p ++ bs.dropWhile p = bs := List.takeWhile_append_dropWhile
  have hdrop := @List.drop_left _ (bs.takeWhile p) (bs.dropWhile p)
  rw [hsplit] at hdrop
  have hnot := List.head?_dropWhile_not p bs
  rw [hdrop] at hb
  rw [hb] at hnot
  simpa using hnot

/-- The white space at a cursor is held, and a byte that is none follows or the end. -/
theorem exists_space (c : Cursor) : ∃ s : Space, c.Holds s.bytes ∧
    c.skipWhile Reader.isWhiteSpace = c.advance s.bytes.length ∧
    ∀ b ∈ (c.rest.drop s.bytes.length).head?, Reader.isWhiteSpace b = false := by
  have hpre := List.takeWhile_prefix (l := c.rest) Reader.isWhiteSpace
  have hblank : ∀ b ∈ c.rest.takeWhile Reader.isWhiteSpace, Reader.isWhiteSpace b = true :=
    List.all_eq_true.1 List.all_takeWhile
  exact ⟨⟨c.rest.takeWhile Reader.isWhiteSpace, hblank⟩, ⟨hpre, clear_of_blank hpre hblank⟩, rfl,
    not_of_head?_takeWhile⟩

/-- Bytes that satisfy a test in front of one that does not are those that a scan takes. -/
theorem takeWhile_eq {bs ws : List UInt8} {p : UInt8 → Bool} (hws : ws <+: bs)
    (hp : ∀ b ∈ ws, p b = true) (hnot : ∀ b ∈ (bs.drop ws.length).head?, p b = false) :
    bs.takeWhile p = ws := by
  obtain ⟨rest, hrest⟩ := hws
  rw [← hrest, List.drop_left] at hnot
  rw [← hrest, List.takeWhile_append_of_pos hp]
  cases rest with
  | nil => simp
  | cons b bs =>
    have hb := hnot b rfl
    rw [List.takeWhile_cons_of_neg (by simp [hb]), List.append_nil]

/-- A cursor moves over bytes that satisfy a test if the byte behind them does not. -/
theorem skipWhile_eq {c : Cursor} {p : UInt8 → Bool} {ws : List UInt8} (hws : ws <+: c.rest)
    (hp : ∀ b ∈ ws, p b = true) (hnot : ∀ b ∈ (c.rest.drop ws.length).head?, p b = false) :
    c.skipWhile p = c.advance ws.length := by
  rw [skipWhile, takeWhile_eq hws hp hnot]

end Cursor

namespace Reader

open Cursor

theorem get_eq_ok_iff {c c' d : Cursor} : (get : Reader Cursor) c = .ok d c' ↔ d = c ∧ c' = c := by
  change EStateM.Result.ok c c = .ok d c' ↔ _
  simp only [EStateM.Result.ok.injEq]
  constructor
  · rintro ⟨rfl, rfl⟩
    exact ⟨rfl, rfl⟩
  · rintro ⟨rfl, rfl⟩
    exact ⟨rfl, rfl⟩

/-- Asking for the place gives it and leaves the cursor. -/
theorem fileOffset_eq_ok_iff {c c' : Cursor} {offset : Nat} :
    fileOffset c = .ok offset c' ↔ offset = c.fileOffset ∧ c' = c := by
  unfold fileOffset
  rw [bind_eq_ok_iff]
  constructor
  · rintro ⟨d, c₁, hget, hpure⟩
    obtain ⟨rfl, rfl⟩ := get_eq_ok_iff.1 hget
    obtain ⟨rfl, rfl⟩ := pure_eq_ok_iff.1 hpure
    exact ⟨rfl, rfl⟩
  · rintro ⟨rfl, rfl⟩
    exact ⟨c', c', get_eq_ok_iff.2 ⟨rfl, rfl⟩, pure_eq_ok_iff.2 ⟨rfl, rfl⟩⟩

/-- A failure is no result. -/
theorem fail_ne_ok {α : Type} {fault : Fault} {c c' : Cursor} {a : α} :
    (fail fault : Reader α) c ≠ .ok a c' := by
  intro h
  cases h

/-- Looking for a marker goes on where none starts in the next bytes. -/
theorem stopAtJobEnd_eq_ok_iff {n : Nat} {c c' : Cursor} {u : Unit} :
    stopAtJobEnd n c = .ok u c' ↔ c.Clear n ∧ c' = c := by
  have hclear : Bytes.firstWithin? jobEndMarker n c.rest = none ↔ c.Clear n := by
    rw [clear_iff_of_length_le]
    exact Bytes.firstWithin?_eq_none_iff
  unfold stopAtJobEnd jobEndWithin?
  cases hfirst : Bytes.firstWithin? jobEndMarker n c.rest with
  | none =>
    have hc := hclear.1 hfirst
    simp only [EStateM.Result.ok.injEq]
    constructor
    · rintro ⟨-, rfl⟩
      exact ⟨hc, rfl⟩
    · rintro ⟨-, rfl⟩
      exact ⟨trivial, rfl⟩
  | some i =>
    have hc : ¬ c.Clear n := by
      rw [← hclear, hfirst]
      simp
    simp only [reduceCtorEq, false_iff]
    exact fun h => hc h.1

/-- Raw bytes are read exactly where there are enough of them. -/
theorem takeRaw_eq_ok_iff {n : Nat} {c c' : Cursor} {bs : List UInt8} :
    takeRaw n c = .ok bs c' ↔ bs.length = n ∧ bs <+: c.rest ∧ c' = c.advance n := by
  simp only [takeRaw]
  by_cases hlt : (c.rest.take n).length < n
  · rw [if_pos hlt]
    simp only [reduceCtorEq, false_iff]
    rintro ⟨hlen, hpre, -⟩
    have hle := hpre.length_le
    rw [List.length_take] at hlt
    omega
  · rw [if_neg hlt]
    have hlen : (c.rest.take n).length = n := by
      have hle := List.length_take_le n c.rest
      omega
    simp only [EStateM.Result.ok.injEq]
    constructor
    · rintro ⟨rfl, rfl⟩
      exact ⟨hlen, List.take_prefix n c.rest, rfl⟩
    · rintro ⟨rfl, hpre, rfl⟩
      exact ⟨(List.prefix_iff_eq_take.1 hpre).symm, rfl⟩

/-- Bytes of the grammar are read exactly where they are held. -/
theorem take_eq_ok_iff {n : Nat} {c c' : Cursor} {bs : List UInt8} :
    take n c = .ok bs c' ↔ bs.length = n ∧ c.Holds bs ∧ c' = c.advance n := by
  unfold take
  rw [bind_eq_ok_iff]
  constructor
  · rintro ⟨u, d, hstop, hraw⟩
    obtain ⟨hclear, rfl⟩ := stopAtJobEnd_eq_ok_iff.1 hstop
    obtain ⟨rfl, hpre, rfl⟩ := takeRaw_eq_ok_iff.1 hraw
    exact ⟨rfl, ⟨hpre, hclear⟩, rfl⟩
  · rintro ⟨rfl, ⟨hpre, hclear⟩, rfl⟩
    exact ⟨(), c, stopAtJobEnd_eq_ok_iff.2 ⟨hclear, rfl⟩, takeRaw_eq_ok_iff.2 ⟨rfl, hpre, rfl⟩⟩

/-- A byte is seen exactly where it is held. -/
theorem peek_eq_ok_iff {c c' : Cursor} {b : UInt8} :
    peek c = .ok b c' ↔ c.Holds [b] ∧ c' = c := by
  have hmarker : c.atJobEnd = true ↔ ¬ c.Clear 1 := by
    rw [atJobEnd, List.isPrefixOf_iff_prefix]
    constructor
    · intro h hclear
      exact hclear 0 (by omega) h
    · intro h
      refine Classical.byContradiction fun hnot => h fun i hi => ?_
      have hi : i = 0 := by omega
      rwa [hi]
  unfold peek
  split
  · rename_i h
    simp only [reduceCtorEq, false_iff]
    exact fun hb => hmarker.1 h hb.1.2
  · rename_i h
    have hclear : c.Clear 1 := Classical.byContradiction fun hnot => h (hmarker.2 hnot)
    cases hrest : c.rest with
    | nil =>
      simp only [reduceCtorEq, false_iff]
      rintro ⟨⟨hpre, -⟩, -⟩
      rw [hrest] at hpre
      exact absurd hpre.length_le (by simp)
    | cons d ds =>
      simp only [EStateM.Result.ok.injEq]
      constructor
      · rintro ⟨rfl, rfl⟩
        exact ⟨⟨⟨ds, by rw [hrest]; rfl⟩, hclear⟩, rfl⟩
      · rintro ⟨hholds, rfl⟩
        have hhead := hholds.head?
        rw [hrest] at hhead
        exact ⟨Option.some.inj hhead, rfl⟩

/-- An unsigned number is read exactly where its bytes are held. -/
theorem word_eq_ok_iff {width n : Nat} {c c' : Cursor} :
    word width c = .ok n c' ↔
      n < ByteOrder.limit width ∧ c.Holds (c.order.bytes width n) ∧ c' = c.advance width := by
  unfold word
  rw [bind_eq_ok_iff]
  constructor
  · rintro ⟨bs, d, htake, hvalue⟩
    obtain ⟨rfl, hholds, rfl⟩ := take_eq_ok_iff.1 htake
    obtain ⟨e, d, hget, hpure⟩ := bind_eq_ok_iff.1 hvalue
    obtain ⟨rfl, rfl⟩ := get_eq_ok_iff.1 hget
    obtain ⟨rfl, rfl⟩ := pure_eq_ok_iff.1 hpure
    rw [order_advance]
    refine ⟨c.order.value_lt bs, ?_, rfl⟩
    rwa [ByteOrder.bytes_value]
  · rintro ⟨hn, hholds, rfl⟩
    refine ⟨c.order.bytes width n, c.advance width,
      take_eq_ok_iff.2 ⟨ByteOrder.length_bytes _ _ _, hholds, rfl⟩, ?_⟩
    refine bind_eq_ok_iff.2 ⟨_, _, get_eq_ok_iff.2 ⟨rfl, rfl⟩, pure_eq_ok_iff.2 ⟨?_, rfl⟩⟩
    exact c.order.value_bytes hn

/-- A byte is read where the cursor holds it. -/
theorem byte_eq_ok_iff {b : UInt8} {c c' : Cursor} :
    byte c = .ok b c' ↔ c.Holds [b] ∧ c' = c.advance 1 := by
  unfold byte
  rw [bind_eq_ok_iff]
  constructor
  · rintro ⟨n, d, hword, hpure⟩
    obtain ⟨hn, hholds, rfl⟩ := word_eq_ok_iff.1 hword
    obtain ⟨rfl, rfl⟩ := pure_eq_ok_iff.1 hpure
    have hlt : n < 256 := hn
    have hb : (UInt8.ofNat n).toNat = n := by
      rw [UInt8.toNat_ofNat']
      omega
    rw [← hb, ByteOrder.bytes_one] at hholds
    exact ⟨hholds, rfl⟩
  · rintro ⟨hholds, rfl⟩
    refine ⟨b.toNat, c.advance 1, word_eq_ok_iff.2 ⟨b.toNat_lt, ?_, rfl⟩,
      pure_eq_ok_iff.2 ⟨UInt8.ofNat_toNat, rfl⟩⟩
    rwa [ByteOrder.bytes_one]

/-- A number of a type is read exactly where its bytes are held. -/
theorem number_eq_ok_iff {t : ElementType} {x : Number} {c c' : Cursor} :
    number t c = .ok x c' ↔
      x.elementType = t ∧ c.Holds (x.bytes c.order) ∧ c' = c.advance (x.bytes c.order).length := by
  unfold number
  rw [bind_eq_ok_iff]
  constructor
  · rintro ⟨n, d, hword, hpure⟩
    obtain ⟨hn, hholds, rfl⟩ := word_eq_ok_iff.1 hword
    obtain ⟨rfl, rfl⟩ := pure_eq_ok_iff.1 hpure
    have hbytes : (Number.ofWord t n).bytes c.order = c.order.bytes t.width n := by
      rw [Number.bytes, Number.elementType_ofWord, Number.word_ofWord hn]
    rw [hbytes, ByteOrder.length_bytes]
    exact ⟨Number.elementType_ofWord t n, hholds, rfl⟩
  · rintro ⟨rfl, hholds, rfl⟩
    rw [Number.length_bytes]
    exact ⟨x.word, _, word_eq_ok_iff.2 ⟨x.word_lt, hholds, rfl⟩,
      pure_eq_ok_iff.2 ⟨Number.ofWord_word x, rfl⟩⟩

/-- Numbers of a type are read exactly where their bytes are held one behind the other. -/
theorem numbers_eq_ok_iff {t : ElementType} {n : Nat} {xs : List Number} {c c' : Cursor} :
    numbers t n c = .ok xs c' ↔ xs.length = n ∧ (∀ x ∈ xs, x.elementType = t) ∧
      c.Holds (xs.flatMap (·.bytes c.order)) ∧
      c' = c.advance (xs.flatMap (·.bytes c.order)).length := by
  induction n generalizing xs c with
  | zero =>
    rw [numbers, pure_eq_ok_iff]
    constructor
    · rintro ⟨rfl, rfl⟩
      exact ⟨rfl, by simp, c.holds_nil, (advance_zero c).symm⟩
    · rintro ⟨hlen, -, -, rfl⟩
      obtain rfl := List.length_eq_zero_iff.1 hlen
      exact ⟨rfl, (advance_zero c).symm⟩
  | succ n ih =>
    rw [numbers, bind_eq_ok_iff]
    constructor
    · rintro ⟨x, d, hx, hrest⟩
      obtain ⟨htype, hholds, rfl⟩ := number_eq_ok_iff.1 hx
      obtain ⟨ys, e, hys, hpure⟩ := bind_eq_ok_iff.1 hrest
      obtain ⟨rfl, rfl⟩ := pure_eq_ok_iff.1 hpure
      obtain ⟨rfl, hall, hholds', rfl⟩ := ih.1 hys
      refine ⟨rfl, ?_, ?_, ?_⟩
      · intro y hy
        rcases List.mem_cons.1 hy with rfl | hy
        · exact htype
        · exact hall y hy
      · rw [List.flatMap_cons]
        exact holds_append.2 ⟨hholds, hholds'⟩
      · rw [List.flatMap_cons, List.length_append, advance_advance, order_advance]
    · rintro ⟨hlen, hall, hholds, rfl⟩
      cases xs with
      | nil => simp at hlen
      | cons x xs =>
        rw [List.flatMap_cons] at hholds
        obtain ⟨hx, hxs⟩ := holds_append.1 hholds
        refine ⟨x, _, number_eq_ok_iff.2 ⟨hall x (by simp), hx, rfl⟩, ?_⟩
        refine bind_eq_ok_iff.2 ⟨xs, _, ih.2 ⟨by simpa using hlen,
          fun y hy => hall y (by simp [hy]), hxs, ?_⟩, pure_eq_ok_iff.2 ⟨rfl, rfl⟩⟩
        rw [advance_advance, List.flatMap_cons, List.length_append, order_advance]

end Reader

end PclXl
