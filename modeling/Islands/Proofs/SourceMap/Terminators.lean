import Mathlib.Data.List.Induction
import Islands.Proofs.SourceMap.Positions

/-!
# Line terminators

The position of an offset by a plain scan of the text (`scannedPosition`): the line is the number of
line terminators that end up to the offset, and the column the number of code units behind the last
one. A terminator ends behind each character that ends a line (`terminatorEnds_iff`), so one more
character adds at most one terminator (`terminatorsUpTo_concat`), and the scan gives the position of
every place (`positionIn_eq_scannedPosition`). The builder of a source map, which searches a table
of line starts and counts bytes where it can, gives the same (`position_eq_scannedPosition`).
-/

namespace Islands

/-! ## Terminators -/

/-- A line terminator between two parts of a text: a line feed, a carriage return, or both in this
order, which are one. -/
inductive Terminator (front rest : List Char) : List Char → Prop
  | pair : Terminator front rest ['\r', '\n']
  | lineFeed (h : front.getLast? ≠ some '\r') : Terminator front rest ['\n']
  | carriageReturn (h : rest.head? ≠ some '\n') : Terminator front rest ['\r']

/-- Whether a line terminator of a text ends at an offset. -/
def TerminatorEnds (source : List Char) (offset : Nat) : Prop :=
  ∃ front t rest, source = front ++ (t ++ rest) ∧ Terminator front rest t ∧
    byteLength (front ++ t) = offset

/-- **A terminator ends** behind each character that ends a line. -/
theorem terminatorEnds_iff {source : List Char} {offset : Nat} :
    TerminatorEnds source offset ↔ isBoundary offset source = true ∧
      ∃ c ∈ (takeBytes offset source).getLast?, EndsLine c (dropBytes offset source) := by
  constructor
  · rintro ⟨front, t, rest, rfl, ht, rfl⟩
    rw [← List.append_assoc, takeBytes_append, dropBytes_append]
    refine ⟨isBoundary_byteLength _ _, ?_⟩
    cases ht with
    | pair => exact ⟨'\n', by simp, .inl rfl⟩
    | lineFeed _ => exact ⟨'\n', by simp, .inl rfl⟩
    | carriageReturn h => exact ⟨'\r', by simp, .inr ⟨rfl, h⟩⟩
  · rintro ⟨hboundary, c, hc, hends⟩
    obtain ⟨a, rest, rfl, rfl⟩ := isBoundary_iff.1 hboundary
    rw [takeBytes_append] at hc
    rw [dropBytes_append] at hends
    obtain ⟨front, rfl⟩ := List.getLast?_eq_some_iff.1 hc
    rcases hends with rfl | ⟨rfl, hrest⟩
    · by_cases hreturn : front.getLast? = some '\r'
      · -- the line feed is the second half of a terminator
        obtain ⟨front, rfl⟩ := List.getLast?_eq_some_iff.1 hreturn
        exact ⟨front, ['\r', '\n'], rest, by simp, .pair, by simp⟩
      · exact ⟨front, ['\n'], rest, by simp, .lineFeed hreturn, rfl⟩
    · exact ⟨front, ['\r'], rest, by simp, .carriageReturn hrest, rfl⟩

instance (source : List Char) (offset : Nat) : Decidable (TerminatorEnds source offset) :=
  -- only the last character is looked at, not every one there is
  haveI : Decidable
      (∃ c ∈ (takeBytes offset source).getLast?, EndsLine c (dropBytes offset source)) :=
    Option.decidableExistsMem _
  decidable_of_iff _ terminatorEnds_iff.symm

/-- The ends of the line terminators of a text up to an offset, in order. -/
def terminatorsUpTo (source : List Char) (offset : Nat) : List Nat :=
  (List.range (offset + 1)).filter fun n => TerminatorEnds source n

/-- The position of an offset, found by counting the line terminators up to it and the code units
behind the last one. -/
def scannedPosition (source : List Char) (offset : Nat) : Position :=
  let ends := terminatorsUpTo source offset
  ⟨ends.length, units16 (Span.cut ⟨ends.getLastD 0, offset⟩ source)⟩

/-! ## The scan -/

section
variable {a b : List Char} {c : Char}

/-- Whether a terminator ends at a place is to be seen from the character in front of it. -/
theorem terminatorEnds_concat_iff :
    TerminatorEnds (a ++ c :: b) (byteLength (a ++ [c])) ↔ EndsLine c b := by
  rw [terminatorEnds_iff, List.append_cons a c b, takeBytes_append, dropBytes_append,
    List.getLast?_concat]
  constructor
  · rintro ⟨-, d, hd, hends⟩
    obtain rfl := Option.some.inj hd
    exact hends
  · intro h
    exact ⟨isBoundary_byteLength _ b, c, rfl, h⟩

theorem not_terminatorEnds_within {n : Nat} (hlt : byteLength a < n)
    (hlt' : n < byteLength (a ++ [c])) : ¬TerminatorEnds (a ++ c :: b) n := by
  intro h
  rcases le_or_le_of_isBoundary (terminatorEnds_iff.1 h).1 with hle | hle <;> omega

theorem terminatorsUpTo_zero (source : List Char) : terminatorsUpTo source 0 = [] := by
  have hzero : ¬TerminatorEnds source 0 := by
    rw [terminatorEnds_iff]
    simp [takeBytes]
  simp [terminatorsUpTo, hzero]

/-- **One more character** adds a terminator just if it ends a line. -/
theorem terminatorsUpTo_concat :
    terminatorsUpTo (a ++ c :: b) (byteLength (a ++ [c])) =
      terminatorsUpTo (a ++ c :: b) (byteLength a) ++
        if EndsLine c b then [byteLength (a ++ [c])] else [] := by
  obtain ⟨k, hk⟩ : ∃ k, c.utf8Size = k + 1 :=
    ⟨c.utf8Size - 1, by have := Char.utf8Size_pos c; omega⟩
  have hend : byteLength (a ++ [c]) = byteLength a + 1 + k := by
    rw [byteLength_append, byteLength_cons, byteLength_nil]
    omega
  have hrange : List.range (byteLength (a ++ [c]) + 1) = List.range (byteLength a + 1) ++
      ((List.range k).map (byteLength a + 1 + ·) ++ [byteLength (a ++ [c])]) := by
    rw [hend, List.range_succ, List.range_add, List.append_assoc]
  have hwithin : ((List.range k).map (byteLength a + 1 + ·)).filter
      (fun n => TerminatorEnds (a ++ c :: b) n) = [] := by
    rw [List.filter_eq_nil_iff]
    intro n hn
    obtain ⟨i, hi, rfl⟩ := List.mem_map.1 hn
    have hlt := List.mem_range.1 hi
    rw [decide_eq_true_eq]
    exact not_terminatorEnds_within (by omega) (by omega)
  rw [terminatorsUpTo, hrange, List.filter_append, List.filter_append, hwithin, List.nil_append]
  simp only [List.filter_cons, List.filter_nil, decide_eq_true_eq, terminatorEnds_concat_iff]
  rfl

/-- The scan at a place: the last terminator divides what stands in front of it, and the second
part is on the line of the place. -/
theorem exists_lastTerminator (a b : List Char) :
    ∃ u v, a = u ++ v ∧ (terminatorsUpTo (a ++ b) (byteLength a)).getLastD 0 = byteLength u ∧
      positionIn a b = ⟨(terminatorsUpTo (a ++ b) (byteLength a)).length, units16 v⟩ := by
  induction a using List.reverseRecOn generalizing b with
  | nil =>
    rw [byteLength_nil, terminatorsUpTo_zero]
    exact ⟨[], [], rfl, rfl, rfl⟩
  | append_singleton a c ih =>
    obtain ⟨u, v, rfl, hlast, hposition⟩ := ih (c :: b)
    have hnext : positionIn (u ++ v ++ [c]) b = (positionIn (u ++ v) (c :: b)).behind c b :=
      positionIn_append _ _ _
    rw [List.append_assoc (u ++ v), List.singleton_append, terminatorsUpTo_concat, hnext, hposition]
    by_cases hends : EndsLine c b
    · rw [if_pos hends, Position.behind_of_endsLine _ hends]
      exact ⟨u ++ v ++ [c], [], by simp, by simp, by simp [units16]⟩
    · rw [if_neg hends, Position.behind_of_not_endsLine _ hends, List.append_nil]
      exact ⟨u, v ++ [c], by simp, hlast, by rw [units16_append]⟩

end

/-- **The scan** gives the position of every place. -/
theorem positionIn_eq_scannedPosition (a b : List Char) :
    positionIn a b = scannedPosition (a ++ b) (byteLength a) := by
  obtain ⟨u, v, rfl, hlast, hposition⟩ := exists_lastTerminator a b
  rw [hposition, scannedPosition]
  show _ = (⟨_, units16 (Span.cut ⟨List.getLastD _ 0, byteLength (u ++ v)⟩ _)⟩ : Position)
  rw [hlast, byteLength_append, List.append_assoc, Span.cut_append]

/-! ## The builder -/

namespace MapBuilder

/-- **The table of a builder** gives the position that a plain scan of its source gives: as many
lines as terminators end up to the offset, and as many columns as code units stand behind the last
one. -/
theorem position_eq_scannedPosition (path source : String) {offset : Nat}
    (h : isBoundary offset source.toList = true) :
    (ofSource path source).lines.position offset = scannedPosition source.toList offset := by
  obtain ⟨a, b, hsource, rfl⟩ := isBoundary_iff.1 h
  rw [ofSource, hsource, LineIndex.position_ofText, positionIn_eq_scannedPosition]

/-- A place between a carriage return and its line feed, one behind a carriage return alone, and the
end of a line with a character of four bytes. -/
theorem position_eq_scannedPosition_mixed :
    let source := String.ofList ['é', '\r', '\n', 'a', '\r', '😀', 'x']
    let lines := (ofSource "a.vue" source).lines
    isBoundary 3 source.toList = true ∧ lines.position 3 = ⟨0, 2⟩ ∧
      isBoundary 6 source.toList = true ∧ lines.position 6 = ⟨2, 0⟩ ∧
      isBoundary 11 source.toList = true ∧ lines.position 11 = ⟨2, 3⟩ := by
  intro source lines
  have hwithin : isBoundary 3 source.toList = true := by decide
  have hstart : isBoundary 6 source.toList = true := by decide
  have hend : isBoundary 11 source.toList = true := by decide
  refine ⟨hwithin, ?_, hstart, ?_, hend, ?_⟩
  · exact (position_eq_scannedPosition "a.vue" source hwithin).trans (by decide)
  · exact (position_eq_scannedPosition "a.vue" source hstart).trans (by decide)
  · exact (position_eq_scannedPosition "a.vue" source hend).trans (by decide)

end MapBuilder

end Islands
