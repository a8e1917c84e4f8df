import Mathlib.Data.List.Basic
import Islands.Proofs.SourceMap.LineSearch
import Islands.SourceMap.Builder

/-!
# Positions in a text

The position of a place in a text is defined character by character (`positionIn`): behind a
character that ends a line it is the start of the next line, and otherwise that many code units
further on. A carriage return in front of a line feed does not end a line, so the position depends
on what stands behind the place.

* `before_through`: a position behind some text is behind the one in front of it.
* `through_eq_of_line`: within one line the column is counted on.
* `exists_lines`: the line starts in front of a place, and what stands behind the last of them.
* `pairwise_linesWithin`: the lines of a text start at ever later offsets.
* `position_ofText`: the table of lines, searched by bisection, gives the position of an offset.
-/

namespace Islands

/-! ## Positions -/

/-- Whether a character ends a line, in front of some text: a line feed does, and a carriage return
that no line feed follows. -/
def EndsLine (c : Char) (rest : List Char) : Prop := c = '\n' ∨ c = '\r' ∧ rest.head? ≠ some '\n'

instance (c : Char) (rest : List Char) : Decidable (EndsLine c rest) :=
  inferInstanceAs (Decidable (_ ∨ _))

theorem endsLine_append_iff {c : Char} {a : List Char} (ha : a ≠ []) (rest : List Char) :
    EndsLine c (a ++ rest) ↔ EndsLine c a := by
  unfold EndsLine
  rw [List.head?_append_of_ne_nil a ha]

/-- No character of a text ends a line, if some character stands behind the text. -/
def OnOneLine : List Char → Char → Prop
  | [], _ => True
  | d :: cs, c => ¬EndsLine d (cs ++ [c]) ∧ OnOneLine cs c

theorem onOneLine_of_not_mem {cs : List Char} {c : Char} (h : '\n' ∉ cs)
    (hreturn : ∀ u v, cs = u ++ '\r' :: v → (v ++ [c]).head? = some '\n') : OnOneLine cs c := by
  induction cs with
  | nil => trivial
  | cons d cs ih =>
    obtain ⟨hd, hcs⟩ := List.ne_and_not_mem_of_not_mem_cons h
    constructor
    · rintro (hfeed | ⟨rfl, hhead⟩)
      · exact hd hfeed.symm
      · exact hhead (hreturn [] cs rfl)
    · refine ih hcs fun u v hsplit => hreturn (d :: u) v ?_
      rw [hsplit, List.cons_append]

namespace Position

/-- The position behind a character that stands in front of some text. -/
def behind (p : Position) (c : Char) (rest : List Char) : Position :=
  if EndsLine c rest then ⟨p.line + 1, 0⟩ else ⟨p.line, p.column + units16 [c]⟩

/-- The position behind a text that stands in front of some other one. -/
def through (p : Position) : List Char → List Char → Position
  | [], _ => p
  | c :: cs, rest => (p.behind c (cs ++ rest)).through cs rest

/-- Whether a position is in front of another one. -/
def Before (p q : Position) : Prop := p.line < q.line ∨ p.line = q.line ∧ p.column < q.column

end Position

/-- The position between two parts of a text. -/
def positionIn (front rest : List Char) : Position := (⟨0, 0⟩ : Position).through front rest

theorem units16_append (a b : List Char) : units16 (a ++ b) = units16 a + units16 b := by
  induction a with
  | nil => simp [units16]
  | cons c a ih => rw [List.cons_append, units16, units16, ih, Nat.add_assoc]

theorem units16_singleton_pos (c : Char) : 0 < units16 [c] := by
  rw [units16]
  split <;> omega

namespace Position

variable {p q r : Position} {c : Char} {a b rest : List Char}

theorem behind_of_endsLine (p : Position) (h : EndsLine c rest) :
    p.behind c rest = ⟨p.line + 1, 0⟩ := if_pos h

theorem behind_of_not_endsLine (p : Position) (h : ¬EndsLine c rest) :
    p.behind c rest = ⟨p.line, p.column + units16 [c]⟩ := if_neg h

theorem through_append (p : Position) (a b rest : List Char) :
    p.through (a ++ b) rest = (p.through a (b ++ rest)).through b rest := by
  induction a generalizing p with
  | nil => rfl
  | cons c a ih => rw [List.cons_append, through, through, ih, List.append_assoc]

theorem Before.trans (h : p.Before q) (h' : q.Before r) : p.Before r := by
  unfold Before at *
  omega

theorem Before.ne (h : p.Before q) : p ≠ q := by
  rintro rfl
  unfold Before at h
  omega

theorem before_behind (p : Position) (c : Char) (rest : List Char) :
    p.Before (p.behind c rest) := by
  by_cases h : EndsLine c rest
  · rw [behind_of_endsLine p h]
    exact .inl (Nat.lt_succ_self p.line)
  · rw [behind_of_not_endsLine p h]
    exact .inr ⟨rfl, Nat.lt_add_of_pos_right (units16_singleton_pos c)⟩

/-- **Further on** in a text positions only grow. -/
theorem before_through (p : Position) (rest : List Char) (ha : a ≠ []) :
    p.Before (p.through a rest) := by
  induction a generalizing p with
  | nil => exact absurd rfl ha
  | cons c a ih =>
    have hfirst := p.before_behind c (a ++ rest)
    cases a with
    | nil => exact hfirst
    | cons d a => exact hfirst.trans (ih _ (List.cons_ne_nil d a))

/-- **Within a line** the column counts the code units. -/
theorem through_eq_of_line (p : Position) (h : OnOneLine a c) (rest : List Char) :
    p.through a (c :: rest) = ⟨p.line, p.column + units16 a⟩ := by
  induction a generalizing p with
  | nil => rfl
  | cons d a ih =>
    obtain ⟨hd, ha⟩ := h
    have hd' : ¬EndsLine d (a ++ c :: rest) := by
      rwa [← List.singleton_append, ← List.append_assoc, endsLine_append_iff (by simp)]
    rw [through, behind_of_not_endsLine p hd', ih _ ha, Nat.add_assoc, ← units16_append,
      List.singleton_append]

/-- What follows the text matters only if it completes a line end. -/
theorem through_nil (p : Position) (h : a.getLast? = some '\r' → rest.head? ≠ some '\n') :
    p.through a [] = p.through a rest := by
  induction a generalizing p with
  | nil => rfl
  | cons c a ih =>
    cases a with
    | nil =>
      have hiff : EndsLine c [] ↔ EndsLine c rest := by
        unfold EndsLine
        constructor
        · rintro (hc | ⟨rfl, -⟩)
          · exact .inl hc
          · exact .inr ⟨rfl, h rfl⟩
        · rintro (hc | ⟨hc, -⟩)
          · exact .inl hc
          · exact .inr ⟨hc, nofun⟩
      show p.behind c [] = p.behind c rest
      simp only [behind, hiff]
    | cons d a =>
      have hiff : EndsLine c ((d :: a) ++ []) ↔ EndsLine c ((d :: a) ++ rest) := Iff.rfl
      have hbehind : p.behind c ((d :: a) ++ []) = p.behind c ((d :: a) ++ rest) := by
        simp only [behind, hiff]
      rw [through, through, hbehind]
      exact ih _ fun hlast => h (by rwa [List.getLast?_cons_cons])

end Position

theorem positionIn_append (a b rest : List Char) :
    positionIn (a ++ b) rest = (positionIn a (b ++ rest)).through b rest :=
  Position.through_append _ a b rest

/-- Places of a text with the same position are the same. -/
theorem byteLength_eq_of_positionIn {a b x y : List Char} (h : a ++ b = x ++ y)
    (hposition : positionIn a b = positionIn x y) : byteLength a = byteLength x := by
  have hle : ∀ {a b x y : List Char}, a ++ b = x ++ y → positionIn a b = positionIn x y →
      byteLength a ≤ byteLength x → byteLength a = byteLength x := by
    intro a b x y h hposition hle
    obtain ⟨m, rfl, rfl⟩ := exists_between h hle
    cases m with
    | nil => rw [List.append_nil]
    | cons c m =>
      rw [positionIn_append] at hposition
      exact absurd hposition (Position.before_through _ _ (List.cons_ne_nil c m)).ne
  rcases Nat.le_total (byteLength a) (byteLength x) with hab | hab
  · exact hle h hposition hab
  · exact (hle h.symm hposition.symm hab).symm

/-! ## The table of lines -/

theorem linesAfter_cons (offset : Nat) (c : Char) (cs : List Char) :
    linesAfter offset (c :: cs) =
      if EndsLine c cs then ⟨offset + c.utf8Size, cs⟩ :: linesAfter (offset + c.utf8Size) cs
      else linesAfter (offset + c.utf8Size) cs := by
  by_cases hfeed : c = '\r' ∧ cs.head? = some '\n'
  · obtain ⟨rfl, hhead⟩ := hfeed
    cases cs with
    | nil => cases hhead
    | cons d cs =>
      obtain rfl := Option.some.inj hhead
      have hends : ¬EndsLine '\r' ('\n' :: cs) := by simp [EndsLine]
      have hnext : linesAfter (offset + 1) ('\n' :: cs) =
          ⟨offset + 1 + 1, cs⟩ :: linesAfter (offset + 1 + 1) cs := by simp [linesAfter]
      rw [if_neg hends, linesAfter]
      exact hnext.symm
  · have hiff : EndsLine c cs ↔ c = '\n' ∨ c = '\r' := by
      unfold EndsLine
      constructor
      · rintro (hc | ⟨hc, -⟩)
        · exact .inl hc
        · exact .inr hc
      · rintro (hc | hc)
        · exact .inl hc
        · exact .inr ⟨hc, fun hhead => hfeed ⟨hc, hhead⟩⟩
    simp only [hiff]
    have hrow : linesAfter offset (c :: cs) = if c = '\n' ∨ c = '\r' then
        ⟨offset + 1, cs⟩ :: linesAfter (offset + 1) cs
      else linesAfter (offset + c.utf8Size) cs := by
      refine linesAfter.eq_3 offset c cs fun cs' hc hcs => hfeed ⟨hc, ?_⟩
      rw [hcs]
      rfl
    rw [hrow]
    by_cases hc : c = '\n' ∨ c = '\r'
    · have hsize : c.utf8Size = 1 := by rcases hc with rfl | rfl <;> rfl
      rw [if_pos hc, if_pos hc, hsize]
    · rw [if_neg hc, if_neg hc]

theorem exists_of_mem_linesAfter {offset : Nat} {cs : List Char} {s : LineStart}
    (h : s ∈ linesAfter offset cs) :
    ∃ a c, cs = a ++ c :: s.rest ∧ EndsLine c s.rest ∧
      offset + byteLength (a ++ [c]) = s.offset := by
  induction cs generalizing offset with
  | nil => cases h
  | cons d cs ih =>
    have hlater : s ∈ linesAfter (offset + d.utf8Size) cs → ∃ a c, d :: cs = a ++ c :: s.rest ∧
        EndsLine c s.rest ∧ offset + byteLength (a ++ [c]) = s.offset := fun h => by
      obtain ⟨a, c, rfl, hends, hplace⟩ := ih h
      refine ⟨d :: a, c, rfl, hends, ?_⟩
      rw [List.cons_append, byteLength_cons]
      omega
    rw [linesAfter_cons] at h
    by_cases hends : EndsLine d cs
    · rw [if_pos hends] at h
      rcases List.mem_cons.1 h with rfl | h
      · exact ⟨[], d, rfl, hends, rfl⟩
      · exact hlater h
    · rw [if_neg hends] at h
      exact hlater h

theorem lt_of_mem_linesAfter {offset : Nat} {cs : List Char} {s : LineStart}
    (h : s ∈ linesAfter offset cs) : offset < s.offset := by
  obtain ⟨a, c, -, -, hplace⟩ := exists_of_mem_linesAfter h
  have hc := Char.utf8Size_pos c
  rw [byteLength_append, byteLength_cons] at hplace
  omega

theorem pairwise_linesAfter (offset : Nat) (cs : List Char) :
    (linesAfter offset cs).Pairwise (·.offset < ·.offset) := by
  induction cs generalizing offset with
  | nil => exact .nil
  | cons c cs ih =>
    rw [linesAfter_cons]
    by_cases hends : EndsLine c cs
    · rw [if_pos hends]
      exact .cons (fun s hs => lt_of_mem_linesAfter hs) (ih _)
    · rw [if_neg hends]
      exact ih _

theorem pairwise_linesWithin (cs : List Char) :
    (linesWithin cs).Pairwise (·.offset < ·.offset) :=
  .cons (fun _ hs => lt_of_mem_linesAfter hs) (pairwise_linesAfter 0 cs)

/-- **The lines up to a place**: those that start in front of it are as many as the position says,
and the last of them holds what the column counts. `u` is the text of the line so far. -/
theorem exists_lines {start offset : Nat} {u : List Char} {p : Position} (a b : List Char)
    (hu : start + byteLength u = offset) (hp : p.column = units16 u) :
    ∃ before last v, linesAfter offset (a ++ b) =
        before ++ linesAfter (offset + byteLength a) b ∧
      (p.through a b).line = p.line + before.length ∧ (p.through a b).column = units16 v ∧
      last + byteLength v = offset + byteLength a ∧
      (⟨start, u ++ (a ++ b)⟩ :: before)[before.length]? = some ⟨last, v ++ b⟩ := by
  induction a generalizing start offset u p with
  | nil => exact ⟨[], start, u, rfl, rfl, hp, hu, rfl⟩
  | cons c a ih =>
    rw [List.cons_append, linesAfter_cons, Position.through, byteLength_cons, ← Nat.add_assoc]
    by_cases hends : EndsLine c (a ++ b)
    · -- a new line starts behind the character
      rw [if_pos hends, Position.behind_of_endsLine p hends]
      have hu' : offset + c.utf8Size + byteLength [] = offset + c.utf8Size := rfl
      have hp' : (⟨p.line + 1, 0⟩ : Position).column = units16 [] := rfl
      obtain ⟨before, last, v, hlines, hline, hcolumn, hlast, hget⟩ := ih hu' hp'
      refine ⟨⟨offset + c.utf8Size, a ++ b⟩ :: before, last, v, ?_, ?_, hcolumn, hlast, ?_⟩
      · rw [hlines, List.cons_append]
      · rw [hline, List.length_cons]
        exact Nat.add_right_comm p.line 1 before.length
      · rw [List.length_cons, List.getElem?_cons_succ]
        exact hget
    · rw [if_neg hends, Position.behind_of_not_endsLine p hends]
      have hu' : start + byteLength (u ++ [c]) = offset + c.utf8Size := by
        rw [byteLength_append, byteLength_cons, byteLength_nil]
        omega
      have hp' : (⟨p.line, p.column + units16 [c]⟩ : Position).column = units16 (u ++ [c]) := by
        rw [units16_append, hp]
      obtain ⟨before, last, v, hlines, hline, hcolumn, hlast, hget⟩ := ih hu' hp'
      rw [List.append_assoc, List.singleton_append] at hget
      exact ⟨before, last, v, hlines, hline, hcolumn, hlast, hget⟩

namespace LineIndex

/-- **The table of lines** gives the position of every offset between characters. -/
theorem position_ofText (a b : List Char) :
    (ofText (a ++ b)).position (byteLength a) = positionIn a b := by
  have hp : (⟨0, 0⟩ : Position).column = units16 [] := rfl
  obtain ⟨before, last, v, hlines, hline, hcolumn, hlast, hget⟩ :=
    exists_lines a b (Nat.zero_add (byteLength [])) hp
  rw [byteLength_nil, Nat.zero_add] at hlines hlast
  rw [List.nil_append] at hget
  have htable : linesWithin (a ++ b) =
      (⟨0, a ++ b⟩ :: before) ++ linesAfter (byteLength a) b := by
    rw [linesWithin, hlines, List.cons_append]
  have hstart : (ofText (a ++ b)).lines.getD before.length default = ⟨last, v ++ b⟩ := by
    rw [ofText, htable, Array.getD_eq_getD_getElem?, List.getElem?_toArray,
      List.getElem?_append_left (Nat.lt_succ_self before.length), hget]
    rfl
  -- the lines of the table behind the last one of these start behind the place
  have hbehind : ∀ i, before.length < i → i < (ofText (a ++ b)).lines.size →
      byteLength a < ((ofText (a ++ b)).lines.getD i default).offset := by
    intro i hi hsize
    rw [ofText, List.size_toArray, htable] at hsize
    rw [ofText, htable, Array.getD_eq_getD_getElem?, List.getElem?_toArray,
      List.getElem?_eq_getElem hsize, List.getElem_append_right (Nat.succ_le_of_lt hi)]
    exact lt_of_mem_linesAfter (List.getElem_mem _)
  have hcount : (ofText (a ++ b)).line (byteLength a) = before.length := by
    refine line_eq (ascending_toArray (pairwise_linesWithin _)) ?_ ?_ hbehind
    · rw [ofText, List.size_toArray, htable, List.length_append]
      exact Nat.lt_add_right _ (Nat.lt_succ_self before.length)
    · rw [hstart]
      show last ≤ byteLength a
      omega
  have hcut : min (byteLength a) (byteLength (a ++ b)) - last = byteLength v := by
    rw [byteLength_append]
    omega
  rw [position, hcount, hstart]
  show (⟨before.length, columnAt (min (byteLength a) (byteLength (a ++ b)) - last) (v ++ b)⟩ :
    Position) = positionIn a b
  rw [hcut, columnAt_append, ← hcolumn]
  rw [Nat.zero_add] at hline
  rw [← hline]
  rfl

/-- A line of the table that does not start the text starts behind a character that ends one. -/
theorem exists_endsLine_of_mem {source a b : List Char} (hsource : source = a ++ b)
    (hline : ∃ l ∈ (ofText source).lines.toList, l.offset = byteLength a)
    (hpos : 0 < byteLength a) : ∃ front e, a = front ++ [e] ∧ EndsLine e b := by
  obtain ⟨l, hl, hoffset⟩ := hline
  rcases List.mem_cons.1 hl with rfl | hl
  · exact absurd hoffset (Nat.ne_of_lt hpos)
  · obtain ⟨front, e, hsplit, hends, hplace⟩ := exists_of_mem_linesAfter hl
    rw [Nat.zero_add, hoffset] at hplace
    rw [hsource, ← List.singleton_append, ← List.append_assoc] at hsplit
    obtain ⟨rfl, rfl⟩ := append_inj_of_byteLength hsplit hplace.symm
    exact ⟨front, e, rfl, hends⟩

theorem positionIn_of_endsLine {a b : List Char} {e : Char} (hends : EndsLine e b) :
    positionIn (a ++ [e]) b =
      ⟨(ofText ((a ++ [e]) ++ b)).line (byteLength (a ++ [e])), 0⟩ := by
  have hposition := position_ofText (a ++ [e]) b
  have hcolumn : (positionIn (a ++ [e]) b).column = 0 := by
    rw [positionIn_append]
    show ((positionIn a _).behind e b).column = 0
    rw [Position.behind_of_endsLine _ hends]
  rw [← hcolumn, ← hposition]
  rfl

end LineIndex

end Islands
