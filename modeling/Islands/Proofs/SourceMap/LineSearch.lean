import Mathlib.Data.List.Basic
import Islands.Proofs.Text.Offsets
import Islands.SourceMap.LineIndex

/-!
# Searching the table of lines

In a table whose lines start at ever later offsets (`Ascending`) the search by halving finds the
line that starts at an offset, or between the starts of which lines the offset is (`search_fits`).
From either outcome the line of an offset is the last one that does not start behind it
(`line_eq`). On that line the bytes are counted if they are ASCII, and the code units if they are
not; a byte of ASCII text is one code unit, so the column is the same (`columnAt_append`).
-/

namespace Islands

namespace LineIndex

/-! ## The search -/

/-- Lines that start at ever later offsets. -/
def Ascending (lines : Array LineStart) : Prop :=
  ∀ i j, i < j → j < lines.size →
    (lines.getD i default).offset < (lines.getD j default).offset

theorem ascending_toArray {ls : List LineStart} (h : ls.Pairwise (·.offset < ·.offset)) :
    Ascending ls.toArray := by
  intro i j hij hj
  rw [List.size_toArray] at hj
  have hi : i < ls.length := Nat.lt_trans hij hj
  rw [Array.getD_eq_getD_getElem?, Array.getD_eq_getD_getElem?, List.getElem?_toArray,
    List.getElem?_toArray, List.getElem?_eq_getElem hi, List.getElem?_eq_getElem hj]
  exact List.pairwise_iff_getElem.1 h i j hi hj hij

/-- What an outcome of the search says of the table. -/
def Found.Fits (lines : Array LineStart) (offset : Nat) : Found → Prop
  | .start i => i < lines.size ∧ (lines.getD i default).offset = offset
  | .between n => n ≤ lines.size ∧ (∀ i < n, (lines.getD i default).offset < offset) ∧
      ∀ i, n ≤ i → i < lines.size → offset < (lines.getD i default).offset

section
variable {lines : Array LineStart} {offset : Nat}

/-- **The search** says what is so: every step keeps the lines that are left out at the right side
of the offset. -/
theorem search_fits (hlines : Ascending lines) {lo hi : Nat} (hle : lo ≤ hi)
    (hsize : hi ≤ lines.size) (hbefore : ∀ i < lo, (lines.getD i default).offset < offset)
    (hbehind : ∀ i, hi ≤ i → i < lines.size → offset < (lines.getD i default).offset) :
    (search lines offset lo hi).Fits lines offset := by
  fun_induction search lines offset lo hi with
  | case1 lo hi hlt middle start heq => exact ⟨by omega, heq⟩
  | case2 lo hi hlt middle start hne hless ih =>
    refine ih (by omega) hsize (fun i hi => ?_) hbehind
    rcases Nat.lt_or_eq_of_le (Nat.le_of_lt_succ hi) with hi | rfl
    · exact Nat.lt_trans (hlines i middle hi (by omega)) hless
    · exact hless
  | case3 lo hi hlt middle start hne hless ih =>
    have hgt : offset < start := by omega
    refine ih (by omega) (by omega) hbefore fun i hi hsize' => ?_
    rcases Nat.lt_or_eq_of_le hi with hi | rfl
    · exact Nat.lt_trans hgt (hlines middle i hi hsize')
    · exact hgt
  | case4 lo hi hge =>
    obtain rfl : lo = hi := by omega
    exact ⟨hsize, hbefore, hbehind⟩

/-- **The line of an offset** is the last one that does not start behind it. -/
theorem line_eq {x : LineIndex} (hlines : Ascending x.lines) {n : Nat} (hn : n < x.lines.size)
    (hle : (x.lines.getD n default).offset ≤ offset)
    (hbehind : ∀ i, n < i → i < x.lines.size → offset < (x.lines.getD i default).offset) :
    x.line offset = n := by
  have hfits : (search x.lines offset 0 x.lines.size).Fits x.lines offset :=
    search_fits hlines (Nat.zero_le _) (Nat.le_refl _) nofun fun i hge hlt => absurd hlt (by omega)
  rw [line]
  cases hfound : search x.lines offset 0 x.lines.size with
  | start i =>
    rw [hfound] at hfits
    obtain ⟨hi, heq⟩ := hfits
    show i = n
    rcases Nat.lt_trichotomy i n with hlt | hin | hgt
    · have := hlines i n hlt hn
      omega
    · exact hin
    · have := hbehind i hgt hi
      omega
  | between m =>
    rw [hfound] at hfits
    obtain ⟨hm, hfront, hback⟩ := hfits
    have hnm : n < m := by
      by_contra hge
      have := hback n (by omega) hn
      omega
    have hmn : m ≤ n + 1 := by
      by_contra hlt
      have := hfront (n + 1) (by omega)
      have := hbehind (n + 1) (Nat.lt_succ_self n) (by omega)
      omega
    show m - 1 = n
    omega

end

end LineIndex

/-! ## Columns -/

theorem units16_of_isAscii {cs : List Char} (h : isAscii cs = true) :
    units16 cs = byteLength cs := by
  induction cs with
  | nil => rfl
  | cons c cs ih =>
    rw [isAscii, List.all_cons, Bool.and_eq_true, decide_eq_true_eq] at h
    obtain ⟨hc, hcs⟩ := h
    have hsize : c.utf8Size = 1 := Char.utf8Size_eq_one_iff.2 (Nat.le_of_lt_succ hc)
    rw [units16, if_pos (Nat.lt_trans hc (by decide)), byteLength_cons, hsize, ih hcs]

/-- **The column** of the end of some text counts its code units, by either way of counting. -/
theorem columnAt_append (a b : List Char) : columnAt (byteLength a) (a ++ b) = units16 a := by
  rw [columnAt, takeBytes_append, if_pos (isBoundary_byteLength a b)]
  by_cases h : isAscii a = true
  · rw [if_pos h, units16_of_isAscii h]
  · rw [if_neg h]

end Islands
