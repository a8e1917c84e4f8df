import Islands.Proofs.Draft.Rendering
import Islands.Proofs.Wrapper.Erasure

/-!
# Ranges that are left out

A part of a text is copied around some ranges. A range is passed over if it begins in front of the
place that was reached or goes on behind the part; the others are left out (`rangesCut`). What is
copied are the characters of the part that none of these covers (`partWithout_eq`). Ranges that are
within the part and apart from each other are left out all, whatever the order they are given in
(`leftOut_eq`).
-/

namespace Islands

open Markup

/-! ## Characters outside of ranges -/

/-- The characters of a part of a text that none of some ranges covers. -/
def charsOutside (cs : List Char) (part : Span) (rs : List Span) : List Char :=
  (List.range' part.start (part.stop - part.start)).flatMap fun n =>
    if rs.any (·.covers n) then [] else charAt n cs

section
variable {cs : List Char} {part r : Span} {rs ts : List Span} {a b c : Nat}

theorem any_covers_iff {n : Nat} :
    rs.any (·.covers n) = true ↔ ∃ r ∈ rs, r.start ≤ n ∧ n < r.stop := by
  simp only [List.any_eq_true, Span.covers_iff]

theorem charsOutside_congr
    (h : ∀ n, part.start ≤ n → n < part.stop → rs.any (·.covers n) = ts.any (·.covers n)) :
    charsOutside cs part rs = charsOutside cs part ts := by
  refine List.flatMap_congr fun n hn => ?_
  have hn := List.mem_range'_1.1 hn
  rw [h n hn.1 (by omega)]

theorem charsOutside_perm (h : rs.Perm ts) : charsOutside cs part rs = charsOutside cs part ts :=
  charsOutside_congr fun _ _ _ => h.any_eq

theorem charsOutside_append (hab : a ≤ b) (hbc : b ≤ c) :
    charsOutside cs ⟨a, c⟩ rs = charsOutside cs ⟨a, b⟩ rs ++ charsOutside cs ⟨b, c⟩ rs := by
  have hlength : c - a = (b - a) + (c - b) := by omega
  have hmiddle : a + (b - a) = b := by omega
  rw [charsOutside, charsOutside, charsOutside]
  simp only
  rw [hlength, ← List.range'_append_1, List.flatMap_append, hmiddle]

theorem charsOutside_around (hstart : part.start ≤ r.start) (hle : r.start ≤ r.stop)
    (hstop : r.stop ≤ part.stop) :
    charsOutside cs part rs = charsOutside cs ⟨part.start, r.start⟩ rs ++
      (charsOutside cs r rs ++ charsOutside cs ⟨r.stop, part.stop⟩ rs) := by
  rw [← charsOutside_append hle hstop, ← charsOutside_append hstart (Nat.le_trans hle hstop)]

theorem charsOutside_of_clear (hb : part.OnBoundaries cs) (hle : part.start ≤ part.stop)
    (h : ∀ r ∈ rs, r.stop ≤ part.start ∨ part.stop ≤ r.start) :
    charsOutside cs part rs = part.cut cs := by
  obtain ⟨pre, m, post, rfl, rfl⟩ := exists_eq_spanAt hb hle
  have hlength : byteLength pre + byteLength m - byteLength pre = byteLength m :=
    Nat.add_sub_cancel_left ..
  simp only [spanAt] at h
  rw [cut_spanAt, charsOutside]
  simp only [spanAt, hlength]
  refine Eq.trans (List.flatMap_congr fun n hn => ?_) (flatMap_charAt pre m)
  have hn := List.mem_range'_1.1 hn
  have hnone : ¬rs.any (·.covers n) = true := by
    rw [any_covers_iff]
    rintro ⟨r, hr, hcovers⟩
    have := h r hr
    omega
  rw [if_neg hnone, ← List.append_assoc,
    charAt_append_of_lt post (by rw [byteLength_append]; exact hn.2)]

theorem charsOutside_of_covered (hr : r ∈ rs) (hstart : r.start ≤ part.start)
    (hstop : part.stop ≤ r.stop) : charsOutside cs part rs = [] := by
  refine List.flatMap_eq_nil_iff.2 fun n hn => ?_
  have hn := List.mem_range'_1.1 hn
  rw [if_pos (any_covers_iff.2 ⟨r, hr, by omega, by omega⟩)]

/-! ## Cutting -/

/-- The ranges that are left out between `start` and `stop`, of those given in the order of their
starts: one that begins in front of the last one's end, or goes on behind `stop`, is passed over. -/
def rangesCut (start stop : Nat) : List Span → List Span
  | [] => []
  | r :: rs =>
    if r.start < start ∨ stop < r.stop then rangesCut start stop rs
    else r :: rangesCut r.stop stop rs

theorem rangesCut_within {start stop : Nat} (h : ∀ r ∈ rs, r.start ≤ r.stop) :
    ∀ r ∈ rangesCut start stop rs, start ≤ r.start ∧ r.stop ≤ stop := by
  induction rs generalizing start with
  | nil => exact List.forall_mem_nil _
  | cons r rs ih =>
    obtain ⟨hr, hrs⟩ := List.forall_mem_cons.1 h
    rw [rangesCut]
    split
    · exact ih hrs
    · rw [List.forall_mem_cons]
      refine ⟨by omega, fun t ht => ?_⟩
      have := ih hrs t ht
      omega

/-- **Copying around ranges** takes exactly the characters that none of those left out covers. -/
theorem cutAround_eq_charsOutside {start stop : Nat} (hle : start ≤ stop)
    (hb : Span.OnBoundaries cs ⟨start, stop⟩) (h : ∀ r ∈ rs, r.start ≤ r.stop)
    (hrs : ∀ r ∈ rs, r.OnBoundaries cs) :
    cutAround cs start stop rs = charsOutside cs ⟨start, stop⟩ (rangesCut start stop rs) := by
  induction rs generalizing start with
  | nil =>
    rw [cutAround, rangesCut]
    exact (charsOutside_of_clear hb hle (List.forall_mem_nil _)).symm
  | cons r rs ih =>
    obtain ⟨hr, h⟩ := List.forall_mem_cons.1 h
    obtain ⟨hrb, hrs⟩ := List.forall_mem_cons.1 hrs
    rw [cutAround, rangesCut]
    split
    · exact ih hle hb h hrs
    · rename_i hcut
      -- up to the range nothing is left out, in it all is, and from its end on goes the induction
      have hbehind : ∀ t ∈ rangesCut r.stop stop rs, r.stop ≤ t.start ∧ t.stop ≤ stop :=
        rangesCut_within h
      have hfront : charsOutside cs ⟨start, r.start⟩ (r :: rangesCut r.stop stop rs) =
          Span.cut ⟨start, r.start⟩ cs := by
        refine charsOutside_of_clear ⟨hb.1, hrb.1⟩ (by simp only; omega) ?_
        refine List.forall_mem_cons.2 ⟨.inr (Nat.le_refl _), fun t ht => .inr ?_⟩
        have := (hbehind t ht).1
        simp only
        omega
      have hin : charsOutside cs r (r :: rangesCut r.stop stop rs) = [] :=
        charsOutside_of_covered (List.mem_cons_self ..) (Nat.le_refl _) (Nat.le_refl _)
      have hrest : charsOutside cs ⟨r.stop, stop⟩ (r :: rangesCut r.stop stop rs) =
          charsOutside cs ⟨r.stop, stop⟩ (rangesCut r.stop stop rs) := by
        refine charsOutside_congr fun n hn _ => ?_
        have hout : r.covers n = false := by
          rw [Bool.eq_false_iff, Ne, Span.covers_iff]
          simp only at hn
          omega
        rw [List.any_cons, hout, Bool.false_or]
      have hih : cutAround cs r.stop stop rs =
          charsOutside cs ⟨r.stop, stop⟩ (rangesCut r.stop stop rs) :=
        ih (by omega) ⟨hrb.2, hb.2⟩ h hrs
      rw [charsOutside_around (by simp only; omega) hr (by simp only; omega), hfront, hin, hrest,
        List.nil_append, hih]

/-- Ranges in order and apart are left out all. -/
theorem rangesCut_eq_self {start stop : Nat} (h : rs.Pairwise fun a b => a.stop ≤ b.start)
    (hrs : ∀ r ∈ rs, start ≤ r.start ∧ r.stop ≤ stop) : rangesCut start stop rs = rs := by
  induction rs generalizing start with
  | nil => rfl
  | cons r rs ih =>
    obtain ⟨hr, h⟩ := List.pairwise_cons.1 h
    obtain ⟨hwithin, hrs⟩ := List.forall_mem_cons.1 hrs
    rw [rangesCut, if_neg (by omega), ih h fun t ht => ⟨hr t ht, (hrs t ht).2⟩]

/-- The ranges that are left out of a part, of those given in any order. -/
def leftOut (part : Span) (rs : List Span) : List Span :=
  rangesCut part.start part.stop (rs.mergeSort fun a b => a.start ≤ b.start)

/-- **A part of a template without some ranges**: the characters that none of those left out
covers. -/
theorem partWithout_eq (hle : part.start ≤ part.stop) (hb : part.OnBoundaries cs)
    (h : ∀ r ∈ rs, r.start ≤ r.stop) (hrs : ∀ r ∈ rs, r.OnBoundaries cs) :
    partWithout cs part rs = String.ofList (charsOutside cs part (leftOut part rs)) := by
  rw [partWithout, cutAround_eq_charsOutside hle hb fun r hr => h r (List.mem_mergeSort.1 hr)]
  · rfl
  · exact fun r hr => hrs r (List.mem_mergeSort.1 hr)

/-- **Ranges apart** within the part are left out all, in whatever order they are given. -/
theorem leftOut_eq (h : rs.Perm ts) (hts : ts.Pairwise fun a b => a.stop ≤ b.start)
    (hne : ∀ r ∈ ts, r.start < r.stop)
    (hwithin : ∀ r ∈ ts, part.start ≤ r.start ∧ r.stop ≤ part.stop) : leftOut part rs = ts := by
  rw [leftOut, mergeSort_of_perm h (ascending_of_apart hts hne), rangesCut_eq_self hts hwithin]

end

end Islands
