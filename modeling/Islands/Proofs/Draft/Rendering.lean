import Mathlib.Data.List.Basic
import Islands.Proofs.Draft.Edits
import Islands.Proofs.Draft.InsertionOrder

/-!
# What a draft renders to

The edited text is described offset by offset (`renderedAt`): at an offset stand the insertions made
there, the text of a patch that starts there, and the character of the source that starts there. A
patch takes the place of the characters it covers, and of the insertions between its ends.

* `text_stretchRuns`: a stretch of the source with the insertions in it.
* `text_patchedRuns`: the source with insertions and patches, by induction on the patches; what
  stands at the offsets behind a patch does not depend on the patch.
* `text_after`: a text after any sequence of edits.
-/

namespace Islands

/-! ## Offset by offset -/

/-- The character that starts at an offset, if one does. -/
def charAt (n : Nat) : List Char → List Char
  | [] => []
  | c :: cs => if n = 0 then [c] else if n < c.utf8Size then [] else charAt (n - c.utf8Size) cs

/-- Whether an offset lies between the ends of a range. -/
def Span.hasInside (s : Span) (n : Nat) : Bool := s.start < n && n < s.stop

/-- Whether the byte at an offset belongs to a range. -/
def Span.covers (s : Span) (n : Nat) : Bool := s.start ≤ n && n < s.stop

theorem Span.hasInside_iff {s : Span} {n : Nat} :
    s.hasInside n = true ↔ s.start < n ∧ n < s.stop := by
  rw [hasInside, Bool.and_eq_true, decide_eq_true_eq, decide_eq_true_eq]

theorem Span.covers_iff {s : Span} {n : Nat} :
    s.covers n = true ↔ s.start ≤ n ∧ n < s.stop := by
  rw [covers, Bool.and_eq_true, decide_eq_true_eq, decide_eq_true_eq]

/-- The texts of some insertions. -/
def insertedText (is : List Insertion) : List Char := is.flatMap (·.text.toList)

/-- The text of the patch that starts at an offset, if there is one. -/
def patchTextAt (ps : List Patch) (n : Nat) : List Char :=
  ((ps.find? (·.range.start == n)).map (·.text.toList)).getD []

/-- What is rendered at an offset of the source: the insertions there, unless a patch takes their
place, the patch that starts there, and the character there, unless a patch covers it. -/
def renderedAt (source : List Char) (is : List Insertion) (ps : List Patch) (n : Nat) :
    List Char :=
  (if ps.any (·.range.hasInside n) then []
    else insertedText (insertionsAt is n .left) ++ insertedText (insertionsAt is n .right)) ++
    (patchTextAt ps n ++ if ps.any (·.range.covers n) then [] else charAt n source)

/-- What a source is rendered to after some edits: the texts in front, the latest first, and then
what is rendered at each offset, the end of the source included. -/
def rendered (source : List Char) (es : List Edit) : List Char :=
  (frontsOf es).reverse.flatMap String.toList ++
    (List.range (byteLength source + 1)).flatMap
      (renderedAt source (insertionsOf es) (survivors (patchesOf es)))

/-! ## Characters of a text -/

theorem charAt_append_of_le {n : Nat} {a : List Char} (b : List Char) (h : byteLength a ≤ n) :
    charAt n (a ++ b) = charAt (n - byteLength a) b := by
  induction a generalizing n with
  | nil => rfl
  | cons c a ih =>
    have hc := Char.utf8Size_pos c
    rw [byteLength_cons] at h
    rw [List.cons_append, charAt, if_neg (by omega), if_neg (by omega), ih (by omega),
      byteLength_cons, Nat.sub_sub]

theorem charAt_append_of_lt {n : Nat} {a : List Char} (b : List Char) (h : n < byteLength a) :
    charAt n (a ++ b) = charAt n a := by
  induction a generalizing n with
  | nil => exact absurd h (Nat.not_lt_zero n)
  | cons c a ih =>
    rw [byteLength_cons] at h
    rw [List.cons_append, charAt, charAt]
    by_cases hn : n = 0
    · rw [if_pos hn, if_pos hn]
    · rw [if_neg hn, if_neg hn]
      by_cases hc : n < c.utf8Size
      · rw [if_pos hc, if_pos hc]
      · rw [if_neg hc, if_neg hc, ih (by omega)]

theorem charAt_byteLength (a : List Char) : charAt (byteLength a) a = [] := by
  have := charAt_append_of_le [] (Nat.le_refl (byteLength a))
  rwa [List.append_nil] at this

theorem range'_eq_append_cons (s m n : Nat) :
    List.range' s (m + (n + 1)) = List.range' s m ++ (s + m) :: List.range' (s + m + 1) n := by
  rw [← List.range'_append_1, List.range'_succ]

theorem flatMap_charAt (pre cs : List Char) :
    (List.range' (byteLength pre) (byteLength cs)).flatMap (charAt · (pre ++ cs)) = cs := by
  induction cs generalizing pre with
  | nil => rfl
  | cons c cs ih =>
    have ih := ih (pre ++ [c])
    obtain ⟨k, hk⟩ : ∃ k, c.utf8Size = k + 1 := ⟨c.utf8Size - 1, by
      have := Char.utf8Size_pos c
      omega⟩
    have hpre : byteLength (pre ++ [c]) = byteLength pre + (k + 1) := by simp [hk]
    rw [List.append_assoc, hpre] at ih
    have hfirst : charAt (byteLength pre) (pre ++ c :: cs) = [c] := by
      rw [charAt_append_of_le _ (Nat.le_refl _), Nat.sub_self]
      rfl
    have hnone : (List.range' (byteLength pre + 1) k).flatMap (charAt · (pre ++ c :: cs)) = [] := by
      apply List.flatMap_eq_nil_iff.2
      intro n hn
      have hn := List.mem_range'_1.1 hn
      rw [charAt_append_of_le _ (by omega), charAt, if_neg (by omega), if_pos (by omega)]
    rw [byteLength_cons, hk, ← List.range'_append_1, List.flatMap_append, List.range'_succ,
      List.flatMap_cons, hfirst, hnone]
    exact congrArg (c :: ·) ih

/-! ## Stretches of the source -/

/-- The text of some runs. -/
def textOf (rs : List Run) : List Char := rs.flatMap Run.text

theorem textOf_append (rs ts : List Run) : textOf (rs ++ ts) = textOf rs ++ textOf ts :=
  List.flatMap_append

theorem textOf_cons (r : Run) (rs : List Run) : textOf (r :: rs) = r.text ++ textOf rs := rfl

theorem flatten_linesOf (cs : List Char) : (linesOf cs).flatten = cs := by
  induction cs with
  | nil => rfl
  | cons c cs ih =>
    unfold linesOf
    split
    · simp [ih]
    · split
      · rename_i h
        rw [h] at ih
        simp [← ih]
      · rename_i h
        rw [h] at ih
        simp [← ih]

theorem textOf_keptRuns (offset : Nat) (ls : List (List Char)) :
    textOf (keptRuns offset ls) = ls.flatten := by
  induction ls generalizing offset with
  | nil => rfl
  | cons l ls ih => rw [keptRuns, textOf_cons, ih, List.flatten_cons]

theorem textOf_kept (offset : Nat) (cs : List Char) :
    textOf (keptRuns offset (linesOf cs)) = cs := by
  rw [textOf_keptRuns, flatten_linesOf]

/-- The texts of the insertions at an offset. -/
def insertedAt (is : List Insertion) (n : Nat) : List Char :=
  insertedText (is.filter (·.offset == n))

theorem insertedAt_eq_nil {is : List Insertion} {n : Nat} (h : ∀ i ∈ is, i.offset ≠ n) :
    insertedAt is n = [] := by
  have : is.filter (·.offset == n) = [] := List.filter_eq_nil_iff.2 fun i hi => by
    simpa using h i hi
  rw [insertedAt, this]
  rfl

theorem insertedAt_cons_self (i : Insertion) (is : List Insertion) :
    insertedAt (i :: is) i.offset = i.text.toList ++ insertedAt is i.offset := by
  simp [insertedAt, insertedText]

theorem insertedAt_cons_ne {i : Insertion} (is : List Insertion) {n : Nat} (h : i.offset ≠ n) :
    insertedAt (i :: is) n = insertedAt is n := by
  simp [insertedAt, h]

/-- **A stretch of the source**, with insertions among it. -/
theorem text_stretchRuns {pre cs : List Char} {is : List Insertion}
    (hsorted : is.Pairwise fun a b => a.offset ≤ b.offset)
    (hle : ∀ i ∈ is, byteLength pre ≤ i.offset)
    (hb : ∀ i ∈ is, isBoundary i.offset (pre ++ cs) = true) :
    textOf (stretchRuns (byteLength pre) cs is) =
      (List.range' (byteLength pre) (byteLength cs + 1)).flatMap fun n =>
        insertedAt is n ++ charAt n (pre ++ cs) := by
  induction is generalizing pre cs with
  | nil =>
    have hend : charAt (byteLength pre + 1 * byteLength cs) (pre ++ cs) = [] := by
      rw [Nat.one_mul, ← byteLength_append]
      exact charAt_byteLength _
    rw [stretchRuns, textOf_kept, List.range'_concat, List.flatMap_append, List.flatMap_singleton]
    simp only [insertedAt, List.filter_nil, insertedText, List.flatMap_nil, List.nil_append, hend,
      List.append_nil]
    exact (flatMap_charAt pre cs).symm
  | cons i is ih =>
    obtain ⟨hi, his⟩ := List.pairwise_cons.1 hsorted
    have hlei := hle i (List.mem_cons_self ..)
    obtain ⟨a, b, rfl, ha⟩ := exists_division (hb i (List.mem_cons_self ..)) hlei
    have hoff : i.offset - byteLength pre = byteLength a := by omega
    have hpre : byteLength (pre ++ a) = i.offset := by rw [byteLength_append, ha]
    have ih := ih his (fun j hj => by rw [hpre]; exact hi j hj)
      (fun j hj => by rw [List.append_assoc]; exact hb j (List.mem_cons_of_mem _ hj) :
        ∀ j ∈ is, isBoundary j.offset ((pre ++ a) ++ b) = true)
    rw [hpre, List.append_assoc] at ih
    -- in front of the insertion there is none
    have hbefore : (List.range' (byteLength pre) (byteLength a)).flatMap
        (fun n => insertedAt (i :: is) n ++ charAt n (pre ++ (a ++ b))) = a := by
      refine Eq.trans (List.flatMap_congr fun n hn => ?_) (flatMap_charAt pre a)
      have hn := List.mem_range'_1.1 hn
      have hnone : insertedAt (i :: is) n = [] := by
        apply insertedAt_eq_nil
        intro j hj
        rcases List.mem_cons.1 hj with rfl | hj
        · omega
        · have := hi j hj
          omega
      rw [hnone, List.nil_append, ← List.append_assoc, charAt_append_of_lt b (by omega)]
    have hbehind : (List.range' (i.offset + 1) (byteLength b)).flatMap
        (fun n => insertedAt (i :: is) n ++ charAt n (pre ++ (a ++ b))) =
        (List.range' (i.offset + 1) (byteLength b)).flatMap
          (fun n => insertedAt is n ++ charAt n (pre ++ (a ++ b))) := by
      apply List.flatMap_congr
      intro n hn
      have hn := List.mem_range'_1.1 hn
      rw [insertedAt_cons_ne is (by omega)]
    rw [stretchRuns, hoff, takeBytes_append, dropBytes_append, textOf_append, textOf_kept,
      textOf_cons, ih, byteLength_append, Nat.add_assoc,
      range'_eq_append_cons (byteLength pre) (byteLength a) (byteLength b), List.flatMap_append,
      hbefore, ha, List.range'_succ, List.flatMap_cons, List.flatMap_cons, hbehind,
      insertedAt_cons_self]
    simp [Insertion.run]

/-! ## Patches -/

/-- What is rendered at an offset, given the insertions in the order they are rendered in. -/
def shownAt (source : List Char) (is : List Insertion) (ps : List Patch) (n : Nat) : List Char :=
  (if ps.any (·.range.hasInside n) then [] else insertedAt is n) ++
    (patchTextAt ps n ++ if ps.any (·.range.covers n) then [] else charAt n source)

theorem shownAt_of_lt {source : List Char} {is : List Insertion} {ps : List Patch} {n : Nat}
    (h : ∀ p ∈ ps, n < p.range.start) :
    shownAt source is ps n = insertedAt is n ++ charAt n source := by
  have hinside : ps.any (·.range.hasInside n) = false := List.any_eq_false.2 fun p hp => by
    have := h p hp
    rw [Span.hasInside_iff]
    omega
  have hcovers : ps.any (·.range.covers n) = false := List.any_eq_false.2 fun p hp => by
    have := h p hp
    rw [Span.covers_iff]
    omega
  have hnone : ps.find? (·.range.start == n) = none := List.find?_eq_none.2 fun p hp => by
    have := h p hp
    simp only [beq_iff_eq]
    omega
  simp [shownAt, hinside, hcovers, patchTextAt, hnone]

theorem shownAt_cons_of_le {source : List Char} {is : List Insertion} {p : Patch}
    (ps : List Patch) {n : Nat} (hp : p.range.start < p.range.stop) (h : p.range.stop ≤ n) :
    shownAt source is (p :: ps) n = shownAt source is ps n := by
  have hinside : p.range.hasInside n = false := by
    rw [Bool.eq_false_iff, Ne, Span.hasInside_iff]
    omega
  have hcovers : p.range.covers n = false := by
    rw [Bool.eq_false_iff, Ne, Span.covers_iff]
    omega
  have hstart : (p.range.start == n) = false := by
    rw [beq_eq_false_iff_ne]
    omega
  simp [shownAt, hinside, hcovers, patchTextAt, hstart]

theorem shownAt_start {source : List Char} {is : List Insertion} {p : Patch} {ps : List Patch}
    (hp : p.range.start < p.range.stop) (hps : ∀ q ∈ ps, p.range.stop ≤ q.range.start) :
    shownAt source is (p :: ps) p.range.start = insertedAt is p.range.start ++ p.text.toList := by
  have hinside : (p :: ps).any (·.range.hasInside p.range.start) = false := by
    apply List.any_eq_false.2
    intro q hq
    rw [Span.hasInside_iff]
    rcases List.mem_cons.1 hq with rfl | hq
    · omega
    · have := hps q hq
      omega
  have hcovers : p.range.covers p.range.start = true := by
    rw [Span.covers_iff]
    omega
  simp only [shownAt, hinside, patchTextAt, List.any_cons, hcovers]
  simp

theorem shownAt_inside {source : List Char} {is : List Insertion} {p : Patch} {ps : List Patch}
    {n : Nat} (hstart : p.range.start < n) (hstop : n < p.range.stop)
    (hps : ∀ q ∈ ps, p.range.stop ≤ q.range.start) : shownAt source is (p :: ps) n = [] := by
  have hinside : p.range.hasInside n = true := by
    rw [Span.hasInside_iff]
    omega
  have hcovers : p.range.covers n = true := by
    rw [Span.covers_iff]
    omega
  have hnone : (p :: ps).find? (·.range.start == n) = none := by
    refine List.find?_eq_none.2 fun q hq => ?_
    simp only [beq_iff_eq]
    rcases List.mem_cons.1 hq with rfl | hq
    · omega
    · have := hps q hq
      omega
  simp only [shownAt, List.any_cons, hinside, hcovers, patchTextAt, hnone]
  simp

/-- The insertions of a selection at an offset that it keeps. -/
theorem insertedAt_filter {is : List Insertion} {q : Insertion → Bool} {n : Nat}
    (h : ∀ i ∈ is, i.offset = n → q i = true) : insertedAt (is.filter q) n = insertedAt is n := by
  have heq : ∀ i ∈ is, (i.offset == n && q i) = (i.offset == n) := fun i hi => by
    by_cases hn : i.offset = n
    · rw [h i hi hn, Bool.and_true]
    · simp [hn]
  rw [insertedAt, insertedAt, List.filter_filter, List.filter_congr heq]

theorem shownAt_append_of_le {source : List Char} {is : List Insertion} {front : List Patch}
    (ps : List Patch) {n : Nat} (h : ∀ p ∈ front, p.range.start < p.range.stop ∧ p.range.stop ≤ n) :
    shownAt source is (front ++ ps) n = shownAt source is ps n := by
  induction front with
  | nil => rfl
  | cons p front ih =>
    obtain ⟨hlt, hle⟩ := h p (List.mem_cons_self ..)
    rw [List.cons_append, shownAt_cons_of_le _ hlt hle]
    exact ih fun q hq => h q (List.mem_cons_of_mem _ hq)

theorem flatMap_shownAt_before {pre a rest : List Char} {is : List Insertion} {ps : List Patch}
    (h : ∀ p ∈ ps, byteLength pre + byteLength a ≤ p.range.start) :
    (List.range' (byteLength pre) (byteLength a)).flatMap
        (shownAt (pre ++ (a ++ rest)) is ps) =
      (List.range' (byteLength pre) (byteLength a)).flatMap fun n =>
        insertedAt is n ++ charAt n (pre ++ a) := by
  apply List.flatMap_congr
  intro n hn
  have hn := List.mem_range'_1.1 hn
  have hlt : ∀ p ∈ ps, n < p.range.start := fun p hp => Nat.lt_of_lt_of_le hn.2 (h p hp)
  have hin : n < byteLength (pre ++ a) := by
    rw [byteLength_append]
    exact hn.2
  rw [shownAt_of_lt hlt, ← List.append_assoc, charAt_append_of_lt _ hin]

theorem flatMap_shownAt_under {source : List Char} {is : List Insertion} {p : Patch}
    {ps : List Patch} {n : Nat} (hp : p.range.start < p.range.stop)
    (hps : ∀ q ∈ ps, p.range.stop ≤ q.range.start) (hn : p.range.start + n = p.range.stop) :
    (List.range' p.range.start n).flatMap (shownAt source is (p :: ps)) =
      insertedAt is p.range.start ++ p.text.toList := by
  obtain ⟨k, rfl⟩ : ∃ k, n = k + 1 := ⟨n - 1, by omega⟩
  have hnone : (List.range' (p.range.start + 1) k).flatMap (shownAt source is (p :: ps)) = [] := by
    apply List.flatMap_eq_nil_iff.2
    intro j hj
    have hj := List.mem_range'_1.1 hj
    exact shownAt_inside (by omega) (by omega) hps
  rw [List.range'_succ, List.flatMap_cons, shownAt_start hp hps, hnone, List.append_nil]

/-- What shows behind a patch does not depend on it. -/
theorem flatMap_shownAt_behind {source : List Char} {is : List Insertion} {p : Patch}
    (ps : List Patch) (n : Nat) (hp : p.range.start < p.range.stop) :
    (List.range' p.range.stop n).flatMap (shownAt source is (p :: ps)) =
      (List.range' p.range.stop n).flatMap (shownAt source is ps) := by
  apply List.flatMap_congr
  intro j hj
  exact shownAt_cons_of_le ps hp (List.mem_range'_1.1 hj).1

/-- The runs around the first patch: what is in front of the patch, its own run, and what is behind
it. -/
theorem patchedRuns_cons {pre a m : List Char} {is : List Insertion} {p : Patch} (b : List Char)
    (ps : List Patch) (ha : byteLength pre + byteLength a = p.range.start)
    (hm : p.range.start + byteLength m = p.range.stop) :
    patchedRuns (byteLength pre) (a ++ (m ++ b)) is (p :: ps) =
      stretchRuns (byteLength pre) a (is.takeWhile (·.offset ≤ p.range.start)) ++
        p.run :: patchedRuns p.range.stop b
          ((is.dropWhile (·.offset ≤ p.range.start)).dropWhile (·.offset < p.range.stop)) ps := by
  have htake : p.range.start - byteLength pre = byteLength a := by omega
  have hdrop : p.range.stop - byteLength pre = byteLength (a ++ m) := by
    rw [byteLength_append]
    omega
  rw [patchedRuns, htake, takeBytes_append, hdrop, ← List.append_assoc, dropBytes_append]

theorem textOf_patchedRuns_cons {pre a m b : List Char} {is : List Insertion} {p : Patch}
    {ps : List Patch} (ha : byteLength pre + byteLength a = p.range.start)
    (hm : p.range.start + byteLength m = p.range.stop) :
    textOf (patchedRuns (byteLength pre) (a ++ (m ++ b)) is (p :: ps)) =
      textOf (stretchRuns (byteLength pre) a (is.takeWhile (·.offset ≤ p.range.start))) ++
        (p.text.toList ++ textOf (patchedRuns p.range.stop b
          ((is.dropWhile (·.offset ≤ p.range.start)).dropWhile (·.offset < p.range.stop)) ps)) := by
  rw [patchedRuns_cons b ps ha hm, textOf_append, textOf_cons]
  rfl

/-- **The source from a place on**, with the insertions and patches from there on. -/
theorem text_patchedRuns {source pre cs : List Char} {is : List Insertion} {ps : List Patch}
    (hsource : source = pre ++ cs)
    (hsorted : is.Pairwise fun a b => a.offset ≤ b.offset)
    (hb : ∀ i ∈ is, isBoundary i.offset source = true)
    (hps : ∀ p ∈ ps, p.range.OnBoundaries source ∧ p.range.start < p.range.stop)
    (hapart : ps.Pairwise fun p q => p.range.stop ≤ q.range.start)
    (hle : ∀ p ∈ ps, byteLength pre ≤ p.range.start) :
    textOf (patchedRuns (byteLength pre) cs (is.filter (byteLength pre ≤ ·.offset)) ps) =
      (List.range' (byteLength pre) (byteLength cs + 1)).flatMap (shownAt source is ps) := by
  induction ps generalizing pre cs with
  | nil =>
    rw [patchedRuns, text_stretchRuns (hsorted.filter _)
      (fun i hi => by simpa using (List.mem_filter.1 hi).2)
      (fun i hi => by rw [← hsource]; exact hb i (List.mem_filter.1 hi).1)]
    apply List.flatMap_congr
    intro n hn
    have hn := List.mem_range'_1.1 hn
    have hshown : shownAt source is [] n = insertedAt is n ++ charAt n source :=
      shownAt_of_lt fun p hp => (nomatch hp)
    rw [hshown, hsource, insertedAt_filter fun i _ hi => by simp only [decide_eq_true_eq]; omega]
  | cons p ps ih =>
    obtain ⟨hp, hrest⟩ := List.pairwise_cons.1 hapart
    obtain ⟨hpb, hplt⟩ := hps p (List.mem_cons_self ..)
    have hplo := hle p (List.mem_cons_self ..)
    -- the source in front of the patch, under it and behind it
    obtain ⟨a, m, b, rfl, hsource', ha, hm, hpre'⟩ := hpb.exists_around hsource hplo hplt
    have hpre : byteLength (pre ++ a) = p.range.start := by rw [byteLength_append, ha]
    have ih := ih hsource' (fun q hq => hps q (List.mem_cons_of_mem _ hq)) hrest
      (fun q hq => by rw [hpre']; exact hp q hq)
    rw [hpre'] at ih
    have hstretch := text_stretchRuns
      ((hsorted.filter (byteLength pre ≤ ·.offset)).filter (·.offset ≤ p.range.start))
      (fun i hi => by simpa using (List.mem_filter.1 (List.mem_filter.1 hi).1).2)
      (fun i hi => by
        obtain ⟨hi, hile⟩ := List.mem_filter.1 hi
        have hbi := hb i (List.mem_filter.1 hi).1
        rw [hsource, ← List.append_assoc] at hbi
        exact isBoundary_left hbi (by rw [hpre]; simpa using hile))
    -- of the insertions from here on, those up to the start of the patch belong to the stretch
    have hkept : ∀ n, byteLength pre ≤ n → n ≤ p.range.start →
        insertedAt ((is.filter (byteLength pre ≤ ·.offset)).filter (·.offset ≤ p.range.start)) n =
          insertedAt is n := by
      intro n hlo hhi
      rw [insertedAt_filter, insertedAt_filter]
      · intro i _ hi
        simp only [decide_eq_true_eq]
        omega
      · intro i _ hi
        simp only [decide_eq_true_eq]
        omega
    have hbefore : (List.range' (byteLength pre) (byteLength a)).flatMap
        (shownAt source is (p :: ps)) =
        (List.range' (byteLength pre) (byteLength a)).flatMap fun n =>
          insertedAt ((is.filter (byteLength pre ≤ ·.offset)).filter
            (·.offset ≤ p.range.start)) n ++ charAt n (pre ++ a) := by
      have hbehind : ∀ q ∈ p :: ps, byteLength pre + byteLength a ≤ q.range.start := by
        intro q hq
        rcases List.mem_cons.1 hq with rfl | hq
        · omega
        · have := hp q hq
          omega
      rw [hsource, flatMap_shownAt_before hbehind]
      apply List.flatMap_congr
      intro n hn
      have hn := List.mem_range'_1.1 hn
      rw [hkept n hn.1 (by omega)]
    have hend : charAt p.range.start (pre ++ a) = [] := by
      rw [← hpre]
      exact charAt_byteLength _
    rw [List.range'_concat, Nat.one_mul, ha, List.flatMap_append, ← hbefore,
      List.flatMap_singleton, hkept _ hplo (Nat.le_refl _), hend, List.append_nil] at hstretch
    have hrange : List.range' (byteLength pre) (byteLength (a ++ (m ++ b)) + 1) =
        List.range' (byteLength pre) (byteLength a) ++
          (List.range' p.range.start (byteLength m) ++
            List.range' p.range.stop (byteLength b + 1)) := by
      rw [← hm, List.range'_append_1, ← ha, List.range'_append_1, byteLength_append,
        byteLength_append]
      congr 1
    rw [textOf_patchedRuns_cons ha hm, takeWhile_offset_le _ _ hsorted,
      dropWhile_offset_lt hplo hplt hsorted, hstretch, ih, hrange, List.flatMap_append,
      List.flatMap_append, flatMap_shownAt_under hplt hp hm, flatMap_shownAt_behind ps _ hplt]
    simp only [List.append_assoc]

/-! ## Whole texts -/

theorem eq_of_start {ps : List Patch} (hlt : ∀ p ∈ ps, p.range.start < p.range.stop)
    (hapart : ps.Pairwise fun p q => p.range.stop ≤ q.range.start) {p q : Patch} (hp : p ∈ ps)
    (hq : q ∈ ps) (h : p.range.start = q.range.start) : p = q := by
  induction ps with
  | nil => cases hp
  | cons r ps ih =>
    obtain ⟨hr, hrest⟩ := List.pairwise_cons.1 hapart
    have hrlt := hlt r (List.mem_cons_self ..)
    rcases List.mem_cons.1 hp with rfl | hp
    · rcases List.mem_cons.1 hq with rfl | hq
      · rfl
      · have := hr q hq
        omega
    · rcases List.mem_cons.1 hq with hqr | hq
      · have := hr p hp
        rw [hqr] at h
        omega
      · exact ih (fun o ho => hlt o (List.mem_cons_of_mem _ ho)) hrest hp hq

/-- What is rendered at an offset depends on which patches there are, not on their order. -/
theorem patchTextAt_congr {ps qs : List Patch} (hmem : ∀ p, p ∈ ps ↔ p ∈ qs)
    (hunique : ∀ p ∈ ps, ∀ q ∈ ps, p.range.start = q.range.start → p = q) (n : Nat) :
    patchTextAt ps n = patchTextAt qs n := by
  have heq : ps.find? (·.range.start == n) = qs.find? (·.range.start == n) := by
    cases hp : ps.find? (·.range.start == n) with
    | none =>
      refine (List.find?_eq_none.2 fun q hq => ?_).symm
      exact List.find?_eq_none.1 hp q ((hmem q).2 hq)
    | some p =>
      have hpn : p.range.start = n := by simpa using List.find?_some hp
      have hpm := List.mem_of_find?_eq_some hp
      cases hq : qs.find? (·.range.start == n) with
      | none => exact absurd (by simpa using hpn) (List.find?_eq_none.1 hq p ((hmem p).1 hpm))
      | some q =>
        have hqn : q.range.start = n := by simpa using List.find?_some hq
        have hqm := (hmem q).2 (List.mem_of_find?_eq_some hq)
        rw [hunique p hpm q hqm (hpn.trans hqn.symm)]
  rw [patchTextAt, patchTextAt, heq]

theorem any_congr_mem {α : Type} {l k : List α} (hmem : ∀ a, a ∈ l ↔ a ∈ k) (f : α → Bool) :
    l.any f = k.any f := by
  rw [Bool.eq_iff_iff, List.any_eq_true, List.any_eq_true]
  constructor
  · intro ⟨a, ha, hf⟩
    exact ⟨a, (hmem a).1 ha, hf⟩
  · intro ⟨a, ha, hf⟩
    exact ⟨a, (hmem a).2 ha, hf⟩

namespace Draft

section
variable {d : Draft} {source : List Char} {es : List Edit}

theorem Records.isBoundary_of_mem (h : d.Records source es) :
    ∀ i ∈ d.sortedInsertions, isBoundary i.offset source = true := fun i hi => by
  rw [← h.source]
  exact h.inOrder.insertions i (mem_sortedInsertions.1 hi)

theorem Records.onBoundaries_of_mem (h : d.Records source es) :
    ∀ p ∈ d.patches, p.range.OnBoundaries source ∧ p.range.start < p.range.stop := fun p hp => by
  rw [← h.source]
  exact h.inOrder.patches p hp

theorem filter_sortedInsertions_zero (d : Draft) :
    d.sortedInsertions.filter (0 ≤ ·.offset) = d.sortedInsertions :=
  List.filter_eq_self.2 fun i _ => decide_eq_true (Nat.zero_le i.offset)

/-- A draft that holds some edits shows at an offset what they say there. -/
theorem Records.shownAt_eq (h : d.Records source es) (n : Nat) :
    shownAt source d.sortedInsertions d.patches n =
      renderedAt source (insertionsOf es) (survivors (patchesOf es)) n := by
  have hunique : ∀ p ∈ d.patches, ∀ q ∈ d.patches, p.range.start = q.range.start → p = q :=
    fun p hp q hq => eq_of_start (fun o ho => (h.onBoundaries_of_mem o ho).2) h.inOrder.apart hp hq
  have hinserted : insertedAt d.sortedInsertions n =
      insertedText (insertionsAt (insertionsOf es) n .left) ++
        insertedText (insertionsAt (insertionsOf es) n .right) := by
    rw [insertedAt, filter_sortedInsertions, h.insertions, insertedText, List.flatMap_append]
    rfl
  rw [shownAt, renderedAt, hinserted, any_congr_mem h.patches, any_congr_mem h.patches,
    patchTextAt_congr h.patches hunique]

theorem Records.textOf_fronts (h : d.Records source es) :
    textOf (d.fronts.reverse.map fun p => ⟨none, p.toList⟩) =
      (frontsOf es).reverse.flatMap String.toList := by
  rw [textOf, List.flatMap_map, h.fronts]

/-- **A draft that holds some edits** renders to what they say at each offset. -/
theorem text_of_records (h : d.Records source es) :
    d.text = String.ofList (rendered source es) := by
  have hsource : source = [] ++ source := rfl
  have hpatched := text_patchedRuns hsource d.pairwise_sortedInsertions h.isBoundary_of_mem
    h.onBoundaries_of_mem h.inOrder.apart (fun p _ => Nat.zero_le _)
  rw [byteLength_nil, d.filter_sortedInsertions_zero] at hpatched
  have hruns : d.runs.flatMap Run.text = rendered source es := by
    show textOf (_ ++ _) = _
    rw [textOf_append, h.textOf_fronts, h.source, hpatched, rendered, List.range_eq_range']
    exact congrArg _ (List.flatMap_congr fun n _ => h.shownAt_eq n)
  rw [text, hruns]

end

/-- **The edited text** is what the edits that are not refused say at each offset, whatever the
edits and their order. -/
theorem text_after (source : List Char) (es : List Edit) :
    ((ofSource source).after es).text =
      String.ofList (rendered source ((ofSource source).accepted es)) :=
  text_of_records (records_after (records_ofSource source) es)

/-- Two insertions at one offset, a patch that takes in another one, and an edit that is refused. -/
example : ((ofSource "abcdef".toList).after
    [.insertion ⟨1, .right, "2"⟩, .insertion ⟨1, .left, "1"⟩, .patch ⟨⟨2, 3⟩, "x"⟩,
      .insertion ⟨3, .left, "3"⟩, .patch ⟨⟨1, 4⟩, "y"⟩, .patch ⟨⟨3, 5⟩, "z"⟩,
      .front "0"]).text = "0a12yef" := by cbv

end Draft

end Islands
