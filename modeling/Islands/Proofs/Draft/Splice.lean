import Islands.Draft.Basic
import Islands.Proofs.Text.Offsets

/-!
# Patches in place of their ranges

A text is spliced (`Spliced`) when each patch stands in place of its range and all else is as it
was. An insertion is a patch of the empty range at its place. What a text is spliced into is
determined (`Spliced.unique`); it can be cut at every place that is not inside a patch
(`Spliced.exists_cut`) and put together again (`Spliced.append`). So a part of the text that no
patch touches is copied (`Copied`) between what stands in front of it and what stands behind it.
-/

namespace Islands

/-- The text `cs`, which starts at an offset, with each patch in place of its range: the patches
stand in order, and what none of them covers is in the result, unchanged and once. -/
inductive Spliced : Nat → List Char → List Patch → List Char → Prop
  | rest (start : Nat) (cs : List Char) : Spliced start cs [] cs
  | patch {start : Nat} {p : Patch} {ps : List Patch} {out : List Char}
    (before covered after : List Char)
    (hstart : start + byteLength before = p.range.start)
    (hstop : p.range.start + byteLength covered = p.range.stop)
    (h : Spliced p.range.stop after ps out) :
    Spliced start (before ++ (covered ++ after)) (p :: ps) (before ++ (p.text.toList ++ out))

/-- The patch that puts a text in at an offset. -/
def insertionPatch (offset : Nat) (text : String) : Patch := ⟨⟨offset, offset⟩, text⟩

namespace Spliced

variable {start : Nat} {cs a b out x y : List Char} {p : Patch} {ps qs : List Patch}

/-! ## Where patches are -/

theorem exists_of_cons (h : Spliced start cs (p :: ps) out) :
    ∃ before covered after out', cs = before ++ (covered ++ after) ∧
      out = before ++ (p.text.toList ++ out') ∧ start + byteLength before = p.range.start ∧
      p.range.start + byteLength covered = p.range.stop ∧ Spliced p.range.stop after ps out' := by
  cases h with
  | patch before covered after hstart hstop h =>
    exact ⟨before, covered, after, _, rfl, rfl, hstart, hstop, h⟩

theorem bounds (h : Spliced start cs ps out) {q : Patch} (hq : q ∈ ps) :
    start ≤ q.range.start ∧ q.range.start ≤ q.range.stop ∧
      q.range.stop ≤ start + byteLength cs := by
  induction h with
  | rest => cases hq
  | patch before covered after hstart hstop _ ih =>
    rw [byteLength_append, byteLength_append]
    rcases List.mem_cons.1 hq with rfl | hq
    · omega
    · have := ih hq
      omega

/-- **The result is determined** by the text and the patches. -/
theorem unique (hx : Spliced start cs ps x) (hy : Spliced start cs ps y) : x = y := by
  induction hx generalizing y with
  | rest =>
    cases hy
    rfl
  | patch before covered after hstart hstop _ ih =>
    obtain ⟨before', covered', after', out', hcs, rfl, hstart', hstop', h'⟩ := hy.exists_of_cons
    have hbefore : byteLength before = byteLength before' := by omega
    obtain ⟨rfl, hrest⟩ := append_inj_of_byteLength hcs hbefore
    obtain ⟨rfl, rfl⟩ := append_inj_of_byteLength hrest (by omega)
    rw [ih h']

/-! ## Cuts -/

theorem prepend (a : List Char) (h : Spliced (start + byteLength a) cs ps out) :
    Spliced start (a ++ cs) ps (a ++ out) := by
  cases h with
  | rest => exact .rest start _
  | patch before covered after hstart hstop h =>
    rw [Nat.add_assoc, ← byteLength_append] at hstart
    have h := Spliced.patch (a ++ before) covered after hstart hstop h
    rwa [List.append_assoc, List.append_assoc] at h

theorem exists_of_le (h : Spliced start (a ++ cs) ps out)
    (hps : ∀ p ∈ ps, start + byteLength a ≤ p.range.start) :
    ∃ y, out = a ++ y ∧ Spliced (start + byteLength a) cs ps y := by
  cases ps with
  | nil =>
    generalize hcs : a ++ cs = all at h
    cases h
    exact ⟨cs, hcs.symm, .rest _ cs⟩
  | cons p ps =>
    obtain ⟨before, covered, after, out', hcs, rfl, hstart, hstop, h'⟩ := h.exists_of_cons
    have hle := hps p (List.mem_cons_self ..)
    obtain ⟨m, rfl, rfl⟩ := exists_between hcs (by omega)
    rw [byteLength_append] at hstart
    exact ⟨m ++ (p.text.toList ++ out'), by simp, .patch m covered after (by omega) hstop h'⟩

theorem append (hx : Spliced start a ps x) (hy : Spliced (start + byteLength a) b qs y) :
    Spliced start (a ++ b) (ps ++ qs) (x ++ y) := by
  induction hx with
  | rest => exact hy.prepend _
  | patch before covered after hstart hstop _ ih =>
    rw [byteLength_append, byteLength_append] at hy
    have hplace : ∀ n k, n + (byteLength before + (byteLength covered + k)) =
        n + byteLength before + byteLength covered + k := by omega
    rw [hplace, hstart, hstop] at hy
    have h := Spliced.patch before covered _ hstart hstop (ih hy)
    simpa only [List.append_assoc, List.cons_append] using h

/-- **A cut** at a place that is not inside a patch. A patch of the empty range at the place stands
in front of it. -/
theorem exists_cut (h : Spliced start (a ++ b) ps out)
    (hps : ∀ p ∈ ps, p.range.stop ≤ start + byteLength a ∨
      start + byteLength a ≤ p.range.start) :
    ∃ before after x y, ps = before ++ after ∧ out = x ++ y ∧ Spliced start a before x ∧
      Spliced (start + byteLength a) b after y ∧
      (∀ p ∈ before, p.range.stop ≤ start + byteLength a) ∧
      ∀ p ∈ after, start + byteLength a ≤ p.range.start ∧
        start + byteLength a < p.range.stop := by
  induction ps generalizing start a out with
  | nil =>
    generalize hcs : a ++ b = cs at h
    cases h
    subst hcs
    exact ⟨[], [], a, b, rfl, rfl, .rest _ a, .rest _ b, fun _ hp => (nomatch hp),
      fun _ hp => (nomatch hp)⟩
  | cons p ps ih =>
    obtain ⟨before, covered, rest, out', hcs, rfl, hstart, hstop, h'⟩ := h.exists_of_cons
    by_cases hp : p.range.stop ≤ start + byteLength a
    · -- the patch is in front of the cut
      rw [← List.append_assoc] at hcs
      obtain ⟨m, rfl, rfl⟩ := exists_between hcs.symm (by rw [byteLength_append]; omega)
      rw [byteLength_append, byteLength_append] at hps hp ⊢
      have hcut : start + (byteLength before + byteLength covered + byteLength m) =
          p.range.stop + byteLength m := by omega
      rw [hcut] at hps hp ⊢
      obtain ⟨qs, rs, x, y, rfl, rfl, hx, hy, hqs, hrs⟩ :=
        ih h' fun q hq => hps q (List.mem_cons_of_mem _ hq)
      refine ⟨p :: qs, rs, before ++ (p.text.toList ++ x), y, rfl, by simp, ?_, hy, ?_, hrs⟩
      · rw [List.append_assoc]
        exact .patch before covered m hstart hstop hx
      · intro q hq
        rcases List.mem_cons.1 hq with rfl | hq
        · exact hp
        · exact hqs q hq
    · -- the patch is behind the cut, and so are all others
      have hall : ∀ q ∈ p :: ps, start + byteLength a ≤ q.range.start ∧
          start + byteLength a < q.range.stop := by
        intro q hq
        have hle := (hps p (List.mem_cons_self ..)).resolve_left hp
        rcases List.mem_cons.1 hq with rfl | hq
        · omega
        · have := h'.bounds hq
          omega
      obtain ⟨y, hy, hspliced⟩ := h.exists_of_le fun q hq => (hall q hq).1
      exact ⟨[], p :: ps, a, y, rfl, hy, .rest _ a, hspliced, fun _ hq => (nomatch hq), hall⟩

/-- Patches within the middle part of a text change nothing but that part. -/
theorem exists_within {m : List Char} (h : Spliced start (a ++ (m ++ b)) ps out)
    (hps : ∀ p ∈ ps, start + byteLength a ≤ p.range.start ∧
      p.range.stop ≤ start + byteLength a + byteLength m) :
    ∃ m', out = a ++ (m' ++ b) ∧ Spliced (start + byteLength a) m ps m' := by
  obtain ⟨y, rfl, hy⟩ := h.exists_of_le fun p hp => (hps p hp).1
  obtain ⟨before, after, m', y, rfl, rfl, hm', hy, -, hafter⟩ :=
    hy.exists_cut fun p hp => .inl (hps p hp).2
  have hnil : after = [] := by
    cases after with
    | nil => rfl
    | cons p after =>
      have hlt := (hafter p (List.mem_cons_self ..)).2
      have hle := (hps p (List.mem_append_right _ (List.mem_cons_self ..))).2
      exact absurd hle (Nat.not_le_of_lt hlt)
  subst hnil
  obtain rfl := hy.unique (.rest _ b)
  exact ⟨m', rfl, by rwa [List.append_nil]⟩

/-- Around one of the patches: what is in front of it and what is behind it is spliced with the
patches there. -/
theorem exists_around (h : Spliced start cs (ps ++ p :: qs) out) :
    ∃ a m b x y, cs = a ++ (m ++ b) ∧ out = x ++ (p.text.toList ++ y) ∧
      start + byteLength a = p.range.start ∧ p.range.start + byteLength m = p.range.stop ∧
      Spliced start a ps x ∧ Spliced p.range.stop b qs y := by
  induction ps generalizing start cs out with
  | nil =>
    obtain ⟨before, covered, after, out', rfl, rfl, hstart, hstop, h'⟩ := h.exists_of_cons
    exact ⟨before, covered, after, before, out', rfl, rfl, hstart, hstop, .rest start before, h'⟩
  | cons q ps ih =>
    obtain ⟨before, covered, after, out', rfl, rfl, hstart, hstop, h'⟩ := h.exists_of_cons
    obtain ⟨a, m, b, x, y, rfl, rfl, ha, hm, hx, hy⟩ := ih h'
    refine ⟨before ++ (covered ++ a), m, b, before ++ (q.text.toList ++ x), y, by simp, by simp, ?_,
      hm, .patch before covered a hstart hstop hx, hy⟩
    rw [byteLength_append, byteLength_append]
    omega

end Spliced

/-! ## Copies -/

/-- The part `m` of the text `a ++ (m ++ b)` is copied by some patches: those in front of it turn
`a` into `x`, and those behind it turn `b` into `y`. -/
def Copied (ps : List Patch) (a m b x y : List Char) : Prop :=
  ∃ before after, ps = before ++ after ∧ Spliced 0 a before x ∧
    Spliced (byteLength a + byteLength m) b after y

/-- **What is copied** stands in the spliced text between what the rest has become. -/
theorem Copied.eq {ps : List Patch} {a m b x y out : List Char} (h : Copied ps a m b x y)
    (hout : Spliced 0 (a ++ (m ++ b)) ps out) : out = x ++ (m ++ y) := by
  obtain ⟨before, after, rfl, hx, hy⟩ := h
  refine hout.unique (hx.append ?_)
  rw [Nat.zero_add]
  exact hy.prepend m

/-- A part that no patch touches, and that none is put in at either end of, is copied. -/
theorem exists_copied {ps : List Patch} {a m b out : List Char}
    (h : Spliced 0 (a ++ (m ++ b)) ps out) (hm : m ≠ [])
    (hps : ∀ p ∈ ps, p.range.stop ≤ byteLength a ∨
      byteLength a + byteLength m ≤ p.range.start) :
    ∃ x y, Copied ps a m b x y := by
  have hpos := byteLength_pos hm
  obtain ⟨before, rest, x, z, rfl, rfl, hx, hz, hbefore, hrest⟩ := h.exists_cut fun p hp => by
    have := hps p hp
    omega
  rw [Nat.zero_add] at hz
  obtain ⟨y, rfl, hy⟩ := hz.exists_of_le fun p hp => by
    have := hrest p hp
    have := hps p (List.mem_append_right _ hp)
    omega
  exact ⟨x, y, before, rest, rfl, hx, hy⟩

end Islands
