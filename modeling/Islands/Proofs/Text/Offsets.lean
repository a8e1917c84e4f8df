import Islands.Text.Span

/-!
# Offsets between characters

An offset is a boundary of a text exactly if the text falls into two parts there, the first of
that many bytes (`isBoundary_iff`). Statements about offsets are reduced to such divisions: a span
between two boundaries leaves a text in three parts (`Span.OnBoundaries.exists_around`), and a
place in a part is a place in the whole (`isBoundary_shift`).
-/

namespace Islands

/-! ## Boundaries -/

/-- **Boundaries are divisions**: an offset is a boundary if that many bytes are some of the
characters at the start. -/
theorem isBoundary_iff {n : Nat} {cs : List Char} :
    isBoundary n cs = true ↔ ∃ a b, cs = a ++ b ∧ byteLength a = n := by
  induction cs generalizing n with
  | nil =>
    cases n with
    | zero => exact ⟨fun _ => ⟨[], [], rfl, rfl⟩, fun _ => rfl⟩
    | succ n =>
      refine ⟨fun h => by simp [isBoundary] at h, ?_⟩
      intro h
      obtain ⟨a, b, hab, hn⟩ := h
      obtain ⟨rfl, rfl⟩ := List.nil_eq_append_iff.1 hab
      cases hn
  | cons c cs ih =>
    have hc := Char.utf8Size_pos c
    cases n with
    | zero => exact ⟨fun _ => ⟨[], c :: cs, rfl, rfl⟩, fun _ => rfl⟩
    | succ n =>
      simp only [isBoundary, Bool.and_eq_true, decide_eq_true_eq, ih]
      constructor
      · intro h
        obtain ⟨hle, a, b, rfl, ha⟩ := h
        exact ⟨c :: a, b, rfl, by rw [byteLength_cons, ha]; omega⟩
      · intro h
        obtain ⟨a, b, hab, ha⟩ := h
        cases a with
        | nil => cases ha
        | cons d a =>
          obtain ⟨rfl, rfl⟩ := List.cons.inj hab
          rw [byteLength_cons] at ha
          exact ⟨by omega, a, b, rfl, by omega⟩

theorem isBoundary_byteLength (a b : List Char) : isBoundary (byteLength a) (a ++ b) = true :=
  isBoundary_iff.2 ⟨a, b, rfl, rfl⟩

theorem isBoundary_length (a : List Char) : isBoundary (byteLength a) a = true :=
  isBoundary_iff.2 ⟨a, [], by simp, rfl⟩

theorem le_of_isBoundary {n : Nat} {cs : List Char} (h : isBoundary n cs = true) :
    n ≤ byteLength cs := by
  obtain ⟨a, b, rfl, rfl⟩ := isBoundary_iff.1 h
  simp

theorem isBoundary_shift {n : Nat} {b : List Char} (a c : List Char) (h : isBoundary n b = true) :
    isBoundary (byteLength a + n) (a ++ (b ++ c)) = true := by
  obtain ⟨x, y, rfl, rfl⟩ := isBoundary_iff.1 h
  exact isBoundary_iff.2 ⟨a ++ x, y ++ c, by simp, by simp⟩

/-! ## Divisions -/

/-- Two divisions of a text, the first of which is not behind the second, leave a middle part. -/
theorem exists_between {a b x y : List Char} (h : a ++ b = x ++ y)
    (hle : byteLength a ≤ byteLength x) : ∃ m, x = a ++ m ∧ b = m ++ y := by
  rcases List.append_eq_append_iff.1 h with ⟨m, rfl, rfl⟩ | ⟨m, rfl, rfl⟩
  · exact ⟨m, rfl, rfl⟩
  · rw [byteLength_append] at hle
    have hm : m = [] := by
      cases m with
      | nil => rfl
      | cons c m => have := byteLength_pos (List.cons_ne_nil c m); omega
    subst hm
    exact ⟨[], by simp, by simp⟩

theorem append_inj_of_byteLength {a b x y : List Char} (h : a ++ b = x ++ y)
    (hlength : byteLength a = byteLength x) : a = x ∧ b = y := by
  obtain ⟨m, rfl, rfl⟩ := exists_between h (Nat.le_of_eq hlength)
  have hm : m = [] := by
    cases m with
    | nil => rfl
    | cons c m =>
      have := byteLength_pos (List.cons_ne_nil c m)
      rw [byteLength_append] at hlength
      omega
  subst hm
  exact ⟨(List.append_nil a).symm, rfl⟩

/-- A boundary behind `pre` divides what stands behind `pre`. -/
theorem exists_division {n : Nat} {pre cs : List Char} (h : isBoundary n (pre ++ cs) = true)
    (hle : byteLength pre ≤ n) :
    ∃ a b, cs = a ++ b ∧ byteLength pre + byteLength a = n := by
  obtain ⟨x, y, hxy, rfl⟩ := isBoundary_iff.1 h
  obtain ⟨a, rfl, rfl⟩ := exists_between hxy hle
  exact ⟨a, y, rfl, by rw [byteLength_append]⟩

theorem isBoundary_left {n : Nat} {a b : List Char} (h : isBoundary n (a ++ b) = true)
    (hle : n ≤ byteLength a) : isBoundary n a = true := by
  obtain ⟨x, y, hxy, rfl⟩ := isBoundary_iff.1 h
  obtain ⟨m, rfl, -⟩ := exists_between hxy.symm hle
  exact isBoundary_byteLength x m

/-- No boundary is within a character. -/
theorem le_or_le_of_isBoundary {n : Nat} {a b : List Char} {c : Char}
    (h : isBoundary n (a ++ c :: b) = true) :
    n ≤ byteLength a ∨ byteLength (a ++ [c]) ≤ n := by
  obtain ⟨x, y, hxy, rfl⟩ := isBoundary_iff.1 h
  by_cases hle : byteLength x ≤ byteLength a
  · exact .inl hle
  · obtain ⟨m, rfl, hm⟩ := exists_between hxy (by omega)
    cases m with
    | nil => exact absurd (Nat.le_of_eq (congrArg byteLength (List.append_nil a))) hle
    | cons d m =>
      obtain ⟨rfl, -⟩ := List.cons.inj hm
      refine .inr ?_
      rw [byteLength_append, byteLength_append, byteLength_cons, byteLength_cons, byteLength_nil]
      omega

namespace Span

/-- Both ends of a span are between characters. -/
def OnBoundaries (cs : List Char) (s : Span) : Prop :=
  isBoundary s.start cs = true ∧ isBoundary s.stop cs = true

theorem onBoundaries_append (a b c : List Char) :
    OnBoundaries (a ++ (b ++ c)) ⟨byteLength a, byteLength a + byteLength b⟩ :=
  ⟨isBoundary_byteLength a _, isBoundary_shift a c (isBoundary_length b)⟩

/-- A span divides what stands behind `pre` into what is in front of it, in it and behind it. -/
theorem OnBoundaries.exists_around {source pre cs : List Char} {s : Span}
    (h : s.OnBoundaries source) (hsource : source = pre ++ cs) (hpre : byteLength pre ≤ s.start)
    (hlt : s.start < s.stop) :
    ∃ a m b, cs = a ++ (m ++ b) ∧ source = (pre ++ (a ++ m)) ++ b ∧
      byteLength pre + byteLength a = s.start ∧ s.start + byteLength m = s.stop ∧
      byteLength (pre ++ (a ++ m)) = s.stop := by
  rw [hsource] at h ⊢
  obtain ⟨a, b, rfl, ha⟩ := exists_division h.1 hpre
  have hstop := h.2
  rw [← List.append_assoc] at hstop
  obtain ⟨m, b, rfl, hm⟩ := exists_division hstop (by rw [byteLength_append]; omega)
  rw [byteLength_append] at hm
  exact ⟨a, m, b, rfl, by simp, ha, by omega, by rw [byteLength_append, byteLength_append]; omega⟩

end Span

end Islands
