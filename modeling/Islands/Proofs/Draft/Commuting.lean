import Mathlib.Data.List.Sort
import Islands.Proofs.Draft.Rendering
import Islands.Proofs.Draft.Verdicts
import Islands.SourceMap.Builder

/-!
# Edits in either order

Two edits that do not concern the same place (`Edit.Independent`) can be made in either order. What
is answered to one does not change with the other (`verdict_effect`): a patch that gives way to
another one has no byte in common with a range beside it. And the draft is rendered alike
(`effects_alike`): patches are kept in order, and insertions are put in order before they are
rendered. `after_comm` says both for every draft that edits were made to.
-/

namespace Islands

/-! ## Independent edits -/

/-- Edits that do not concern the same place: patches without a common byte, insertions at different
offsets or on different sides, and edits of different kinds. -/
def Edit.Independent : Edit → Edit → Prop
  | .patch p, .patch q => ∀ n, p.range.covers n = true → q.range.covers n = false
  | .insertion i, .insertion j => (i.offset, i.side) ≠ (j.offset, j.side)
  | .front _, .front _ => False
  | _, _ => True

theorem Edit.Independent.symm {a b : Edit} (h : a.Independent b) : b.Independent a := by
  cases a <;> cases b
  case patch.patch p q =>
    intro n hq
    cases hp : p.range.covers n with
    | false => rfl
    | true => rw [h n hp] at hq; cases hq
  case insertion.insertion i j => exact fun hij => h hij.symm
  case front.front => exact h.elim
  all_goals trivial

theorem Span.isDisjoint_of_covers {s t : Span} (hs : s.start < s.stop) (ht : t.start < t.stop)
    (h : ∀ n, s.covers n = true → t.covers n = false) : s.isDisjoint t = true := by
  have hcovers : ∀ n, s.start ≤ n → n < s.stop → ¬(t.start ≤ n ∧ n < t.stop) := by
    intro n hle hlt hn
    have hout := h n (covers_iff.2 ⟨hle, hlt⟩)
    rw [covers_iff.2 hn] at hout
    cases hout
  have hfirst := hcovers (max s.start t.start)
  exact isDisjoint_iff.2 (by omega)

namespace Draft

variable {d : Draft} {a b : Edit}

/-! ## Verdicts -/

/-- Whether a patch stands in the way of a range: it has a byte in common with it and is not within
it. -/
def obstructs (range : Span) (o : Patch) : Bool :=
  !(o.range.isDisjoint range || o.range.isWithin range)

theorem source_effect (d : Draft) (e : Edit) : (d.effect e).source = d.source := by
  cases e <;> rfl

theorem check_congr {d d' : Draft} (h : d'.source = d.source) (range : Span) :
    d'.check range = d.check range := by
  unfold check length
  rw [h]

/-- What is answered depends on the source alone, for a patch also on the first one that stands in
its way. -/
theorem verdict_congr {d d' : Draft} (hsource : d'.source = d.source)
    (hpatches : ∀ p, b = .patch p →
      d'.patches.find? (obstructs p.range) = d.patches.find? (obstructs p.range)) :
    d'.verdict b = d.verdict b := by
  cases b with
  | front text => rfl
  | insertion i =>
    simp only [verdict, make, insertAt, check_congr hsource]
    cases d.check ⟨i.offset, i.offset⟩ <;> rfl
  | patch p =>
    have hpatches := hpatches p rfl
    unfold obstructs at hpatches
    simp only [verdict, make, replaceRange, check_congr hsource, hpatches]
    cases d.check p.range with
    | error fault => rfl
    | ok =>
      simp only
      split
      · rfl
      · cases d.patches.find? _ <;> rfl

theorem find?_addPatch {f : Patch → Bool} {p : Patch} (hp : f p = false) (ps : List Patch) :
    (addPatch p ps).find? f = ps.find? f := by
  obtain ⟨before, after, hadd, rfl⟩ := exists_addPatch p ps
  rw [hadd, List.find?_append, List.find?_append, List.find?_cons, hp]

/-- Nothing within a range stands in the way of another range beside it. -/
theorem obstructs_of_isWithin {s t : Span} {o : Patch} (h : s.isDisjoint t = true)
    (ho : o.range.isWithin s = true) : obstructs t o = false := by
  rw [Span.isDisjoint_iff] at h
  rw [Span.isWithin_iff] at ho
  have hdisjoint : o.range.isDisjoint t = true := Span.isDisjoint_iff.2 (by omega)
  rw [obstructs, hdisjoint]
  rfl

theorem find?_effect {p : Patch} {range : Span} (h : p.range.isDisjoint range = true) :
    (d.effect (.patch p)).patches.find? (obstructs range) = d.patches.find? (obstructs range) := by
  have hp : obstructs range p = false :=
    obstructs_of_isWithin h (Span.isWithin_refl _)
  show (addPatch p _).find? _ = _
  rw [find?_addPatch hp, List.find?_filter]
  congr 1
  funext o
  cases hwithin : o.range.isWithin p.range with
  | false => simp
  | true => simp [obstructs_of_isWithin h hwithin]

theorem nonempty_of_verdict {p : Patch} (h : d.verdict (.patch p) = .ok ()) :
    p.range.start < p.range.stop := (verdict_patch_eq_ok_iff.1 h).nonempty

theorem verdict_of_empty {d' : Draft} {p : Patch} (hsource : d'.source = d.source)
    (hempty : ¬p.range.start < p.range.stop) : d'.verdict (.patch p) = d.verdict (.patch p) := by
  simp only [verdict, make, replaceRange, check_congr hsource]
  cases hcheck : d.check p.range with
  | error fault => rfl
  | ok =>
    have := (check_eq_ok_iff.1 hcheck).1
    simp only
    rw [if_pos (by omega), if_pos (by omega)]

/-- **Verdicts**: what is answered to an edit does not change with an independent one. -/
theorem verdict_effect (h : a.Independent b) (ha : d.verdict a = .ok ()) :
    (d.effect a).verdict b = d.verdict b := by
  by_cases hempty : ∃ q, b = .patch q ∧ ¬q.range.start < q.range.stop
  · obtain ⟨q, rfl, hempty⟩ := hempty
    exact verdict_of_empty (source_effect d a) hempty
  · refine verdict_congr (source_effect d a) fun q hb => ?_
    subst hb
    have hq : q.range.start < q.range.stop := Decidable.byContradiction fun hq =>
      hempty ⟨q, rfl, hq⟩
    cases a with
    | front text => rfl
    | insertion i => rfl
    | patch p => exact find?_effect (Span.isDisjoint_of_covers (nonempty_of_verdict ha) hq h)

/-! ## Effects -/

/-- Drafts that are rendered alike: they hold the same edits, but for insertions at different places
that were made in another order. -/
structure Alike (d d' : Draft) : Prop where
  source : d.source = d'.source
  fronts : d.fronts = d'.fronts
  insertions : d.sortedInsertions = d'.sortedInsertions
  patches : d.patches = d'.patches

theorem alike_refl (d : Draft) : d.Alike d := ⟨rfl, rfl, rfl, rfl⟩

theorem Alike.runs {d d' : Draft} (h : d.Alike d') : d.runs = d'.runs := by
  simp only [Draft.runs, h.source, h.fronts, h.insertions, h.patches]

theorem inOrder_effect (hd : d.InOrder) (ha : d.verdict a = .ok ()) : (d.effect a).InOrder :=
  inOrder_make hd (make_eq_ok ha)

theorem isWithin_eq_false {s t : Span} (hs : s.start < s.stop) (h : s.isDisjoint t = true) :
    s.isWithin t = false := by
  rw [Span.isDisjoint_iff] at h
  rw [Bool.eq_false_iff, Ne, Span.isWithin_iff]
  omega

/-- Patches are the same whichever was made first. -/
theorem patches_effects {p q : Patch} (h : p.range.isDisjoint q.range = true)
    (hp : p.range.start < p.range.stop) (hq : q.range.start < q.range.stop)
    (hpq : ((d.effect (.patch p)).effect (.patch q)).InOrder)
    (hqp : ((d.effect (.patch q)).effect (.patch p)).InOrder) :
    ((d.effect (.patch p)).effect (.patch q)).patches =
      ((d.effect (.patch q)).effect (.patch p)).patches := by
  have : Std.Irrefl fun p q : Patch => p.range.start < q.range.start :=
    ⟨fun _ => Nat.lt_irrefl _⟩
  have : Std.Antisymm fun p q : Patch => p.range.start < q.range.start :=
    ⟨fun _ _ h h' => absurd h (Nat.lt_asymm h')⟩
  have hpout := isWithin_eq_false hp h
  have hqout := isWithin_eq_false hq (Span.isDisjoint_symm h)
  refine hpq.patchesInOrder.ascending.eq_of_mem_iff hqp.patchesInOrder.ascending fun o => ?_
  simp only [effect, mem_addPatch, List.mem_filter]
  constructor
  · rintro (rfl | ⟨rfl | ⟨ho, hop⟩, hoq⟩)
    · exact .inr ⟨.inl rfl, by simp [hqout]⟩
    · exact .inl rfl
    · exact .inr ⟨.inr ⟨ho, hoq⟩, hop⟩
  · rintro (rfl | ⟨rfl | ⟨ho, hoq⟩, hop⟩)
    · exact .inr ⟨.inl rfl, by simp [hpout]⟩
    · exact .inl rfl
    · exact .inr ⟨.inr ⟨ho, hop⟩, hoq⟩

/-- **Effects**: independent edits leave drafts that are rendered alike. -/
theorem effects_alike (hd : d.InOrder) (h : a.Independent b) (ha : d.verdict a = .ok ())
    (hb : d.verdict b = .ok ()) : ((d.effect a).effect b).Alike ((d.effect b).effect a) := by
  have hab : (d.effect a).verdict b = .ok () := (verdict_effect h ha).trans hb
  have hba : (d.effect b).verdict a = .ok () := (verdict_effect h.symm hb).trans ha
  cases a <;> cases b
  case patch.patch p q =>
    have hp := nonempty_of_verdict ha
    have hq := nonempty_of_verdict hb
    exact ⟨rfl, rfl, rfl, patches_effects (Span.isDisjoint_of_covers hp hq h) hp hq
      (inOrder_effect (inOrder_effect hd ha) hab) (inOrder_effect (inOrder_effect hd hb) hba)⟩
  case insertion.insertion i j => exact ⟨rfl, rfl, mergeSort_append_swap d.insertions h, rfl⟩
  case front.front => exact h.elim
  all_goals exact alike_refl _

/-! ## Either order -/

theorem verdict_after (h : a.Independent b) : (d.after [a]).verdict b = d.verdict b := by
  cases ha : d.verdict a with
  | error fault =>
    rw [after_of_error ha]
    rfl
  | ok =>
    rw [after_of_ok ha]
    exact verdict_effect h ha

theorem after_alike (hd : d.InOrder) (h : a.Independent b) :
    (d.after [a, b]).Alike (d.after [b, a]) := by
  cases ha : d.verdict a with
  | error fault =>
    rw [after_of_error ha]
    cases hb : d.verdict b with
    | error fault =>
      rw [after_of_error hb, after_of_error hb, after_of_error ha]
      exact alike_refl d
    | ok =>
      have ha' : (d.effect b).verdict a = .error fault := (verdict_effect h.symm hb).trans ha
      rw [after_of_ok hb, after_of_ok hb, after_of_error ha']
      exact alike_refl (d.effect b)
  | ok =>
    have hb' : (d.effect a).verdict b = d.verdict b := verdict_effect h ha
    rw [after_of_ok ha]
    cases hb : d.verdict b with
    | error fault =>
      rw [after_of_error (hb'.trans hb), after_of_error hb, after_of_ok ha]
      exact alike_refl (d.effect a)
    | ok =>
      have ha' : (d.effect b).verdict a = .ok () := (verdict_effect h.symm hb).trans ha
      rw [after_of_ok (hb'.trans hb), after_of_ok hb, after_of_ok ha']
      exact effects_alike hd h ha hb

/-- **Independent edits**, in a draft that any edits were made to, can be made in either order: each
gets the same answer first and second, and the draft is rendered to the same text and the same
source map. -/
theorem after_comm (source : List Char) (es : List Edit) {a b : Edit} (h : a.Independent b) :
    let d := (ofSource source).after es
    (d.after [b]).verdict a = d.verdict a ∧ (d.after [a]).verdict b = d.verdict b ∧
      (d.after [a, b]).text = (d.after [b, a]).text ∧
      ∀ path, (d.after [a, b]).sourceMap path = (d.after [b, a]).sourceMap path := by
  intro d
  have halike : (d.after [a, b]).Alike (d.after [b, a]) :=
    after_alike (records_after (records_ofSource source) es).inOrder h
  refine ⟨verdict_after h.symm, verdict_after h, ?_, fun path => ?_⟩
  · rw [text, text, halike.runs]
  · rw [sourceMap, sourceMap, halike.runs, halike.source]

/-- A patch that takes in an earlier one, and a patch beside it that is refused. -/
theorem after_comm_beside :
    let d := (ofSource "abcdef".toList).after [.patch ⟨⟨2, 3⟩, "x"⟩, .patch ⟨⟨3, 5⟩, "y"⟩]
    let a : Edit := .patch ⟨⟨1, 3⟩, "a"⟩
    let b : Edit := .patch ⟨⟨4, 6⟩, "b"⟩
    a.Independent b ∧ d.verdict a = .ok () ∧ d.verdict b = .error (.overlap ⟨4, 6⟩ ⟨3, 5⟩) ∧
      ((d.after [b]).verdict a = d.verdict a ∧ (d.after [a]).verdict b = d.verdict b ∧
        (d.after [a, b]).text = (d.after [b, a]).text ∧
        ∀ path, (d.after [a, b]).sourceMap path = (d.after [b, a]).sourceMap path) := by
  intro d a b
  have h : a.Independent b := by
    intro n hn
    have hlt : n < 3 := (Span.covers_iff.1 hn).2
    refine Bool.eq_false_iff.2 fun hcovers => ?_
    have hle : 4 ≤ n := (Span.covers_iff.1 hcovers).1
    omega
  exact ⟨h, rfl, rfl, after_comm _ _ h⟩

end Draft

end Islands
