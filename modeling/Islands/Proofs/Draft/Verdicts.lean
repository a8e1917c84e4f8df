import Islands.Proofs.Draft.Edits

/-!
# When an edit is refused

An edit is refused or has its effect: `Draft.make` is put together from what it answers
(`Draft.verdict`) and from what becomes of the draft if the answer is yes (`Draft.effect`). A range
can be replaced exactly if it fits among the patches of the draft (`FitsAmong`): each of them is
beside it or within it. Those within it give way, the others stay, and the patches are again in
order (`patches_after`).

* `make_eq`: an edit is its verdict and its effect.
* `verdict_patch_eq_ok_iff`: which ranges can be replaced.
* `exists_addPatch`: where the new patch is put.
-/

namespace Islands

/-! ## Verdicts and effects -/

namespace Draft

/-- What is answered to an edit. -/
def verdict (d : Draft) (e : Edit) : Except EditFault Unit := (d.make e).map fun _ => ()

/-- A draft with one more edit, whether or not that should have been refused. -/
def effect (d : Draft) : Edit → Draft
  | .front text => d.addInFront text
  | .insertion i => { d with insertions := d.insertions ++ [i] }
  | .patch p =>
    { d with patches := addPatch p (d.patches.filter fun o => !o.range.isWithin p.range) }

variable {d : Draft} {e : Edit}

/-- **An edit** that is not refused has its effect. -/
theorem make_eq (d : Draft) (e : Edit) : d.make e = (d.verdict e).map fun _ => d.effect e := by
  unfold verdict
  cases hmake : d.make e with
  | error fault => rfl
  | ok d' =>
    cases e with
    | front text =>
      obtain rfl : d.addInFront text = d' := Except.ok.inj hmake
      rfl
    | insertion i =>
      obtain ⟨-, rfl⟩ := insertAt_eq_ok_iff.1 hmake
      rfl
    | patch p =>
      obtain ⟨-, -, -, rfl⟩ := replaceRange_eq_ok_iff.1 hmake
      rfl

theorem make_eq_ok (h : d.verdict e = .ok ()) : d.make e = .ok (d.effect e) := by
  rw [make_eq, h]
  rfl

theorem make_eq_error {fault : EditFault} (h : d.verdict e = .error fault) :
    d.make e = .error fault := by
  rw [make_eq, h]
  rfl

theorem after_of_ok (h : d.verdict e = .ok ()) (es : List Edit) :
    d.after (e :: es) = (d.effect e).after es := by
  rw [after, make_eq_ok h]

theorem after_of_error {fault : EditFault} (h : d.verdict e = .error fault) (es : List Edit) :
    d.after (e :: es) = d.after es := by
  rw [after, make_eq_error h]

theorem verdict_eq_ok_iff : d.verdict e = .ok () ↔ ∃ d', d.make e = .ok d' := by
  unfold verdict
  cases d.make e with
  | error fault => exact ⟨fun h => (nomatch h), fun ⟨_, h⟩ => (nomatch h)⟩
  | ok d' => exact ⟨fun _ => ⟨d', rfl⟩, fun _ => rfl⟩

end Draft

/-! ## Patches in order -/

/-- Patches of a source that are in order: they ascend, and no two of them have a byte in common. -/
structure PatchesInOrder (source : List Char) (ps : List Patch) : Prop where
  ascending : ps.Pairwise fun p q => p.range.start < q.range.start
  disjoint : ps.Pairwise fun p q => p.range.isDisjoint q.range = true
  nonempty : ∀ p ∈ ps, p.range.start < p.range.stop
  within : ∀ p ∈ ps, p.range.stop ≤ byteLength source
  onBoundaries : ∀ p ∈ ps, p.range.OnBoundaries source

/-- A range of a source that can be replaced beside some patches: it has a byte, and each patch that
has one in common with it is within it. -/
structure FitsAmong (source : List Char) (ps : List Patch) (range : Span) : Prop where
  nonempty : range.start < range.stop
  within : range.stop ≤ byteLength source
  onBoundaries : range.OnBoundaries source
  apart : ∀ o ∈ ps, o.range.isDisjoint range = true ∨ o.range.isWithin range = true

namespace Draft

/-- What a patch makes of a draft: the patches within it are gone and it stands among the others,
which are as they were. -/
structure Patched (d : Draft) (p : Patch) (d' : Draft) : Prop where
  source : d'.source = d.source
  fronts : d'.fronts = d.fronts
  insertions : d'.insertions = d.insertions
  patches : ∃ before after, d'.patches = before ++ p :: after ∧
    before ++ after = d.patches.filter fun o => !o.range.isWithin p.range

theorem exists_addPatch (p : Patch) (ps : List Patch) :
    ∃ before after, addPatch p ps = before ++ p :: after ∧ before ++ after = ps := by
  induction ps with
  | nil => exact ⟨[], [], rfl, rfl⟩
  | cons q ps ih =>
    unfold addPatch
    split
    · obtain ⟨before, after, hadd, hps⟩ := ih
      exact ⟨q :: before, after, by rw [hadd]; rfl, by rw [List.cons_append, hps]⟩
    · exact ⟨[], q :: ps, rfl, rfl⟩

variable {d : Draft} {p : Patch}

theorem InOrder.patchesInOrder (h : d.InOrder) : PatchesInOrder d.source d.patches where
  ascending := h.apart.imp_of_mem fun hp _ hpq => by
    have := (h.patches _ hp).2
    omega
  disjoint := h.apart.imp fun hpq => Span.isDisjoint_iff.2 (.inl hpq)
  nonempty := fun p hp => (h.patches p hp).2
  within := fun p hp => le_of_isBoundary (h.patches p hp).1.2
  onBoundaries := fun p hp => (h.patches p hp).1

/-- **Which ranges can be replaced.** -/
theorem verdict_patch_eq_ok_iff :
    d.verdict (.patch p) = .ok () ↔ FitsAmong d.source d.patches p.range := by
  rw [verdict_eq_ok_iff]
  constructor
  · intro ⟨d', h⟩
    obtain ⟨hb, hlt, hpatches, -⟩ := replaceRange_eq_ok_iff.1 h
    exact ⟨hlt, le_of_isBoundary hb.2, hb, hpatches⟩
  · intro h
    exact ⟨_, replaceRange_eq_ok_iff.2 ⟨h.onBoundaries, h.nonempty, h.apart, rfl⟩⟩

theorem patched_effect (d : Draft) (p : Patch) : d.Patched p (d.effect (.patch p)) :=
  ⟨rfl, rfl, rfl, exists_addPatch p _⟩

/-- **The patches of a draft**, whatever edits were made to it, are in order. A range is replaced
exactly if it fits among them; then the patches within it give way to the new one, and the others
stay. An edit that is refused, of any kind, leaves the draft as it was. -/
theorem patches_after (source : List Char) (es : List Edit) :
    let d := (ofSource source).after es
    PatchesInOrder source d.patches ∧
      (∀ p, d.verdict (.patch p) = .ok () ↔ FitsAmong source d.patches p.range) ∧
      (∀ p, d.verdict (.patch p) = .ok () → d.Patched p (d.after [.patch p])) ∧
      ∀ e fault, d.verdict e = .error fault → d.after [e] = d := by
  intro d
  have hd := records_after (records_ofSource source) es
  have hsource : d.source = source := hd.source
  refine ⟨?_, fun p => ?_, fun p hp => ?_, fun e fault he => ?_⟩
  · rw [← hsource]
    exact hd.inOrder.patchesInOrder
  · rw [← hsource]
    exact verdict_patch_eq_ok_iff
  · rw [after_of_ok hp]
    exact d.patched_effect p
  · rw [after_of_error he]
    rfl

/-- The second patch takes in the first one; a third that reaches into it is refused. -/
example : ((ofSource "abcdef".toList).after
    [.patch ⟨⟨2, 3⟩, "x"⟩, .patch ⟨⟨1, 4⟩, "y"⟩]).verdict (.patch ⟨⟨3, 5⟩, "z"⟩) =
      .error (.overlap ⟨3, 5⟩ ⟨1, 4⟩) := by rfl

end Draft

end Islands
