import Islands.Proofs.Draft.Layout
import Islands.Proofs.Wrapper.Progress

/-!
# The code of a file is its source, spliced

Each target of a template that can be replaced becomes one patch (`Site.patches`), and none takes
the place of the imports, since a script block is never inside the template block. So the code is
the source with each replacement in place of its target, and with the imports, once (`Rewritten`).

* `laid_addImports`: the runs of a draft with patches and the imports.
* `code_wrapFile`: the code of every file, as long as no comment for the source map is added to it.
-/

namespace Islands

open Markup ComponentFile

/-! ## Rendering -/

/-- The code of a file that some patches were made to: its source with each patch in place of its
range, and with the imports. These are in the script block for them, right behind its opening tag,
or in a block of their own in front of everything. -/
def Rewritten (source : List Char) (blocks : Blocks) (imports : String) (ps : List Patch)
    (code : List Char) : Prop :=
  match blocks.importScript? with
  | some script => ∃ before after, ps = before ++ after ∧
      Spliced 0 source (before ++ insertionPatch script.openTag.stop imports :: after) code
  | none => ∃ out, code = "<script setup>".toList ++ (imports.toList ++
      ("\n</script>\n".toList ++ out)) ∧ Spliced 0 source ps out

/-- The edits of a file: its patches and, if there is a script block for the imports, these, put in
right behind its opening tag. -/
def ImportsAdded (blocks : Blocks) (imports : String) (ps edits : List Patch) : Prop :=
  match blocks.importScript? with
  | some script => ∃ before after, ps = before ++ after ∧
      edits = before ++ insertionPatch script.openTag.stop imports :: after
  | none => edits = ps

/-- The runs in front of a file: a block for the imports, if there is none. -/
def frontRuns (blocks : Blocks) (imports : String) : List Run :=
  match blocks.importScript? with
  | some _ => []
  | none => [⟨none, (importBlock imports).toList⟩]

section
variable {source out : List Char} {blocks : Blocks} {imports : String} {ps edits : List Patch}

theorem toList_importBlock (imports : String) (rest : List Char) :
    (importBlock imports).toList ++ rest =
      "<script setup>".toList ++ (imports.toList ++ ("\n</script>\n".toList ++ rest)) := by
  simp [importBlock, String.toList_append]

theorem textOf_frontRuns_of_none (imports : String) (h : blocks.importScript? = none) :
    textOf (frontRuns blocks imports) = (importBlock imports).toList := by
  simp only [frontRuns, h]
  exact List.append_nil _

theorem frontRuns_of_some {s : ScriptBlock} (imports : String) (h : blocks.importScript? = some s) :
    frontRuns blocks imports = [] := by
  simp only [frontRuns, h]

theorem rewritten_of_spliced (hedits : ImportsAdded blocks imports ps edits)
    (h : Spliced 0 source edits out) :
    Rewritten source blocks imports ps (textOf (frontRuns blocks imports) ++ out) := by
  unfold ImportsAdded at hedits
  unfold Rewritten
  cases hs : blocks.importScript? with
  | none =>
    simp only [hs] at hedits ⊢
    subst hedits
    exact ⟨out, by rw [textOf_frontRuns_of_none imports hs, toList_importBlock], h⟩
  | some script =>
    simp only [hs] at hedits ⊢
    obtain ⟨before, after, hps, rfl⟩ := hedits
    rw [frontRuns_of_some imports hs]
    exact ⟨before, after, hps, h⟩

/-- The edits of a file are the patches of its targets, or an insertion behind the opening tag of
the script block for imports. -/
theorem mem_of_importsAdded (h : ImportsAdded blocks imports ps edits) {p : Patch}
    (hp : p ∈ edits) :
    p ∈ ps ∨ ∃ s, blocks.importScript? = some s ∧ p = insertionPatch s.openTag.stop imports := by
  unfold ImportsAdded at h
  cases hs : blocks.importScript? with
  | none =>
    simp only [hs] at h
    subst h
    exact .inl hp
  | some s =>
    simp only [hs] at h
    obtain ⟨before, after, rfl, rfl⟩ := h
    rcases List.mem_append.1 hp with hp | hp
    · exact .inl (List.mem_append_left _ hp)
    · rcases List.mem_cons.1 hp with rfl | hp
      · exact .inr ⟨s, rfl, rfl⟩
      · exact .inl (List.mem_append_right _ hp)

/-- **A draft with patches and the imports** is laid out with both. -/
theorem laid_addImports {lo hi : Nat} {draft : Draft}
    (hps : ∀ p ∈ ps, p.range.OnBoundaries source)
    (hasc : Ascending lo hi (ps.map Patch.range))
    (hscript : ∀ s, blocks.importScript? = some s → isBoundary s.openTag.stop source = true ∧
      (s.openTag.stop ≤ lo ∨ hi ≤ s.openTag.stop))
    (h : addImports blocks imports ⟨source, [], [], ps⟩ = .ok draft) :
    ∃ edits rs, ImportsAdded blocks imports ps edits ∧ Laid 0 source edits rs ∧
      draft.source = source ∧ draft.runs = frontRuns blocks imports ++ rs := by
  have hproper : ∀ p ∈ ps, p.range.OnBoundaries source ∧ p.range.start < p.range.stop :=
    fun p hp => ⟨hps p hp, (hasc.bounds (List.mem_map_of_mem hp)).2.1⟩
  have hapart : ps.Pairwise fun p q => p.range.stop ≤ q.range.start :=
    List.pairwise_map.1 hasc.pairwise
  have hsource : source = [] ++ source := rfl
  unfold addImports at h
  unfold ImportsAdded frontRuns
  cases hs : blocks.importScript? with
  | none =>
    simp only [hs] at h ⊢
    obtain rfl := Except.ok.inj h
    refine ⟨ps, _, rfl, laid_patchedRuns hsource hproper hapart fun _ _ => Nat.zero_le _, rfl, ?_⟩
    rw [Draft.runs, Draft.sortedInsertions]
    show _ ++ patchedRuns 0 source ([].mergeSort Insertion.before) ps = _
    rw [List.mergeSort_nil]
    rfl
  | some script =>
    simp only [hs] at h ⊢
    obtain ⟨hb, hplace⟩ := hscript script hs
    obtain ⟨-, rfl⟩ := Draft.insertAt_eq_ok_iff.1 h
    have hout : ∀ p ∈ ps,
        script.openTag.stop ≤ p.range.start ∨ p.range.stop ≤ script.openTag.stop := by
      intro p hp
      have := hasc.bounds (List.mem_map_of_mem hp)
      omega
    let i : Insertion := ⟨script.openTag.stop, .right, imports⟩
    obtain ⟨before, after, hsplit, hlaid⟩ := laid_patchedRuns_insertion (i := i) hsource hb
      (Nat.zero_le _) hproper hapart (fun _ _ => Nat.zero_le _) hout
    refine ⟨_, _, ⟨before, after, hsplit, rfl⟩, hlaid, rfl, ?_⟩
    show (⟨source, [], [i], ps⟩ : Draft).runs = _
    rw [Draft.runs, Draft.sortedInsertions, List.mergeSort_singleton]
    rfl

end

theorem onBoundaries_patches {site : Site} {targets : List Element} {p : Patch}
    (hb : ∀ e ∈ targets, (site.place e.span).OnBoundaries site.source)
    (hp : p ∈ site.patches targets) : p.range.OnBoundaries site.source := by
  obtain ⟨e, he, hpatch⟩ := List.mem_filterMap.1 hp
  rw [range_of_patch? hpatch]
  exact hb e he

/-! ## Files -/

theorem Site.Placed.exists_laid {site : Site} {blocks : Blocks} {targets : List Element}
    {imports : String} {draft : Draft} (h : site.Placed blocks targets)
    (hdraft : addImports blocks imports (site.progress targets).draft = .ok draft) :
    ∃ edits rs, ImportsAdded blocks imports (site.patches targets) edits ∧
      Laid 0 site.source edits rs ∧ draft.source = site.source ∧
      draft.runs = frontRuns blocks imports ++ rs := by
  refine laid_addImports (fun p hp => onBoundaries_patches h.boundaries hp)
    (ascending_patches h.ascending) (fun s hs => ?_) hdraft
  exact h.script s hs

/-- The code that is written out is the text of the runs, with nothing but the comment for the
source map behind it. -/
theorem exists_emit (options : Options) (id : String) (draft : Draft) :
    ∃ back, (emit options id draft).1.toList = textOf draft.runs ++ back ∧
      (options.sourceMap.isInline = false → back = []) := by
  refine ⟨(if options.sourceMap.isInline then
    mapComment (draft.sourceMap (ModuleId.pathPart id)).dataUrl else "").toList, ?_, fun hmap => ?_⟩
  · rw [emit, String.toList_append, Draft.text, String.toList_ofList]
    rfl
  · rw [hmap]
    rfl

/-- **What new code is made of**: the block for the imports, if it needs one, and the source, laid
out with the edits. -/
theorem exists_code_wrapTargets {site : Site} {blocks : Blocks} {found : Findings} {code : String}
    (hplaced : site.Placed blocks found.targets)
    (h : (wrapTargets site blocks found).code = some code) :
    ∃ edits rs back draft, ImportsAdded blocks (importText site.options.runtimeUrlOrDefault)
        (site.patches found.targets) edits ∧
      Laid 0 site.source edits rs ∧ draft.source = site.source ∧
      draft.runs = frontRuns blocks (importText site.options.runtimeUrlOrDefault) ++ rs ∧
      code.toList = textOf (frontRuns blocks (importText site.options.runtimeUrlOrDefault)) ++
        (textOf rs ++ back) ∧
      (site.options.sourceMap.isInline = false → back = []) ∧
      (wrapTargets site blocks found).map = (emit site.options site.id draft).2 := by
  rcases wrapTargets_cases hplaced with ⟨-, hout⟩ | ⟨-, draft, hdraft, hout⟩
  · rw [hout] at h
    cases h
  · obtain ⟨edits, rs, hedits, hlaid, hsource, hruns⟩ := hplaced.exists_laid hdraft
    obtain ⟨back, hemit, hback⟩ := exists_emit site.options site.id draft
    rw [hout] at h ⊢
    obtain rfl := Option.some.inj h
    refine ⟨edits, rs, back, draft, hedits, hlaid, hsource, hruns, ?_, hback, rfl⟩
    rw [hemit, hruns, textOf_append, List.append_assoc]

theorem code_wrapTargets {site : Site} {blocks : Blocks} {found : Findings} {code : String}
    (hmap : site.options.sourceMap.isInline = false) (hplaced : site.Placed blocks found.targets)
    (h : (wrapTargets site blocks found).code = some code) :
    Rewritten site.source blocks (importText site.options.runtimeUrlOrDefault)
      (site.patches found.targets) code.toList := by
  obtain ⟨edits, rs, back, draft, hedits, hlaid, -, -, hcode, hback, -⟩ :=
    exists_code_wrapTargets hplaced h
  rw [hcode, hback hmap, List.append_nil]
  exact rewritten_of_spliced hedits hlaid.spliced

/-- The code of a file whose template can be read: its source with every target of the template
that can be replaced replaced, and with the imports. -/
def RewrittenFile (id source : String) (options : Options) (code : String) : Prop :=
  ∃ t nodes, (Blocks.ofSource source.toList).template = some t ∧
    parse (t.content.cut source.toList) = .ok nodes ∧
    Rewritten source.toList (Blocks.ofSource source.toList)
      (importText options.runtimeUrlOrDefault)
      ((siteOf id source options t).patches (findTargets options.policy nodes).targets)
      code.toList

/-- **The code of a file**: its source with each target that can be replaced replaced, with the
imports, and otherwise as it was. No replacement and no import is left out or made twice. -/
theorem code_wrapFile {id source code : String} {options : Options}
    (hmap : options.sourceMap = .none ∨ options.sourceMap = .external)
    (h : (wrapFile id source options).code = some code) :
    RewrittenFile id source options code := by
  obtain ⟨t, nodes, ht, hparse, hfile⟩ := exists_wrapTargets h
  rw [hfile] at h
  refine ⟨t, nodes, ht, hparse, code_wrapTargets ?_ (placed_targets ht hparse) h⟩
  show options.sourceMap.isInline = false
  rcases hmap with hmap | hmap <;> rw [hmap] <;> rfl

/-- A slot in front of a text, and a script block behind the template. -/
theorem code_wrapFile_slot :
    ∃ code, (wrapFile "a.vue" "<p/><template><slot/>é</template><script setup></script>" {}).code =
        some code ∧
      RewrittenFile "a.vue" "<p/><template><slot/>é</template><script setup></script>" {} code := by
  have hsome : (wrapFile "a.vue" "<p/><template><slot/>é</template><script setup></script>"
      {}).code.isSome = true := by decide +kernel
  obtain ⟨code, hcode⟩ := Option.isSome_iff_exists.1 hsome
  exact ⟨code, hcode, code_wrapFile (.inr rfl) hcode⟩

end Islands
