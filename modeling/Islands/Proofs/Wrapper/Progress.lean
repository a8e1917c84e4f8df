import Islands.Wrapper.File
import Islands.Proofs.ComponentFile.BlockPlaces
import Islands.Proofs.Draft.Edits
import Islands.Proofs.Wrapper.TargetPlaces

/-!
# Targets one after the other

The targets of a file stand one behind the other, and outside of them is the place for the imports
(`Site.Placed`, `placed_targets`). So no replacement of a target is refused
(`replaceRange_progress`), and what has been done after some targets is known
(`after_eq_progress`): each has either its patch and its record, or a message.

* `wrapTargets_cases`: what becomes of a file whose targets are known.
* `exists_wrapTargets`: a file gets new code only by way of its targets.
-/

namespace Islands

open Markup ComponentFile

/-! ## Where the targets of a file are -/

/-- A template block of a file, as the site of its targets. -/
def siteOf (id source : String) (options : Options) (t : TemplateBlock) : Site :=
  ⟨id, source.toList, t.content.start, t.content.cut source.toList, options⟩

/-- The targets stand one behind the other in the template of a file, between characters, and the
script block for imports has its opening tag in front of the template or behind it. -/
structure Site.Placed (site : Site) (blocks : Blocks) (targets : List Element) : Prop where
  ascending : Ascending 0 (byteLength site.template) (spansOf targets)
  boundaries : ∀ e ∈ targets, (site.place e.span).OnBoundaries site.source
  script : ∀ s, blocks.importScript? = some s → isBoundary s.openTag.stop site.source = true ∧
    (s.openTag.stop ≤ site.base ∨ site.base + byteLength site.template ≤ s.openTag.stop)

/-- **The targets of a template** that can be read are placed in its file. -/
theorem placed_targets {id source : String} {options : Options} {t : TemplateBlock}
    {nodes : List Node} (ht : (Blocks.ofSource source.toList).template = some t)
    (hparse : parse (t.content.cut source.toList) = .ok nodes) :
    (siteOf id source options t).Placed (Blocks.ofSource source.toList)
      (findTargets options.policy nodes).targets := by
  obtain ⟨pre, post, hsource, hstart, hstop⟩ := template_place ht
  obtain ⟨ps, hpair, hread, hcut, hnodes⟩ := parse_eq_ok_iff.1 hparse
  have htiling := tiling_nodesAt hpair hread
  rw [← hcut, ← hnodes] at htiling
  obtain ⟨hasc, hbound⟩ := ascending_targets options.policy nodes htiling.covers
    htiling.boundaries (by rw [← allElements_eq]; exact htiling.elements)
  refine ⟨hasc, fun e he => ?_, fun s hs => ?_⟩
  · obtain ⟨hbstart, hbstop⟩ := hbound e he
    have hb := And.intro (isBoundary_shift pre post hbstart) (isBoundary_shift pre post hbstop)
    rw [← hsource, ← hstart] at hb
    exact hb
  · obtain ⟨hb, hplace⟩ := importScript?_place ht hs
    rw [hstop, ← hstart] at hplace
    exact ⟨hb, hplace⟩

/-! ## What becomes of a target -/

namespace Site

variable (site : Site)

/-- The patch that replaces a target, if the replacement can be built. -/
def patch? (e : Element) : Option Patch :=
  match site.replacement e with
  | .ok r => some ⟨site.place e.span, r.text⟩
  | .error _ => none

/-- The patches that replace some targets, in the order of the targets. -/
def patches (targets : List Element) : List Patch := targets.filterMap site.patch?

/-- The record of a target that can be replaced. -/
def record? (e : Element) : Option Record :=
  match site.replacement e with
  | .ok r => some r.record
  | .error _ => none

/-- The message about a target that cannot be replaced. -/
def failure? (e : Element) : Option Diagnostic :=
  match site.replacement e with
  | .ok _ => none
  | .error cause => some (site.failure e cause)

end Site

/-- **What takes the place of a target**: a wrapper in the place of a slot, and otherwise a boundary
that has its address in the attribute `to`. -/
theorem replacement_cases {site : Site} {e : Element} {r : Replacement}
    (h : site.replacement e = .ok r) :
    (kindOf e.toShell = .slot ∧ r.record = .slot (SlotName.ofShell e.toShell).text ∧
      ∃ rest, r.text = "<" ++ slotComponent ++ rest ++ ">") ∨
    kindOf e.toShell ≠ .slot ∧ r.record = .boundary (boundaryTarget site.id site.base e.toShell) ∧
      ∃ rest, r.text = "<" ++ boundaryComponent ++ liftedConditions site.template e.toShell ++
        " to=" ++ quoteAttribute (boundaryTarget site.id site.base e.toShell) ++ rest ++ ">" := by
  unfold Site.replacement at h
  split at h
  · rename_i hkind
    cases hwrap : wrapSlot site.template e with
    | error cause => rw [hwrap] at h; cases h
    | ok p =>
      obtain ⟨text, name⟩ := p
      rw [hwrap] at h
      obtain rfl := Except.ok.inj h
      obtain ⟨rfl, data, -, rfl⟩ := wrapSlot_eq_ok hwrap
      refine .inl ⟨hkind, rfl, liftedConditions site.template e.toShell ++ (" " ++
        ((SlotName.ofShell e.toShell).attributeText ++ (" :props=" ++
        (quoteAttribute data.expression ++ (">" ++
        (fallbackSection site.template e data.repetition ++ ("</" ++ slotComponent))))))), ?_⟩
      simp only [String.append_assoc]
  · rename_i hkind
    unfold wrapBoundary at h
    split at h
    · cases h
    · rename_i marker _
      obtain rfl := Except.ok.inj h
      refine .inr ⟨hkind, rfl, rootAttribute site.options.boundaryRoot? ++ (" :island-client=" ++
        (quoteAttribute marker ++ (">" ++ (partWithout site.template e.span
        (boundaryRemovals site.template e) ++ ("</" ++ boundaryComponent))))), ?_⟩
      simp only [String.append_assoc]

/-- The name of the slot that was replaced. -/
def Record.slot? : Record → Option String
  | slot name => some name
  | boundary _ => none

/-- The address of the boundary that was replaced. -/
def Record.boundary? : Record → Option String
  | slot _ => none
  | boundary target => some target

/-- What is to have been done to a file after some targets. -/
def Site.progress (site : Site) (targets : List Element) : Progress where
  draft := ⟨site.source, [], [], site.patches targets⟩
  diagnostics := targets.filterMap site.failure?
  slots := (targets.filterMap site.record?).filterMap Record.slot?
  boundaries := (targets.filterMap site.record?).filterMap Record.boundary?

/-- What has been done to a file after some targets. -/
def Site.after (site : Site) (done : List Element) : Progress :=
  done.foldl (Progress.wrap site) { draft := .ofSource site.source }

theorem range_of_patch? {site : Site} {e : Element} {p : Patch} (h : site.patch? e = some p) :
    p.range = site.place e.span := by
  unfold Site.patch? at h
  split at h
  · obtain rfl := Option.some.inj h
    rfl
  · cases h

theorem ascending_patches {site : Site} {targets : List Element} {lo hi : Nat}
    (hasc : Ascending lo hi (spansOf targets)) :
    Ascending (site.base + lo) (site.base + hi) ((site.patches targets).map Patch.range) := by
  induction targets generalizing lo with
  | nil => exact Nat.add_le_add_left hasc _
  | cons e targets ih =>
    obtain ⟨hlo, hlt, hrest⟩ := hasc
    have ih := ih hrest
    unfold Site.patches at ih ⊢
    rw [List.filterMap_cons]
    cases hpatch : site.patch? e with
    | none => exact ih.widen (by omega) (Nat.le_refl _)
    | some p =>
      rw [List.map_cons, range_of_patch? hpatch]
      exact ⟨Nat.add_le_add_left hlo _, Nat.add_lt_add_left hlt _, ih⟩

theorem Site.Placed.bounds {site : Site} {blocks : Blocks} {targets : List Element}
    (h : site.Placed blocks targets) {p : Patch} (hp : p ∈ site.patches targets) :
    site.base ≤ p.range.start ∧ p.range.start < p.range.stop ∧
      p.range.stop ≤ site.base + byteLength site.template :=
  (ascending_patches h.ascending).bounds (List.mem_map_of_mem hp)

/-! ## One target -/

theorem addPatch_of_le {o : Patch} {ps : List Patch}
    (h : ∀ p ∈ ps, p.range.start < o.range.start) : Draft.addPatch o ps = ps ++ [o] := by
  have hall : ps.countP (fun p => p.range.start < o.range.start) = ps.length :=
    List.countP_eq_length.2 fun p hp => by simpa using h p hp
  rw [Draft.addPatch_eq_insertIdx (List.pairwise_of_forall_mem_list fun p hp _ _ _ => h p hp), hall,
    List.insertIdx_length_self]

/-- **A range behind all patches** can be replaced, and no patch gives way to it. -/
theorem replaceRange_behind {d : Draft} {range : Span} (text : String)
    (hb : range.OnBoundaries d.source) (hlt : range.start < range.stop)
    (hps : ∀ p ∈ d.patches, p.range.start < p.range.stop ∧ p.range.stop ≤ range.start) :
    d.replaceRange range text = .ok { d with patches := d.patches ++ [⟨range, text⟩] } := by
  refine Draft.replaceRange_eq_ok_iff.2 ⟨hb, hlt, fun p hp => .inl ?_, ?_⟩
  · exact Span.isDisjoint_iff.2 (.inl (hps p hp).2)
  · have hkept : d.patches.filter (fun o => !o.range.isWithin range) = d.patches := by
      apply List.filter_eq_self.2
      intro p hp
      have := hps p hp
      rw [Bool.not_eq_true', Bool.eq_false_iff, Ne, Span.isWithin_iff]
      omega
    rw [hkept, addPatch_of_le fun p hp => ?_]
    have := hps p hp
    show p.range.start < range.start
    omega

section
variable {site : Site} {blocks : Blocks} {targets done rest : List Element} {e : Element}

/-- **No replacement is refused**: after the targets in front of it a target gets its patch, if its
replacement can be built. -/
theorem replaceRange_progress {r : Replacement} (h : site.Placed blocks (done ++ e :: rest))
    (hr : site.replacement e = .ok r) :
    (site.progress done).draft.replaceRange (site.place e.span) r.text =
      .ok (site.progress (done ++ [e])).draft := by
  have hmem : e ∈ done ++ e :: rest := List.mem_append_right _ (List.mem_cons_self ..)
  have hlt := (h.ascending.bounds (List.mem_map_of_mem hmem)).2.1
  have hpatches : (site.progress (done ++ [e])).draft =
      { (site.progress done).draft with
        patches := (site.progress done).draft.patches ++ [⟨site.place e.span, r.text⟩] } := by
    simp [Site.progress, Site.patches, Site.patch?, hr]
  rw [hpatches]
  refine replaceRange_behind r.text (h.boundaries e hmem) (Nat.add_lt_add_left hlt site.base) ?_
  intro p hp
  obtain ⟨d, hd, hpatch⟩ := List.mem_filterMap.1 hp
  have hdlt := (h.ascending.bounds (List.mem_map_of_mem (List.mem_append_left _ hd))).2.1
  have hpair : (done ++ e :: rest).Pairwise fun a b => a.span.stop ≤ b.span.start :=
    List.pairwise_map.1 h.ascending.pairwise
  have hde := (List.pairwise_append.1 hpair).2.2 d hd e (List.mem_cons_self ..)
  rw [range_of_patch? hpatch]
  exact ⟨Nat.add_lt_add_left hdlt site.base, Nat.add_le_add_left hde site.base⟩

/-- One target: it has its patch and its record, or a message. -/
theorem wrap_progress (h : site.Placed blocks (done ++ e :: rest)) :
    Progress.wrap site (site.progress done) e = site.progress (done ++ [e]) := by
  unfold Progress.wrap Site.replace
  cases hr : site.replacement e with
  | error cause => simp [Site.progress, Site.patches, Site.patch?, Site.record?, Site.failure?, hr]
  | ok r =>
    simp only [replaceRange_progress h hr]
    cases hrecord : r.record <;>
      simp [Progress.note, Site.progress, Site.record?, Site.failure?, Record.slot?,
        Record.boundary?, hr, hrecord]

theorem foldl_wrap {todo : List Element} (h : site.Placed blocks (done ++ (todo ++ rest))) :
    todo.foldl (Progress.wrap site) (site.progress done) = site.progress (done ++ todo) := by
  induction todo generalizing done with
  | nil => rw [List.append_nil, List.foldl_nil]
  | cons e todo ih =>
    have hsplit : ∀ es, done ++ e :: es = (done ++ [e]) ++ es := by simp
    rw [List.foldl_cons, wrap_progress h, hsplit todo]
    rw [List.cons_append, hsplit] at h
    exact ih h

/-- **What has been done after some targets** is known. -/
theorem after_eq_progress (h : site.Placed blocks (done ++ rest)) :
    site.after done = site.progress done := by
  rw [← List.nil_append done] at h
  rw [List.append_assoc] at h
  exact foldl_wrap h

/-! ## Files -/

/-- The messages about the targets of a file, and about a boundary that is refused. -/
def Site.messages (site : Site) (found : Findings) : List Diagnostic :=
  found.targets.filterMap site.failure? ++ (found.refused.map site.refusal).toList

theorem exists_addImports (imports : String) (h : site.Placed blocks targets) :
    ∃ draft, addImports blocks imports (site.progress targets).draft = .ok draft := by
  unfold addImports
  cases hs : blocks.importScript? with
  | none => exact ⟨_, rfl⟩
  | some s => exact ⟨_, Draft.insertAt_eq_ok_iff.2 ⟨(h.script s hs).1, rfl⟩⟩

/-- **What becomes of a file** whose targets are known: without a replacement it stays as it is, and
otherwise the imports are put in and the draft is written out. -/
theorem wrapTargets_cases {found : Findings} (h : site.Placed blocks found.targets) :
    (site.patches found.targets = [] ∧
      wrapTargets site blocks found = .asIs (site.messages found)) ∨
    (site.patches found.targets ≠ [] ∧
      ∃ draft, addImports blocks (importText site.options.runtimeUrlOrDefault)
          (site.progress found.targets).draft = .ok draft ∧
        wrapTargets site blocks found =
          ⟨some (emit site.options site.id draft).1, (emit site.options site.id draft).2,
            site.messages found, (site.progress found.targets).slots,
            (site.progress found.targets).boundaries⟩) := by
  have hall : site.Placed blocks (found.targets ++ []) := by rwa [List.append_nil]
  have hfold : found.targets.foldl (Progress.wrap site) { draft := .ofSource site.source } =
      site.progress found.targets := after_eq_progress hall
  obtain ⟨draft, hdraft⟩ := exists_addImports (importText site.options.runtimeUrlOrDefault) h
  have hedited : (site.progress found.targets).draft.isEdited =
      !(site.patches found.targets).isEmpty := rfl
  unfold wrapTargets Progress.finish
  simp only [hfold, hedited, hdraft]
  cases hps : site.patches found.targets with
  | nil => exact .inl ⟨rfl, rfl⟩
  | cons p ps => exact .inr ⟨List.cons_ne_nil p ps, draft, rfl, rfl⟩

end

/-- The result for a file whose template can be read and is not passed over. -/
theorem wrapFile_eq_wrapTargets {id source : String} {options : Options} {t : TemplateBlock}
    {nodes : List Node} (ht : (Blocks.ofSource source.toList).template = some t)
    (hparse : parse (t.content.cut source.toList) = .ok nodes)
    (hlook : mayContainTargets (t.content.cut source.toList) = true) :
    wrapFile id source options = wrapTargets (siteOf id source options t)
      (Blocks.ofSource source.toList) (findTargets options.policy nodes) := by
  simp only [wrapFile, wrapTemplate, ht, hlook, hparse]
  rfl

/-- A file gets new code only if its template can be read and is not passed over. -/
theorem exists_wrapTargets {id source code : String} {options : Options}
    (h : (wrapFile id source options).code = some code) :
    ∃ t nodes, (Blocks.ofSource source.toList).template = some t ∧
      parse (t.content.cut source.toList) = .ok nodes ∧
      wrapFile id source options = wrapTargets (siteOf id source options t)
        (Blocks.ofSource source.toList) (findTargets options.policy nodes) := by
  cases ht : (Blocks.ofSource source.toList).template with
  | none => simp [wrapFile, ht, Outcome.asIs] at h
  | some t =>
    cases hlook : mayContainTargets (t.content.cut source.toList) with
    | false => simp [wrapFile, ht, hlook, Outcome.asIs] at h
    | true =>
      cases hparse : parse (t.content.cut source.toList) with
      | error fault => simp [wrapFile, wrapTemplate, ht, hlook, hparse, Outcome.asIs] at h
      | ok nodes => exact ⟨t, nodes, rfl, hparse, wrapFile_eq_wrapTargets ht hparse hlook⟩

end Islands
