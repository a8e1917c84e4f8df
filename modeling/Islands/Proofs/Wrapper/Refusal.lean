import Islands.Proofs.Wrapper.Fates
import Islands.Proofs.Wrapper.Outermost
import Islands.Proofs.Wrapper.QuickLook

/-!
# Builds that cannot address boundaries

Where a build wants boundaries but cannot address them, each file becomes what it would be if the
build wanted none (`wrapFile_unsupported`). Marked elements add nothing but one warning, about the
first of them that is neither a slot nor inside one.

* `findTargets_disabled`: the targets are those of a build that wants no boundaries.
* `wrapTargets_refused`: what a refused element adds to the result.
-/

namespace Islands

open Markup ComponentFile

/-- The options of the same build without boundaries. -/
def Options.withoutBoundaries (o : Options) : Options := { o with clientBoundaries := false }

/-! ## What is refused -/

/-- A marked element that is neither a slot nor inside one. -/
structure Markup.Nested.IsOpenMarked (d : Nested) : Prop where
  marked : ∃ a ∈ d.element.attributes, isMarker a.name = true
  noSlot : d.element.name ≠ "slot"
  outside : ∀ s ∈ d.around, s.name ≠ "slot"

theorem replaces_unsupported_iff {s : Shell} :
    Policy.unsupported.replaces (kindOf s) = true ↔ s.name = "slot" := by
  rw [← kindOf_eq_slot_iff]
  cases kindOf s <;> decide

/-- The elements that are refused are the marked ones that are neither slots nor inside one. -/
theorem refused_iff_isOpenMarked {d : Nested} :
    (Policy.unsupported.reaches d && Policy.unsupported.refuses (kindOf d.element.toShell)) =
      true ↔ d.IsOpenMarked := by
  have hreach : Policy.unsupported.reaches d = true ↔ ∀ s ∈ d.around, s.name ≠ "slot" := by
    rw [Policy.reaches, List.all_eq_true]
    refine forall₂_congr fun s _ => ?_
    rw [Bool.not_eq_true', ← Bool.not_eq_true, replaces_unsupported_iff]
  have hrefuse : Policy.unsupported.refuses (kindOf d.element.toShell) = true ↔
      kindOf d.element.toShell = .clientBoundary := by
    cases kindOf d.element.toShell <;> decide
  rw [Bool.and_eq_true, hreach, hrefuse, kindOf_eq_clientBoundary_iff]
  exact ⟨fun ⟨houtside, hname, hmarked⟩ => ⟨hmarked, hname, houtside⟩,
    fun h => ⟨h.outside, h.noSlot, h.marked⟩⟩

/-- **The findings of a build that wants no boundaries** are the same targets, and nothing is
refused. -/
theorem findTargets_disabled (nodes : List Node) :
    findTargets .disabled nodes = ⟨(findTargets .unsupported nodes).targets, none⟩ := by
  have hreplaces : Policy.unsupported.replaces = Policy.disabled.replaces := by
    funext k
    cases k <;> rfl
  have hfind : (nestedIn [] nodes).find? (fun d =>
      Policy.disabled.reaches d && Policy.disabled.refuses (kindOf d.element.toShell)) = none :=
    List.find?_eq_none.2 fun d _ => by simp [Policy.refuses]
  rw [findTargets_eq, findTargets_eq, Policy.findings, hfind]
  unfold Policy.findings Policy.reaches
  rw [hreplaces]
  rfl

/-! ## What a refused element adds -/

theorem finish_append (p : Progress) (site : Site) (blocks : Blocks) (ds : List Diagnostic) :
    { p with diagnostics := p.diagnostics ++ ds }.finish site blocks =
      { p.finish site blocks with diagnostics := (p.finish site blocks).diagnostics ++ ds } := by
  unfold Progress.finish
  cases p.draft.isEdited with
  | false => rfl
  | true => cases addImports blocks (importText site.options.runtimeUrlOrDefault) p.draft <;> rfl

/-- **What a refused element adds** to the result is a message behind all others. -/
theorem wrapTargets_refused (site : Site) (blocks : Blocks) (found : Findings) :
    wrapTargets site blocks found =
      { wrapTargets site blocks ⟨found.targets, none⟩ with
        diagnostics := (wrapTargets site blocks ⟨found.targets, none⟩).diagnostics ++
          (found.refused.map site.refusal).toList } := by
  unfold wrapTargets
  simp only
  rw [finish_append, finish_append, Option.map_none, Option.toList_none, List.append_nil]

/-- Whether boundaries are wanted counts for the choice of the targets only. -/
theorem wrapTargets_withoutBoundaries (id source : String) (options : Options) (t : TemplateBlock)
    (blocks : Blocks) (found : Findings) :
    wrapTargets (siteOf id source options.withoutBoundaries t) blocks found =
      wrapTargets (siteOf id source options t) blocks found := rfl

/-! ## Files -/

/-- A file of a build that cannot address boundaries: `plain` is the result for the same build
without boundaries, and `extra` the message that comes on top. -/
structure Degraded (id source : String) (options : Options) (plain o : Outcome)
    (extra : Option Diagnostic) : Prop where
  code : o.code = plain.code
  map : o.map = plain.map
  slots : o.slots = plain.slots
  boundaries : o.boundaries = []
  diagnostics : o.diagnostics = plain.diagnostics ++ extra.toList
  /-- There is one more message exactly if the template can be read and has an element to warn
  about. -/
  present : extra.isSome = true ↔
    ∃ t nodes, (Blocks.ofSource source.toList).template = some t ∧
      parse (t.content.cut source.toList) = .ok nodes ∧ ∃ d ∈ nestedIn [] nodes, d.IsOpenMarked
  /-- It is a warning at the opening tag of the first such element. -/
  place : ∀ m, extra = some m →
    ∃ t nodes before d after, (Blocks.ofSource source.toList).template = some t ∧
      parse (t.content.cut source.toList) = .ok nodes ∧
      nestedIn [] nodes = before ++ d :: after ∧ d.IsOpenMarked ∧
      (∀ b ∈ before, ¬ b.IsOpenMarked) ∧
      m = (siteOf id source options t).refusal d.element.openTag ∧
      m.severity = .warning ∧
      m.labels.map (·.span) = [d.element.openTag.shift t.content.start]

theorem Degraded.same {id source : String} {options : Options} (o : Outcome)
    (hboundaries : o.boundaries = [])
    (h : ∀ t nodes, (Blocks.ofSource source.toList).template = some t →
      parse (t.content.cut source.toList) = .ok nodes →
      ∀ d ∈ nestedIn [] nodes, ¬ d.IsOpenMarked) :
    Degraded id source options o o none where
  code := rfl
  map := rfl
  slots := rfl
  boundaries := hboundaries
  diagnostics := (List.append_nil _).symm
  present := by
    refine ⟨fun hsome => (nomatch hsome), ?_⟩
    rintro ⟨t, nodes, ht, hparse, d, hd, hmarked⟩
    exact absurd hmarked (h t nodes ht hparse d hd)
  place := fun _ h => nomatch h

section
variable {id source : String} {options : Options} {t : TemplateBlock} {nodes : List Node}

theorem boundaries_disabled (id : String) (options : Options)
    (ht : (Blocks.ofSource source.toList).template = some t)
    (hparse : parse (t.content.cut source.toList) = .ok nodes) :
    (wrapTargets (siteOf id source options.withoutBoundaries t) (Blocks.ofSource source.toList)
      (findTargets .disabled nodes)).boundaries = [] := by
  have hplaced : (siteOf id source options.withoutBoundaries t).Placed
      (Blocks.ofSource source.toList) (findTargets .disabled nodes).targets :=
    placed_targets ht hparse
  have hkind : ∀ e ∈ (findTargets .disabled nodes).targets, kindOf e.toShell = .slot := by
    intro e he
    have hrep := replaces_of_mem_targets .disabled nodes e he
    cases hk : kindOf e.toShell with
    | slot => rfl
    | clientBoundary | plain =>
      rw [hk] at hrep
      cases hrep
  rw [(reports_wrapTargets hplaced).2.2, boundaries_progress _ fun e he => by simp [hkind e he],
    List.map_eq_nil_iff, List.filter_eq_nil_iff]
  intro e he
  rw [hkind e he]
  simp

theorem degraded_wrapTargets (ht : (Blocks.ofSource source.toList).template = some t)
    (hparse : parse (t.content.cut source.toList) = .ok nodes) :
    Degraded id source options
      (wrapTargets (siteOf id source options.withoutBoundaries t) (Blocks.ofSource source.toList)
        (findTargets .disabled nodes))
      (wrapTargets (siteOf id source options t) (Blocks.ofSource source.toList)
        (findTargets .unsupported nodes))
      ((findTargets .unsupported nodes).refused.map (siteOf id source options t).refusal) := by
  have hrefused : (findTargets .unsupported nodes).refused = ((nestedIn [] nodes).find? fun d =>
      Policy.unsupported.reaches d && Policy.unsupported.refuses (kindOf d.element.toShell)).map
        (·.element.openTag) := by
    rw [findTargets_eq]
    rfl
  have hboundaries := boundaries_disabled id options ht hparse
  rw [wrapTargets_withoutBoundaries, findTargets_disabled] at hboundaries ⊢
  rw [wrapTargets_refused _ _ (findTargets .unsupported nodes)]
  refine ⟨rfl, rfl, rfl, hboundaries, rfl, ?_, fun m hm => ?_⟩
  · rw [Option.isSome_map, hrefused, Option.isSome_map, List.find?_isSome]
    constructor
    · rintro ⟨d, hd, hmarked⟩
      exact ⟨t, nodes, ht, hparse, d, hd, refused_iff_isOpenMarked.1 hmarked⟩
    · rintro ⟨t', nodes', ht', hparse', d, hd, hmarked⟩
      obtain rfl := Option.some.inj (ht.symm.trans ht')
      obtain rfl := Except.ok.inj (hparse.symm.trans hparse')
      exact ⟨d, hd, refused_iff_isOpenMarked.2 hmarked⟩
  · simp only [hrefused, Option.map_map, Option.map_eq_some_iff] at hm
    obtain ⟨d, hfind, rfl⟩ := hm
    obtain ⟨hmarked, before, after, hsplit, hbefore⟩ := List.find?_eq_some_iff_append.1 hfind
    refine ⟨t, nodes, before, d, after, ht, hparse, hsplit, refused_iff_isOpenMarked.1 hmarked,
      fun b hb hb' => ?_, rfl, rfl, rfl⟩
    have := hbefore b hb
    rw [refused_iff_isOpenMarked.2 hb'] at this
    cases this

/-- **Boundaries that cannot be addressed.** A build that wants boundaries with a bundler that
cannot address them makes of each file what the same build without boundaries makes of it, and at
most one more message comes behind the others. -/
theorem wrapFile_unsupported (id source : String) {options : Options}
    (hwanted : options.clientBoundaries = true) (hbundler : options.bundler ≠ .vite) :
    ∃ extra, Degraded id source options (wrapFile id source options.withoutBoundaries)
      (wrapFile id source options) extra := by
  have hpolicy : options.policy = .unsupported := by
    cases hb : options.bundler <;> simp_all [Options.policy, Bundler.canAddressBoundaries]
  cases ht : (Blocks.ofSource source.toList).template with
  | none =>
    simp only [wrapFile, ht]
    exact ⟨none, .same _ rfl fun t nodes h => by rw [ht] at h; cases h⟩
  | some t =>
    cases hlook : mayContainTargets (t.content.cut source.toList) with
    | false =>
      simp only [wrapFile, ht, hlook]
      refine ⟨none, .same _ rfl fun t' nodes ht' hparse d hd hmarked => ?_⟩
      obtain rfl := Option.some.inj (ht.symm.trans ht')
      have hempty := congrArg Findings.refused
        (findTargets_of_passedOver .unsupported hparse hlook)
      rw [findTargets_eq] at hempty
      have hnone := List.find?_eq_none.1 (Option.map_eq_none_iff.1 hempty) d hd
      exact hnone (refused_iff_isOpenMarked.2 hmarked)
    | true =>
      cases hparse : parse (t.content.cut source.toList) with
      | error e =>
        simp only [wrapFile, wrapTemplate, ht, hlook, hparse]
        refine ⟨none, .same _ rfl fun t' nodes ht' hok => ?_⟩
        obtain rfl := Option.some.inj (ht.symm.trans ht')
        rw [hparse] at hok
        cases hok
      | ok nodes =>
        rw [wrapFile_eq_wrapTargets ht hparse hlook, wrapFile_eq_wrapTargets ht hparse hlook,
          hpolicy]
        exact ⟨_, degraded_wrapTargets ht hparse⟩

end

/-- A file with a marked element inside a slot, and one with a slot in it. -/
def markedAndSlots : String :=
  "<template><slot><b island-client/></slot><p island-client><slot/></p></template>"

theorem wrapFile_unsupported_slots :
    (wrapFile "a.vue" markedAndSlots { clientBoundaries := true, bundler := .webpack }).slots =
        ["default", "default"] ∧
      ∃ extra, Degraded "a.vue" markedAndSlots { clientBoundaries := true, bundler := .webpack }
        (wrapFile "a.vue" markedAndSlots
          { clientBoundaries := false, bundler := .webpack })
        (wrapFile "a.vue" markedAndSlots { clientBoundaries := true, bundler := .webpack })
        extra :=
  ⟨by decide +kernel, wrapFile_unsupported "a.vue" markedAndSlots rfl (by decide)⟩

end Islands
