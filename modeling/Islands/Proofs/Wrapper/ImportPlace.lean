import Islands.Proofs.ComponentFile.Rereading
import Islands.Proofs.Wrapper.PatchedTemplate

/-!
# Where the imports are in the code

The imports are put in right behind the opening tag of a script block of the source, or in a block
of their own. In the code, this tag is found again (`importsBehind_wrapFile`): what is in front of
it is read as before, if it is in front of the template, and otherwise if the template and the
targets in it stay legible (`Site.staysLegible`). A tag that closes itself stays one, so then the
imports are in no script.

* `importsBehind_front`, `importsBehind_back`: a script block in front of the template, and one
  behind it.
* `not_importsBehind_wrapFile`: two files whose imports end up outside of every script.
-/

namespace Islands

open Markup ComponentFile

/-! ## Imports behind a tag -/

/-- The imports stand right behind the opening tag of a script block; `closed` says whether this tag
closes itself, so that they are outside of the block. -/
def ImportsBehind (closed : Bool) (imports : String) (code : List Char) : Prop :=
  ∃ s ∈ (Blocks.ofSource code).scripts, isSelfClosing (s.openTag.cut code) = closed ∧
    imports.toList <+: dropBytes s.openTag.stop code

instance (closed : Bool) (imports : String) (code : List Char) :
    Decidable (ImportsBehind closed imports code) :=
  inferInstanceAs (Decidable (∃ s ∈ _, _ ∧ _))

/-- Whether the opening tag that the imports go behind closes itself. -/
def closedForImports (source : List Char) : Bool :=
  match (Blocks.ofSource source).importScript? with
  | some script => isSelfClosing (script.openTag.cut source)
  | none => false

/-- What stands behind the opening tag of a script block is found there. -/
theorem importsBehind_of_reads {code tag rest : List Char} {rs : List Region} {imports : String}
    (h : Reads code rs (tag ++ (imports.toList ++ rest))) (htag : OpensBlock .script tag) :
    ImportsBehind (isSelfClosing tag) imports code := by
  have htext := h.text
  refine ⟨_, h.mem_scripts htag, ?_, ?_⟩
  · rw [htext, Span.cut_append]
  · rw [htext, ← List.append_assoc, ← byteLength_append, dropBytes_append]
    exact List.prefix_append _ _

theorem importsBehind_importBlock (imports : String) (rest : List Char) :
    ImportsBehind false imports ((importBlock imports).toList ++ rest) := by
  have hread : readTag none "script setup>".toList = some ("script setup>".toList, []) := rfl
  have htag : OpensBlock .script "<script setup>".toList := opensBlock_of_readTag rfl rfl hread
  rw [toList_importBlock]
  exact importsBehind_of_reads (.nil _) htag

/-! ## A script block of the source -/

section
variable {source a b : List Char} {s : ScriptBlock}

/-- The source up to a script block and with its opening tag. -/
theorem eq_of_byteLength_openTag {tag rest : List Char} {rs : List Region}
    (htext : source = regionsText rs ++ (tag ++ rest))
    (hopen : s.openTag =
      ⟨byteLength (regionsText rs), byteLength (regionsText rs) + byteLength tag⟩)
    (hsource : source = a ++ b) (ha : byteLength a = s.openTag.stop) :
    s.openTag.cut source = tag ∧ a = regionsText rs ++ tag := by
  constructor
  · rw [hopen, htext, Span.cut_append]
  · have hstop : byteLength a = byteLength (regionsText rs ++ tag) := by
      rw [ha, hopen, byteLength_append]
    rw [hsource, ← List.append_assoc] at htext
    exact (append_inj_of_byteLength htext hstop).1

/-- **In front of what changes** the script block is read as before. -/
theorem importsBehind_front (imports : String) (hs : s ∈ (Blocks.ofSource source).scripts)
    (hsource : source = a ++ b) (ha : byteLength a = s.openTag.stop) (y : List Char) :
    ImportsBehind (isSelfClosing (s.openTag.cut source)) imports (a ++ (imports.toList ++ y)) := by
  obtain ⟨rs, r, ts, tag, rest, -, -, htag, hreads, hopen⟩ := Reads.exists_of_script hs
  obtain ⟨hcut, hfront⟩ := eq_of_byteLength_openTag hreads.text hopen hsource ha
  have hopens := htag
  obtain ⟨body, rfl, -⟩ := htag
  rw [hcut, hfront, List.append_assoc]
  rw [List.cons_append] at hreads ⊢
  exact importsBehind_of_reads (hreads.change _) hopens

/-- **Behind the template** it is read as before, if what becomes of the template still can be the
content of its block. -/
theorem importsBehind_back {t : TemplateBlock} (imports : String)
    (ht : (Blocks.ofSource source).template = some t) (hs : s ∈ (Blocks.ofSource source).scripts)
    (hsource : source = a ++ b) (ha : byteLength a = s.openTag.stop)
    (hbehind : t.content.stop ≤ s.openTag.start) :
    ∃ u v, a = u ++ (t.content.cut source ++ v) ∧ byteLength u = t.content.start ∧
      ∀ content, IsContent content → ∀ y,
        ImportsBehind (isSelfClosing (s.openTag.cut source)) imports
          (u ++ (content ++ (v ++ (imports.toList ++ y)))) := by
  obtain ⟨rs, r, ts, tag, rest, hregions, hscript, htag, hreads, hopen⟩ := Reads.exists_of_script hs
  obtain ⟨hcut, hfront⟩ := eq_of_byteLength_openTag hreads.text hopen hsource ha
  obtain ⟨as, openTag, content, close, bs, hregions', hcontent⟩ := exists_region_of_template ht
  have hne : r ≠ .template openTag content close := by
    rintro rfl
    cases hscript
  rw [hregions] at hregions'
  have hopens := htag
  obtain ⟨body, rfl, -⟩ := htag
  rcases exists_append_of_append_cons hregions' hne with ⟨ms, rfl⟩ | ⟨ms, rfl⟩
  · -- the script block would be in front of the template
    obtain ⟨tail, htail⟩ := exists_of_scriptTag? hscript
    rw [hcontent, hopen] at hbehind
    simp only [regionsText_append, regionsText_cons, htail, byteLength_append,
      byteLength_cons] at hbehind
    have := Char.utf8Size_pos '<'
    omega
  · have hblock : t.content.cut source = content := by
      rw [hcontent, Nat.zero_add, hreads.text, regionsText_append, regionsText_cons, Region.text]
      simpa using Span.cut_append (regionsText as ++ openTag) content _
    refine ⟨regionsText as ++ openTag, close ++ (regionsText ms ++ '<' :: body), ?_, ?_,
      fun content' hcontent' y => ?_⟩
    · rw [hfront, hblock, regionsText_append, regionsText_cons, Region.text]
      simp
    · rw [hcontent, Nat.zero_add]
    · rw [hcut]
      rw [List.cons_append] at hreads
      have hreads' := hreads.change_content hcontent' (body ++ (imports.toList ++ y))
      rw [← List.cons_append] at hreads'
      have h := importsBehind_of_reads hreads' hopens
      simpa only [List.append_assoc, List.cons_append] using h

end

/-! ## Files -/

theorem importsBehind_script {site : Site} {targets : List Element} {imports : String}
    {t : TemplateBlock} {s : ScriptBlock} {before after : List Patch} {out back : List Char}
    (ht : (Blocks.ofSource site.source).template = some t) (hbase : site.base = t.content.start)
    (htemplate : site.template = t.content.cut site.source)
    (hs : s ∈ (Blocks.ofSource site.source).scripts)
    (hplaced : site.Placed (Blocks.ofSource site.source) targets)
    (hps : site.patches targets = before ++ after)
    (hout : Spliced 0 site.source (before ++ insertionPatch s.openTag.stop imports :: after) out)
    (hcontent : t.content.stop ≤ s.openTag.start → IsContent (site.patched targets)) :
    ImportsBehind (isSelfClosing (s.openTag.cut site.source)) imports (out ++ back) := by
  obtain ⟨a, m, b, x, y, hsource, rfl, ha, -, hx, hy⟩ := hout.exists_around
  rw [Nat.zero_add] at ha
  have ha : byteLength a = s.openTag.stop := ha
  have hbounds : ∀ p ∈ before ++ after, site.base ≤ p.range.start ∧
      p.range.start < p.range.stop ∧ p.range.stop ≤ site.base + byteLength site.template := by
    intro p hp
    rw [← hps] at hp
    exact hplaced.bounds hp
  rw [List.append_assoc, List.append_assoc]
  show ImportsBehind _ _ (x ++ (imports.toList ++ _))
  rcases (exists_of_template ht).2 s hs with hfront | hback
  · -- no target is in front of the script block
    have hnil : before = [] := by
      refine List.eq_nil_iff_forall_not_mem.2 fun p hp => ?_
      have := hbounds p (List.mem_append_left _ hp)
      have := hx.bounds hp
      omega
    subst hnil
    obtain rfl := hx.unique (.rest 0 a)
    exact importsBehind_front imports hs hsource ha _
  · -- all targets are
    obtain ⟨u, v, rfl, hu, hread⟩ := importsBehind_back imports ht hs hsource ha hback
    rw [← htemplate] at ha hx
    rw [hbase, ← hu] at hbounds
    have hnil : after = [] := by
      refine List.eq_nil_iff_forall_not_mem.2 fun p hp => ?_
      have := hbounds p (List.mem_append_right _ hp)
      have hstop : s.openTag.stop ≤ p.range.start := (hy.bounds hp).1
      rw [← ha, byteLength_append, byteLength_append] at hstop
      omega
    subst hnil
    rw [List.append_nil] at hps hbounds
    obtain ⟨content, rfl, hspliced⟩ := hx.exists_within fun p hp => by
      have := hbounds p hp
      omega
    have hsplit : site.source = u ++ (site.template ++ (v ++ (m ++ b))) := by
      rw [hsource, htemplate]
      simp
    have hpatched := spliced_patched hplaced hsplit (hbase.trans hu.symm)
    rw [hps, hbase, ← hu] at hpatched
    rw [Nat.zero_add] at hspliced
    obtain rfl := hspliced.unique hpatched
    rw [List.append_assoc, List.append_assoc]
    exact hread _ (hcontent hback) _

/-- **The imports of a file** stand right behind the opening tag of a script block of its code. If
this block is behind the template, the template has to be legible, and what is written anew of its
targets must not look like the tag of a template. -/
theorem importsBehind_wrapFile {id source code : String} {options : Options}
    (h : (wrapFile id source options).code = some code)
    (hlegible : ∀ t nodes s, (Blocks.ofSource source.toList).template = some t →
      parse (t.content.cut source.toList) = .ok nodes →
      (Blocks.ofSource source.toList).importScript? = some s →
      t.content.stop ≤ s.openTag.start →
      (siteOf id source options t).staysLegible nodes = true) :
    ImportsBehind (closedForImports source.toList) (importText options.runtimeUrlOrDefault)
      code.toList := by
  obtain ⟨t, nodes, ht, hparse, hfile⟩ := exists_wrapTargets h
  have hplaced : (siteOf id source options t).Placed (Blocks.ofSource source.toList)
      (findTargets options.policy nodes).targets := placed_targets ht hparse
  rw [hfile] at h
  obtain ⟨edits, rs, back, -, hedits, hlaid, -, -, hcode, -⟩ := exists_code_wrapTargets hplaced h
  rw [hcode]
  unfold closedForImports
  unfold ImportsAdded at hedits
  cases hs : (Blocks.ofSource source.toList).importScript? with
  | none =>
    rw [textOf_frontRuns_of_none _ hs]
    exact importsBehind_importBlock _ _
  | some s =>
    simp only [hs] at hedits
    obtain ⟨before, after, hps, rfl⟩ := hedits
    have hnil : textOf [] = [] := rfl
    rw [frontRuns_of_some _ hs, hnil, List.nil_append]
    obtain ⟨pre, post, hsource, hstart, -⟩ := template_place ht
    exact importsBehind_script ht rfl rfl (mem_scripts_of_importScript? hs) hplaced hps
      hlaid.spliced fun hbehind =>
        isContent_patched hparse hplaced hsource hstart (hlegible t nodes s ht hparse hs hbehind)

/-- A slot that repeats and a boundary, in front of a script block. -/
def listInFront : String :=
  "<template><slot v-for='i in x' a='<'><b :key='i'/></slot><p island-client/></template>" ++
    "<script setup></script>"

/-- The script block is found behind both wrappers. -/
theorem importsBehind_wrapFile_back :
    let options : Options :=
      { clientBoundaries := true, development := true, rootDirectory := some "/app" }
    ∃ code, (wrapFile "a.vue" listInFront options).code = some code ∧
      ImportsBehind false (importText options.runtimeUrlOrDefault) code.toList := by
  intro options
  have hsome : (wrapFile "a.vue" listInFront options).code.isSome = true := by decide +kernel
  obtain ⟨code, hcode⟩ := Option.isSome_iff_exists.1 hsome
  have hblock : (Blocks.ofSource listInFront.toList).template =
      some ⟨⟨0, 86⟩, ⟨10, 75⟩⟩ := by decide +kernel
  have hstays : ((parse (Span.cut ⟨10, 75⟩ listInFront.toList)).toOption.all
      (siteOf "a.vue" listInFront options ⟨⟨0, 86⟩, ⟨10, 75⟩⟩).staysLegible) = true := by
    decide +kernel
  have hclosed : closedForImports listInFront.toList = false := by decide +kernel
  have h := importsBehind_wrapFile hcode fun t nodes s ht hparse _ _ => by
    rw [hblock] at ht
    obtain rfl := Option.some.inj ht
    rw [hparse] at hstays
    exact hstays
  rw [hclosed] at h
  exact ⟨code, hcode, h⟩

/-! ## Imports outside of every script -/

theorem exists_code_of_script {id source : String} {options : Options} {t : TemplateBlock}
    {nodes : List Node} {s : ScriptBlock} {ps : List Patch}
    (ht : (Blocks.ofSource source.toList).template = some t)
    (hparse : parse (t.content.cut source.toList) = .ok nodes)
    (hlook : mayContainTargets (t.content.cut source.toList) = true)
    (hs : (Blocks.ofSource source.toList).importScript? = some s)
    (hps : (siteOf id source options t).patches (findTargets options.policy nodes).targets = ps)
    (hne : ps ≠ []) (hmap : options.sourceMap.isInline = false) :
    ∃ code, (wrapFile id source options).code = some code ∧
      code.toList = textOf (patchedRuns 0 source.toList
        [⟨s.openTag.stop, .right, importText options.runtimeUrlOrDefault⟩] ps) := by
  have hfile : wrapFile id source options = wrapTargets (siteOf id source options t)
      (Blocks.ofSource source.toList) (findTargets options.policy nodes) :=
    wrapFile_eq_wrapTargets ht hparse hlook
  have hplaced : (siteOf id source options t).Placed (Blocks.ofSource source.toList)
      (findTargets options.policy nodes).targets := placed_targets ht hparse
  subst hps
  rcases wrapTargets_cases hplaced with ⟨hnil, -⟩ | ⟨-, draft, hdraft, hout⟩
  · exact absurd hnil hne
  · obtain ⟨back, hcode, hback⟩ := exists_emit options id draft
    unfold addImports at hdraft
    simp only [hs] at hdraft
    obtain ⟨-, rfl⟩ := Draft.insertAt_eq_ok_iff.1 hdraft
    refine ⟨_, by rw [hfile, hout], ?_⟩
    show (emit options id _).1.toList = _
    rw [hcode, hback hmap, List.append_nil, Draft.runs, Draft.sortedInsertions]
    show textOf ([] ++ patchedRuns 0 source.toList ([_].mergeSort _) _) = _
    rw [List.mergeSort_singleton, List.nil_append]
    rfl

/-- A script block whose tag closes itself, in front of a slot. -/
def closedScript : String := "<script src='./x.js'/>\n<template><slot/></template>"

/-- A slot with an attribute whose decoded value begins a comment, in front of a script block. -/
def commentInValue : String :=
  "<template><slot a='&lt;!--'/></template><script setup>\nlet a=1\n</script>"

/-- **Imports outside of every script**: behind a tag that closes itself, and in a script block that
the template hides when it is read again. -/
theorem not_importsBehind_wrapFile :
    (∃ code, (wrapFile "/app/components/Card.vue" closedScript { sourceMap := .none }).code =
          some code ∧
      ¬ImportsBehind false (importText (Options.runtimeUrlOrDefault {})) code.toList) ∧
    ∃ code, (wrapFile "/app/components/Card.vue" commentInValue { sourceMap := .none }).code =
          some code ∧
      ¬ImportsBehind false (importText (Options.runtimeUrlOrDefault {})) code.toList := by
  constructor
  · have ht : (Blocks.ofSource closedScript.toList).template = some ⟨⟨23, 51⟩, ⟨33, 40⟩⟩ := by
      decide +kernel
    have hparse : parse (Span.cut ⟨33, 40⟩ closedScript.toList) =
        .ok [.element ⟨"slot", [], ⟨0, 7⟩, none⟩ []] := by decide +kernel
    have hlook : mayContainTargets (Span.cut ⟨33, 40⟩ closedScript.toList) = true := by
      decide +kernel
    have hs : (Blocks.ofSource closedScript.toList).importScript? = some ⟨⟨0, 22⟩, false⟩ := by
      decide +kernel
    have hps : (siteOf "/app/components/Card.vue" closedScript { sourceMap := .none }
        ⟨⟨23, 51⟩, ⟨33, 40⟩⟩).patches (findTargets (Options.policy { sourceMap := .none })
          [.element ⟨"slot", [], ⟨0, 7⟩, none⟩ []]).targets =
        [⟨⟨33, 40⟩, "<IslandSlot name=\"default\" :props=\"undefined\"></IslandSlot>"⟩] := by
      decide +kernel
    obtain ⟨code, hcode, htext⟩ := exists_code_of_script ht hparse hlook hs hps
      (List.cons_ne_nil _ _) rfl
    refine ⟨code, hcode, ?_⟩
    rw [htext]
    decide +kernel
  · have ht : (Blocks.ofSource commentInValue.toList).template = some ⟨⟨0, 40⟩, ⟨10, 29⟩⟩ := by
      decide +kernel
    have hparse : parse (Span.cut ⟨10, 29⟩ commentInValue.toList) =
        .ok [.element ⟨"slot", [⟨"a", some "<!--", ⟨6, 17⟩⟩], ⟨0, 19⟩, none⟩ []] := by
      decide +kernel
    have hlook : mayContainTargets (Span.cut ⟨10, 29⟩ commentInValue.toList) = true := by
      decide +kernel
    have hs : (Blocks.ofSource commentInValue.toList).importScript? = some ⟨⟨40, 54⟩, true⟩ := by
      decide +kernel
    have hps : (siteOf "/app/components/Card.vue" commentInValue { sourceMap := .none }
        ⟨⟨0, 40⟩, ⟨10, 29⟩⟩).patches (findTargets (Options.policy { sourceMap := .none })
          [.element ⟨"slot", [⟨"a", some "<!--", ⟨6, 17⟩⟩], ⟨0, 19⟩, none⟩ []]).targets =
        [⟨⟨10, 29⟩,
          "<IslandSlot name=\"default\" :props='[\x7b a: \"<!--\" \x7d]'></IslandSlot>"⟩] := by
      decide +kernel
    obtain ⟨code, hcode, htext⟩ := exists_code_of_script ht hparse hlook hs hps
      (List.cons_ne_nil _ _) rfl
    refine ⟨code, hcode, ?_⟩
    rw [htext]
    decide +kernel

end Islands
