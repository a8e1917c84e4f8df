import Islands.Proofs.Wrapper.HiddenValues
import Islands.Proofs.Wrapper.LegibleStripping
import Islands.Proofs.Wrapper.LiftedConditions
import Islands.Proofs.Wrapper.Progress

/-!
# Wrappers in a template block

A wrapper is generated around what is left of its target, with the target's conditions as they were
written. The reading of blocks takes it for a part of the template if the target says so where it
stands in the source (`Site.wrapsLegibly`): no tag of a template shows in its attributes, and the
tags that lose attributes stay legible.

* `belongsInside_opening`, `belongsInside_section`: the tags of a wrapper, and the sections inside
  it.
* `standsFor_replacement`: what takes the place of a target can stand there.
-/

namespace Islands

open Markup ComponentFile

/-! ## Opening tags -/

section
variable {template pre post rest : List Char} {tag : OpenTag}

/-- Generated attributes whose values hide the tags of templates. -/
def HideValues (as : List (String × Option String)) : Prop :=
  ∀ a ∈ as, '<' ∉ a.1.toList ∧ ∀ v, a.2 = some v → hidesTemplates v.toList = true

theorem HideValues.cons {name value : String} {as : List (String × Option String)}
    (hname : '<' ∉ name.toList) (hvalue : hidesTemplates value.toList = true) (h : HideValues as) :
    HideValues ((name, some value) :: as) := by
  refine List.forall_mem_cons.2 ⟨⟨hname, fun v hv => ?_⟩, h⟩
  obtain rfl := Option.some.inj hv
  exact hvalue

theorem hidesTemplates_generatedAttribute {a : String × Option String} (hname : '<' ∉ a.1.toList)
    (hvalue : ∀ v, a.2 = some v → hidesTemplates v.toList = true) :
    hidesTemplates (generatedAttribute a).core = true := by
  obtain ⟨name, value⟩ := a
  cases value with
  | none =>
    have hcore : (generatedAttribute (name, none)).core = name.toList := by
      simp [generatedAttribute, WrittenAttribute.core]
    rw [hcore]
    exact hidesTemplates_of_not_mem hname
  | some v =>
    have hcore : (generatedAttribute (name, some v)).core =
        (name.toList ++ ['=']) ++ (quotedValue v).written := by
      simp [generatedAttribute, WrittenAttribute.core, Assignment.written]
    rw [hcore, hidesTemplates_append_of_not_mem (by simpa using hname)]
    exact hidesTemplates_quotedValue (hvalue v rfl)

theorem hidesTemplates_conditions {s : Shell}
    (hattributes : s.attributes = tag.attributesAt (byteLength pre))
    (htemplate : template = pre ++ (tag.written ++ rest))
    (h : ∀ a ∈ s.attributes, a.hidesTemplates template = true) :
    ∀ w ∈ tag.conditions, hidesTemplates w.core = true := by
  have hmap := map_conditions htemplate Prod.snd
  intro w hw
  have hmem : w.core ∈ tag.conditions.map fun w => w.core := List.mem_map_of_mem hw
  rw [← hmap, ← hattributes] at hmem
  obtain ⟨a, ha, hcut⟩ := List.mem_map.1 hmem
  have hhides := h a (List.mem_filter.1 ha).1
  rw [Attribute.hidesTemplates, Bool.and_eq_true] at hhides
  exact hcut ▸ hhides.2

/-- **The tags of a wrapper** around what can stand in a template block. -/
theorem belongsInside_opening {e : Element} {q : Part} (hpart : e.IsPart template pre q post)
    {name opening : String} {as : List (String × Option String)}
    (hname : name ∈ [slotComponent, boundaryComponent])
    (hopening : opening.toList = '<' :: (name.toList ++
      ((liftedConditions template e.toShell).toList ++
        (writtenAttributes (as.map generatedAttribute) ++ ['>']))))
    (hattributes : ∀ a ∈ e.attributes, a.hidesTemplates template = true) (has : HideValues as)
    {w out : List Char} (h : StandsFor w out) :
    BelongsInside (opening.toList ++ (out ++ (closing name).toList)) := by
  obtain ⟨tag, closeTag, rest, hformed, htemplate, hshell⟩ := hpart.exists_tag
  have hsame : e.attributes = tag.attributesAt (byteLength pre) := by
    rw [hshell]
    rfl
  have hnames : ∀ name ∈ [slotComponent, boundaryComponent], startsLetter name.toList = true ∧
      name.toList.all isNameChar = true ∧ '<' ∉ name.toList ∧
      blockNamed? name.toList ≠ some .template ∧
      passes true (CloseTag.written ⟨name.toList, []⟩) = true := by decide +kernel
  obtain ⟨hletter, hchars, hangle, hblock, hend⟩ := hnames name hname
  have htag : opening.toList =
      (apartTag name (tag.conditions ++ as.map generatedAttribute)).written := by
    rw [hopening, written_apartTag, liftedConditions_eq hsame htemplate]
  have hclose : (closing name).toList = CloseTag.written ⟨name.toList, []⟩ := by
    simp [closing, CloseTag.written]
  have hlead : ∀ a ∈ tag.conditions ++ as.map generatedAttribute,
      a.lead ≠ [] ∧ ∀ c ∈ a.lead, isBlank c = true := by
    have hblank : ∀ {a : WrittenAttribute}, a.lead = [' '] →
        a.lead ≠ [] ∧ ∀ c ∈ a.lead, isBlank c = true := by
      intro a ha
      rw [ha]
      exact ⟨List.cons_ne_nil _ _, List.forall_mem_singleton.2 rfl⟩
    rw [List.forall_mem_append, List.forall_mem_map]
    exact ⟨fun a ha => hblank (isCondition_of_mem ha).1, fun a _ => hblank rfl⟩
  have hcore : ∀ a ∈ tag.conditions ++ as.map generatedAttribute,
      hidesTemplates a.core = true := by
    rw [List.forall_mem_append, List.forall_mem_map]
    exact ⟨hidesTemplates_conditions hsame htemplate hattributes,
      fun a ha => hidesTemplates_generatedAttribute (has a ha).1 (has a ha).2⟩
  rw [htag, hclose]
  exact .between (passes_openTag hletter (List.all_eq_true.1 hchars) hangle hblock hlead hcore (List.forall_mem_nil _))
    hend h

end

/-! ## Sections -/

theorem marksAroundValue_generatedAttribute {a : String × Option String}
    (h : a.1.toList.all (!isMark ·) = true) : (generatedAttribute a).marksAroundValue = true := by
  obtain ⟨name, value⟩ := a
  rw [WrittenAttribute.marksAroundValue, Bool.and_eq_true]
  refine ⟨h, ?_⟩
  cases value with
  | none => rfl
  | some v =>
    obtain ⟨mark, body, hv, -⟩ := exists_quotedValue v
    simp [generatedAttribute, WrittenAttribute.bareValue?, hv]

/-- **A section** of a wrapper, with an attribute whose name has no quotation marks. -/
theorem belongsInside_section {name : String} (value : Option String)
    (hname : isPlainName name.toList = true) (hmarks : name.toList.all (!isMark ·) = true)
    {w out : List Char} (h : StandsFor w out) :
    BelongsInside ((generatedTag "template" [(name, value)]).written ++
      (out ++ (closing "template").toList)) := by
  have hplain : ∀ a ∈ [(name, value)], isPlainName a.1.toList = true :=
    List.forall_mem_singleton.2 hname
  have htag : (generatedTag "template" [(name, value)]).Formed :=
    formed_generatedTag (by decide) (by decide) hplain
  have haround : (generatedTag "template" [(name, value)]).marksAroundValues = true :=
    List.all_eq_true.2 (List.forall_mem_singleton.2 (marksAroundValue_generatedAttribute hmarks))
  have hletters : "template".toList.all (!isMark ·) = true := by decide
  have hunmarked : ∀ c ∈ "template".toList, isMark c = false := by
    simpa only [List.all_eq_true, Bool.not_eq_true'] using hletters
  have hblock : blockNamed? "template".toList = some .template := by decide
  have hclose : CloseTag.Sound ⟨"template".toList, []⟩ := ⟨htag.sound.name, List.forall_mem_nil _⟩
  exact .template htag
    (isPlainTag_of_spaced htag.sound hunmarked (spaced_generatedTag hplain) haround) hblock hclose (beq_self_eq_true _) h

theorem written_generatedTag (name : String) (a : String × Option String) :
    (generatedTag name [a]).written =
      '<' :: (name.toList ++ ((generatedAttribute a).written ++ ['>'])) := by
  simp [generatedTag, OpenTag.written, tagEnd]

theorem standsFor_repeated (repetition : Option Repetition) {body : String}
    (h : StandsFor body.toList body.toList) :
    StandsFor (repeated repetition body).toList (repeated repetition body).toList := by
  cases repetition with
  | none => exact h
  | some r =>
    have hname : isPlainName "v-for".toList = true := by decide
    have hsection := belongsInside_section (some r.directive) hname (by decide) h
    have hrepeated : repeated (some r) body =
        "<template v-for=" ++ quoteAttribute r.directive ++ ">" ++ body ++ closing "template" := rfl
    have htext : (repeated (some r) body).toList =
        (generatedTag "template" [("v-for", some r.directive)]).written ++
          (body.toList ++ (closing "template").toList) := by
      rw [hrepeated, written_generatedTag, written_generatedAttribute]
      simp
    rw [htext]
    exact hsection.standsFor rfl

section
variable {template pre post : List Char} {q : Part} {e : Element}

/-- **The fallback of a slot** around what is left of the slot's content. -/
theorem belongsInside_fallbackSection (hpart : e.IsPart template pre q post)
    (hslot : e.name = "slot") (hlegible : Part.legible true q = true)
    (hstays : ∀ d ∈ e.descendants, d.staysLegible template isItemKey = true)
    (repetition : Option Repetition) :
    BelongsInside (fallbackSection template e repetition).toList := by
  cases hinner : e.inner? with
  | none =>
    simp only [fallbackSection, hinner]
    exact belongsInside_nil
  | some inner =>
    by_cases hnil : e.children = []
    · simp only [fallbackSection, hinner, hnil]
      exact belongsInside_nil
    · obtain ⟨tag, children, close, rfl, htext, hspan, hchildren⟩ :=
        exists_children_of_slot hpart hslot hinner
      have hr : Readable (tokensOf children) := hpart.readable.tail.left
      rw [Part.legible] at hlegible
      rw [descendants_eq, ← hchildren] at hstays
      have hbody := standsFor_stripAll hpart.paired.2.2 hr htext hstays
        (children_of_isLegible hlegible)
      have hfallback := fallbackText_of_parts hr.tagsSound htext hspan hchildren
      rw [← String.toList_ofList (l := writtenOf _), ← hfallback] at hbody
      have hname : isPlainName "#fallback".toList = true := by decide
      have hsection := belongsInside_section none hname (by decide)
        (standsFor_repeated repetition hbody)
      rw [fallbackSection_of_children hinner hnil, String.toList_append, String.toList_append,
        List.append_assoc]
      exact hsection

end

/-! ## Generated values -/

section
variable {template : List Char} {s : Shell}

theorem hidesTemplates_text_of_given {as : List Attribute} {name : SlotName}
    (h : SlotName.Given as name)
    (has : ∀ a ∈ as, hidesTemplates a.valueOrEmpty.toList = true) :
    hidesTemplates name.text.toList = true := by
  cases h with
  | default => decide
  | static => exact has _ (List.mem_append_right _ (List.mem_cons_self ..))
  | dynamic => exact hidesTemplates_trim (has _ (List.mem_append_right _ (List.mem_cons_self ..)))

/-- **The name and the data of a slot** hide what its attributes do. -/
theorem hideValues_slotAttributes {data : PropData} (hdata : slotData s = .ok data)
    (h : ∀ a ∈ s.attributes, a.hidesTemplates template = true) :
    HideValues (slotAttributes (SlotName.ofShell s) data) := by
  simp only [Attribute.hidesTemplates, Bool.and_eq_true] at h
  have hname := hidesTemplates_text_of_given (SlotName.given_ofShell s) fun a ha => (h a ha).1.2
  have hprops := (PropData.ofAttributes_eq_ok_iff.1 hdata).2
  have hexpression : hidesTemplates data.expression.toList = true := by
    rw [hprops]
    exact (PropData.hides_collected fun a ha => (h a (List.mem_filter.1 ha).1).1).expression
  have hprop : HideValues [(":props", some data.expression)] :=
    .cons (by decide) hexpression (List.forall_mem_nil _)
  cases hslot : SlotName.ofShell s with
  | static name | dynamic name =>
    rw [hslot] at hname
    exact .cons (by decide) hname hprop

theorem hidesTemplates_markerExpression {marker : String} (hmarker : markerExpression s = .ok marker)
    (h : ∀ a ∈ s.attributes, a.hidesTemplates template = true) :
    hidesTemplates marker.toList = true := by
  unfold markerExpression at hmarker
  split at hmarker
  · obtain rfl := Except.ok.inj hmarker
    decide
  · rename_i a ha
    have hhides := h a (List.mem_of_find?_eq_some ha)
    simp only [Attribute.hidesTemplates, Bool.and_eq_true] at hhides
    simp only at hmarker
    split at hmarker
    · obtain rfl := Except.ok.inj hmarker
      exact hidesTemplates_trim hhides.1.2
    · split at hmarker
      · cases hmarker
      · obtain rfl := Except.ok.inj hmarker
        decide

/-- **The attributes of a boundary** hide what those of the element do. -/
theorem hideValues_boundaryAttributes {marker : String} {root : Option String} (id : String)
    (base : Nat) (hmarker : markerExpression s = .ok marker)
    (hroot : ∀ r, root = some r → hidesTemplates r.toList = true) (hname : '<' ∉ s.name.toList)
    (h : ∀ a ∈ s.attributes, a.hidesTemplates template = true) :
    HideValues (boundaryAttributes (boundaryTarget id base s) root marker) := by
  have htarget : hidesTemplates (boundaryTarget id base s).toList = true := by
    refine hidesTemplates_of_not_mem ?_
    rw [boundaryTarget, String.toList_append, String.toList_append, List.mem_append,
      List.mem_append, not_or, not_or]
    exact ⟨⟨hname, by decide⟩, angle_not_mem_address _ _⟩
  have hclient : HideValues [(":island-client", some marker)] :=
    .cons (by decide) (hidesTemplates_markerExpression hmarker h) (List.forall_mem_nil _)
  refine .cons (by decide) htarget ?_
  cases root with
  | none => exact hclient
  | some r => exact .cons (by decide) (hroot r rfl) hclient

end

/-! ## Replacements -/

/-- Whether the reading of blocks takes what replaces a target for a part of the template: no tag of
a template shows in the target's attributes, and what is left of the target stays legible. A
boundary has the name of the element and the root directory in it, too. -/
def Site.wrapsLegibly (site : Site) (e : Element) : Bool :=
  e.attributes.all (·.hidesTemplates site.template) &&
    match kindOf e.toShell with
    | .slot => e.descendants.all (·.staysLegible site.template isItemKey)
    | _ => !e.name.toList.contains '<' &&
        site.options.boundaryRoot?.all (hidesTemplates ·.toList) &&
        (e.staysLegible site.template leavesElement &&
          e.descendants.all (·.staysLegible site.template isMarker))

section
variable {site : Site} {pre post : List Char} {q : Part} {e : Element}

theorem belongsInside_wrapSlot {text : String} {name : SlotName}
    (hpart : e.IsPart site.template pre q post) (hslot : kindOf e.toShell = .slot)
    (hlegible : Part.legible true q = true) (hwraps : site.wrapsLegibly e = true)
    (h : wrapSlot site.template e = .ok (text, name)) : BelongsInside text.toList := by
  rw [Site.wrapsLegibly, hslot, Bool.and_eq_true, List.all_eq_true, List.all_eq_true] at hwraps
  obtain ⟨-, data, hdata, rfl⟩ := wrapSlot_eq_opening h
  have hsection := belongsInside_fallbackSection hpart (kindOf_eq_slot_iff.1 hslot) hlegible hwraps.2
    data.repetition
  have hopening := belongsInside_opening hpart (List.mem_cons_self ..)
    (toList_slotOpening site.template e.toShell data) hwraps.1
    (hideValues_slotAttributes hdata hwraps.1) (hsection.standsFor rfl)
  simpa only [String.toList_append, List.append_assoc] using hopening

theorem belongsInside_wrapBoundary {text target : String}
    (hpart : e.IsPart site.template pre q post) (hkind : kindOf e.toShell ≠ .slot)
    (hlegible : Part.legible true q = true) (hwraps : site.wrapsLegibly e = true)
    (h : wrapBoundary site.template site.id site.base site.options.boundaryRoot? e =
      .ok (text, target)) : BelongsInside text.toList := by
  have hstays : (∀ a ∈ e.attributes, a.hidesTemplates site.template = true) ∧
      ('<' ∉ e.name.toList ∧ site.options.boundaryRoot?.all (hidesTemplates ·.toList) = true) ∧
      e.staysLegible site.template leavesElement = true ∧
      ∀ d ∈ e.descendants, d.staysLegible site.template isMarker = true := by
    unfold Site.wrapsLegibly at hwraps
    split at hwraps
    · exact absurd ‹_› hkind
    · simpa using hwraps
  obtain ⟨hattributes, ⟨hangle, hroot⟩, hown, hinner⟩ := hstays
  have hroot : ∀ r, site.options.boundaryRoot? = some r → hidesTemplates r.toList = true := by
    intro r hr
    rw [hr] at hroot
    exact hroot
  obtain ⟨-, marker, hmarker, rfl⟩ := wrapBoundary_eq_ok h
  have hnode : (q.nodeAt (byteLength pre)).StaysLegible site.template isMarker leavesElement := by
    rw [hpart.node]
    rw [descendants_eq] at hinner
    exact ⟨hown, hinner⟩
  have hbody := standsFor_strip hpart.paired hpart.readable hpart.text hnode hlegible
  rw [← String.toList_ofList (l := Part.written _), ← boundaryBody_eq hpart] at hbody
  have hopening := belongsInside_opening hpart (List.mem_cons_of_mem _ (List.mem_singleton.2 rfl))
    (toList_boundaryOpening site.template site.id site.base site.options.boundaryRoot? marker
      e.toShell) hattributes
    (hideValues_boundaryAttributes site.id site.base hmarker hroot hangle hattributes) hbody
  simpa only [String.toList_append, List.append_assoc] using hopening

/-- **What takes the place of a target** can stand there in a template block. -/
theorem standsFor_replacement {r : Replacement} (hpart : e.IsPart site.template pre q post)
    (hlegible : Part.legible true q = true) (hwraps : site.wrapsLegibly e = true)
    (h : site.replacement e = .ok r) : StandsFor q.written r.text.toList := by
  obtain ⟨tag, closeTag, rest, -, hwritten, -⟩ :=
    Part.exists_tag hpart.node hpart.paired hpart.readable
  have hhead : q.written.head? = some '<' := by
    rw [hwritten, OpenTag.written_eq]
    rfl
  have hopens : r.text.toList.head? = some '<' := by
    rcases replacement_cases h with ⟨-, -, rest, htext⟩ | ⟨-, -, rest, htext⟩ <;>
      simp [htext]
  refine BelongsInside.standsFor ?_ (hopens.trans hhead.symm)
  unfold Site.replacement at h
  split at h
  · rename_i hslot
    cases hwrap : wrapSlot site.template e with
    | error cause => rw [hwrap] at h; cases h
    | ok p =>
      rw [hwrap] at h
      obtain rfl := Except.ok.inj h
      exact belongsInside_wrapSlot hpart hslot hlegible hwraps hwrap
  · rename_i hkind
    cases hwrap : wrapBoundary site.template site.id site.base site.options.boundaryRoot? e with
    | error cause => rw [hwrap] at h; cases h
    | ok p =>
      rw [hwrap] at h
      obtain rfl := Except.ok.inj h
      exact belongsInside_wrapBoundary hpart hkind hlegible hwraps hwrap

end

end Islands
