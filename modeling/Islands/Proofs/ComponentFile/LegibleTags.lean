import Islands.Proofs.ComponentFile.HiddenTags
import Islands.Proofs.ComponentFile.SetupFlag
import Islands.Proofs.ComponentFile.TemplateContent
import Islands.Proofs.Markup.Spacing

/-!
# Tags that stay legible

A tag that loses attributes is read as before by the markup if it is written in the usual way
(`OpenTag.spaced`). The reading of blocks looks at its characters: inside a template block it takes
the tag for what it is, with the attributes and without them, if moreover its names and values hide
the tags of templates, and quotation marks stand around values only (`OpenTag.staysLegible`).

* `passes_openTag`, `isPlainTag_of_spaced`: tags of other elements, and of templates.
* `isLegible_without`: what becomes of the tag.
-/

namespace Islands.ComponentFile

open Markup

/-! ## Tags of other elements -/

theorem endsWord_of_isBlank {c : Char} (h : isBlank c = true) : endsWord c = true := by
  simp only [isBlank, Bool.or_eq_true, beq_iff_eq] at h
  rcases h with (((rfl | rfl) | rfl) | rfl) | rfl <;> decide

theorem angle_not_mem_of_blank {cs : List Char} (h : ∀ c ∈ cs, isBlank c = true) : '<' ∉ cs :=
  fun hmem => absurd (h '<' hmem) (by decide)

theorem hidesTemplates_append_tagTail {trail : List Char} (htrail : ∀ c ∈ trail, isBlank c = true)
    (selfClosing : Bool) (u : List Char) :
    hidesTemplates (u ++ tagTail trail selfClosing) = hidesTemplates u := by
  have hangle : '<' ∉ tagTail trail selfClosing := by
    rw [tagTail, List.mem_append, not_or]
    exact ⟨angle_not_mem_of_blank htrail, by cases selfClosing <;> decide⟩
  have hapart : startsApart (tagTail trail selfClosing) = true →
      hidesTemplates (u ++ tagTail trail selfClosing) = hidesTemplates u := by
    intro h
    rw [hidesTemplates_append h, hidesTemplates_of_not_mem hangle, Bool.and_true]
  cases trail with
  | nil =>
    cases selfClosing with
    | false => exact hapart (by decide)
    | true => exact hidesTemplates_append_slash u
  | cons c trail => exact hapart (endsWord_of_isBlank (htrail c (List.mem_cons_self ..)))

theorem hidesTemplates_writtenAttributes {as : List WrittenAttribute} {trail : List Char}
    (hlead : ∀ a ∈ as, a.lead ≠ [] ∧ ∀ c ∈ a.lead, isBlank c = true)
    (hcore : ∀ a ∈ as, hidesTemplates a.core = true) (htrail : ∀ c ∈ trail, isBlank c = true)
    (selfClosing : Bool) :
    hidesTemplates (writtenAttributes as ++ tagTail trail selfClosing) = true := by
  induction as with
  | nil => exact (hidesTemplates_append_tagTail htrail selfClosing []).trans rfl
  | cons a as ih =>
    rw [List.forall_mem_cons] at hlead hcore
    rw [writtenAttributes_cons, List.append_assoc, List.append_assoc,
      hidesTemplates_append_of_not_mem (angle_not_mem_of_blank hlead.1.2)]
    cases as with
    | nil =>
      rw [writtenAttributes_nil, List.nil_append, hidesTemplates_append_tagTail htrail]
      exact hcore.1
    | cons b as =>
      have hapart : startsApart (writtenAttributes (b :: as) ++ tagTail trail selfClosing) =
          true := by
        obtain ⟨hne, hblank⟩ := hlead.2 b (List.mem_cons_self ..)
        obtain ⟨c, lead, hb⟩ := List.exists_cons_of_ne_nil hne
        rw [writtenAttributes_cons, hb]
        exact endsWord_of_isBlank (hblank c (by rw [hb]; exact List.mem_cons_self ..))
      rw [hidesTemplates_append hapart, hcore.1, ih hlead.2 hcore.2]
      rfl

/-- Behind its `<`, a tag of another element holds nothing that the reading of blocks stops at, if
its characters hide the tags of templates. -/
theorem passes_tag {name rest : List Char} (hletter : startsLetter name = true)
    (hname : ∀ c ∈ name, isNameChar c = true)
    (hend : rest.head?.any (fun c => !isNameChar c) = true)
    (hblock : blockNamed? name ≠ some .template) (hhides : hidesTemplates (name ++ rest) = true) :
    passes true ('<' :: (name ++ rest)) = true := by
  cases rest with
  | nil => cases hend
  | cons d rest =>
    have hd : isNameChar d = false := by simpa using hend
    have hopens : startsName .template (name ++ d :: rest) = false := by
      refine Bool.eq_false_iff.2 fun h => hblock (blockNamed?_eq_some_iff.2 ?_)
      rw [← h]
      exact (dropLetters?_name hname hd (ne_of_isNameChar_eq_false hd .template) rest).symm
    cases name with
    | nil => cases hletter
    | cons c name =>
      have hc : c.isAlpha = true := hletter
      have hbang : ('!' == c) = false := beq_false_of_ne fun e => by rw [← e] at hc; cases hc
      have hslash : c ≠ '/' := fun e => by rw [e] at hc; cases hc
      have hcomment : ¬startsComment (c :: name ++ d :: rest) = true := by
        rw [startsComment, List.cons_append, dropWord?, hbang]
        exact Bool.false_ne_true
      have hcloses : closesTemplate (c :: name ++ d :: rest) = false := by
        rw [List.cons_append, closesTemplate]
        simpa using hslash
      rw [passes, if_pos rfl, if_neg hcomment, stopsAt, if_pos rfl, hcloses, hopens,
        passes_of_hidesTemplates hhides]
      rfl

/-- **The tag of another element** is passed over if its attributes are set apart by blanks and hide
the tags of templates. -/
theorem passes_openTag {t : OpenTag} (hletter : startsLetter t.name = true)
    (hname : ∀ c ∈ t.name, isNameChar c = true) (hangle : '<' ∉ t.name)
    (hblock : blockNamed? t.name ≠ some .template)
    (hlead : ∀ a ∈ t.attributes, a.lead ≠ [] ∧ ∀ c ∈ a.lead, isBlank c = true)
    (hcore : ∀ a ∈ t.attributes, hidesTemplates a.core = true)
    (htrail : ∀ c ∈ t.trail, isBlank c = true) : passes true t.written = true := by
  have hinside : t.inside.head?.any (fun c => !isNameChar c) = true := by
    have hblank : ∀ c, isBlank c = true → (!isNameChar c) = true := fun c hc => by
      simp [isNameChar, hc]
    unfold OpenTag.inside
    cases has : t.attributes with
    | nil =>
      rw [writtenAttributes_nil, List.nil_append, tagTail]
      cases htail : t.trail with
      | nil => cases t.selfClosing <;> decide
      | cons c trail =>
        rw [htail] at htrail
        exact hblank c (htrail c (List.mem_cons_self ..))
    | cons a as =>
      rw [has] at hlead
      obtain ⟨hne, hall⟩ := hlead a (List.mem_cons_self ..)
      obtain ⟨c, lead, ha⟩ := List.exists_cons_of_ne_nil hne
      rw [writtenAttributes_cons, ha]
      exact hblank c (hall c (by rw [ha]; exact List.mem_cons_self ..))
  rw [OpenTag.written_eq]
  refine passes_tag hletter hname hinside hblock ?_
  rw [hidesTemplates_append_of_not_mem hangle]
  exact hidesTemplates_writtenAttributes hlead hcore htrail t.selfClosing

/-! ## Tags of templates -/

/-- What an attribute that is written in the usual way ends with is no slash. -/
theorem getLast?_core_of_spaced {a : WrittenAttribute} (ha : a.Sound) (h : a.spaced = true) :
    a.core.getLast? ≠ some '/' := by
  simp only [WrittenAttribute.spaced, Bool.and_eq_true] at h
  have hvalue := h.2
  rw [WrittenAttribute.core]
  cases hs : a.assignment with
  | none =>
    rw [hs] at hvalue
    simpa using hvalue
  | some s =>
    rw [hs] at hvalue
    have hsound := (ha.assignment s hs).value
    cases hv : s.value with
    | bare body => simp [hv] at hvalue
    | quoted mark body =>
      rw [hv] at hsound
      have hlast : (a.name ++ ((some s).map Assignment.written).getD []).getLast? = some mark := by
        rw [Option.map_some, Option.getD_some, Assignment.written, hv, WrittenValue.written]
        simp [List.getLast?_append, List.getLast?_cons]
      rw [hlast]
      rcases hsound.1 with rfl | rfl <;> decide

theorem getLast?_front_of_spaced {t : OpenTag} (ht : t.Sound) (h : t.spaced = true) :
    ('<' :: (t.name ++ (writtenAttributes t.attributes ++ t.trail))).getLast? ≠ some '/' := by
  simp only [OpenTag.spaced, Bool.and_eq_true, List.all_eq_true (p := WrittenAttribute.spaced)] at h
  obtain ⟨hattributes, htrail⟩ := h
  intro hlast
  rw [← List.cons_append, ← List.append_assoc] at hlast
  rcases List.eq_nil_or_concat t.trail with htrail' | ⟨trail, c, htrail'⟩
  · rw [htrail', List.append_nil] at hlast
    rcases List.eq_nil_or_concat t.attributes with has | ⟨as, a, has⟩
    · rw [has, writtenAttributes_nil, List.append_nil, List.getLast?_cons] at hlast
      cases hname : t.name.getLast? with
      | none => rw [hname] at hlast; cases hlast
      | some c =>
        rw [hname] at hlast
        obtain rfl : c = '/' := Option.some.inj hlast
        cases ht.name '/' (List.mem_of_getLast? hname)
    · have ha : a ∈ t.attributes := by simp [has]
      have hne := (ht.attributes a ha).core_ne_nil
      have hwritten : writtenAttributes t.attributes =
          writtenAttributes as ++ a.lead ++ a.core := by
        simp [has, writtenAttributes, WrittenAttribute.written]
      rw [hwritten, ← List.append_assoc, List.getLast?_append,
        List.getLast?_eq_some_getLast hne, Option.some_or,
        ← List.getLast?_eq_some_getLast hne] at hlast
      exact getLast?_core_of_spaced (ht.attributes a ha) (hattributes a ha) hlast
  · rw [htrail', List.concat_eq_append, ← List.append_assoc, List.getLast?_concat] at hlast
    obtain rfl : c = '/' := Option.some.inj hlast
    rw [htrail', List.concat_eq_append] at htrail
    simp [isBlank] at htrail

/-- **The end of a tag** that is written in the usual way shows whether it closes itself. -/
theorem isSelfClosing_of_spaced {t : OpenTag} (ht : t.Sound) (h : t.spaced = true) :
    isSelfClosing t.written = t.selfClosing := by
  rw [isSelfClosing, Bool.eq_iff_iff, List.isSuffixOf_iff_suffix]
  cases hself : t.selfClosing with
  | true =>
    refine iff_of_true ⟨'<' :: (t.name ++ (writtenAttributes t.attributes ++ t.trail)), ?_⟩ rfl
    simp [OpenTag.written_eq, OpenTag.inside, tagTail, tagEnd, hself]
  | false =>
    refine iff_of_false ?_ Bool.false_ne_true
    rintro ⟨u, hu⟩
    refine getLast?_front_of_spaced ht h ?_
    have hwritten : t.written =
        '<' :: (t.name ++ (writtenAttributes t.attributes ++ t.trail)) ++ ['>'] := by
      simp [OpenTag.written_eq, OpenTag.inside, tagTail, tagEnd, hself]
    have hsplit : u ++ ['/', '>'] = (u ++ ['/']) ++ ['>'] := by simp
    rw [hwritten, hsplit] at hu
    rw [← List.append_cancel_right hu, List.getLast?_concat]

/-- **The tag of a template** is plain if it is written in the usual way and quotation marks stand
around its values only. -/
theorem isPlainTag_of_spaced {t : OpenTag} (ht : t.Sound) (hname : ∀ c ∈ t.name, isMark c = false)
    (hspaced : t.spaced = true) (hmarks : t.marksAroundValues = true) :
    isPlainTag t.written (!t.selfClosing) = true := by
  have hread := readTag_of_marksAroundValues ht hname hmarks []
  rw [List.append_nil] at hread
  have htag : readTag none t.written = some (t.written, []) := by
    rw [OpenTag.written_eq, readTag_none_cons, if_neg (by decide), if_neg (by decide), hread]
    rfl
  rw [isPlainTag, htag, isSelfClosing_of_spaced ht hspaced, Bool.not_not, beq_self_eq_true,
    beq_self_eq_true]
  rfl

end Islands.ComponentFile

namespace Islands.Markup

open ComponentFile

/-! ## Tags without some attributes -/

section
variable {t : OpenTag} {p : String → Bool}

/-- Whether no tag of a template seems to begin in the name of a tag or in an attribute. -/
def OpenTag.hidesTemplates (t : OpenTag) : Bool :=
  !t.name.contains '<' && t.attributes.all (ComponentFile.hidesTemplates ·.core)

/-- Whether the reading of blocks takes a tag for what it is without the attributes whose names are
among `p`: there are none, or the tag is written in the usual way, with quotation marks around values
only, and hides the tags of templates. -/
def OpenTag.staysLegible (p : String → Bool) (t : OpenTag) : Bool :=
  !t.attributes.any (·.named p) || (t.spaced && t.marksAroundValues && t.hidesTemplates)

theorem mem_of_mem_without (h : t.spaced = true) {a : WrittenAttribute}
    (ha : a ∈ (t.without p).attributes) : a ∈ t.attributes := by
  rw [OpenTag.without_of_spaced h] at ha
  exact (List.mem_filter.1 ha).1

theorem isPlainTag_without (ht : t.Sound) (hname : blockNamed? t.name = some .template)
    (hspaced : t.spaced = true) (hmarks : t.marksAroundValues = true) :
    isPlainTag (t.without p).written (!t.selfClosing) = true := by
  have hmarks' : (t.without p).marksAroundValues = true :=
    List.all_eq_true.2 fun a ha => List.all_eq_true.1 hmarks a (mem_of_mem_without hspaced ha)
  exact isPlainTag_of_spaced (OpenTag.sound_without ht) (isMark_of_blockNamed? hname)
    (OpenTag.spaced_without hspaced) hmarks'

theorem passes_without (ht : t.Formed) (hname : blockNamed? t.name ≠ some .template)
    (hspaced : t.spaced = true) (hhides : t.hidesTemplates = true) :
    passes true (t.without p).written = true := by
  simp only [OpenTag.hidesTemplates, Bool.and_eq_true, Bool.not_eq_true'] at hhides
  have hangle : '<' ∉ t.name := by simpa using hhides.1
  have hkept := OpenTag.spaced_without (p := p) hspaced
  simp only [OpenTag.spaced, Bool.and_eq_true,
    List.all_eq_true (p := WrittenAttribute.spaced)] at hkept
  refine passes_openTag (t := t.without p) ht.letter ht.sound.name hangle hname (fun a ha => ?_)
    (fun a ha => List.all_eq_true.1 hhides.2 a (mem_of_mem_without hspaced ha))
    (List.all_eq_true.1 hkept.2)
  have ha := hkept.1 a ha
  simp only [WrittenAttribute.spaced, Bool.and_eq_true, Bool.not_eq_true'] at ha
  exact ⟨by simpa using ha.1.1.1, List.all_eq_true.1 ha.1.1.2⟩

/-- **The tag without the attributes** is as legible as it was. -/
theorem isLegible_without {text text' : List Char} {close : Option (List Char)}
    {children children' : Bool} (ht : t.Formed) (hstays : t.staysLegible p = true)
    (hlegible : isLegible true t.name t.written text close children = true)
    (hchildren : children' = true) :
    isLegible true t.name (t.without p).written text' close children' = true := by
  rw [OpenTag.staysLegible, Bool.or_eq_true, Bool.not_eq_true'] at hstays
  rw [isLegible_inside] at hlegible ⊢
  rcases hstays with hnone | husual
  · rw [OpenTag.without_eq_self hnone, hchildren, Bool.and_true, Bool.and_true]
    split at hlegible
    · rename_i hname
      rw [if_pos hname]
      exact (Bool.and_eq_true_iff.1 hlegible).1
    · rename_i hname
      rw [Bool.and_eq_true, Bool.and_eq_true] at hlegible
      rw [if_neg hname, hlegible.1.1, hlegible.2]
      rfl
  · rw [Bool.and_eq_true, Bool.and_eq_true] at husual
    obtain ⟨⟨hspaced, hmarks⟩, hhides⟩ := husual
    split at hlegible
    · rename_i hname
      have hclosed : close.isSome = !t.selfClosing := by
        have hself := (Bool.and_eq_true_iff.1 (Bool.and_eq_true_iff.1 hlegible).1).2
        rw [isSelfClosing_of_spaced ht.sound hspaced, beq_iff_eq] at hself
        rw [hself, Bool.not_not]
      rw [if_pos hname, hclosed, isPlainTag_without ht.sound hname hspaced hmarks, hchildren]
      rfl
    · rename_i hname
      rw [Bool.and_eq_true] at hlegible
      rw [if_neg hname, passes_without ht hname hspaced hhides, hchildren, hlegible.2]
      rfl

end

end Islands.Markup
