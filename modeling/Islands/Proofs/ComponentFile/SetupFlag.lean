import Islands.Proofs.ComponentFile.BlockTags
import Islands.Proofs.ComponentFile.TagWords

/-!
# Script blocks marked `setup`

A script block counts as marked `setup` if the word stands bare in its opening tag. Read as markup,
the tag may say otherwise (`not_setupAgrees`): the word may be a value, or it may be glued to what
is in front of it. What the mark says is told exactly by the attributes of the tag
(`setup_iff_showsWord`), and it says what the markup says if the tag sets its attributes apart
(`OpenTag.setsApart`).

* `readTag_of_marksAroundValues`, `eq_written_of_opensBlock`: both readings of a tag end at the same
  `>`.
* `exists_tag_of_parse`: the tag of markup that is one element.
-/

namespace Islands.ComponentFile

open Markup

/-! ## Where a tag ends -/

theorem readTag_none_cons (c : Char) (cs : List Char) :
    readTag none (c :: cs) =
      if c == '>' then some (['>'], cs)
      else (readTag (if isMark c then some c else none) cs).map (prepend [c]) := rfl

/-- A piece of a tag that is passed over in the search for the end of the tag. -/
def GoesOn (x : List Char) : Prop :=
  ∀ cs, readTag none (x ++ cs) = (readTag none cs).map (prepend x)

theorem goesOn_append {x y : List Char} (hx : GoesOn x) (hy : GoesOn y) : GoesOn (x ++ y) := by
  intro cs
  rw [List.append_assoc, hx, hy, Option.map_map]
  congr 1
  funext p
  simp [prepend]

theorem goesOn_of_forall {x : List Char} (hx : ∀ c ∈ x, isMark c = false ∧ c ≠ '>') :
    GoesOn x := by
  induction x with
  | nil =>
    intro cs
    rw [List.nil_append]
    cases readTag none cs <;> rfl
  | cons c x ih =>
    intro cs
    rw [List.forall_mem_cons] at hx
    rw [List.cons_append, readTag_none_cons, if_neg (by simpa using hx.1.2),
      if_neg (by simp [hx.1.1]), ih hx.2, Option.map_map]
    rfl

theorem goesOn_quoted {q : Char} {body : List Char} (hq : isMark q = true) (hbody : q ∉ body) :
    GoesOn (q :: (body ++ [q])) := by
  have hinside : ∀ cs, readTag (some q) (body ++ q :: cs) =
      (readTag none cs).map (prepend (body ++ [q])) := by
    intro cs
    induction body with
    | nil =>
      rw [List.nil_append, readTag, if_pos (beq_self_eq_true q)]
      rfl
    | cons c body ih =>
      rw [List.mem_cons, not_or] at hbody
      rw [List.cons_append, readTag, if_neg (by simpa using Ne.symm hbody.1), ih hbody.2,
        Option.map_map]
      rfl
  intro cs
  have hangle : q ≠ '>' := by
    rintro rfl
    cases hq
  rw [List.cons_append, List.append_assoc, List.singleton_append, readTag_none_cons,
    if_neg (by simpa using hangle), if_pos hq, hinside, Option.map_map]
  rfl

theorem goesOn_gap {gap : List Char} (h : ∀ c ∈ gap, isGapChar c = true) : GoesOn gap := by
  apply goesOn_of_forall
  intro c hc
  have hgap := h c hc
  simp only [isGapChar, Bool.or_eq_true, beq_iff_eq] at hgap
  rcases hgap with hblank | rfl
  · refine ⟨isMark_of_isBlank hblank, ?_⟩
    rintro rfl
    cases hblank
  · decide

section
variable {a : WrittenAttribute}

theorem goesOn_name (ha : a.Sound) (hmarks : a.marksAroundValue = true) : GoesOn a.name := by
  apply goesOn_of_forall
  intro c hc
  refine ⟨isMark_of_isWordChar (isWordChar_of_mem_name ha hmarks c hc), ?_⟩
  rintro rfl
  obtain ⟨d, tail, hsplit, -, hangle, htail⟩ := ha.name
  rw [hsplit] at hc
  rcases List.mem_cons.1 hc with rfl | hc
  · exact hangle rfl
  · cases htail '>' hc

theorem goesOn_value (ha : a.Sound) (hmarks : a.marksAroundValue = true) {s : Assignment}
    (hs : a.assignment = some s) : GoesOn s.value.written := by
  have hsound := (ha.assignment s hs).value
  cases hv : s.value with
  | quoted q body =>
    rw [hv] at hsound
    refine goesOn_quoted ?_ hsound.2
    rcases hsound.1 with rfl | rfl <;> rfl
  | bare body =>
    rw [hv] at hsound
    apply goesOn_of_forall
    intro c hc
    refine ⟨isMark_of_isWordChar (isWordChar_of_mem_bareValue ha hmarks hs hv c hc), ?_⟩
    rintro rfl
    cases hsound.1 '>' hc

/-- **An attribute** with quotation marks around its value only is passed over. -/
theorem goesOn_attribute (ha : a.Sound) (hmarks : a.marksAroundValue = true) :
    GoesOn a.written := by
  apply goesOn_append (goesOn_gap ha.lead)
  apply goesOn_append (goesOn_name ha hmarks)
  cases hs : a.assignment with
  | none => exact goesOn_of_forall (List.forall_mem_nil _)
  | some s =>
    have hsound := ha.assignment s hs
    apply goesOn_append (goesOn_gap fun c hc => isGapChar_of_isBlank (hsound.before c hc))
    apply goesOn_append (x := ['=']) (goesOn_of_forall (List.forall_mem_singleton.2 (by decide)))
    apply goesOn_append (goesOn_gap fun c hc => isGapChar_of_isBlank (hsound.after c hc))
    exact goesOn_value ha hmarks hs

end

theorem goesOn_writtenAttributes {as : List WrittenAttribute} (hs : ∀ a ∈ as, a.Sound)
    (hmarks : ∀ a ∈ as, a.marksAroundValue = true) : GoesOn (writtenAttributes as) := by
  induction as with
  | nil => exact goesOn_of_forall (List.forall_mem_nil _)
  | cons a as ih =>
    rw [List.forall_mem_cons] at hs hmarks
    exact goesOn_append (goesOn_attribute hs.1 hmarks.1) (ih hs.2 hmarks.2)

/-- **The end of a tag** is found where the markup has it, if quotation marks stand around values
only. -/
theorem readTag_of_marksAroundValues {t : OpenTag} (ht : t.Sound)
    (hname : ∀ c ∈ t.name, isMark c = false) (hmarks : t.marksAroundValues = true)
    (rest : List Char) :
    readTag none (t.name ++ (t.inside ++ rest)) = some (t.name ++ t.inside, rest) := by
  have hfront : GoesOn (t.name ++ (writtenAttributes t.attributes ++ t.rear)) := by
    apply goesOn_append
    · apply goesOn_of_forall
      intro c hc
      refine ⟨hname c hc, ?_⟩
      rintro rfl
      cases ht.name '>' hc
    · exact goesOn_append
        (goesOn_writtenAttributes ht.attributes (List.all_eq_true.1 hmarks))
        (goesOn_gap ht.isGapChar_rear)
  have hinside : t.inside = writtenAttributes t.attributes ++ (t.rear ++ ['>']) := by
    have h := t.written_eq_rear
    rw [t.written_eq, List.cons_append, List.cons.injEq, List.append_cancel_left_eq] at h
    exact h.2
  have hread := hfront ('>' :: rest)
  rw [readTag_none_cons, if_pos (by rfl)] at hread
  simpa [hinside, prepend] using hread

/-! ## The tag of a script block -/

/-- A script block has the tag of one, and is marked if the word `setup` stands bare in it. -/
theorem opensBlock_of_mem_scripts {cs : List Char} {s : ScriptBlock}
    (h : s ∈ (Blocks.ofSource cs).scripts) :
    OpensBlock .script (s.openTag.cut cs) ∧
      s.setup = hasBareWord "setup".toList (s.openTag.cut cs) := by
  obtain ⟨rs, r, ts, tag, hregions, htag, rfl⟩ := mem_scripts_iff.1 h
  obtain ⟨mid, rest, hreads, hr⟩ := Reads.exists_of_region hregions
  obtain ⟨tail, htail⟩ := exists_of_scriptTag? htag
  have hcs := hreads.text
  rw [(eq_of_readRegion (readRegion_eq_some_iff.2 hr)).1, htail, List.append_assoc] at hcs
  have hcut : Span.cut ⟨0 + byteLength (regionsText rs),
      0 + byteLength (regionsText rs) + byteLength tag⟩ cs = tag := by
    rw [Nat.zero_add, hcs]
    exact Span.cut_append (regionsText rs) tag _
  rw [hcut]
  exact ⟨hr.opensBlock htag, rfl⟩

theorem isMark_of_blockNamed? {name : List Char} {b : BlockName} (h : blockNamed? name = some b) :
    ∀ c ∈ name, isMark c = false := by
  intro c hc
  have hletters : name.map Char.toLower = b.letters.map Char.toLower :=
    beq_iff_eq.1 (blockNamed?_eq_some_iff.1 h)
  have hmem : c.toLower ∈ b.letters.map Char.toLower := by
    rw [← hletters]
    exact List.mem_map_of_mem hc
  cases hmark : isMark c with
  | false => rfl
  | true =>
    simp only [isMark, Bool.or_eq_true, beq_iff_eq] at hmark
    rcases hmark with rfl | rfl
    all_goals
      revert hmem
      cases b <;> decide

/-- **A block's tag as markup**: text that begins with both has the tag of the block where it has
that of the markup, if quotation marks stand around values only. -/
theorem eq_written_of_opensBlock {b : BlockName} {written after rest : List Char} {tag : OpenTag}
    (h : OpensBlock b written) (htag : tag.Formed)
    (htext : written ++ after = tag.written ++ rest) :
    blockNamed? tag.name = some b ∧
      (tag.marksAroundValues = true → written = tag.written ∧ after = rest) := by
  obtain ⟨body, rfl, hopens⟩ := h
  obtain ⟨-, hblock, hread⟩ := hopens after
  rw [List.cons_append, tag.written_eq, List.cons_append, List.append_assoc] at htext
  have htext := (List.cons.inj htext).2
  have hname : blockNamed? tag.name = some b := by
    rw [← blockName?_of_formed htag rest, ← htext, hblock]
  refine ⟨hname, fun hmarks => ?_⟩
  have hread' := readTag_of_marksAroundValues htag.sound (isMark_of_blockNamed? hname) hmarks rest
  rw [← htext, hread] at hread'
  obtain ⟨hbody, hrest⟩ := Prod.mk.inj (Option.some.inj hread')
  exact ⟨by rw [hbody, tag.written_eq], hrest⟩

/-- **Markup that is one element** begins with the tag of the element; if the tag closes itself,
nothing follows it. -/
theorem exists_tag_of_parse {cs : List Char} {e : Element}
    (h : parse cs = .ok [.element e.toShell e.children]) :
    ∃ (tag : OpenTag) (closeTag : Option Span) (rest : List Char), tag.Formed ∧
      cs = tag.written ++ rest ∧ e.toShell = tag.shellAt 0 closeTag ∧
      (rest ≠ [] → tag.selfClosing = false) := by
  obtain ⟨ps, hpair, hread, rfl, hnodes⟩ := parse_eq_ok_iff.1 h
  obtain ⟨p, rfl, hnode⟩ : ∃ p, ps = [p] ∧ p.nodeAt 0 = .element e.toShell e.children := by
    cases ps with
    | nil => cases hnodes
    | cons p ps =>
      rw [nodesAt_cons] at hnodes
      obtain ⟨hnode, hrest⟩ := List.cons.inj hnodes
      cases ps with
      | nil => exact ⟨p, rfl, hnode.symm⟩
      | cons q qs => cases hrest
  obtain ⟨tag, closeTag, rest, htag, hwritten, hshell, hself⟩ :=
    Part.exists_tag hnode hpair.1 (by simpa using hread)
  exact ⟨tag, closeTag, rest, htag, by simpa using hwritten, hshell, hself⟩

/-! ## What the mark says -/

/-- The mark of a script block says whether the element has an attribute `setup` without a value. -/
def ScriptBlock.AgreesWith (s : ScriptBlock) (e : Element) : Prop :=
  s.setup = true ↔ ∃ a ∈ e.attributes, a.name = "setup" ∧ a.value = none

/-- The marks of a file's script blocks agree with markup: with the element that an opening tag is
with a closing tag behind it, if it is one. -/
def SetupAgrees (cs : List Char) : Prop :=
  ∀ s ∈ (Blocks.ofSource cs).scripts, ∀ e : Element,
    parse (s.openTag.cut cs ++ "</script>".toList) = .ok [.element e.toShell e.children] →
      s.AgreesWith e

theorem isPlainWord_setup : IsPlainWord "setup".toList :=
  ⟨by decide, by decide, by decide⟩

/-- The attributes of an element and those that its tag is written with. -/
theorem exists_attribute_iff {tag : OpenTag} {offset : Nat} {name : String} :
    (∃ a ∈ tag.attributesAt offset, a.name = name ∧ a.value = none) ↔
      ∃ a ∈ tag.attributes, a.name = name.toList ∧ a.assignment = none := by
  have hmeaning : ∀ a : Attribute, a.name = name ∧ a.value = none ↔ a.meaning = (name, none) :=
    fun a => Prod.mk.injEq .. ▸ Iff.rfl
  have hwritten : ∀ a : WrittenAttribute,
      a.name = name.toList ∧ a.assignment = none ↔ a.meaning = (name, none) := by
    intro a
    rw [WrittenAttribute.meaning, Prod.mk.injEq, Option.map_eq_none_iff, ← String.toList_inj,
      String.toList_ofList]
  simp only [hmeaning, hwritten, ← List.mem_map (f := Attribute.meaning),
    ← List.mem_map (f := WrittenAttribute.meaning)]
  rw [OpenTag.attributesAt, meaning_locateAttributes]

/-- **Script blocks marked `setup`**: where the opening tag of a script block, with a closing tag
behind it, is one element as markup, let it be written as `tag`. If quotation marks stand around
values only, `tag` is the opening tag of the block, and the block is marked exactly if `tag` shows
the word; so the mark says what the markup says if the attributes are set apart. -/
theorem setup_iff_showsWord {cs : List Char} {s : ScriptBlock} {e : Element}
    (hs : s ∈ (Blocks.ofSource cs).scripts)
    (hparse : parse (s.openTag.cut cs ++ "</script>".toList) =
      .ok [.element e.toShell e.children]) :
    ∃ (tag : OpenTag) (closeTag : Option Span) (rest : List Char), tag.Formed ∧
      s.openTag.cut cs ++ "</script>".toList = tag.written ++ rest ∧
      e.toShell = tag.shellAt 0 closeTag ∧
      (tag.marksAroundValues = true → s.openTag.cut cs = tag.written ∧
        (s.setup = true ↔ tag.ShowsWord "setup".toList) ∧
        (tag.setsApart "setup".toList = true → s.AgreesWith e)) := by
  obtain ⟨hopens, hsetup⟩ := opensBlock_of_mem_scripts hs
  obtain ⟨tag, closeTag, rest, htag, htext, hshell, hself⟩ := exists_tag_of_parse hparse
  obtain ⟨hname, hsame⟩ := eq_written_of_opensBlock hopens htag htext
  refine ⟨tag, closeTag, rest, htag, htext, hshell, fun hmarks => ?_⟩
  obtain ⟨hwritten, hrest⟩ := hsame hmarks
  have hne : rest ≠ [] := by
    rw [← hrest]
    decide
  have hshows : s.setup = true ↔ tag.ShowsWord "setup".toList := by
    rw [hsetup, hwritten]
    exact hasBareWord_iff htag (hself hne) (isMark_of_blockNamed? hname) hmarks isPlainWord_setup
  refine ⟨hwritten, hshows, fun hapart => ?_⟩
  have hattributes : e.attributes = tag.attributesAt 0 := congrArg Shell.attributes hshell
  rw [ScriptBlock.AgreesWith, hshows, showsWord_iff_of_setsApart hapart, hattributes,
    exists_attribute_iff]

/-- A script block with a quoted value in front of the word. -/
theorem setup_iff_showsWord_lang :
    ∃ (s : ScriptBlock) (e : Element) (tag : OpenTag),
      s ∈ (Blocks.ofSource "<script lang=\"ts\" setup></script>".toList).scripts ∧
      s.openTag.cut "<script lang=\"ts\" setup></script>".toList = tag.written ∧
      (s.setup = true ↔ tag.ShowsWord "setup".toList) ∧ s.AgreesWith e ∧
      e.attributes.map Attribute.meaning = [("lang", some "ts"), ("setup", none)] := by
  let source := "<script lang=\"ts\" setup></script>".toList
  let s : ScriptBlock := ⟨⟨0, 24⟩, true⟩
  let e : Element := ⟨⟨"script", [⟨"lang", some "ts", ⟨8, 17⟩⟩, ⟨"setup", none, ⟨18, 23⟩⟩],
    ⟨0, 24⟩, some ⟨24, 33⟩⟩, []⟩
  let written : OpenTag := ⟨"script".toList, [⟨[' '], "lang".toList,
    some ⟨[], [], .quoted '"' "ts".toList⟩⟩, ⟨[' '], "setup".toList, none⟩], [], false⟩
  have hs : s ∈ (Blocks.ofSource source).scripts := by decide +kernel
  have hcut : s.openTag.cut source ++ "</script>".toList = source := by decide +kernel
  have hparse : parse (s.openTag.cut source ++ "</script>".toList) =
      .ok [.element e.toShell e.children] := by
    rw [hcut]
    decide +kernel
  obtain ⟨tag, closeTag, rest, hformed, htext, -, hshows⟩ := setup_iff_showsWord hs hparse
  -- the tag is the one that is read
  have hread : readOpenTag source.tail = .ok (tag, rest) :=
    readOpenTag_eq_ok_iff.2 ⟨by rw [← htext, hcut]; rfl, hformed.sound, hformed.joins,
      hformed.endsAsSaid⟩
  have hwritten : readOpenTag source.tail = .ok (written, "</script>".toList) := by decide +kernel
  obtain rfl : tag = written := (Prod.mk.inj (Except.ok.inj (hread.symm.trans hwritten))).1
  obtain ⟨htag, hsetup, hagrees⟩ := hshows (by decide +kernel)
  exact ⟨s, e, written, hs, htag, hsetup, hagrees (by decide +kernel), rfl⟩

/-- The mark and the markup disagree, either way: on a value behind a blank, and on a name that is
glued to a value. -/
theorem not_setupAgrees :
    ¬SetupAgrees "<script lang= setup></script>".toList ∧
      ¬SetupAgrees "<script lang=\"ts\"setup></script>".toList := by
  constructor
  · intro h
    let e : Element := ⟨⟨"script", [⟨"lang", some "setup", ⟨8, 19⟩⟩], ⟨0, 20⟩, some ⟨20, 29⟩⟩, []⟩
    have hagrees := h ⟨⟨0, 20⟩, true⟩ (by decide +kernel) e (by decide +kernel)
    obtain ⟨a, ha, hname, -⟩ := hagrees.1 rfl
    obtain rfl := List.mem_singleton.1 ha
    exact absurd hname (by decide)
  · intro h
    let e : Element := ⟨⟨"script", [⟨"lang", some "ts", ⟨8, 17⟩⟩, ⟨"setup", none, ⟨17, 22⟩⟩],
      ⟨0, 23⟩, some ⟨23, 32⟩⟩, []⟩
    have hagrees := h ⟨⟨0, 23⟩, false⟩ (by decide +kernel) e (by decide +kernel)
    have hmem : (⟨"setup", none, ⟨17, 22⟩⟩ : Attribute) ∈ e.attributes :=
      List.mem_cons_of_mem _ (List.mem_cons_self ..)
    exact Bool.false_ne_true (hagrees.2 ⟨_, hmem, rfl, rfl⟩)

end Islands.ComponentFile
