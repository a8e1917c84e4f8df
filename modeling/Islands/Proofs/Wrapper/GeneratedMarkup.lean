import Islands.Proofs.Markup.Outline
import Islands.Proofs.Markup.Shift
import Islands.Proofs.Markup.Spacing
import Islands.Proofs.Wrapper.QuotedValues

/-!
# Generated markup

A tag that is put together anew has one blank in front of each attribute, and the attribute's value
is a text that was quoted (`generatedTag`). Such a tag is read as it was put together, and an element
with it holds the parts it was put around, if these do not leave an interpolation open at their end
(`Enclosable`).

* `formed_generatedTag`, `meaning_generatedAttribute`: the tag is read, and its attributes mean what
  was quoted.
* `enclosable_generatedElement`: elements inside one another.
* `parse_quoteAttribute`: an element with one attribute.
-/

namespace Islands

open Markup

/-! ## Parts between two tags -/

namespace Markup

theorem Readable.sound_of_append {ts us : List Token} (h : Readable (ts ++ us)) (hus : us ≠ []) :
    ∀ t ∈ ts, t.Sound := by
  induction ts with
  | nil => exact List.forall_mem_nil _
  | cons t ts ih =>
    have hts : ∀ u ∈ ts, u.Sound := ih h.tail
    refine List.forall_mem_cons.2 ⟨?_, hts⟩
    cases ts with
    | nil =>
      obtain ⟨u, us, rfl⟩ := List.exists_cons_of_ne_nil hus
      exact h.1
    | cons u ts => exact h.1

/-- Parts that can stand between two tags: they are read, and the last token of them ends whatever
follows it. -/
structure Enclosable (ps : List Part) : Prop where
  paired : PairedAll ps
  readable : Readable (tokensOf ps)
  closed : ∀ t, (tokensOf ps).getLast? = some t → t.Sound

theorem enclosable_nil : Enclosable [] where
  paired := trivial
  readable := trivial
  closed := nofun

/-- The parts of an element can stand between two tags, since they do. -/
theorem enclosable_children {tag : OpenTag} {ps : List Part} {close : CloseTag}
    (hp : (Part.element tag ps close).Paired) (hr : Readable (Part.element tag ps close).tokens) :
    Enclosable ps := by
  have hinner : Readable (tokensOf ps ++ [.closeTag close]) := hr.tail
  refine ⟨hp.2.2, hinner.left, fun t ht => ?_⟩
  exact hinner.sound_of_append (List.cons_ne_nil _ _) t (List.mem_of_getLast? ht)

/-- **An element around parts** that can stand between two tags can stand there itself. -/
theorem Enclosable.element {tag : OpenTag} {ps : List Part} {close : CloseTag} (h : Enclosable ps)
    (hencloses : tag.Encloses) (htag : tag.Formed) (hclose : close.Formed)
    (hname : sameLetters tag.name close.name = true) : Enclosable [.element tag ps close] := by
  have hopen : (Token.openTag tag).Sound := ⟨htag, .inr hencloses.not_raw⟩
  have hend : (Token.closeTag close).Sound := hclose
  have hinner : Readable (tokensOf ps ++ [.closeTag close]) := by
    refine h.readable.append hend.readable h.closed (fun t u _ hu _ => ?_)
    obtain rfl := Option.some.inj hu
    rfl
  have hread : Readable ([.openTag tag] ++ (tokensOf ps ++ [.closeTag close])) := by
    refine hopen.readable.append hinner (fun t ht => ?_) (fun t u ht _ htext => ?_)
    · obtain rfl := Option.some.inj ht
      exact hopen
    · obtain rfl := Option.some.inj ht
      cases htext
  refine ⟨⟨⟨hencloses, hname, h.paired⟩, trivial⟩, by simpa [Part.tokens] using hread,
    fun t ht => ?_⟩
  have hlast : t = .closeTag close := by
    simpa [Part.tokens, List.getLast?_cons, List.getLast?_append] using ht.symm
  rw [hlast]
  exact hend

end Markup

/-! ## Tags -/

/-- Whether a text is read as the name of an attribute behind a blank, with a value or without. -/
def isPlainName : List Char → Bool
  | [] => false
  | c :: tail =>
    !isGapChar c && (c :: tail).all isTailChar && (c :: tail).getLast? != some '/'

/-- An attribute as it is generated from its name and the text that is its value. -/
def generatedAttribute (a : String × Option String) : WrittenAttribute :=
  ⟨[' '], a.1.toList, a.2.map fun v => ⟨[], [], quotedValue v⟩⟩

/-- An opening tag as it is generated from its name and its attributes. -/
def generatedTag (name : String) (as : List (String × Option String)) : OpenTag :=
  ⟨name.toList, as.map generatedAttribute, [], false⟩

/-- **A generated attribute** means what it was generated from. -/
theorem meaning_generatedAttribute (a : String × Option String) :
    (generatedAttribute a).meaning = a := by
  obtain ⟨name, value⟩ := a
  cases value <;>
    simp [generatedAttribute, WrittenAttribute.meaning, decoded_quotedValue]

theorem map_meaning_generatedAttribute (as : List (String × Option String)) :
    (as.map generatedAttribute).map WrittenAttribute.meaning = as := by
  rw [List.map_map]
  conv => rhs; rw [← List.map_id as]
  exact List.map_congr_left fun a _ => meaning_generatedAttribute a

section
variable {a : String × Option String}

theorem sound_generatedAttribute (h : isPlainName a.1.toList = true) :
    (generatedAttribute a).Sound := by
  refine ⟨List.forall_mem_singleton.2 rfl, ?_, ?_⟩
  · cases hname : a.1.toList with
    | nil => rw [hname] at h; cases h
    | cons c tail =>
      rw [hname] at h
      simp only [isPlainName, Bool.and_eq_true, Bool.not_eq_true', List.all_eq_true] at h
      obtain ⟨⟨hgap, htail⟩, -⟩ := h
      refine ⟨c, tail, hname, hgap, ?_, fun d hd => htail d (List.mem_cons_of_mem _ hd)⟩
      rintro rfl
      cases htail '>' List.mem_cons_self
  · intro s hs
    obtain ⟨v, -, rfl⟩ := Option.map_eq_some_iff.1 hs
    exact ⟨List.forall_mem_nil _, List.forall_mem_nil _, sound_quotedValue v⟩

theorem spaced_generatedAttribute (h : isPlainName a.1.toList = true) :
    (generatedAttribute a).spaced = true := by
  obtain ⟨name, value⟩ := a
  have hname : (name.toList.head? != some '=') = true ∧
      (name.toList.getLast? != some '/') = true := by
    cases hname : name.toList with
    | nil => simp [isPlainName, hname] at h
    | cons c tail =>
      simp only [hname, isPlainName, Bool.and_eq_true, List.all_eq_true] at h
      refine ⟨bne_iff_ne.2 ?_, h.2⟩
      rintro hc
      obtain rfl := Option.some.inj hc
      cases h.1.2 '=' List.mem_cons_self
  cases value with
  | none => simp [generatedAttribute, WrittenAttribute.spaced, isBlank, hname]
  | some v =>
    obtain ⟨mark, body, hv, -⟩ := exists_quotedValue v
    simp [generatedAttribute, WrittenAttribute.spaced, isBlank, hname, hv]

end

theorem spaced_generatedTag {name : String} {as : List (String × Option String)}
    (has : ∀ a ∈ as, isPlainName a.1.toList = true) : (generatedTag name as).spaced = true := by
  simp only [OpenTag.spaced, Bool.and_eq_true, List.all_eq_true (p := WrittenAttribute.spaced)]
  exact ⟨List.forall_mem_map.2 fun a ha => spaced_generatedAttribute (has a ha), rfl⟩

/-- **A generated tag** is read as what it was generated from. -/
theorem formed_generatedTag {name : String} {as : List (String × Option String)}
    (hletter : startsLetter name.toList = true) (hname : name.toList.all isNameChar = true)
    (has : ∀ a ∈ as, isPlainName a.1.toList = true) : (generatedTag name as).Formed := by
  have hsound : (generatedTag name as).Sound :=
    ⟨List.all_eq_true.1 hname,
      List.forall_mem_map.2 fun a ha => sound_generatedAttribute (has a ha), List.forall_mem_nil _⟩
  exact ⟨hletter, hsound, OpenTag.joins_of_spaced hsound (spaced_generatedTag has), rfl⟩

/-! ## Elements -/

/-- An element as it is generated around some parts. -/
def generatedElement (name : String) (as : List (String × Option String)) (ps : List Part) : Part :=
  .element (generatedTag name as) ps ⟨name.toList, []⟩

/-- Whether an element of this name has content that is markup. -/
def isContainerName (name : List Char) : Bool :=
  startsLetter name && name.all isNameChar && !isVoidName name && !isRawName name

section
variable {name : String} {as : List (String × Option String)} {ps : List Part}

/-- **Generated elements** are read, one inside the other. -/
theorem enclosable_generatedElement (hname : isContainerName name.toList = true)
    (has : ∀ a ∈ as, isPlainName a.1.toList = true) (h : Enclosable ps) :
    Enclosable [generatedElement name as ps] := by
  simp only [isContainerName, Bool.and_eq_true, Bool.not_eq_true'] at hname
  obtain ⟨⟨⟨hletter, hchars⟩, hvoid⟩, hraw⟩ := hname
  refine h.element ⟨rfl, hvoid, hraw⟩ (formed_generatedTag hletter hchars has)
    ⟨hletter, List.all_eq_true.1 hchars, List.forall_mem_nil _⟩ ?_
  exact beq_self_eq_true _

theorem written_generatedAttribute (a : String × Option String) :
    (generatedAttribute a).written =
      (" " ++ a.1 ++ (a.2.map fun v => "=" ++ quoteAttribute v).getD "").toList := by
  obtain ⟨name, value⟩ := a
  cases value <;>
    simp [generatedAttribute, WrittenAttribute.written, WrittenAttribute.core, Assignment.written,
      written_quotedValue]

theorem written_generatedElement (name : String) (as : List (String × Option String))
    (ps : List Part) :
    (generatedElement name as ps).written =
      "<".toList ++ name.toList ++ (as.map generatedAttribute).flatMap WrittenAttribute.written ++
        ">".toList ++ writtenOf ps ++ "</".toList ++ name.toList ++ ">".toList := by
  simp [generatedElement, generatedTag, OpenTag.written, tagEnd, CloseTag.written]

end

/-! ## One attribute -/

theorem nodesAt_oneAttribute (v : String) :
    let stop := byteLength ("<x a=".toList ++ (quoteAttribute v).toList)
    nodesAt 0 [generatedElement "x" [("a", some v)] []] =
      [.element ⟨"x", [⟨"a", some v, ⟨3, stop⟩⟩], ⟨0, stop + 1⟩, some ⟨stop + 1, stop + 5⟩⟩
        []] := by
  intro stop
  have hcore : (generatedAttribute ("a", some v)).core =
      "a=".toList ++ (quoteAttribute v).toList := by
    simp [generatedAttribute, WrittenAttribute.core, Assignment.written, written_quotedValue]
  have hplace : 3 + byteLength (generatedAttribute ("a", some v)).core = stop := by
    rw [hcore]
    simp only [stop, byteLength_append, show byteLength "a=".toList = 2 from rfl,
      show byteLength "<x a=".toList = 5 from rfl]
    omega
  have hattributes : (generatedTag "x" [("a", some v)]).attributesAt 0 =
      [⟨"a", some v, ⟨3, stop⟩⟩] := by
    have hmeaning := meaning_generatedAttribute ("a", some v)
    rw [WrittenAttribute.meaning, Prod.mk.injEq] at hmeaning
    rw [← hplace]
    simp [generatedTag, OpenTag.attributesAt, locateAttributes, hmeaning]
    rfl
  have htag : byteLength (generatedTag "x" [("a", some v)]).written = stop + 1 := by
    have hwritten : (generatedTag "x" [("a", some v)]).written =
        "<x a=".toList ++ (quoteAttribute v).toList ++ ">".toList := by
      simp [generatedTag, OpenTag.written, WrittenAttribute.written, hcore, tagEnd,
        show (generatedAttribute ("a", some v)).lead = [' '] from rfl]
    rw [hwritten, byteLength_append]
    rfl
  have hclose : byteLength (CloseTag.written ⟨"x".toList, []⟩) = 4 := by decide
  have hname : String.ofList (generatedTag "x" [("a", some v)]).name = "x" := by
    rw [generatedTag, String.ofList_toList]
  simp only [generatedElement, nodesAt_cons, nodesAt_nil, Part.nodeAt, OpenTag.shellAt, hname,
    hattributes, spanAt, htag, hclose, writtenOf_nil, byteLength_nil, Nat.zero_add, Nat.add_zero]

/-- **A quoted text as the value of an attribute** is read as the text, and the attribute ends
behind the second quotation mark. -/
theorem parse_quoteAttribute (v : String) :
    let quoted := (quoteAttribute v).toList
    let stop := byteLength ("<x a=".toList ++ quoted)
    parse ("<x a=".toList ++ quoted ++ "></x>".toList) =
        .ok [.element ⟨"x", [⟨"a", some v, ⟨3, stop⟩⟩], ⟨0, stop + 1⟩,
          some ⟨stop + 1, stop + 5⟩⟩ []] ∧
      ∃ mark body, quoted = mark :: (body ++ [mark]) ∧ (mark = '"' ∨ mark = '\'') ∧
        mark ∉ body := by
  intro quoted stop
  have hplain : ∀ a ∈ [("a", some v)], isPlainName a.1.toList = true :=
    List.forall_mem_singleton.2 (show isPlainName "a".toList = true by decide)
  have h : Enclosable [generatedElement "x" [("a", some v)] []] :=
    enclosable_generatedElement (by decide) hplain enclosable_nil
  have hwritten : "<x a=".toList ++ quoted ++ "></x>".toList =
      writtenOf [generatedElement "x" [("a", some v)] []] := by
    simp [written_generatedElement, written_generatedAttribute, quoted]
  obtain ⟨mark, body, hv, hmark, hbody⟩ := exists_quotedValue v
  have hquoted : quoted = (quotedValue v).written := (written_quotedValue v).symm
  rw [hv] at hquoted
  exact ⟨parse_eq_ok_iff.2 ⟨_, h.paired, h.readable, hwritten, (nodesAt_oneAttribute v).symm⟩,
    mark, body, hquoted, hmark, hbody⟩

end Islands
