import Islands.Proofs.Markup.AttributeAlignment
import Islands.Proofs.Markup.Stripped

/-!
# When attributes can be taken out of markup

Stripped parts are read as markup with the same meaning but for the attributes exactly if each tag
keeps its form (`parse_strip_iff`, `parse_stripAll_iff`). Whatever is read from the text of the
stripped parts with that meaning has its tags where the parts have theirs (`tag_alignment`,
`keeps_of_outline`), so the pieces of each stripped tag are those that are read.
-/

namespace Islands.Markup

variable {p own inner : String → Bool}

/-! ## Tags -/

theorem emptyAtEnd_append {as : List WrittenAttribute} {after : List Char} (h : EmptyAtEnd after as)
    (rest : List Char) : EmptyAtEnd (after ++ rest) as := by
  induction as with
  | nil => trivial
  | cons a as ih =>
    refine ⟨fun s hs hnil => ?_, ih h.2⟩
    obtain ⟨tail, htail⟩ := List.head?_eq_some_iff.1 (h.1 s hs hnil)
    rw [← List.append_assoc, htail]
    rfl

/-- In a tag that has been read, an empty value stands at the end. -/
theorem emptyAtEnd_of_join {as : List WrittenAttribute} {after : List Char} (hgt : '>' ∈ after)
    (h : attributesJoin as after = true) : EmptyAtEnd after as := by
  induction as with
  | nil => trivial
  | cons a as ih =>
    simp only [attributesJoin, Bool.and_eq_true] at h
    refine ⟨fun s hs hnil => ?_, ih h.2⟩
    have hends := h.1
    rw [WrittenAttribute.ends, hs] at hends
    obtain ⟨c, tail, hc⟩ := List.exists_cons_of_ne_nil
      (List.ne_nil_of_mem (List.mem_append_right (writtenAttributes as) hgt))
    rw [hc] at hends ⊢
    have hvalue : s.value = .bare [] := by
      cases hv : s.value with
      | quoted mark body => simp [hv, WrittenValue.written] at hnil
      | bare body => simpa [hv, WrittenValue.written] using hnil
    simpa [hvalue, WrittenValue.ends] using hends

theorem emptyAtEnd_keptAttributes {as : List WrittenAttribute} {after : List Char}
    (hs : ∀ a ∈ as, a.Sound) (h : EmptyAtEnd after as) (carry : List Char) :
    EmptyAtEnd (carriedOn p carry as ++ after) (keptAttributes p carry as) := by
  induction as generalizing carry with
  | nil => trivial
  | cons a as ih =>
    have hs' : ∀ b ∈ as, b.Sound := fun b hb => hs b (List.mem_cons_of_mem _ hb)
    rw [keptAttributes, carriedOn]
    by_cases hp : a.named p = true
    · rw [if_pos hp, if_pos hp]
      exact ih hs' h.2 _
    · rw [if_neg hp, if_neg hp]
      refine ⟨fun s hs hnil => ?_, ih hs' h.2 []⟩
      have hgt := h.1 s hs hnil
      -- no attribute stands behind an empty value
      have has : as = [] := by
        refine Classical.byContradiction fun hne => ?_
        obtain ⟨rest, hrest⟩ := List.head?_eq_some_iff.1 hgt
        exact writtenAttributes_ne_end hne hs' (List.forall_mem_nil _) after rest hrest
      subst has
      exact hgt

theorem attributesJoin_append {as : List WrittenAttribute} {after : List Char} (hgt : '>' ∈ after)
    (rest : List Char) : attributesJoin as (after ++ rest) = attributesJoin as after := by
  induction as with
  | nil => rfl
  | cons a as ih =>
    rw [attributesJoin, attributesJoin, ih, ← List.append_assoc,
      a.ends_append rest (List.mem_append_right _ hgt)]

/-- The gap in front of the `>` of a tag, the slash that closes it included. -/
def tagGap (trail : List Char) (selfClosing : Bool) : List Char :=
  trail ++ if selfClosing then ['/'] else []

theorem tagTail_eq (trail : List Char) (selfClosing : Bool) :
    tagTail trail selfClosing = tagGap trail selfClosing ++ ['>'] := by
  cases selfClosing <;> simp [tagTail, tagGap, tagEnd]

theorem isGapChar_tagGap {trail : List Char} (h : ∀ c ∈ trail, isGapChar c = true)
    (selfClosing : Bool) : ∀ c ∈ tagGap trail selfClosing, isGapChar c = true := by
  intro c hc
  rcases List.mem_append.1 hc with hc | hc
  · exact h c hc
  · cases selfClosing with
    | false => cases hc
    | true =>
      obtain rfl := List.mem_singleton.1 hc
      rfl

/-- A tag is not closed by itself and ends as it is said to just if no slash stands in front of its
`>`. -/
theorem getLast?_tagGap {trail : List Char} {selfClosing : Bool} :
    (tagGap trail selfClosing).getLast? ≠ some '/' ↔
      selfClosing = false ∧ endsAsSaid trail selfClosing = true := by
  cases selfClosing <;> simp [tagGap, endsAsSaid]

/-- **Tags**: a tag that is read where a stripped one stands, and means the same, is that tag, whose
pieces therefore join. -/
theorem tag_alignment {u t : OpenTag} {rest after : List Char} (hu : u.Formed) (ht : t.Formed)
    (hname : u.name = t.name)
    (hmeaning : u.attributes.map WrittenAttribute.meaning =
      (t.without p).attributes.map WrittenAttribute.meaning)
    (htext : u.written ++ rest = (t.without p).written ++ after) :
    rest = after ∧ t.keeps p (!u.selfClosing) = true := by
  have hs := OpenTag.sound_without (p := p) ht.sound
  have hjoins := hu.joins
  simp only [OpenTag.joins, Bool.and_eq_true] at hjoins
  have hempty : EmptyAtEnd (tagTail (t.without p).trail t.selfClosing ++ after)
      (t.without p).attributes := by
    have hjoin := ht.joins
    simp only [OpenTag.joins, Bool.and_eq_true] at hjoin
    have h := emptyAtEnd_keptAttributes (p := p) ht.sound.attributes
      (emptyAtEnd_of_join (mem_tagTail _ _) hjoin.2) []
    rw [tagTail, ← List.append_assoc] at h
    exact emptyAtEnd_append h after
  have hinside : u.inside ++ rest = (t.without p).inside ++ after := by
    rw [OpenTag.written_eq, OpenTag.written_eq, List.cons_append, List.cons_append,
      List.append_assoc, List.append_assoc, hname] at htext
    exact List.append_cancel_left (List.cons.inj htext).2
  have hsplit : ∀ (trail : List Char) (selfClosing : Bool) (rest : List Char),
      tagTail trail selfClosing ++ rest = tagGap trail selfClosing ++ '>' :: rest := by
    intro trail selfClosing rest
    rw [tagTail_eq, List.append_assoc]
    rfl
  have hjoin : attributesJoin u.attributes (tagTail u.trail u.selfClosing ++ rest) =
      attributesJoin u.attributes (tagTail u.trail u.selfClosing) :=
    attributesJoin_append (mem_tagTail _ _) rest
  rw [hjoins.2] at hjoin
  rw [OpenTag.inside, OpenTag.inside, List.append_assoc, List.append_assoc, hsplit,
    hsplit] at hinside
  rw [hsplit] at hjoin hempty
  obtain ⟨hrest, hjoin'⟩ := attributes_alignment hu.sound.attributes hjoin hs.attributes
    (isGapChar_tagGap hs.trail _) hempty hmeaning hinside
  rw [hrest] at hinside
  have hattributes := List.append_cancel_right hinside
  obtain ⟨hgap, hrest⟩ := append_inj_of_run hrest (isGapChar_tagGap hu.sound.trail _)
    (isGapChar_tagGap hs.trail _) (not_of_head?_cons rfl) (not_of_head?_cons rfl)
  have hsame : (t.without p).inside = u.inside := by
    rw [OpenTag.inside, OpenTag.inside, tagTail_eq, tagTail_eq, hattributes, hgap]
    rfl
  refine ⟨(List.cons.inj hrest).2, ?_⟩
  have hkept : (t.without p).joins = true := by
    rw [← hsplit, attributesJoin_append (mem_tagTail _ _)] at hjoin'
    rw [OpenTag.joins, hsame, hjoins.1, Bool.true_and]
    exact hjoin'
  rw [OpenTag.keeps, hkept, Bool.true_and, Bool.not_not]
  cases hself : u.selfClosing with
  | true => rfl
  | false =>
    have hslash := getLast?_tagGap.2 ⟨hself, hu.endsAsSaid⟩
    rw [hgap] at hslash
    exact (getLast?_tagGap.1 hslash).2

theorem OpenTag.keeps_false_of_keeps {t : OpenTag} {closed : Bool} (h : t.keeps p closed = true) :
    t.keeps p false = true := by
  simp only [keeps, Bool.and_eq_true, Bool.not_false, Bool.true_or, and_true] at h ⊢
  exact h.1

theorem closeTag_alignment {c d : CloseTag} {rest after : List Char} (hc : c.Sound) (hd : d.Sound)
    (h : c.written ++ rest = d.written ++ after) : rest = after := by
  have hgt : ∀ {e : CloseTag}, e.Sound → ∀ x ∈ e.name ++ e.gap, (x != '>') = true := by
    intro e he x hx
    rw [bne_iff_ne]
    rintro rfl
    rcases List.mem_append.1 hx with hx | hx
    · have := he.name '>' hx
      cases this
    · have := he.gap '>' hx
      cases this
  have h : (c.name ++ c.gap) ++ '>' :: rest = (d.name ++ d.gap) ++ '>' :: after := by
    simpa [CloseTag.written] using h
  obtain ⟨-, h⟩ := append_inj_of_run h (hgt hc) (hgt hd) (by simp) (by simp)
  exact (List.cons.inj h).2

/-! ## Parts -/

theorem rawOutlines_inj {body body' : List Char} (h : rawOutlines body = rawOutlines body') :
    body = body' := by
  cases body <;> cases body' <;> simp_all [rawOutlines]

theorem OpenTag.outline_inj {t u : OpenTag} {closed closed' : Bool} {os os' : List Outline}
    (h : t.outline closed os = u.outline closed' os') :
    t.name = u.name ∧
      t.attributes.map WrittenAttribute.meaning = u.attributes.map WrittenAttribute.meaning ∧
      closed = closed' ∧ os = os' := by
  obtain ⟨hname, hattributes, hclosed, hos⟩ := Outline.element.inj h
  have hname := congrArg String.toList hname
  exact ⟨by simpa using hname, hattributes, hclosed, hos⟩

mutual

/-- **A part that is read** where a stripped one stands, and means the same, ends where that one
does, and the stripped tags keep their form. -/
theorem keeps_of_outline (inner : String → Bool) :
    ∀ (p : Part) (own : String → Bool) (q : Part) (rest after : List Char), p.Paired → q.Paired →
      TagsSound p.tokens → TagsSound q.tokens → q.outline = (p.strip inner own).outline →
      q.written ++ rest = (p.strip inner own).written ++ after →
      rest = after ∧ p.Keeps inner own
  | .text body, own, q, rest, after, hp, hq, hps, hqs, ho, h => by
    cases q with
    | text body' =>
      obtain rfl := Outline.text.inj ho
      exact ⟨List.append_cancel_left h, trivial⟩
    | _ => cases ho
  | .comment body, own, q, rest, after, hp, hq, hps, hqs, ho, h => by
    cases q with
    | comment body' =>
      obtain rfl := Outline.comment.inj ho
      exact ⟨List.append_cancel_left h, trivial⟩
    | _ => cases ho
  | .single tag, own, q, rest, after, hp, hq, hps, hqs, ho, h => by
    have ht : tag.Formed := hps.openTag
    rw [Part.strip, Part.written_single, OpenTag.written_settled] at h
    rw [Part.strip, Part.outline, OpenTag.outline_settled] at ho
    cases q with
    | text body' => cases ho
    | comment body' => cases ho
    | raw u body' close' => cases (OpenTag.outline_inj ho).2.2.1
    | element u children' close' => cases (OpenTag.outline_inj ho).2.2.1
    | single u =>
      have hu : u.Formed := hqs.openTag
      obtain ⟨hname, hattributes, -, -⟩ := OpenTag.outline_inj ho
      rw [Part.written_single] at h
      obtain ⟨hrest, hkeeps⟩ := tag_alignment hu ht hname hattributes h
      exact ⟨hrest, OpenTag.keeps_false_of_keeps hkeeps⟩
  | .raw tag body close, own, q, rest, after, hp, hq, hps, hqs, ho, h => by
    obtain ⟨ht, -, -, hclose, -⟩ := hps (.raw tag body close) (List.mem_singleton.2 rfl) rfl
    cases q with
    | text body' => cases ho
    | comment body' => cases ho
    | single u => cases (OpenTag.outline_inj ho).2.2.1
    | element u children' close' =>
      have hname : u.name = tag.name := (OpenTag.outline_inj ho).1
      have hraw := hq.1.not_raw
      rw [hname, hp.2.1] at hraw
      cases hraw
    | raw u body' close' =>
      obtain ⟨hu, -, -, hclose', -⟩ := hqs (.raw u body' close') (List.mem_singleton.2 rfl) rfl
      obtain ⟨hname, hattributes, -, hbody⟩ := OpenTag.outline_inj ho
      obtain rfl := rawOutlines_inj hbody
      rw [Part.strip, Part.written_raw, Part.written_raw, List.append_assoc, List.append_assoc,
        List.append_assoc, List.append_assoc] at h
      obtain ⟨hrest, hkeeps⟩ := tag_alignment hu ht hname hattributes h
      rw [hq.1] at hkeeps
      exact ⟨closeTag_alignment hclose' hclose (List.append_cancel_left hrest), hkeeps⟩
  | .element tag children close, own, q, rest, after, hp, hq, hps, hqs, ho, h => by
    have ht : tag.Formed := hps.openTag
    cases q with
    | text body' => cases ho
    | comment body' => cases ho
    | single u => cases (OpenTag.outline_inj ho).2.2.1
    | raw u body' close' =>
      have hname : u.name = tag.name := (OpenTag.outline_inj ho).1
      have hraw := hq.2.1
      rw [hname, hp.1.not_raw] at hraw
      cases hraw
    | element u children' close' =>
      have hu : u.Formed := hqs.openTag
      obtain ⟨hname, hattributes, -, hchildren⟩ := OpenTag.outline_inj ho
      rw [Part.strip, Part.written_element, Part.written_element, List.append_assoc,
        List.append_assoc, List.append_assoc, List.append_assoc] at h
      obtain ⟨hrest, hkeeps⟩ := tag_alignment hu ht hname hattributes h
      rw [hq.1.not_selfClosing] at hkeeps
      obtain ⟨hrest', hkeeps'⟩ := keepsAll_of_outlines inner children children' _ _ hp.2.2 hq.2.2
        hps.children hqs.children hchildren hrest
      exact ⟨closeTag_alignment hqs.closeTag.sound hps.closeTag.sound hrest', hkeeps, hkeeps'⟩

theorem keepsAll_of_outlines (inner : String → Bool) :
    ∀ (ps qs : List Part) (rest after : List Char), PairedAll ps → PairedAll qs →
      TagsSound (tokensOf ps) → TagsSound (tokensOf qs) →
      outlinesOf qs = outlinesOf (stripAll inner ps) →
      writtenOf qs ++ rest = writtenOf (stripAll inner ps) ++ after →
      rest = after ∧ KeepsAll inner ps
  | [], qs, rest, after, hp, hq, hps, hqs, ho, h => by
    cases qs with
    | nil => exact ⟨h, trivial⟩
    | cons q qs => cases ho
  | p :: ps, qs, rest, after, hp, hq, hps, hqs, ho, h => by
    cases qs with
    | nil => cases ho
    | cons q qs =>
      obtain ⟨ho, hos⟩ := List.cons.inj ho
      rw [stripAll, writtenOf_cons, writtenOf_cons, List.append_assoc, List.append_assoc] at h
      obtain ⟨hrest, hkeeps⟩ := keeps_of_outline inner p inner q _ _ hp.1 hq.1 hps.left hqs.left
        ho h
      obtain ⟨hrest', hkeeps'⟩ := keepsAll_of_outlines inner ps qs rest after hp.2 hq.2 hps.right
        hqs.right hos hrest
      exact ⟨hrest', hkeeps, hkeeps'⟩

end

/-! ## Reading without the attributes -/

theorem parse_stripAll_iff {ps : List Part} (hp : PairedAll ps) (hr : Readable (tokensOf ps)) :
    (∃ nodes, parse (writtenOf (stripAll inner ps)) = .ok nodes ∧
      outlines (writtenOf (stripAll inner ps)) nodes = withoutAll inner (outlinesOf ps)) ↔
      KeepsAll inner ps := by
  have houtlines : ∀ qs : List Part, outlines (writtenOf qs) (nodesAt 0 qs) = outlinesOf qs := by
    intro qs
    have := outlines_nodesAt [] [] qs
    rwa [List.nil_append, List.append_nil] at this
  constructor
  · intro h
    obtain ⟨nodes, hparse, ho⟩ := h
    obtain ⟨qs, hq, hqr, htext, rfl⟩ := parse_eq_ok_iff.1 hparse
    rw [htext, houtlines, ← outlinesOf_stripAll] at ho
    exact (keepsAll_of_outlines inner ps qs [] [] hp hq hr.tagsSound hqr.tagsSound ho
      (by rw [htext])).2
  · intro h
    exact ⟨_, parse_stripAll hp hr h, by rw [houtlines, outlinesOf_stripAll]⟩

/-- **A stripped part** is read as what the part means without the attributes, exactly if each tag
keeps its form. -/
theorem parse_strip_iff {q : Part} (hp : q.Paired) (hr : Readable q.tokens) :
    (∃ n, parse (q.strip inner own).written = .ok [n] ∧
      n.outline (q.strip inner own).written = q.outline.without inner own) ↔
      q.Keeps inner own := by
  have houtline : ∀ q : Part, (q.nodeAt 0).outline q.written = q.outline := by
    intro q
    have := outline_nodeAt [] [] q
    rwa [List.nil_append, List.append_nil] at this
  constructor
  · intro h
    obtain ⟨n, hparse, ho⟩ := h
    obtain ⟨qs, hq, hqr, htext, hnodes⟩ := parse_eq_ok_iff.1 hparse
    match qs, hnodes with
    | [r], hnodes =>
      obtain rfl : n = r.nodeAt 0 := (List.cons.inj hnodes).1
      rw [writtenOf_cons, writtenOf_nil, List.append_nil] at htext
      rw [tokensOf_cons, tokensOf_nil, List.append_nil] at hqr
      rw [htext, houtline, ← outline_strip] at ho
      exact (keeps_of_outline inner q own r [] [] hp hq.1 hr.tagsSound hqr.tagsSound ho
        (by rw [htext])).2
  · intro h
    exact ⟨_, parse_strip hp hr h, by rw [houtline, outline_strip]⟩

end Islands.Markup
