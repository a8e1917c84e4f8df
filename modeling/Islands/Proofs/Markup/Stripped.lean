import Islands.Proofs.Markup.Outline

/-!
# Parts without some attributes

Taking attributes out of a tag, with the blanks in front of them, leaves the pieces of a tag
(`OpenTag.without`). These are read back as they stand if what is left still ends where it did
(`OpenTag.keeps`): an attribute was perhaps the only thing between a bare value and the next
attribute, or between a slash and the `>`. Where every tag keeps its form, the parts without the
attributes are read as what they are (`parse_strip`, `parse_stripAll`), and mean the same but for
the attributes (`outline_strip`).
-/

namespace Islands.Markup

variable {p own inner : String → Bool}

/-! ## Attributes -/

/-- A text without the blanks at its end. -/
def stem (cs : List Char) : List Char := (cs.reverse.dropWhile isBlank).reverse

/-- The blanks at the end of a text. -/
def blankEnd (cs : List Char) : List Char := (cs.reverse.takeWhile isBlank).reverse

theorem stem_append_blankEnd (cs : List Char) : stem cs ++ blankEnd cs = cs := by
  rw [stem, blankEnd, ← List.reverse_append, List.takeWhile_append_dropWhile, List.reverse_reverse]

theorem mem_of_mem_stem {cs : List Char} {c : Char} (h : c ∈ stem cs) : c ∈ cs := by
  rw [← stem_append_blankEnd cs]
  exact List.mem_append_left _ h

/-- Whether the attribute is called by one of the names. -/
def WrittenAttribute.named (p : String → Bool) (a : WrittenAttribute) : Bool :=
  p (String.ofList a.name)

/-- The attributes whose names are not among `p`. What stood in front of one that is left out, the
blanks next to it aside, is carried on to the next one that is kept. -/
def keptAttributes (p : String → Bool) (carry : List Char) :
    List WrittenAttribute → List WrittenAttribute
  | [] => []
  | a :: as =>
    if a.named p then keptAttributes p (carry ++ stem a.lead) as
    else { a with lead := carry ++ a.lead } :: keptAttributes p [] as

/-- What is carried on behind the last attribute that is kept. -/
def carriedOn (p : String → Bool) (carry : List Char) : List WrittenAttribute → List Char
  | [] => carry
  | a :: as =>
    if a.named p then carriedOn p (carry ++ stem a.lead) as else carriedOn p [] as

/-- What is left of the characters of some attributes. -/
def writtenWithout (p : String → Bool) (as : List WrittenAttribute) : List Char :=
  as.flatMap fun a => if a.named p then stem a.lead else a.written

theorem written_keptAttributes (carry : List Char) (as : List WrittenAttribute) :
    writtenAttributes (keptAttributes p carry as) ++ carriedOn p carry as =
      carry ++ writtenWithout p as := by
  induction as generalizing carry with
  | nil => simp [keptAttributes, carriedOn, writtenWithout]
  | cons a as ih =>
    rw [keptAttributes, carriedOn, writtenWithout, List.flatMap_cons, ← writtenWithout]
    by_cases h : a.named p = true
    · rw [if_pos h, if_pos h, if_pos h, ih, List.append_assoc]
    · have ih := ih []
      rw [List.nil_append] at ih
      rw [if_neg h, if_neg h, if_neg h, writtenAttributes_cons, ← ih]
      simp [WrittenAttribute.core, WrittenAttribute.written]

theorem sound_keptAttributes {carry : List Char} {as : List WrittenAttribute}
    (hcarry : ∀ c ∈ carry, isGapChar c = true) (h : ∀ a ∈ as, a.Sound) :
    (∀ a ∈ keptAttributes p carry as, a.Sound) ∧
      ∀ c ∈ carriedOn p carry as, isGapChar c = true := by
  induction as generalizing carry with
  | nil => exact ⟨fun a ha => (nomatch ha), hcarry⟩
  | cons a as ih =>
    have hlead := (h a (List.mem_cons_self ..)).lead
    have h' : ∀ b ∈ as, b.Sound := fun b hb => h b (List.mem_cons_of_mem _ hb)
    rw [keptAttributes, carriedOn]
    by_cases hp : a.named p = true
    · rw [if_pos hp, if_pos hp]
      refine ih (fun c hc => ?_) h'
      rcases List.mem_append.1 hc with hc | hc
      · exact hcarry c hc
      · exact hlead c (mem_of_mem_stem hc)
    · rw [if_neg hp, if_neg hp]
      obtain ⟨hkept, hcarried⟩ := ih (List.forall_mem_nil _) h'
      refine ⟨fun b hb => ?_, hcarried⟩
      rcases List.mem_cons.1 hb with rfl | hb
      · obtain ⟨-, hname, hvalue⟩ := h a (List.mem_cons_self ..)
        refine ⟨fun c hc => ?_, hname, hvalue⟩
        rcases List.mem_append.1 hc with hc | hc
        · exact hcarry c hc
        · exact hlead c hc
      · exact hkept b hb

theorem meaning_keptAttributes (carry : List Char) (as : List WrittenAttribute) :
    (keptAttributes p carry as).map WrittenAttribute.meaning =
      (as.map WrittenAttribute.meaning).filter fun m => !p m.1 := by
  induction as generalizing carry with
  | nil => rfl
  | cons a as ih =>
    rw [keptAttributes, List.map_cons, List.filter_cons]
    by_cases h : a.named p = true
    · rw [if_pos h, ih, if_neg]
      simpa [WrittenAttribute.meaning, WrittenAttribute.named] using h
    · rw [if_neg h, List.map_cons, ih, if_pos]
      · rfl
      · simpa [WrittenAttribute.meaning, WrittenAttribute.named] using h

/-! ## Tags -/

namespace OpenTag

/-- A tag without the attributes whose names are among `p`. -/
def without (p : String → Bool) (t : OpenTag) : OpenTag :=
  { t with
    attributes := keptAttributes p [] t.attributes
    trail := carriedOn p [] t.attributes ++ t.trail }

/-- The tag as its characters are read: a slash in front of the `>` closes it. -/
def settled (t : OpenTag) : OpenTag :=
  if t.endsAsSaid then t else { t with trail := t.trail.dropLast, selfClosing := true }

/-- Whether a tag without some attributes is read as that: its name and each attribute still end
where they did, and if the element has a closing tag, no slash is left in front of the `>`. -/
def keeps (p : String → Bool) (closed : Bool) (t : OpenTag) : Bool :=
  (t.without p).joins && (!closed || (t.without p).endsAsSaid)

theorem without_eq_self {t : OpenTag} (h : t.attributes.any (·.named p) = false) :
    t.without p = t := by
  have hkept : ∀ {as : List WrittenAttribute}, as.any (·.named p) = false →
      keptAttributes p [] as = as ∧ carriedOn p [] as = [] := by
    intro as has
    induction as with
    | nil => exact ⟨rfl, rfl⟩
    | cons a as ih =>
      rw [List.any_cons, Bool.or_eq_false_iff] at has
      have hp : ¬a.named p = true := by simp [has.1]
      obtain ⟨hkept, hcarried⟩ := ih has.2
      rw [keptAttributes, carriedOn, if_neg hp, if_neg hp, hkept, hcarried]
      exact ⟨rfl, rfl⟩
  obtain ⟨hattributes, hcarried⟩ := hkept h
  rw [without, hattributes, hcarried, List.nil_append]

theorem outline_without (t : OpenTag) (closed : Bool) (os : List Outline) :
    (t.without own).outline closed (withoutAll inner os) =
      (t.outline closed os).without inner own := by
  rw [outline, without, meaning_keptAttributes, outline, Outline.without]

theorem sound_without {t : OpenTag} (h : t.Sound) : (t.without p).Sound := by
  obtain ⟨hkept, hcarried⟩ := sound_keptAttributes (p := p) (List.forall_mem_nil _) h.attributes
  refine ⟨h.name, hkept, fun c hc => ?_⟩
  rcases List.mem_append.1 hc with hc | hc
  · exact hcarried c hc
  · exact h.trail c hc

theorem inside_without (t : OpenTag) :
    (t.without p).inside = writtenWithout p t.attributes ++ tagTail t.trail t.selfClosing := by
  have h := written_keptAttributes (p := p) [] t.attributes
  rw [List.nil_append] at h
  rw [inside, without, tagTail, tagTail, ← h]
  simp

/-- A tag that does not end as it is said to ends in a slash. -/
theorem exists_trail_of_not_endsAsSaid {t : OpenTag} (h : t.endsAsSaid = false) :
    ∃ trail, t.trail = trail ++ ['/'] ∧ t.selfClosing = false := by
  simp only [endsAsSaid, Markup.endsAsSaid, Bool.or_eq_false_iff, bne_eq_false_iff_eq] at h
  obtain ⟨trail, htrail⟩ := List.getLast?_eq_some_iff.1 h.2
  exact ⟨trail, htrail, h.1⟩

/-- Settling a tag changes neither its characters nor what joins. -/
theorem tagTail_settled (t : OpenTag) :
    tagTail t.settled.trail t.settled.selfClosing = tagTail t.trail t.selfClosing := by
  unfold settled
  split
  · rfl
  · rename_i h
    obtain ⟨trail, htrail, hself⟩ := exists_trail_of_not_endsAsSaid (by simpa using h)
    simp [htrail, hself, tagTail, tagEnd]

theorem settled_eq (t : OpenTag) :
    t.settled = { t with trail := t.settled.trail, selfClosing := t.settled.selfClosing } := by
  unfold settled
  split <;> rfl

@[simp] theorem settled_name (t : OpenTag) : t.settled.name = t.name := by rw [settled_eq]

@[simp] theorem settled_attributes (t : OpenTag) : t.settled.attributes = t.attributes := by
  rw [settled_eq]

theorem inside_settled (t : OpenTag) : t.settled.inside = t.inside := by
  rw [inside, inside, tagTail_settled, settled_attributes]

theorem written_settled (t : OpenTag) : t.settled.written = t.written := by
  rw [written_eq, written_eq, inside_settled, settled_name]

theorem outline_settled (t : OpenTag) (closed : Bool) (os : List Outline) :
    t.settled.outline closed os = t.outline closed os := by
  rw [outline, outline, settled_name, settled_attributes]

theorem endsAsSaid_settled (t : OpenTag) : t.settled.endsAsSaid = true := by
  unfold settled
  split
  · assumption
  · rfl

theorem formed_settled {t : OpenTag} (hletter : startsLetter t.name = true) (hs : t.Sound)
    (hjoins : t.joins = true) : t.settled.Formed := by
  refine ⟨?_, ⟨?_, ?_, fun c hc => ?_⟩, ?_, t.endsAsSaid_settled⟩
  · rw [settled_name]
    exact hletter
  · rw [settled_name]
    exact hs.name
  · rw [settled_attributes]
    exact hs.attributes
  · unfold settled at hc
    split at hc
    · exact hs.trail c hc
    · exact hs.trail c (List.dropLast_subset _ hc)
  · rw [joins, inside_settled, tagTail_settled, settled_attributes]
    exact hjoins

end OpenTag

/-! ## Parts -/

mutual

/-- A part without some attributes: the outermost element loses those named by `own`, the elements
inside it those named by `inner`. -/
def Part.strip (inner : String → Bool) (own : String → Bool) : Part → Part
  | .text body => .text body
  | .comment body => .comment body
  | .single tag => .single (tag.without own).settled
  | .raw tag body close => .raw (tag.without own) body close
  | .element tag children close => .element (tag.without own) (stripAll inner children) close

/-- Parts without the attributes named by `inner`, at every depth. -/
def stripAll (inner : String → Bool) : List Part → List Part
  | [] => []
  | p :: ps => p.strip inner inner :: stripAll inner ps

end

mutual

/-- The tags of a part keep their form without the attributes. -/
def Part.Keeps (inner : String → Bool) (own : String → Bool) : Part → Prop
  | .text _ => True
  | .comment _ => True
  | .single tag => tag.keeps own false = true
  | .raw tag _ _ => tag.keeps own true = true
  | .element tag children _ => tag.keeps own true = true ∧ KeepsAll inner children

/-- The tags of some parts keep their form without the attributes. -/
def KeepsAll (inner : String → Bool) : List Part → Prop
  | [] => True
  | p :: ps => p.Keeps inner inner ∧ KeepsAll inner ps

end

mutual

/-- **Stripped parts** mean the same but for the attributes. -/
theorem outline_strip (inner own : String → Bool) :
    ∀ p : Part, (p.strip inner own).outline = p.outline.without inner own
  | .text _ => rfl
  | .comment _ => rfl
  | .single tag => by
    rw [Part.strip, Part.outline, OpenTag.outline_settled]
    exact tag.outline_without false []
  | .raw tag body close => by
    have h : withoutAll inner (rawOutlines body) = rawOutlines body := by
      unfold rawOutlines
      split <;> rfl
    rw [Part.strip, Part.outline, Part.outline, ← OpenTag.outline_without, h]
  | .element tag children close => by
    rw [Part.strip, Part.outline, Part.outline, outlinesOf_stripAll inner children,
      OpenTag.outline_without]

theorem outlinesOf_stripAll (inner : String → Bool) :
    ∀ ps : List Part, outlinesOf (stripAll inner ps) = withoutAll inner (outlinesOf ps)
  | [] => rfl
  | p :: ps => by
    rw [stripAll, outlinesOf, outlinesOf, withoutAll, outline_strip inner inner p,
      outlinesOf_stripAll inner ps]

end

mutual

theorem paired_strip (inner own : String → Bool) :
    ∀ p : Part, p.Paired → (p.strip inner own).Paired
  | .text _, _ => trivial
  | .comment _, _ => trivial
  | .single tag, h => by
    rw [Part.strip, Part.Paired, OpenTag.settled_name]
    refine h.imp (fun h => ?_) id
    unfold OpenTag.settled
    split
    · exact h
    · rfl
  | .raw _ _ _, h => h
  | .element _ children _, h =>
    ⟨⟨h.1.1, h.1.2, h.1.3⟩, h.2.1, pairedAll_stripAll inner children h.2.2⟩

theorem pairedAll_stripAll (inner : String → Bool) :
    ∀ ps : List Part, PairedAll ps → PairedAll (stripAll inner ps)
  | [], _ => trivial
  | p :: ps, h => ⟨paired_strip inner inner p h.1, pairedAll_stripAll inner ps h.2⟩

end

/-! ## Sound tags -/

/-- Those of some tokens that are no text are sound. -/
def TagsSound (ts : List Token) : Prop := ∀ t ∈ ts, t.isText = false → t.Sound

section
variable {ts us : List Token} {tag : OpenTag} {ps : List Part} {close : CloseTag}

theorem Readable.tagsSound (h : Readable ts) : TagsSound ts :=
  fun _ ht htext => h.sound ht htext

theorem TagsSound.left (h : TagsSound (ts ++ us)) : TagsSound ts :=
  fun t ht => h t (List.mem_append_left _ ht)

theorem TagsSound.right (h : TagsSound (ts ++ us)) : TagsSound us :=
  fun t ht => h t (List.mem_append_right _ ht)

theorem TagsSound.openTag (h : TagsSound (.openTag tag :: ts)) : tag.Formed :=
  (h (.openTag tag) (List.mem_cons_self ..) rfl).1

theorem TagsSound.children (h : TagsSound (Part.element tag ps close).tokens) :
    TagsSound (tokensOf ps) :=
  fun t ht => h t (List.mem_cons_of_mem _ (List.mem_append_left _ ht))

theorem TagsSound.closeTag (h : TagsSound (Part.element tag ps close).tokens) :
    close.Formed :=
  h (.closeTag close) (List.mem_cons_of_mem _ (List.mem_append_right _ (List.mem_singleton.2 rfl)))
    rfl

end

/-! ## Reading stripped parts -/

/-- Tokens one by one in place of others: each is the same, or both are no text and the new one is
sound. -/
inductive Retagged : List Token → List Token → Prop
  | nil : Retagged [] []
  | cons {t u : Token} {ts us : List Token}
    (h : u = t ∨ t.isText = false ∧ u.isText = false ∧ u.Sound) (hs : Retagged ts us) :
    Retagged (t :: ts) (u :: us)

theorem Retagged.append {ts us ts' us' : List Token} (h : Retagged ts us) (h' : Retagged ts' us') :
    Retagged (ts ++ ts') (us ++ us') := by
  induction h with
  | nil => exact h'
  | cons h hs ih => exact .cons h ih

/-- Tokens in place of others are readable as those are. -/
theorem Retagged.readable {ts us : List Token} (h : Retagged ts us) (hr : Readable ts) :
    Readable us := by
  induction h with
  | nil => trivial
  | @cons t u ts us h hs ih =>
    have htext : u.isText = t.isText := by
      rcases h with rfl | ⟨h, h', -⟩
      · rfl
      · rw [h, h']
    cases hs with
    | nil =>
      rcases h with rfl | ⟨-, -, h⟩
      · exact hr
      · exact h.readable
    | @cons t' u' ts us h' hs =>
      have htext' : u'.isText = true → t'.isText = true := by
        intro hu
        rcases h' with rfl | ⟨-, h', -⟩
        · exact hu
        · rw [h'] at hu
          cases hu
      obtain ⟨hsound, hapart, hrest⟩ := hr
      refine ⟨?_, fun hu => ?_, ih hrest⟩
      · rcases h with rfl | ⟨-, -, h⟩
        · exact hsound
        · exact h
      · rw [htext] at hu
        cases hu' : u'.isText with
        | false => rfl
        | true =>
          have := htext' hu'
          rw [hapart hu] at this
          cases this

theorem OpenTag.Formed.without {t : OpenTag} (h : t.Formed) (hkeeps : t.keeps p true = true) :
    (t.without p).Formed := by
  simp only [OpenTag.keeps, Bool.and_eq_true, Bool.or_eq_true, Bool.not_true,
    Bool.false_eq_true, false_or] at hkeeps
  exact ⟨h.letter, OpenTag.sound_without h.sound, hkeeps.1, hkeeps.2⟩

theorem OpenTag.Formed.settled_without {t : OpenTag} (h : t.Formed)
    (hkeeps : t.keeps p false = true) : (t.without p).settled.Formed := by
  simp only [OpenTag.keeps, Bool.not_false, Bool.true_or, Bool.and_true] at hkeeps
  exact OpenTag.formed_settled h.letter (OpenTag.sound_without h.sound) hkeeps

mutual

theorem retagged_strip (inner own : String → Bool) :
    ∀ p : Part, p.Paired → p.Keeps inner own → TagsSound p.tokens →
      Retagged p.tokens (p.strip inner own).tokens
  | .text _, _, _, _ => .cons (.inl rfl) .nil
  | .comment _, _, _, _ => .cons (.inl rfl) .nil
  | .single tag, hp, hk, hs => by
    obtain ⟨hf, hraw⟩ := hs _ (List.mem_singleton.2 rfl) rfl
    refine .cons (.inr ⟨rfl, rfl, hf.settled_without hk, ?_⟩) .nil
    rw [OpenTag.settled_name]
    refine hraw.imp (fun h => ?_) id
    unfold OpenTag.settled
    split
    · exact h
    · rfl
  | .raw tag body close, hp, hk, hs => by
    obtain ⟨hf, hraw⟩ := hs _ (List.mem_singleton.2 rfl) rfl
    exact .cons (.inr ⟨rfl, rfl, hf.without hk, hraw⟩) .nil
  | .element tag children close, hp, hk, hs => by
    obtain ⟨hf, hraw⟩ := hs (.openTag tag) (List.mem_cons_self ..) rfl
    exact .cons (.inr ⟨rfl, rfl, hf.without hk.1, hraw⟩)
      ((retagged_stripAll inner children hp.2.2 hk.2 hs.children).append (.cons (.inl rfl) .nil))

theorem retagged_stripAll (inner : String → Bool) :
    ∀ ps : List Part, PairedAll ps → KeepsAll inner ps → TagsSound (tokensOf ps) →
      Retagged (tokensOf ps) (tokensOf (stripAll inner ps))
  | [], _, _, _ => .nil
  | p :: ps, hp, hk, hs =>
    (retagged_strip inner inner p hp.1 hk.1 hs.left).append
      (retagged_stripAll inner ps hp.2 hk.2 hs.right)

end

theorem parse_stripAll {ps : List Part} (hp : PairedAll ps) (hr : Readable (tokensOf ps))
    (hk : KeepsAll inner ps) :
    parse (writtenOf (stripAll inner ps)) = .ok (nodesAt 0 (stripAll inner ps)) :=
  parse_eq_ok_iff.2 ⟨_, pairedAll_stripAll inner ps hp,
    (retagged_stripAll inner ps hp hk hr.tagsSound).readable hr, rfl, rfl⟩

/-- **A stripped part** that keeps its form is read as what it is. -/
theorem parse_strip {q : Part} (hp : q.Paired) (hr : Readable q.tokens) (hk : q.Keeps inner own) :
    parse (q.strip inner own).written = .ok [(q.strip inner own).nodeAt 0] := by
  have hread := (retagged_strip inner own q hp hk hr.tagsSound).readable hr
  have hpaired : PairedAll [q.strip inner own] := ⟨paired_strip inner own q hp, trivial⟩
  refine parse_eq_ok_iff.2 ⟨[q.strip inner own], hpaired, ?_, ?_, rfl⟩
  · rw [tokensOf_cons, tokensOf_nil, List.append_nil]
    exact hread
  · rw [writtenOf_cons, writtenOf_nil, List.append_nil]

end Islands.Markup
