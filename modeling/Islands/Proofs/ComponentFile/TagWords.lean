import Mathlib.Data.List.DropRight
import Islands.Proofs.ComponentFile.BareWords

/-!
# The words of a tag

In front of the search for a bare word the angle brackets of a tag are taken off, and the slashes in
front of its `>`, which may belong to a value (`trimLast`). What is found in a tag that does not
close itself can then be told by its attributes (`OpenTag.ShowsWord`), if quotation marks stand
around values only (`OpenTag.marksAroundValues`).

* `trimsTo_tag`, `tagInside_of_trimsTo`: what is taken off a tag.
* `hasBareWord_iff`: the words that are found in it.
-/

namespace Islands.Markup

open ComponentFile

/-! ## The end of a tag -/

/-- The value without the slashes at its end, if there are no quotation marks around it. -/
def WrittenValue.trimmed : WrittenValue → WrittenValue
  | .quoted mark body => .quoted mark body
  | .bare body => .bare (body.rdropWhile (· == '/'))

/-- The attribute without the slashes at the end of its value. -/
def WrittenAttribute.trimmed (a : WrittenAttribute) : WrittenAttribute :=
  { a with assignment := a.assignment.map fun s => { s with value := s.value.trimmed } }

/-- The attributes of a tag that is taken without the slashes at its end. -/
def trimLast (trail : List Char) : List WrittenAttribute → List WrittenAttribute
  | [] => []
  | [a] => [if trail.isEmpty then a.trimmed else a]
  | a :: b :: as => a :: trimLast trail (b :: as)

section
variable {a : WrittenAttribute} {as : List WrittenAttribute} {trail : List Char}

theorem WrittenAttribute.Sound.trimmed (h : a.Sound) : a.trimmed.Sound := by
  refine ⟨h.lead, h.name, fun s' hs' => ?_⟩
  obtain ⟨s, hs, rfl⟩ := Option.map_eq_some_iff.1 hs'
  have hsound := h.assignment s hs
  refine ⟨hsound.before, hsound.after, ?_⟩
  have hvalue := hsound.value
  cases hv : s.value with
  | quoted mark body =>
    rw [hv] at hvalue
    exact hvalue
  | bare body =>
    rw [hv] at hvalue
    obtain ⟨rest, hrest⟩ := List.rdropWhile_prefix (p := (· == '/')) body
    obtain ⟨hbody, hquote, hsingle⟩ := hvalue
    have hhead : ∀ c, (body.rdropWhile (· == '/')).head? = some c → body.head? = some c := by
      intro c hc
      rw [← hrest, List.head?_append, hc]
      rfl
    refine ⟨fun c hc => hbody c ?_, fun hc => hquote (hhead _ hc), fun hc => hsingle (hhead _ hc)⟩
    rw [← hrest]
    exact List.mem_append_left _ hc

theorem bareValue?_trimmed (a : WrittenAttribute) :
    a.trimmed.bareValue? = a.bareValue?.map (List.rdropWhile (· == '/')) := by
  obtain ⟨lead, name, assignment⟩ := a
  cases assignment with
  | none => rfl
  | some s =>
    obtain ⟨before, after, value⟩ := s
    cases value <;> rfl

theorem marksAroundValue_trimmed (h : a.marksAroundValue = true) :
    a.trimmed.marksAroundValue = true := by
  obtain ⟨hname, hvalue⟩ := Bool.and_eq_true_iff.1 h
  refine Bool.and_eq_true_iff.2 ⟨hname, ?_⟩
  rw [bareValue?_trimmed]
  cases hbare : a.bareValue? with
  | none => rfl
  | some body =>
    rw [hbare] at hvalue
    refine List.all_eq_true.2 fun c hc => List.all_eq_true.1 hvalue c ?_
    exact (List.rdropWhile_prefix (p := (· == '/')) body).subset hc

theorem isQuoted_trimmed (a : WrittenAttribute) : a.trimmed.isQuoted = a.isQuoted := by
  obtain ⟨lead, name, assignment⟩ := a
  cases assignment with
  | none => rfl
  | some s =>
    obtain ⟨before, after, value⟩ := s
    cases value <;> rfl

theorem exists_of_mem_trimLast {a' : WrittenAttribute} (h : a' ∈ trimLast trail as) :
    ∃ a ∈ as, a' = a ∨ a' = a.trimmed := by
  induction as with
  | nil => cases h
  | cons a as ih =>
    cases as with
    | nil =>
      obtain rfl := List.mem_singleton.1 h
      refine ⟨a, List.mem_cons_self .., ?_⟩
      split
      · exact .inr rfl
      · exact .inl rfl
    | cons b as =>
      rcases List.mem_cons.1 h with rfl | h
      · exact ⟨a', List.mem_cons_self .., .inl rfl⟩
      · obtain ⟨c, hc, heq⟩ := ih h
        exact ⟨c, List.mem_cons_of_mem _ hc, heq⟩

/-- What does not depend on the slashes at the end of a value holds of all attributes still. -/
theorem forall_mem_trimLast {P : WrittenAttribute → Prop} (h : ∀ a ∈ as, P a)
    (htrimmed : ∀ a, P a → P a.trimmed) : ∀ a ∈ trimLast trail as, P a := by
  intro a' ha'
  obtain ⟨a, ha, rfl | rfl⟩ := exists_of_mem_trimLast ha'
  · exact h a' ha
  · exact htrimmed a (h a ha)

theorem head?_writtenAttributes_cons (hname : a.name ≠ []) (rest : List Char) :
    (writtenAttributes (a :: as) ++ rest).head? = (a.lead ++ a.name).head? := by
  rw [writtenAttributes_cons, WrittenAttribute.core, List.append_assoc, List.append_assoc,
    List.append_assoc, ← List.append_assoc]
  exact List.head?_append_of_ne_nil _ (List.append_ne_nil_of_right_ne_nil _ hname)

theorem separated_trimLast (hs : ∀ a ∈ as, a.Sound) (h : separated trail as = true) :
    separated trail (trimLast trail as) = true := by
  induction as with
  | nil => rfl
  | cons a as ih =>
    rw [List.forall_mem_cons] at hs
    rw [separated, Bool.and_eq_true] at h
    cases as with
    | nil =>
      have hquoted : (if trail.isEmpty then a.trimmed else a).isQuoted = a.isQuoted := by
        split
        · exact isQuoted_trimmed a
        · rfl
      rw [trimLast, separated, hquoted, h.1]
      rfl
    | cons b as =>
      have hb := (hs.2 b (List.mem_cons_self ..)).name_ne_nil
      have hhead : (writtenAttributes (trimLast trail (b :: as)) ++ trail).head? =
          (writtenAttributes (b :: as) ++ trail).head? := by
        rw [head?_writtenAttributes_cons hb]
        cases as with
        | nil =>
          rw [trimLast]
          split
          · exact head?_writtenAttributes_cons (a := b.trimmed) hb trail
          · exact head?_writtenAttributes_cons hb trail
        | cons c as => exact head?_writtenAttributes_cons hb trail
      rw [trimLast, separated, hhead, h.1, ih hs.2 h.2]
      rfl

theorem trimLast_of_ne_nil (h : trail ≠ []) (as : List WrittenAttribute) :
    trimLast trail as = as := by
  induction as with
  | nil => rfl
  | cons a as ih =>
    cases as with
    | nil => rw [trimLast, if_neg (by simpa using h)]
    | cons b as => rw [trimLast, ih]

theorem trimLast_append_singleton (as : List WrittenAttribute) (a : WrittenAttribute) :
    trimLast [] (as ++ [a]) = as ++ [a.trimmed] := by
  induction as with
  | nil => rfl
  | cons b as ih =>
    cases as with
    | nil => rfl
    | cons c as => exact congrArg (b :: ·) ih

end

/-! ## Texts without the slashes at their end -/

theorem tagInside_eq (tag : List Char) :
    tagInside tag =
      ((tag.dropWhile (· == '<')).rdropWhile (· == '>')).rdropWhile (· == '/') := by
  simp [tagInside, List.rdropWhile]

/-- A text ends in a character that is not taken off the end of a tag. -/
def EndsKept (cs : List Char) : Prop := ∃ x c, cs = x ++ [c] ∧ c ≠ '/' ∧ c ≠ '>'

theorem EndsKept.append_left {cs : List Char} (h : EndsKept cs) (front : List Char) :
    EndsKept (front ++ cs) := by
  obtain ⟨x, c, rfl, hc⟩ := h
  exact ⟨front ++ x, c, by rw [List.append_assoc], hc⟩

theorem endsKept_of_forall {cs : List Char} (hne : cs ≠ []) (h : ∀ c ∈ cs, c ≠ '/' ∧ c ≠ '>') :
    EndsKept cs := by
  rcases List.eq_nil_or_concat' cs with rfl | ⟨x, c, rfl⟩
  · exact absurd rfl hne
  · exact ⟨x, c, rfl, h c (by simp)⟩

theorem rdropWhile_append_of_last {p : Char → Bool} {c : Char} (hc : p c = false)
    (x y : List Char) : (x ++ [c] ++ y).rdropWhile p = x ++ [c] ++ y.rdropWhile p := by
  induction y using List.reverseRecOn with
  | nil =>
    rw [List.append_nil, List.rdropWhile_concat_neg _ _ _ (by simp [hc]), List.rdropWhile_nil,
      List.append_nil]
  | append_singleton y d ih =>
    rw [← List.append_assoc, List.rdropWhile_concat, List.rdropWhile_concat, ih]
    split
    · rfl
    · simp

/-- Without the slashes at its end the text is `trimmed`: what they belong to has no `>`, and a
character that is kept is in front of it. -/
def TrimsTo (cs trimmed : List Char) : Prop :=
  ∃ x y, EndsKept x ∧ '>' ∉ y ∧ cs = x ++ y ∧ trimmed = x ++ y.rdropWhile (· == '/')

theorem TrimsTo.append_left {cs trimmed : List Char} (h : TrimsTo cs trimmed)
    (front : List Char) : TrimsTo (front ++ cs) (front ++ trimmed) := by
  obtain ⟨x, y, hx, hy, rfl, rfl⟩ := h
  exact ⟨front ++ x, y, hx.append_left front, hy, by simp, by simp⟩

theorem EndsKept.trimsTo {cs : List Char} (h : EndsKept cs) : TrimsTo cs cs :=
  ⟨cs, [], h, List.not_mem_nil, (List.append_nil cs).symm, (List.append_nil cs).symm⟩

theorem tagInside_of_trimsTo {cs trimmed : List Char} (h : TrimsTo cs trimmed)
    (hhead : cs.head? ≠ some '<') : tagInside ('<' :: (cs ++ ['>'])) = trimmed := by
  obtain ⟨_, y, ⟨x, c, rfl, hslash, hangle⟩, hy, rfl, rfl⟩ := h
  have hfront : ('<' :: (x ++ [c] ++ y ++ ['>'])).dropWhile (· == '<') =
      x ++ [c] ++ y ++ ['>'] := by
    rw [List.dropWhile_cons_of_pos (by rfl)]
    cases x with
    | nil => exact List.dropWhile_cons_of_neg (by simpa using hhead)
    | cons d x => exact List.dropWhile_cons_of_neg (by simpa using hhead)
  have hkept : y.rdropWhile (· == '>') = y :=
    List.rdropWhile_eq_self_iff.2 fun hne hlast =>
      hy (by rw [← eq_of_beq hlast]; exact List.getLast_mem hne)
  rw [tagInside_eq, hfront, List.rdropWhile_concat_pos _ _ _ (by rfl),
    rdropWhile_append_of_last (by simpa using hangle), hkept,
    rdropWhile_append_of_last (by simpa using hslash)]

/-! ## What is taken off a tag -/

theorem endsKept_name {a : WrittenAttribute} (ha : a.Sound)
    (hends : runEnds isTailChar a.name.tail ['>'] = true) : EndsKept a.name := by
  obtain ⟨d, tail, hname, hgap, hangle, htail⟩ := ha.name
  rw [hname] at hends ⊢
  have hlast : tail.getLast? ≠ some '/' := by simpa [runEnds, isTailChar] using hends
  rcases List.eq_nil_or_concat' tail with rfl | ⟨x, c, rfl⟩
  · refine ⟨[], d, rfl, ?_, hangle⟩
    rintro rfl
    cases hgap
  · rw [List.getLast?_concat] at hlast
    refine ⟨d :: x, c, rfl, fun h => hlast (congrArg some h), ?_⟩
    rintro rfl
    cases htail '>' (by simp)

theorem trimsTo_assignment {s : Assignment} (hs : s.Sound) :
    TrimsTo s.written { s with value := s.value.trimmed }.written := by
  obtain ⟨before, after, value⟩ := s
  cases value with
  | quoted q body =>
    have hq : q ≠ '/' ∧ q ≠ '>' := by
      rcases hs.value.1 with rfl | rfl <;> decide
    have hkept : EndsKept (Assignment.written ⟨before, after, .quoted q body⟩) :=
      ⟨before ++ '=' :: (after ++ q :: body), q,
        by simp [Assignment.written, WrittenValue.written], hq⟩
    exact hkept.trimsTo
  | bare body =>
    have hafter : ∀ c ∈ '=' :: after, c ≠ '/' ∧ c ≠ '>' := by
      refine List.forall_mem_cons.2 ⟨by decide, fun c hc => ⟨?_, ?_⟩⟩
      · rintro rfl
        cases hs.after '/' hc
      · rintro rfl
        cases hs.after '>' hc
    have hkept := (endsKept_of_forall (List.cons_ne_nil '=' after) hafter).append_left before
    refine ⟨before ++ '=' :: after, body, hkept, fun h => ?_, ?_, ?_⟩
    · cases hs.value.1 '>' h
    · simp [Assignment.written, WrittenValue.written]
    · simp [Assignment.written, WrittenValue.written, WrittenValue.trimmed]

/-- The last attribute of a tag that does not close itself, in front of its `>`. -/
theorem trimsTo_core {a : WrittenAttribute} (ha : a.Sound) (hends : a.ends ['>'] = true) :
    TrimsTo a.core a.trimmed.core := by
  rw [WrittenAttribute.core, WrittenAttribute.core, WrittenAttribute.trimmed]
  cases hs : a.assignment with
  | none =>
    rw [WrittenAttribute.ends, hs] at hends
    have hname := (endsKept_name ha (Bool.and_eq_true_iff.1 hends).1).trimsTo
    simpa using hname
  | some s => exact (trimsTo_assignment (ha.assignment s hs)).append_left a.name

theorem ends_of_attributesJoin {as : List WrittenAttribute} {a : WrittenAttribute}
    {tail : List Char} (h : attributesJoin (as ++ [a]) tail = true) : a.ends tail = true := by
  induction as with
  | nil => exact (Bool.and_eq_true_iff.1 h).1
  | cons b as ih => exact ih (Bool.and_eq_true_iff.1 h).2

theorem endsKept_tagName {t : OpenTag} (ht : t.Formed) : EndsKept t.name := by
  apply endsKept_of_forall
  · intro h
    have hletter := ht.letter
    rw [h] at hletter
    cases hletter
  · refine fun c hc => ⟨?_, ?_⟩
    · rintro rfl
      cases ht.sound.name '/' hc
    · rintro rfl
      cases ht.sound.name '>' hc

theorem trimsTo_tag {t : OpenTag} (ht : t.Formed) (hself : t.selfClosing = false) :
    TrimsTo (t.name ++ (writtenAttributes t.attributes ++ t.trail))
      (t.name ++ (writtenAttributes (trimLast t.trail t.attributes) ++ t.trail)) := by
  have hjoin := (Bool.and_eq_true_iff.1 ht.joins).2
  have hend := ht.endsAsSaid
  have htrail := ht.sound.trail
  rw [OpenTag.endsAsSaid] at hend
  rw [hself] at hjoin hend
  generalize t.trail = trail at hjoin hend htrail ⊢
  rcases List.eq_nil_or_concat' trail with rfl | ⟨gap, c, rfl⟩
  · rcases List.eq_nil_or_concat' t.attributes with hnone | ⟨as, a, hlast⟩
    · have hname := (endsKept_tagName ht).trimsTo
      rw [hnone]
      simpa [trimLast] using hname
    · rw [hlast] at hjoin ⊢
      have ha := ht.sound.attributes a (by simp [hlast])
      have hcore := trimsTo_core ha (ends_of_attributesJoin hjoin)
      have h := hcore.append_left (t.name ++ (writtenAttributes as ++ a.lead))
      have hlead : a.trimmed.lead = a.lead := rfl
      rw [trimLast_append_singleton]
      simpa [writtenAttributes, WrittenAttribute.written, hlead] using h
  · have hkept : EndsKept (gap ++ [c]) := by
      refine ⟨gap, c, rfl, ?_, ?_⟩
      · rintro rfl
        simp [endsAsSaid] at hend
      · rintro rfl
        cases htrail '>' (by simp)
    rw [trimLast_of_ne_nil (List.concat_ne_nil c gap)]
    exact ((hkept.append_left _).append_left _).trimsTo

/-! ## Words of a tag -/

/-- Whether there are no quotation marks behind the name of a tag but those around values. -/
def OpenTag.marksAroundValues (t : OpenTag) : Bool :=
  t.attributes.all WrittenAttribute.marksAroundValue

/-- Whether a word is found in a tag: in one of its attributes, where a bare value at the end of the
tag counts without the slashes at its end. -/
def OpenTag.ShowsWord (word : List Char) (t : OpenTag) : Prop :=
  ∃ front a behind, trimLast t.trail t.attributes = front ++ a :: behind ∧
    a.Shows word (a.isApart false front)

/-- **Bare words of a tag** that does not close itself: the search finds a word exactly if the tag
shows it. -/
theorem hasBareWord_iff {t : OpenTag} (ht : t.Formed) (hself : t.selfClosing = false)
    (hname : ∀ c ∈ t.name, isMark c = false) (hmarks : t.marksAroundValues = true)
    {word : List Char} (hword : IsPlainWord word) :
    hasBareWord word t.written = true ↔ t.ShowsWord word := by
  have htrims := trimsTo_tag ht hself
  have hjoin := (Bool.and_eq_true_iff.1 ht.joins).2
  have hend := ht.endsAsSaid
  rw [OpenTag.endsAsSaid] at hend
  rw [hself] at hjoin hend
  have htext : t.written =
      '<' :: (t.name ++ (writtenAttributes t.attributes ++ t.trail) ++ ['>']) := by
    simp [OpenTag.written, writtenAttributes, tagEnd, hself]
  have hhead : (t.name ++ (writtenAttributes t.attributes ++ t.trail)).head? ≠ some '<' := by
    have hletter := ht.letter
    cases hname : t.name with
    | nil => rw [hname] at hletter; cases hletter
    | cons c name =>
      rw [hname] at hletter
      intro h
      obtain rfl : c = '<' := Option.some.inj h
      cases hletter
  have hchars : ∀ c ∈ t.name, isWordChar c = true := by
    intro c hc
    have hmark := hname c hc
    have hchar := ht.sound.name c hc
    simp_all [isWordChar, isNameChar]
  have hsep := separated_trimLast ht.sound.attributes
    (separated_of_joins ht.sound.attributes ht.sound.trail hend hjoin)
  rw [hasBareWord_iff_findsWord, htext, tagInside_of_trimsTo htrims hhead,
    findsWord_false_append hchars]
  exact findsWord_attributes hword ht.sound.trail
    (forall_mem_trimLast ht.sound.attributes fun a ha => ha.trimmed)
    (forall_mem_trimLast (List.all_eq_true.1 hmarks) fun a ha => marksAroundValue_trimmed ha)
    hsep

/-! ## Tags that set their attributes apart -/

/-- Whether an attribute called `word` has a blank right in front of it and no blank in front of its
`=`, and no blank stands behind an `=` in front of a value without quotation marks. -/
def WrittenAttribute.setsApart (word : List Char) (a : WrittenAttribute) : Bool :=
  (a.name != word || (a.lead.getLast?.any isBlank && a.assignment.all (·.before.isEmpty))) &&
    (a.isQuoted || a.assignment.all (·.after.isEmpty))

/-- Whether all attributes of a tag are set apart as far as `word` is concerned. -/
def OpenTag.setsApart (word : List Char) (t : OpenTag) : Bool :=
  t.attributes.all (WrittenAttribute.setsApart word)

section
variable {word : List Char} {a : WrittenAttribute} {apart : Bool}

theorem setsApart_trimmed (h : a.setsApart word = true) : a.trimmed.setsApart word = true := by
  rw [WrittenAttribute.setsApart, isQuoted_trimmed]
  obtain ⟨lead, name, assignment⟩ := a
  cases assignment with
  | none => exact h
  | some s => exact h

/-- A word that an attribute shows is its name, and the attribute has no value. -/
theorem assignment_eq_none_of_shows (ha : a.setsApart word = true) (h : a.Shows word apart) :
    a.name = word ∧ a.assignment = none := by
  rw [WrittenAttribute.setsApart, Bool.and_eq_true, Bool.or_eq_true, Bool.or_eq_true,
    Bool.and_eq_true] at ha
  obtain ⟨hnamed, hvalue⟩ := ha
  rcases h with ⟨-, hname, hbefore⟩ | ⟨s, hs, hafter, hbare⟩
  · refine ⟨hname, ?_⟩
    cases hs : a.assignment with
    | none => rfl
    | some s =>
      have hempty := (hnamed.resolve_left (by simp [hname])).2
      rw [hs] at hempty
      exact absurd (List.isEmpty_iff.1 hempty) (hbefore s hs)
  · have hquoted : a.isQuoted = false := by simp [WrittenAttribute.isQuoted, hs, hbare]
    have hempty := hvalue.resolve_left (by simp [hquoted])
    rw [hs] at hempty
    exact absurd (List.isEmpty_iff.1 hempty) hafter

theorem shows_of_setsApart (ha : a.setsApart word = true) (hname : a.name = word)
    (hnone : a.assignment = none) (front : List WrittenAttribute) :
    a.Shows word (a.isApart apart front) := by
  rw [WrittenAttribute.setsApart, Bool.and_eq_true, Bool.or_eq_true, Bool.and_eq_true] at ha
  have hlead := (ha.1.resolve_left (by simp [hname])).1
  obtain ⟨c, hc, hblank⟩ := (Option.any_eq_true _ _).1 hlead
  refine .inl ⟨?_, hname, fun s hs => ?_⟩
  · rw [WrittenAttribute.isApart, apartBehind, hc]
    exact hblank
  · rw [hnone] at hs
    cases hs

theorem mem_trimLast_of_assignment_eq_none {as : List WrittenAttribute} {trail : List Char}
    (ha : a ∈ as) (hnone : a.assignment = none) : a ∈ trimLast trail as := by
  induction as with
  | nil => cases ha
  | cons b as ih =>
    cases as with
    | nil =>
      obtain rfl := List.mem_singleton.1 ha
      have htrimmed : a.trimmed = a := by
        rw [WrittenAttribute.trimmed, hnone, Option.map_none, ← hnone]
      rw [trimLast, htrimmed, ite_self]
      exact List.mem_singleton.2 rfl
    | cons c as =>
      rcases List.mem_cons.1 ha with rfl | ha
      · exact List.mem_cons_self ..
      · exact List.mem_cons_of_mem _ (ih ha)

/-- **A tag that sets its attributes apart** shows a word exactly if it has an attribute of this
name without a value. -/
theorem showsWord_iff_of_setsApart {t : OpenTag} (h : t.setsApart word = true) :
    t.ShowsWord word ↔ ∃ a ∈ t.attributes, a.name = word ∧ a.assignment = none := by
  have hall := List.all_eq_true.1 h
  constructor
  · intro hshows
    obtain ⟨front, a, behind, hsplit, ha⟩ := hshows
    have hmem : a ∈ trimLast t.trail t.attributes := by simp [hsplit]
    have hapart := forall_mem_trimLast hall (fun a ha => setsApart_trimmed ha) a hmem
    obtain ⟨hname, hnone⟩ := assignment_eq_none_of_shows hapart ha
    obtain ⟨b, hb, rfl | rfl⟩ := exists_of_mem_trimLast hmem
    · exact ⟨a, hb, hname, hnone⟩
    · exact ⟨b, hb, hname, Option.map_eq_none_iff.1 hnone⟩
  · intro hexists
    obtain ⟨a, ha, hname, hnone⟩ := hexists
    have hmem : a ∈ trimLast t.trail t.attributes := mem_trimLast_of_assignment_eq_none ha hnone
    obtain ⟨front, behind, hsplit⟩ := List.append_of_mem hmem
    exact ⟨front, a, behind, hsplit, shows_of_setsApart (hall a ha) hname hnone front⟩

end

end Islands.Markup
