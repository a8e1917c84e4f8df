import Islands.Proofs.Markup.Alignment

/-!
# Tags that are written in the usual way

A tag with blanks in front of each attribute and with its values between quotation marks
(`OpenTag.spaced`) keeps its form whatever attributes it loses (`OpenTag.keeps_of_spaced`): each
attribute goes with the blanks in front of it, and those of the next one stay.
-/

namespace Islands.Markup

variable {p : String → Bool}

/-- Whether an attribute is written in the usual way: blanks in front of it, and its value between
quotation marks. A name without a value does not end in a slash. -/
def WrittenAttribute.spaced (a : WrittenAttribute) : Bool :=
  !a.lead.isEmpty && a.lead.all isBlank && a.name.head? != some '=' &&
    match a.assignment with
    | none => a.name.getLast? != some '/'
    | some s => s.value matches .quoted _ _

/-- Whether a tag has its attributes written in the usual way. -/
def OpenTag.spaced (t : OpenTag) : Bool :=
  t.attributes.all WrittenAttribute.spaced && t.trail.all isBlank

theorem stem_of_blank {cs : List Char} (h : cs.all isBlank = true) : stem cs = [] := by
  have hrev : ∀ c ∈ cs.reverse, isBlank c = true := fun c hc =>
    List.all_eq_true.1 h c (List.mem_reverse.1 hc)
  have hdrop : (cs.reverse ++ []).dropWhile isBlank = [] := List.dropWhile_append_of_pos hrev
  rw [List.append_nil] at hdrop
  rw [stem, hdrop]
  rfl

theorem keptAttributes_of_spaced {as : List WrittenAttribute}
    (h : ∀ a ∈ as, a.lead.all isBlank = true) :
    keptAttributes p [] as = as.filter (fun a => !a.named p) ∧ carriedOn p [] as = [] := by
  induction as with
  | nil => exact ⟨rfl, rfl⟩
  | cons a as ih =>
    have ih := ih fun b hb => h b (List.mem_cons_of_mem _ hb)
    rw [keptAttributes, carriedOn]
    by_cases hp : a.named p = true
    · rw [if_pos hp, if_pos hp, stem_of_blank (h a (List.mem_cons_self ..)),
        List.filter_cons_of_neg (by simp [hp])]
      exact ih
    · rw [if_neg hp, if_neg hp, List.filter_cons_of_pos (by simpa using hp), ih.1]
      exact ⟨rfl, ih.2⟩

/-- What stands behind an attribute in a tag that is written in the usual way: a blank or the end of
the tag, and no `=` behind blanks. -/
theorem follows_of_spaced {as : List WrittenAttribute} {trail : List Char}
    (hs : ∀ a ∈ as, a.Sound) (has : ∀ a ∈ as, a.spaced = true) (htrail : trail.all isBlank = true)
    (selfClosing : Bool) :
    (∃ c rest, writtenAttributes as ++ tagTail trail selfClosing = c :: rest ∧
      (isBlank c = true ∨ c = '>' ∨ c = '/' ∧ rest = ['>'])) ∧
    ((writtenAttributes as ++ tagTail trail selfClosing).dropWhile isBlank).head? ≠ some '=' := by
  cases as with
  | nil =>
    have htrail := List.all_eq_true.1 htrail
    rw [writtenAttributes_nil, List.nil_append, tagTail]
    refine ⟨?_, ?_⟩
    · cases trail with
      | nil =>
        cases selfClosing with
        | false => exact ⟨'>', [], rfl, .inr (.inl rfl)⟩
        | true => exact ⟨'/', ['>'], rfl, .inr (.inr ⟨rfl, rfl⟩)⟩
      | cons c trail => exact ⟨c, _, rfl, .inl (htrail c (List.mem_cons_self ..))⟩
    · rw [List.dropWhile_append_of_pos htrail]
      cases selfClosing <;> decide
  | cons a as =>
    have ha := has a (List.mem_cons_self ..)
    simp only [WrittenAttribute.spaced, Bool.and_eq_true, Bool.not_eq_true', bne_iff_ne] at ha
    obtain ⟨⟨⟨hne, hlead⟩, hname⟩, -⟩ := ha
    have hlead := List.all_eq_true.1 hlead
    rw [writtenAttributes_cons_append]
    refine ⟨?_, ?_⟩
    · cases h : a.lead with
      | nil => simp [h] at hne
      | cons c lead => exact ⟨c, _, rfl, .inl (hlead c (by rw [h]; exact List.mem_cons_self ..))⟩
    · intro heq
      exact hname (head?_name_of_equals (hs a (List.mem_cons_self ..)) heq)

theorem ends_of_spaced {a : WrittenAttribute} (ha : a.spaced = true) {c : Char} {rest : List Char}
    (hc : isBlank c = true ∨ c = '>' ∨ c = '/' ∧ rest = ['>'])
    (heq : ((c :: rest).dropWhile isBlank).head? ≠ some '=') : a.ends (c :: rest) = true := by
  simp only [WrittenAttribute.spaced, Bool.and_eq_true] at ha
  have hvalue := ha.2
  rw [WrittenAttribute.ends]
  cases hs : a.assignment with
  | none =>
    rw [hs] at hvalue
    simp only [bne_iff_ne] at hvalue
    simp only [Bool.and_eq_true, bne_iff_ne]
    refine ⟨runEnds_iff.2 (.inr ?_), heq⟩
    rcases hc with hc | rfl | ⟨rfl, rfl⟩
    · refine .inr ⟨c, rest, rfl, by simp [isTailChar, hc], ?_⟩
      rintro rfl
      cases hc
    · refine .inr ⟨'>', rest, rfl, rfl, fun _ hlast => hvalue ?_⟩
      cases hname : a.name with
      | nil => simp [hname] at hlast
      | cons d tail =>
        rw [hname, List.tail_cons] at hlast
        rw [List.getLast?_cons, hlast]
        rfl
    · exact .inl ⟨[], rfl⟩
  | some s =>
    rw [hs] at hvalue
    cases hv : s.value with
    | quoted mark body =>
      simp only [hv]
      rfl
    | bare body => simp [hv] at hvalue

theorem attributesJoin_of_spaced {as : List WrittenAttribute} {trail : List Char}
    (hs : ∀ a ∈ as, a.Sound) (has : ∀ a ∈ as, a.spaced = true) (htrail : trail.all isBlank = true)
    (selfClosing : Bool) : attributesJoin as (tagTail trail selfClosing) = true := by
  induction as with
  | nil => rfl
  | cons a as ih =>
    have hs' : ∀ b ∈ as, b.Sound := fun b hb => hs b (List.mem_cons_of_mem _ hb)
    have has' : ∀ b ∈ as, b.spaced = true := fun b hb => has b (List.mem_cons_of_mem _ hb)
    obtain ⟨⟨c, rest, hrest, hc⟩, heq⟩ := follows_of_spaced hs' has' htrail selfClosing
    rw [hrest] at heq
    rw [attributesJoin, ih hs' has', hrest, ends_of_spaced (has a (List.mem_cons_self ..)) hc heq]
    rfl

theorem OpenTag.joins_of_spaced {t : OpenTag} (ht : t.Sound) (h : t.spaced = true) :
    t.joins = true := by
  simp only [spaced, Bool.and_eq_true, List.all_eq_true (p := WrittenAttribute.spaced)] at h
  obtain ⟨⟨c, rest, hrest, hc⟩, -⟩ := follows_of_spaced ht.attributes h.1 h.2 t.selfClosing
  have hname : isNameChar c = false := by
    rcases hc with hc | rfl | ⟨rfl, -⟩
    · simp [isNameChar, hc]
    · rfl
    · rfl
  rw [joins, inside, attributesJoin_of_spaced ht.attributes h.1 h.2 t.selfClosing, hrest]
  simp [hname]

theorem OpenTag.without_of_spaced {t : OpenTag} (h : t.spaced = true) :
    t.without p = { t with attributes := t.attributes.filter fun a => !a.named p } := by
  simp only [spaced, Bool.and_eq_true, List.all_eq_true (p := WrittenAttribute.spaced)] at h
  have hblank : ∀ a ∈ t.attributes, a.lead.all isBlank = true := by
    intro a ha
    have := h.1 a ha
    simp only [WrittenAttribute.spaced, Bool.and_eq_true] at this
    exact this.1.1.2
  obtain ⟨hkept, hcarried⟩ := keptAttributes_of_spaced (p := p) hblank
  rw [without, hkept, hcarried, List.nil_append]

theorem OpenTag.spaced_without {t : OpenTag} (h : t.spaced = true) :
    (t.without p).spaced = true := by
  rw [without_of_spaced h]
  simp only [spaced, Bool.and_eq_true, List.all_eq_true (p := WrittenAttribute.spaced)] at h ⊢
  exact ⟨fun a ha => h.1 a (List.mem_filter.1 ha).1, h.2⟩

/-- **Tags that are written in the usual way** keep their form whatever attributes they lose. -/
theorem OpenTag.keeps_of_spaced {t : OpenTag} (ht : t.Sound) (hends : t.endsAsSaid = true)
    (h : t.spaced = true) (closed : Bool) : t.keeps p closed = true := by
  have hends : (t.without p).endsAsSaid = true := by
    rw [without_of_spaced h]
    exact hends
  rw [keeps, joins_of_spaced (sound_without ht) (spaced_without h), hends]
  simp

end Islands.Markup
