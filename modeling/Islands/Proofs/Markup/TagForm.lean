import Islands.Proofs.Markup.AttributeForm

/-!
# The form of an opening tag

A tag is read back from its written form exactly if its characters are in place
(`OpenTag.Sound`), its name and each attribute end in front of what stands behind them
(`OpenTag.joins`), and it closes itself just if it is said to (`OpenTag.endsAsSaid`). The last two
can be computed; none of them depends on the text after the tag.

* `readTagBody_eq_ok_iff`: the conditions for all that stands behind the name.
* `readOpenTag_eq_ok_iff`: the conditions for a tag.
-/

namespace Islands.Markup

/-! ## Attributes side by side -/

/-- The characters of some attributes. -/
def writtenAttributes (as : List WrittenAttribute) : List Char :=
  as.flatMap WrittenAttribute.written

@[simp] theorem writtenAttributes_nil : writtenAttributes [] = [] := rfl

@[simp] theorem writtenAttributes_cons (a : WrittenAttribute) (as : List WrittenAttribute) :
    writtenAttributes (a :: as) = a.lead ++ (a.core ++ writtenAttributes as) := by
  simp [writtenAttributes, WrittenAttribute.written]

/-- Whether each attribute ends in front of what stands behind it; `tail` stands behind the last
one. -/
def attributesJoin : List WrittenAttribute → List Char → Bool
  | [], _ => true
  | a :: as, tail => a.ends (writtenAttributes as ++ tail) && attributesJoin as tail

/-- What stands in a tag behind its last attribute. -/
def tagTail (trail : List Char) (selfClosing : Bool) : List Char := trail ++ tagEnd selfClosing

/-- Whether a tag with these characters in front of its end closes itself just if it is said to: a
slash in front of the `>` would belong to the end. -/
def endsAsSaid (trail : List Char) (selfClosing : Bool) : Bool :=
  selfClosing || trail.getLast? != some '/'

theorem mem_tagTail (trail : List Char) (selfClosing : Bool) : '>' ∈ tagTail trail selfClosing := by
  cases selfClosing <;> simp [tagTail, tagEnd]

theorem runEnds_append {p : Char → Bool} {run after : List Char} (rest : List Char)
    (h : '>' ∈ after) : runEnds p run (after ++ rest) = runEnds p run after := by
  cases after with
  | nil => cases h
  | cons c after =>
    cases after with
    | cons d after =>
      refine Bool.eq_iff_iff.2 (runEnds_iff.trans (Iff.trans ?_ runEnds_iff.symm))
      simp
    | nil =>
      obtain rfl : '>' = c := by simpa using h
      rfl

/-- Whether an attribute ends does not depend on what stands behind a `>`. -/
theorem WrittenAttribute.ends_append {a : WrittenAttribute} {after : List Char} (rest : List Char)
    (h : '>' ∈ after) : a.ends (after ++ rest) = a.ends after := by
  obtain ⟨lead, name, assignment⟩ := a
  cases assignment with
  | none =>
    have hdrop : ((after ++ rest).dropWhile isBlank).head? = (after.dropWhile isBlank).head? := by
      rw [List.dropWhile_append]
      split
      · rename_i hempty
        have hall := takeWhile_dropWhile_eq_iff.1 ⟨rfl, List.isEmpty_iff.1 hempty⟩
        rw [List.append_nil] at hall
        have := hall.2.1 '>' (by rw [← hall.1]; exact h)
        cases this
      · rename_i hempty
        cases hd : after.dropWhile isBlank with
        | nil => simp [hd] at hempty
        | cons c tail => rfl
    simp only [ends, runEnds_append rest h, hdrop]
  | some s =>
    obtain ⟨before, gap, value⟩ := s
    cases value with
    | quoted mark body => rfl
    | bare body =>
      cases after with
      | nil => cases h
      | cons c after => rfl

theorem exists_core_eq_cons {a : WrittenAttribute} (h : a.Sound) :
    ∃ c tail, a.core = c :: tail ∧ isGapChar c = false ∧ c ≠ '>' := by
  obtain ⟨c, tail, e, hc, hgt, -⟩ := h.name
  exact ⟨c, tail ++ (a.assignment.map Assignment.written).getD [], by
    rw [WrittenAttribute.core, e]; rfl, hc, hgt⟩

theorem isGapChar_gt : isGapChar '>' = false := rfl

/-! ## The inside of a tag -/

theorem readGap_eq_iff {cs gap rest : List Char} :
    readGap cs = (gap, rest) ↔
      cs = gap ++ rest ∧ (∀ c ∈ gap, isGapChar c = true) ∧ runEnds isGapChar gap rest = true := by
  rw [readGap_eq_readRun, readRun_eq_iff isGapChar_gt]

theorem readTagBody_of_end {cs trail rest : List Char} {selfClosing : Bool}
    (h : readGap cs = (trail, tagEnd selfClosing ++ rest)) :
    readTagBody cs = .ok (⟨[], trail, selfClosing⟩, rest) := by
  cases selfClosing <;>
  · unfold readTagBody
    simp only [tagEnd, Bool.false_eq_true, if_false, if_true, List.cons_append,
      List.nil_append] at h
    split <;> simp_all

theorem readTagBody_of_attribute {cs lead tail rest rest' : List Char} {c : Char}
    {a : WrittenAttribute} {b : TagBody} (h : readGap cs = (lead, c :: tail))
    (hc : isGapChar c = false) (hgt : c ≠ '>') (ha : readAttribute lead c tail = .ok (a, rest))
    (hb : readTagBody rest = .ok (b, rest')) :
    readTagBody cs = .ok (⟨a :: b.attributes, b.trail, b.selfClosing⟩, rest') := by
  unfold readTagBody
  split
  · rename_i e
    cases (Prod.mk.inj (h.symm.trans e)).2
  · rename_i e
    exact absurd (List.cons.inj (Prod.mk.inj (h.symm.trans e)).2).1 hgt
  · rename_i e
    obtain ⟨rfl, -⟩ := List.cons.inj (Prod.mk.inj (h.symm.trans e)).2
    cases hc
  · rename_i gap c' tail' _ _ e
    obtain ⟨rfl, e'⟩ := Prod.mk.inj (h.symm.trans e)
    obtain ⟨rfl, rfl⟩ := List.cons.inj e'
    split
    · simp_all
    · rename_i e'
      rw [ha] at e'
      obtain ⟨rfl, rfl⟩ := Prod.mk.inj (Except.ok.inj e')
      rw [hb]

/-- **The inside of a tag** is read exactly if its pieces are sound and join. -/
theorem readTagBody_eq_ok_iff {cs rest : List Char} {b : TagBody} :
    readTagBody cs = .ok (b, rest) ↔
      cs = writtenAttributes b.attributes ++ (tagTail b.trail b.selfClosing ++ rest) ∧
        (∀ a ∈ b.attributes, a.Sound) ∧ (∀ c ∈ b.trail, isGapChar c = true) ∧
        attributesJoin b.attributes (tagTail b.trail b.selfClosing) = true ∧
        endsAsSaid b.trail b.selfClosing = true := by
  constructor
  · intro h
    fun_induction readTagBody cs generalizing b rest with
    | case1 => cases h
    | case2 cs gap tail e =>
      obtain ⟨rfl, rfl⟩ := Prod.mk.inj (Except.ok.inj h)
      obtain ⟨rfl, hgap, hends⟩ := readGap_eq_iff.1 e
      refine ⟨by simp [tagTail, tagEnd], by simp, hgap, rfl, ?_⟩
      simpa [runEnds, endsAsSaid, isGapChar_gt] using hends
    | case3 cs gap tail e =>
      obtain ⟨rfl, rfl⟩ := Prod.mk.inj (Except.ok.inj h)
      obtain ⟨rfl, hgap, -⟩ := readGap_eq_iff.1 e
      exact ⟨by simp [tagTail, tagEnd], by simp, hgap, rfl, rfl⟩
    | case4 => cases h
    | case5 => cases h
    | case6 cs gap c tail hgt hslash e a rest₁ ha b' rest₂ hb ih =>
      obtain ⟨rfl, rfl⟩ := Prod.mk.inj (Except.ok.inj h)
      obtain ⟨hcs, hgap, hends⟩ := readGap_eq_iff.1 e
      have hgt : c ≠ '>' := hgt
      have hc : isGapChar c = false := by
        rcases runEnds_iff.1 hends with h' | ⟨r, h'⟩ | ⟨d, r, h', hd, -⟩
        · cases h'
        · obtain ⟨rfl, rfl⟩ := List.cons.inj h'
          exact (hslash _ rfl rfl).elim
        · obtain ⟨rfl, -⟩ := List.cons.inj h'
          exact hd
      obtain ⟨rfl, hcore, hsound, hjoin⟩ := (readAttribute_eq_ok_iff hgap hc hgt).1 ha
      obtain ⟨hrest, hattrs, htrail, hjoins, hend⟩ := ih hb
      refine ⟨by rw [hcs, hcore, hrest]; simp, ?_, htrail, ?_, hend⟩
      · intro a' ha'
        rcases List.mem_cons.1 ha' with rfl | ha'
        · exact hsound
        · exact hattrs a' ha'
      · rw [hrest, ← List.append_assoc, a.ends_append _
          (List.mem_append_right _ (mem_tagTail _ _))] at hjoin
        simp [attributesJoin, hjoin, hjoins]
  · obtain ⟨as, trail, selfClosing⟩ := b
    intro h
    obtain ⟨rfl, hattrs, htrail, hjoins, hend⟩ := h
    simp only at hattrs htrail hjoins hend ⊢
    induction as with
    | nil =>
      refine readTagBody_of_end (readGap_eq_iff.2 ⟨by simp [tagTail], htrail, ?_⟩)
      cases selfClosing with
      | true => rfl
      | false => simpa [tagEnd, runEnds, endsAsSaid, isGapChar_gt] using hend
    | cons a as ih =>
      obtain ⟨c, core, hcore, hc, hgt⟩ := exists_core_eq_cons (hattrs a (List.mem_cons_self ..))
      simp only [attributesJoin, Bool.and_eq_true] at hjoins
      have hsound := hattrs a (List.mem_cons_self ..)
      have hgap : readGap (writtenAttributes (a :: as) ++ (tagTail trail selfClosing ++ rest)) =
          (a.lead, c :: (core ++
            (writtenAttributes as ++ (tagTail trail selfClosing ++ rest)))) := by
        refine readGap_eq_iff.2 ⟨by simp [hcore], hsound.lead, runEnds_iff.2 (.inr (.inr ?_))⟩
        exact ⟨c, _, rfl, hc, fun h => absurd h hgt⟩
      refine readTagBody_of_attribute hgap hc hgt
        ((readAttribute_eq_ok_iff hsound.lead hc hgt).2
          ⟨rfl, by rw [hcore]; rfl, hsound, ?_⟩)
        (ih (fun a' ha' => hattrs a' (List.mem_cons_of_mem _ ha')) hjoins.2)
      rw [← List.append_assoc,
        a.ends_append _ (List.mem_append_right _ (mem_tagTail _ _))]
      exact hjoins.1

/-! ## Whole tags -/

namespace OpenTag

/-- What stands in a tag behind its name. -/
def inside (t : OpenTag) : List Char :=
  writtenAttributes t.attributes ++ tagTail t.trail t.selfClosing

theorem written_eq (t : OpenTag) : t.written = '<' :: (t.name ++ t.inside) := by
  simp [written, inside, writtenAttributes, tagTail]

/-- The characters of a tag are in place. -/
structure Sound (t : OpenTag) : Prop where
  name : ∀ c ∈ t.name, isNameChar c = true
  attributes : ∀ a ∈ t.attributes, a.Sound
  trail : ∀ c ∈ t.trail, isGapChar c = true

/-- Whether the name and each attribute of a tag end in front of what stands behind them. -/
def joins (t : OpenTag) : Bool :=
  (t.inside.head?.any fun c => !isNameChar c) &&
    attributesJoin t.attributes (tagTail t.trail t.selfClosing)

/-- Whether the end of a tag is as it is said to be. -/
def endsAsSaid (t : OpenTag) : Bool := Markup.endsAsSaid t.trail t.selfClosing

end OpenTag

/-- **Opening tags**: one is read from its written form exactly if its characters are in place and
its pieces join. -/
theorem readOpenTag_eq_ok_iff {cs rest : List Char} {t : OpenTag} :
    readOpenTag cs = .ok (t, rest) ↔
      '<' :: cs = t.written ++ rest ∧ t.Sound ∧ t.joins = true ∧ t.endsAsSaid = true := by
  constructor
  · intro h
    unfold readOpenTag at h
    simp only at h
    split at h
    · rename_i b rest' e
      obtain ⟨rfl, rfl⟩ := Prod.mk.inj (Except.ok.inj h)
      obtain ⟨hname, hchars, hhead⟩ :=
        takeWhile_dropWhile_eq_iff.1 ⟨(rfl : cs.takeWhile isNameChar = _), rfl⟩
      obtain ⟨hbody, hattrs, htrail, hjoins, hend⟩ := readTagBody_eq_ok_iff.1 e
      refine ⟨?_, ⟨hchars, hattrs, htrail⟩, ?_, hend⟩
      · conv => lhs; rw [hname, hbody]
        simp [OpenTag.written_eq, OpenTag.inside]
      · have hne : (writtenAttributes b.attributes ++ tagTail b.trail b.selfClosing) ≠ [] :=
          List.ne_nil_of_mem (List.mem_append_right _ (mem_tagTail _ _))
        obtain ⟨c, tail, hc⟩ := List.exists_cons_of_ne_nil hne
        rw [hbody, ← List.append_assoc, hc] at hhead
        simp only [OpenTag.joins, OpenTag.inside, hc, List.head?_cons, Option.any_some,
          hhead c rfl, Bool.not_false, hjoins, Bool.and_self]
    · cases h
    · cases h
  · intro h
    obtain ⟨h, hsound, hjoins, hend⟩ := h
    rw [OpenTag.written_eq, List.cons_append, List.append_assoc] at h
    obtain ⟨-, rfl⟩ := List.cons.inj h
    simp only [OpenTag.joins, Bool.and_eq_true, Option.any_eq_true] at hjoins
    obtain ⟨⟨c, hc, hcname⟩, hjoins⟩ := hjoins
    obtain ⟨tail, htail⟩ := List.head?_eq_some_iff.1 hc
    have hsplit := (takeWhile_dropWhile_eq_iff (p := isNameChar)).2
      ⟨(rfl : t.name ++ (t.inside ++ rest) = _), hsound.name, fun d hd => by
        rw [htail] at hd
        obtain rfl : c = d := by simpa using hd
        simpa using hcname⟩
    have hbody : readTagBody (t.inside ++ rest) =
        .ok (⟨t.attributes, t.trail, t.selfClosing⟩, rest) :=
      readTagBody_eq_ok_iff.2
        ⟨by simp [OpenTag.inside], hsound.attributes, hsound.trail, hjoins, hend⟩
    unfold readOpenTag
    simp only [hsplit.1, hsplit.2, hbody]

end Islands.Markup
