import Islands.Proofs.Markup.ContentForm
import Islands.Proofs.Markup.Parts

/-!
# The form of a token

What a token is read from does not depend on the text after it, unless the token is text: text is
read up to the next markup. So a text without fault is a list of tokens each of which is sound
(`Token.Sound`), with no text next to another; a last text may leave an interpolation open
(`Readable`).

* `readToken_of_sound`, `sound_of_readToken`: reading a token.
* `tokenize_eq_iff`: the tokens of a text that is read without a fault.
* `parse_eq_ok_iff`: the nodes of a template are those of the parts it is written with.
-/

namespace Islands.Markup

/-! ## Tokens -/

/-- An opening tag is read from its written form, whatever follows it. -/
structure OpenTag.Formed (t : OpenTag) : Prop where
  letter : startsLetter t.name = true
  sound : t.Sound
  joins : t.joins = true
  endsAsSaid : t.endsAsSaid = true

/-- A closing tag is read from its written form, whatever follows it. -/
structure CloseTag.Formed (t : CloseTag) : Prop where
  letter : startsLetter t.name = true
  sound : t.Sound

/-- Whether a token is text. -/
def Token.isText : Token → Bool
  | .text _ => true
  | _ => false

/-- A token is read from its written form: a text wherever a text ends, and any other token
whatever follows it. -/
def Token.Sound : Token → Prop
  | .text body => body ≠ [] ∧ ClosedFrom false body
  | .comment body => ∀ rest, readToken (body ++ rest) = .ok (.comment body, rest)
  | .openTag tag => tag.Formed ∧ (tag.selfClosing = true ∨ isRawName tag.name = false)
  | .closeTag tag => tag.Formed
  | .raw tag body close =>
    tag.Formed ∧ tag.selfClosing = false ∧ isRawName tag.name = true ∧ close.Sound ∧
      sameLetters close.name tag.name = true ∧ NoCloseTagIn tag.name body

/-- A letter at the start of a name is a letter at the start of what the name stands in front of. -/
theorem startsLetter_name_append {name : List Char} (h : startsLetter name = true)
    (rest : List Char) : startsLetter (name ++ rest) = true := by
  cases name with
  | nil => cases h
  | cons c name => exact h

theorem isNameChar_of_isAlpha {c : Char} (h : c.isAlpha = true) : isNameChar c = true := by
  have hne : ∀ d : Char, d.isAlpha = false → (c == d) = false := by
    intro d hd
    rw [beq_eq_false_iff_ne]
    rintro rfl
    rw [h] at hd
    cases hd
  simp [isNameChar, isBlank, hne]

theorem startsLetter_of_append {name rest : List Char} (h : startsLetter (name ++ rest) = true)
    (hrest : ∀ c, rest.head? = some c → isNameChar c = false) : startsLetter name = true := by
  cases name with
  | cons c name => exact h
  | nil =>
    cases rest with
    | nil => cases h
    | cons c rest =>
      have hc := isNameChar_of_isAlpha (c := c) h
      rw [hrest c rfl] at hc
      cases hc

theorem Start.of_openTag {cs : List Char} (h : startsLetter cs = true) :
    Start.of ('<' :: cs) = .openTag cs := by
  show Start.afterAngle cs = .openTag cs
  unfold Start.afterAngle
  split
  · cases h
  · cases h
  · cases h
  · cases h
  · rw [if_pos h]

theorem Start.of_closeTag {cs : List Char} (h : startsLetter cs = true) :
    Start.of ('<' :: '/' :: cs) = .closeTag cs := by
  show (if startsLetter cs then _ else _) = _
  rw [if_pos h]

theorem readToken_of_text {cs : List Char} (h : Start.of cs = .text) :
    readToken cs = .ok (.text (readText false cs).1, (readText false cs).2) := by
  unfold readToken
  rw [h]

/-- **Reading a token** from its written form. -/
theorem readToken_of_sound {t : Token} (h : t.Sound) {rest : List Char}
    (hrest : t.isText = true → EndsText rest) : readToken (t.written ++ rest) = .ok (t, rest) := by
  cases t with
  | text body =>
    have hread := h.2 rest (hrest rfl)
    have hstart : Start.of (body ++ rest) = .text := by
      refine Classical.byContradiction fun hne => h.1 ?_
      -- no text is read in front of markup
      have := closedFrom_nil (body ++ rest) (.inr hne)
      rw [List.nil_append, hread] at this
      exact (Prod.mk.inj this).1
    show readToken (body ++ rest) = _
    rw [readToken_of_text hstart, hread]
  | comment body => exact h rest
  | openTag tag =>
    obtain ⟨hf, hraw⟩ := h
    have hletter := startsLetter_name_append hf.letter (tag.inside ++ rest)
    have hopen : readOpenTag (tag.name ++ (tag.inside ++ rest)) = .ok (tag, rest) :=
      readOpenTag_eq_ok_iff.2
        ⟨by simp [OpenTag.written_eq], hf.sound, hf.joins, hf.endsAsSaid⟩
    have hcontent : readContent tag rest = .ok (.openTag tag, rest) :=
      readContent_eq_ok_iff.2 (.inl ⟨rfl, rfl, hraw⟩)
    have hwritten : (Token.openTag tag).written ++ rest =
        '<' :: (tag.name ++ (tag.inside ++ rest)) := by simp [Token.written, OpenTag.written_eq]
    rw [hwritten, readToken, Start.of_openTag hletter]
    show (readOpenTag _).bind _ = _
    rw [hopen]
    exact hcontent
  | closeTag tag =>
    have hletter := startsLetter_name_append h.letter (tag.gap ++ '>' :: rest)
    have hclose : readCloseTag (tag.name ++ (tag.gap ++ '>' :: rest)) = .ok (tag, rest) :=
      readCloseTag_eq_ok_iff.2 ⟨by simp [CloseTag.written], h.sound⟩
    have hwritten : (Token.closeTag tag).written ++ rest =
        '<' :: '/' :: (tag.name ++ (tag.gap ++ '>' :: rest)) := by
      simp [Token.written, CloseTag.written]
    rw [hwritten, readToken, Start.of_closeTag hletter]
    show (readCloseTag _).map _ = _
    rw [hclose]
    rfl
  | raw tag body close =>
    obtain ⟨hf, hself, hraw, hsound, hname, hno⟩ := h
    let inner := body ++ (close.written ++ rest)
    have hletter := startsLetter_name_append hf.letter (tag.inside ++ inner)
    have hopen : readOpenTag (tag.name ++ (tag.inside ++ inner)) = .ok (tag, inner) :=
      readOpenTag_eq_ok_iff.2
        ⟨by simp [OpenTag.written_eq], hf.sound, hf.joins, hf.endsAsSaid⟩
    have hcontent : readContent tag inner = .ok (.raw tag body close, rest) :=
      readContent_eq_ok_iff.2 (.inr ⟨body, close, rfl, rfl, hself, hraw, hsound, hname, hno⟩)
    have hwritten : (Token.raw tag body close).written ++ rest =
        '<' :: (tag.name ++ (tag.inside ++ inner)) := by
      simp [Token.written, OpenTag.written_eq, inner]
    rw [hwritten, readToken, Start.of_openTag hletter]
    show (readOpenTag _).bind _ = _
    rw [hopen]
    exact hcontent

theorem Start.eq_of_openTag {cs rest : List Char} (h : Start.of cs = .openTag rest) :
    cs = '<' :: rest ∧ startsLetter rest = true := by
  have hshown := Start.eq_shown_append_rest cs
  rw [h] at hshown
  refine ⟨hshown, ?_⟩
  rw [hshown] at h
  change Start.afterAngle rest = .openTag rest at h
  unfold Start.afterAngle at h
  split at h
  · cases h
  · cases h
  · cases h
  · split at h <;> cases h
  · split at h
    · assumption
    · cases h

theorem Start.eq_of_closeTag {cs rest : List Char} (h : Start.of cs = .closeTag rest) :
    cs = '<' :: '/' :: rest ∧ startsLetter rest = true := by
  have hshown := Start.eq_shown_append_rest cs
  rw [h] at hshown
  refine ⟨hshown, ?_⟩
  rw [hshown] at h
  change (if startsLetter rest then Start.closeTag rest else _) = _ at h
  split at h
  · assumption
  · cases h

/-- What begins as a declaration does so whatever stands behind its end. -/
theorem Start.of_declaration_append {cs body rest : List Char} {mark : Char}
    (h : Start.of cs = .declaration mark (body ++ '>' :: rest)) (rest' : List Char) :
    Start.of ('<' :: mark :: (body ++ '>' :: rest')) =
      .declaration mark (body ++ '>' :: rest') := by
  have hshown := Start.eq_shown_append_rest cs
  rw [h] at hshown
  rw [hshown] at h
  change Start.afterAngle (mark :: (body ++ '>' :: rest)) = _ at h
  show Start.afterAngle (mark :: (body ++ '>' :: rest')) = _
  unfold Start.afterAngle at h
  split at h
  · cases h
  · rename_i tail hno e
    obtain ⟨rfl, -⟩ := List.cons.inj e
    -- two hyphens in front of the end are there whatever stands behind it
    match body with
    | [] => rfl
    | [c] =>
      unfold Start.afterAngle
      split
      · rename_i e'
        simp at e'
      · simp_all
      · simp_all
      · simp_all
      · simp_all
    | c :: d :: body =>
      unfold Start.afterAngle
      split
      · rename_i e'
        simp only [List.cons_append, List.cons.injEq, true_and] at e'
        obtain ⟨rfl, rfl, rfl⟩ := e'
        exact (hno (body ++ '>' :: rest) (List.cons.inj e).2.symm).elim
      · simp_all
      · simp_all
      · simp_all
      · simp_all
  · rename_i e
    obtain ⟨rfl, -⟩ := List.cons.inj e
    rfl
  · split at h <;> cases h
  · split at h <;> cases h

/-- **Tokens that were read** are sound; of a text this is said only if something follows it. -/
theorem sound_of_readToken {cs rest : List Char} {t : Token} (hcs : cs ≠ [])
    (h : readToken cs = .ok (t, rest)) (hrest : t.isText = true → rest ≠ []) : t.Sound := by
  unfold readToken at h
  split at h
  · rename_i tail e
    obtain ⟨body, rfl, hread⟩ := readComment_append h
    exact fun rest' => hread rest'
  · rename_i mark tail e
    obtain ⟨body, rfl, rfl, hread⟩ := readDeclaration_append h
    intro rest'
    have hstart := Start.of_declaration_append e rest'
    have hwritten : '<' :: mark :: (body ++ ['>']) ++ rest' =
        '<' :: mark :: (body ++ '>' :: rest') := by simp
    rw [hwritten, readToken, hstart]
    exact hread rest'
  · rename_i tail e
    obtain ⟨-, hletter⟩ := Start.eq_of_closeTag e
    cases hclose : readCloseTag tail with
    | error _ => rw [hclose] at h; cases h
    | ok p =>
      obtain ⟨close, rest'⟩ := p
      rw [hclose] at h
      obtain ⟨rfl, rfl⟩ := Prod.mk.inj (Except.ok.inj h)
      obtain ⟨hwritten, hs⟩ := readCloseTag_eq_ok_iff.1 hclose
      have htail : tail = close.name ++ (close.gap ++ '>' :: rest') := by
        simpa [CloseTag.written] using hwritten
      rw [htail] at hletter
      exact ⟨startsLetter_of_append hletter (CloseTag.head?_gap hs rest'), hs⟩
  · rename_i tail e
    obtain ⟨-, hletter⟩ := Start.eq_of_openTag e
    cases hopen : readOpenTag tail with
    | error _ => rw [hopen] at h; cases h
    | ok p =>
      obtain ⟨tag, rest'⟩ := p
      rw [hopen] at h
      have hcontent : readContent tag rest' = .ok (t, rest) := h
      obtain ⟨hwritten, hs, hjoins, hends⟩ := readOpenTag_eq_ok_iff.1 hopen
      have hf : tag.Formed := by
        refine ⟨?_, hs, hjoins, hends⟩
        have htail : tail = tag.name ++ (tag.inside ++ rest') := by
          simpa [OpenTag.written_eq] using hwritten
        rw [htail] at hletter
        apply startsLetter_of_append hletter
        intro c hc
        have hjoins : (tag.inside.head?.any fun c => !isNameChar c) = true :=
          (Bool.and_eq_true _ _ ▸ hjoins).1
        cases hin : tag.inside with
        | nil => rw [hin] at hjoins; cases hjoins
        | cons d inside =>
          rw [hin] at hc hjoins
          obtain rfl : d = c := by simpa using hc
          simpa using hjoins
      rcases readContent_eq_ok_iff.1 hcontent with ⟨rfl, -, hraw⟩ | ⟨body, close, rfl, -, hraw⟩
      · exact ⟨hf, hraw⟩
      · exact ⟨hf, hraw⟩
  · rename_i e
    obtain ⟨rfl, rfl⟩ := Prod.mk.inj (Except.ok.inj h)
    exact ⟨readText_ne_nil e hcs, (closed_of_readText rfl (hrest rfl)).2⟩

theorem isText_of_readToken {cs rest : List Char} {t : Token}
    (h : readToken cs = .ok (t, rest)) : t.isText = true ↔ Start.of cs = .text := by
  by_cases hs : Start.of cs = .text
  · rw [readToken_of_text hs] at h
    obtain ⟨rfl, -⟩ := Prod.mk.inj (Except.ok.inj h)
    simp [Token.isText, hs]
  · refine iff_of_false ?_ hs
    intro ht
    cases t with
    | text body =>
      unfold readToken at h
      split at h
      · obtain ⟨_, e, -⟩ := readComment_append h
        cases e
      · obtain ⟨_, _, e, -⟩ := readDeclaration_append h
        cases e
      · rename_i tail _
        cases hclose : readCloseTag tail with
        | error _ => rw [hclose] at h; cases h
        | ok p => rw [hclose] at h; cases h
      · rename_i tail _
        cases hopen : readOpenTag tail with
        | error _ => rw [hopen] at h; cases h
        | ok p =>
          rw [hopen] at h
          rcases readContent_eq_ok_iff.1 h with ⟨e, -⟩ | ⟨_, _, e, -⟩ <;> cases e
      · exact hs ‹_›
    | _ => cases ht

/-! ## Whole texts -/

/-- Tokens that a text can consist of: each is sound and no text is next to another. A last text
may leave an interpolation open. -/
def Readable : List Token → Prop
  | [] => True
  | [t] => t.written ≠ [] ∧ readToken t.written = .ok (t, [])
  | t :: u :: ts => t.Sound ∧ (t.isText = true → u.isText = false) ∧ Readable (u :: ts)

theorem tokenize_of_readToken {cs rest : List Char} {t : Token} (hcs : cs ≠ [])
    (h : readToken cs = .ok (t, rest)) :
    tokenize cs = (t :: (tokenize rest).1, (tokenize rest).2) := by
  obtain ⟨c, cs, rfl⟩ := List.exists_cons_of_ne_nil hcs
  rw [tokenize]
  split
  · rename_i e he
    rw [h] at he
    cases he
  · rename_i t' rest' he
    rw [h] at he
    obtain ⟨rfl, rfl⟩ := Prod.mk.inj (Except.ok.inj he)
    rfl

theorem Token.Sound.written_ne_nil {t : Token} (h : t.Sound) : t.written ≠ [] := by
  intro hnil
  have hread := readToken_of_sound h fun _ => (.inl rfl : EndsText [])
  rw [hnil] at hread
  cases t with
  | text body => exact h.1 hnil
  | comment body => cases hread
  | openTag tag => cases hnil
  | closeTag tag => cases hnil
  | raw tag body close => cases hnil

theorem Token.Sound.readable {t : Token} (h : t.Sound) : Readable [t] := by
  have hread := readToken_of_sound h fun _ => (.inl rfl : EndsText [])
  rw [List.append_nil] at hread
  exact ⟨h.written_ne_nil, hread⟩

theorem Readable.readToken {t : Token} {ts : List Token} (h : Readable (t :: ts)) :
    readToken (t.written ++ writtenTokens ts) = .ok (t, writtenTokens ts) := by
  induction ts generalizing t with
  | nil =>
    rw [writtenTokens_nil, List.append_nil]
    exact h.2
  | cons u ts ih =>
    refine readToken_of_sound h.1 fun ht => .inr fun hs => ?_
    rw [writtenTokens_cons] at hs
    have hu := (isText_of_readToken (ih h.2.2)).2 hs
    rw [h.2.1 ht] at hu
    cases hu

theorem Readable.written_ne_nil {t : Token} {ts : List Token} (h : Readable (t :: ts)) :
    t.written ≠ [] := by
  cases ts with
  | nil => exact h.1
  | cons u ts => exact h.1.written_ne_nil

theorem Readable.tail {t : Token} {ts : List Token} (h : Readable (t :: ts)) : Readable ts := by
  cases ts with
  | nil => trivial
  | cons u ts => exact h.2.2

/-- **The tokens of a text** that is read without a fault are the readable ones that it is written
with. -/
theorem tokenize_eq_iff {cs : List Char} {ts : List Token} :
    tokenize cs = (ts, none) ↔ Readable ts ∧ cs = writtenTokens ts := by
  constructor
  · intro h
    refine ⟨?_, ?_⟩
    · fun_induction tokenize cs generalizing ts with
      | case1 =>
        obtain rfl := (Prod.mk.inj h).1
        trivial
      | case2 c cs e he => cases (Prod.mk.inj h).2
      | case3 c cs t rest ht ih =>
        obtain ⟨rfl, hnone⟩ := Prod.mk.inj h
        have ih : Readable (tokenize rest).1 := ih (Prod.ext rfl hnone)
        cases hrest : rest with
        | nil =>
          subst hrest
          rw [tokenize]
          have hcs := eq_of_readToken ht
          rw [List.append_nil] at hcs
          exact ⟨hcs ▸ List.cons_ne_nil c cs, hcs ▸ ht⟩
        | cons d tail =>
          have hne : rest ≠ [] := hrest ▸ List.cons_ne_nil d tail
          rw [← hrest]
          cases hts : (tokenize rest).1 with
          | nil =>
            have := written_tokenize hnone
            rw [hts] at this
            exact absurd this.symm hne
          | cons u ts =>
            rw [hts] at ih
            refine ⟨sound_of_readToken (List.cons_ne_nil c cs) ht fun _ => hne, fun htext => ?_, ih⟩
            have hwritten := written_tokenize hnone
            rw [hts] at hwritten
            have hu := isText_of_readToken ih.readToken
            have hrest' : u.written ++ writtenTokens ts = rest := hwritten
            rw [hrest'] at hu
            rw [← Bool.not_eq_true, hu]
            -- text is read up to markup
            rw [readToken_of_text ((isText_of_readToken ht).1 htext)] at ht
            obtain ⟨-, hr⟩ := Prod.mk.inj (Except.ok.inj ht)
            have hread : readText false (c :: cs) = ((readText false (c :: cs)).1, rest) :=
              Prod.ext rfl hr
            exact (closed_of_readText hread hne).1.resolve_left hne
    · have hnone : (tokenize cs).2 = none := by rw [h]
      have := written_tokenize hnone
      rw [h] at this
      exact this.symm
  · intro h
    obtain ⟨hts, rfl⟩ := h
    induction ts with
    | nil => rw [writtenTokens_nil, tokenize]
    | cons t ts ih =>
      have hne : t.written ++ writtenTokens ts ≠ [] := by
        simp [hts.written_ne_nil]
      rw [writtenTokens_cons, tokenize_of_readToken hne hts.readToken, ih hts.tail]

/-! ## Templates -/

/-- The results of reading can be compared, so a given template can be read by evaluation. -/
instance instDecidableEqExcept {ε α : Type} [DecidableEq ε] [DecidableEq α] :
    DecidableEq (Except ε α)
  | .error a, .error b => decidable_of_iff (a = b) (by simp)
  | .ok a, .ok b => decidable_of_iff (a = b) (by simp)
  | .error _, .ok _ | .ok _, .error _ => isFalse (by simp)

theorem Token.Sound.apt {t : Token} (h : t.Sound) : t.Apt := by
  cases t with
  | text body => trivial
  | comment body => trivial
  | openTag tag => exact h.2
  | closeTag tag => trivial
  | raw tag body close => exact ⟨h.2.1, h.2.2.1, h.2.2.2.2.1⟩

/-- Readable tokens other than a last text are sound. -/
theorem Readable.sound {ts : List Token} (h : Readable ts) {t : Token} (ht : t ∈ ts)
    (htext : t.isText = false) : t.Sound := by
  induction ts with
  | nil => cases ht
  | cons u ts ih =>
    rcases List.mem_cons.1 ht with rfl | ht
    · cases ts with
      | nil => exact sound_of_readToken h.1 h.2 fun h' => by rw [htext] at h'; cases h'
      | cons v ts => exact h.1
    · exact ih h.tail ht

theorem Readable.apt {ts : List Token} (h : Readable ts) {t : Token} (ht : t ∈ ts) : t.Apt := by
  cases htext : t.isText with
  | false => exact (h.sound ht htext).apt
  | true => cases t <;> trivial

/-- **Templates**: the nodes of a template are those of the paired parts it is written with. -/
theorem parse_eq_ok_iff {cs : List Char} {nodes : List Node} :
    parse cs = .ok nodes ↔
      ∃ ps, PairedAll ps ∧ Readable (tokensOf ps) ∧ cs = writtenOf ps ∧ nodes = nodesAt 0 ps := by
  constructor
  · intro h
    unfold parse at h
    cases htok : tokenize cs with
    | mk ts fault =>
      rw [htok] at h
      simp only [assemble] at h
      split at h
      · cases h
      · rename_i a ha
        cases fault with
        | some e => cases h
        | none =>
          obtain ⟨hts, hcs⟩ := tokenize_eq_iff.1 htok
          have hstart : OpenPaired [] [] := ⟨trivial, fun o ho => absurd ho List.not_mem_nil⟩
          obtain ⟨os, ps, rfl, hpair, htokens⟩ :=
            exists_parts_of_foldlM (fun t ht => hts.apt ht) hstart ha
          simp only [Assembly.finish] at h
          split at h
          · rename_i hos
            obtain rfl : os = [] := by
              cases os with
              | nil => rfl
              | cons o os => cases hos
            have htokens : tokensOf ps = ts := htokens
            refine ⟨ps, hpair.1, htokens ▸ hts, by rw [hcs, ← htokens]; rfl, ?_⟩
            simpa [Assembly.ofParts, Assembly.extend, levelStart, openTokens] using
              (Except.ok.inj h).symm
          · cases h
  · intro h
    obtain ⟨ps, hpair, hread, rfl, rfl⟩ := h
    exact parse_of_tokenize (tokenize_eq_iff.2 ⟨hread, rfl⟩) hpair

end Islands.Markup
