import Islands.Proofs.Markup.TagForm
import Islands.Proofs.Text.Search

/-!
# The form of closing tags, raw content, comments and text

A closing tag and a comment are read from their characters whatever follows them
(`readCloseTag_eq_ok_iff`, `readComment_append`, `readDeclaration_append`). The content of a raw
element is read up to the first closing tag of its name (`readRawContent_eq_some_iff`), and text up
to the next markup: `closed_of_readText` says that text in front of markup is read as it stands
wherever a text ends.
-/

namespace Islands.Markup

/-! ## Closing tags -/

/-- The characters of a closing tag are in place. -/
structure CloseTag.Sound (t : CloseTag) : Prop where
  name : ∀ c ∈ t.name, isNameChar c = true
  gap : ∀ c ∈ t.gap, isBlank c = true

theorem CloseTag.head?_gap {t : CloseTag} (h : t.Sound) (rest : List Char) (c : Char)
    (hc : (t.gap ++ '>' :: rest).head? = some c) : isNameChar c = false := by
  cases hg : t.gap with
  | nil =>
    rw [hg] at hc
    exact not_of_head?_cons rfl c hc
  | cons d gap =>
    rw [hg] at hc
    have hd : isNameChar d = false := by
      simp [isNameChar, h.gap d (by rw [hg]; exact List.mem_cons_self ..)]
    exact not_of_head?_cons hd c hc

/-- **Closing tags**: one is read from its written form exactly if its characters are in place. -/
theorem readCloseTag_eq_ok_iff {cs rest : List Char} {t : CloseTag} :
    readCloseTag cs = .ok (t, rest) ↔ '<' :: '/' :: cs = t.written ++ rest ∧ t.Sound := by
  constructor
  · intro h
    refine ⟨eq_of_readCloseTag h, ?_⟩
    unfold readCloseTag at h
    simp only at h
    split at h
    · obtain ⟨rfl, -⟩ := Prod.mk.inj (Except.ok.inj h)
      exact ⟨List.all_eq_true.1 List.all_takeWhile, List.all_eq_true.1 List.all_takeWhile⟩
    · cases h
  · intro h
    obtain ⟨h, hs⟩ := h
    obtain ⟨name, gap⟩ := t
    obtain rfl : cs = name ++ (gap ++ '>' :: rest) := by simpa [CloseTag.written] using h
    have hname := (takeWhile_dropWhile_eq_iff (p := isNameChar)).2
      ⟨rfl, hs.name, fun c hc => CloseTag.head?_gap hs rest c hc⟩
    have hgap := (takeWhile_dropWhile_eq_iff (p := isBlank)).2
      ⟨(rfl : gap ++ '>' :: rest = _), hs.gap, not_of_head?_cons rfl⟩
    unfold readCloseTag
    simp only [hname.1, hname.2, hgap.1, hgap.2]

/-! ## Raw content -/

/-- Whether a closing tag starts does not depend on what stands behind a later `</`. -/
theorem startsCloseTag_append (name : List Char) {b : List Char} (hb : b ≠ []) (rest : List Char) :
    startsCloseTag name (b ++ '<' :: '/' :: rest) = startsCloseTag name (b ++ ['<', '/']) := by
  match b, hb with
  | [c], _ =>
    -- the character behind `c` is no slash
    simp [startsCloseTag]
  | c :: d :: tail, _ =>
    have hrun : (tail ++ '<' :: '/' :: rest).takeWhile isNameChar =
        (tail ++ ['<', '/']).takeWhile isNameChar := by
      rw [List.takeWhile_append, List.takeWhile_append]
      rfl
    by_cases hc : c = '<' ∧ d = '/'
    · obtain ⟨rfl, rfl⟩ := hc
      simp only [List.cons_append, startsCloseTag, hrun]
    · have hno : ∀ tail', startsCloseTag name (c :: d :: tail') = false := by
        intro tail'
        unfold startsCloseTag
        split
        · rename_i e
          exact absurd ⟨(List.cons.inj e).1, (List.cons.inj (List.cons.inj e).2).1⟩ hc
        · rfl
      simp only [List.cons_append, hno]

/-- No closing tag of the given name starts in `body`, which is followed by `</`. -/
def NoCloseTagIn (name body : List Char) : Prop :=
  ∀ a b, body = a ++ b → b ≠ [] → startsCloseTag name (b ++ ['<', '/']) = false

/-- **Raw content** is read up to the first closing tag of its name. -/
theorem readRawContent_eq_some_iff {name cs body rest : List Char} :
    readRawContent name cs = some (body, rest) ↔
      cs = body ++ '<' :: '/' :: rest ∧ sameLetters (rest.takeWhile isNameChar) name = true ∧
        NoCloseTagIn name body := by
  induction cs generalizing body rest with
  | nil => simp [readRawContent]
  | cons c cs ih =>
    unfold readRawContent
    by_cases hc : startsCloseTag name (c :: cs) = true
    · rw [if_pos hc]
      constructor
      · intro h
        obtain ⟨rfl, rfl⟩ := Prod.mk.inj (Option.some.inj h)
        unfold startsCloseTag at hc
        split at hc
        · rename_i tail e
          obtain ⟨rfl, rfl⟩ := List.cons.inj e
          refine ⟨rfl, hc, fun a b hab hb => ?_⟩
          exact absurd (List.nil_eq_append_iff.1 hab).2 hb
        · cases hc
      · intro h
        obtain ⟨h, hname, hno⟩ := h
        cases body with
        | nil =>
          obtain ⟨rfl, rfl⟩ := List.cons.inj h
          rfl
        | cons d body =>
          -- a closing tag would start at the first character of the content
          have := hno [] (d :: body) rfl (List.cons_ne_nil _ _)
          rw [← startsCloseTag_append name (List.cons_ne_nil _ _) rest, ← h, hc] at this
          cases this
    · rw [if_neg hc]
      simp only [Option.map_eq_some_iff, Prod.exists, ih]
      constructor
      · intro h
        obtain ⟨a, b, ⟨rfl, hname, hno⟩, e⟩ := h
        obtain ⟨rfl, rfl⟩ := Prod.mk.inj e
        refine ⟨rfl, hname, fun x y hxy hy => ?_⟩
        cases x with
        | nil =>
          obtain rfl : c :: a = y := hxy
          rw [← startsCloseTag_append name hy b]
          exact Bool.not_eq_true _ ▸ hc
        | cons d x => exact hno x y (List.cons.inj hxy).2 hy
      · intro h
        obtain ⟨h, hname, hno⟩ := h
        cases body with
        | nil =>
          obtain ⟨rfl, rfl⟩ := List.cons.inj h
          exact absurd hname hc
        | cons d body =>
          obtain ⟨rfl, rfl⟩ := List.cons.inj h
          refine ⟨body, rest, ⟨rfl, hname, fun x y hxy hy => ?_⟩, rfl⟩
          exact hno (c :: x) y (by rw [hxy]; rfl) hy

theorem readContent_eq_ok_iff {tag : OpenTag} {cs rest : List Char} {t : Token} :
    readContent tag cs = .ok (t, rest) ↔
      (t = .openTag tag ∧ cs = rest ∧ (tag.selfClosing = true ∨ isRawName tag.name = false)) ∨
      ∃ body close, t = .raw tag body close ∧ cs = body ++ (close.written ++ rest) ∧
        tag.selfClosing = false ∧ isRawName tag.name = true ∧ close.Sound ∧
        sameLetters close.name tag.name = true ∧ NoCloseTagIn tag.name body := by
  have hname : ∀ {close : CloseTag}, close.Sound → ∀ rest : List Char,
      (close.name ++ (close.gap ++ '>' :: rest)).takeWhile isNameChar = close.name := by
    intro close hs rest
    exact ((takeWhile_dropWhile_eq_iff (p := isNameChar)).2
      ⟨rfl, hs.name, fun c hc => CloseTag.head?_gap hs rest c hc⟩).1
  unfold readContent
  split
  · rename_i h
    have h : tag.selfClosing = true ∨ isRawName tag.name = false := by simpa using h
    constructor
    · intro e
      obtain ⟨rfl, rfl⟩ := Prod.mk.inj (Except.ok.inj e)
      exact .inl ⟨rfl, rfl, h⟩
    · rintro (⟨rfl, rfl, -⟩ | ⟨_, _, _, _, h₁, h₂, _⟩)
      · rfl
      · rcases h with h | h
        · rw [h] at h₁; cases h₁
        · rw [h] at h₂; cases h₂
  · rename_i h
    have h : tag.selfClosing = false ∧ isRawName tag.name = true := by simpa using h
    simp only
    constructor
    · intro e
      split at e
      · cases e
      · rename_i body tail hraw
        obtain ⟨hcs, hletters, hno⟩ := readRawContent_eq_some_iff.1 hraw
        split at e
        · rename_i close rest' hclose
          obtain ⟨rfl, rfl⟩ := Prod.mk.inj (Except.ok.inj e)
          obtain ⟨hwritten, hs⟩ := readCloseTag_eq_ok_iff.1 hclose
          have htail : tail = close.name ++ (close.gap ++ '>' :: rest') := by
            simpa [CloseTag.written] using hwritten
          rw [htail, hname hs] at hletters
          exact .inr ⟨body, close, rfl, by rw [hcs, hwritten], h.1, h.2, hs, hletters, hno⟩
        · cases e
    · rintro (⟨_, _, h' | h'⟩ | ⟨body, close, rfl, rfl, _, _, hs, hletters, hno⟩)
      · rw [h.1] at h'; cases h'
      · rw [h.2] at h'; cases h'
      · have hraw : readRawContent tag.name (body ++ (close.written ++ rest)) =
            some (body, close.name ++ (close.gap ++ '>' :: rest)) :=
          readRawContent_eq_some_iff.2
            ⟨by simp [CloseTag.written], by rw [hname hs]; exact hletters, hno⟩
        have hclose : readCloseTag (close.name ++ (close.gap ++ '>' :: rest)) =
            .ok (close, rest) :=
          readCloseTag_eq_ok_iff.2 ⟨by simp [CloseTag.written], hs⟩
        rw [hraw]
        simp only [hclose]

/-! ## Comments -/

theorem readComment_append {cs rest : List Char} {t : Token}
    (h : readComment cs = .ok (t, rest)) :
    ∃ body, t = .comment ('<' :: '!' :: '-' :: '-' :: body) ∧
      ∀ rest', readComment (body ++ rest') = .ok (t, rest') := by
  unfold readComment at h
  split at h
  · rename_i body tail e
    obtain ⟨rfl, -⟩ := Prod.mk.inj (Except.ok.inj h)
    refine ⟨_, rfl, fun rest' => ?_⟩
    rw [readComment, List.append_assoc, splitOnFirst_append e]
  · cases h

theorem readDeclaration_append {mark : Char} {cs rest : List Char} {t : Token}
    (h : readDeclaration mark cs = .ok (t, rest)) :
    ∃ body, cs = body ++ '>' :: rest ∧ t = .comment ('<' :: mark :: (body ++ ['>'])) ∧
      ∀ rest', readDeclaration mark (body ++ '>' :: rest') = .ok (t, rest') := by
  unfold readDeclaration at h
  split at h
  · rename_i body tail e
    obtain ⟨rfl, rfl⟩ := Prod.mk.inj (Except.ok.inj h)
    refine ⟨body, eq_of_splitOnFirst e, rfl, fun rest' => ?_⟩
    have e' : splitOnFirst ['>'] (body ++ '>' :: rest') = some (body, rest') :=
      splitOnFirst_append e rest'
    rw [readDeclaration, e']
  · cases h

/-! ## What a text begins with -/

/-- Whether the characters after a `<` make it the start of a tag, comment or declaration. -/
def opensMarkup : List Char → Bool
  | c :: rest => c == '!' || c == '?' || c.isAlpha || (c == '/' && startsLetter rest)
  | [] => false

theorem Start.afterAngle_eq_text_iff {cs : List Char} :
    afterAngle cs = .text ↔ opensMarkup cs = false := by
  unfold afterAngle
  split
  · simp [opensMarkup]
  · simp [opensMarkup]
  · simp [opensMarkup]
  · rename_i rest
    cases h : startsLetter rest <;> simp [opensMarkup, h]
  · rename_i h₁ h₂ h₃ h₄
    cases cs with
    | nil => simp [opensMarkup, startsLetter]
    | cons c rest =>
      have h₂ : c ≠ '!' := fun h => h₂ rest (by rw [h])
      have h₃ : c ≠ '?' := fun h => h₃ rest (by rw [h])
      have h₄ : c ≠ '/' := fun h => h₄ rest (by rw [h])
      cases h : c.isAlpha <;> simp [opensMarkup, startsLetter, h, h₂, h₃, h₄]

theorem Start.of_eq_text_iff {cs : List Char} :
    Start.of cs = .text ↔ ∀ rest, cs = '<' :: rest → opensMarkup rest = false := by
  unfold Start.of
  split
  · rename_i rest
    simp [Start.afterAngle_eq_text_iff]
  · rename_i h
    exact ⟨fun _ rest e => (h rest e).elim, fun _ => rfl⟩

/-- What a text begins with is shown by its first characters: text stays text in front of a `<`. -/
theorem Start.of_append_eq_text {cs rest : List Char} (hcs : cs ≠ [])
    (hrest : rest = [] ∨ ∃ tail, rest = '<' :: tail) (h : Start.of cs = .text) :
    Start.of (cs ++ rest) = .text := by
  have hno : startsLetter rest = false := by
    rcases hrest with rfl | ⟨tail, rfl⟩ <;> rfl
  rw [Start.of_eq_text_iff] at h ⊢
  intro tail htail
  match cs, hcs with
  | [c], _ =>
    obtain ⟨rfl, rfl⟩ := List.cons.inj htail
    rcases hrest with rfl | ⟨tail, rfl⟩ <;> rfl
  | [c, d], _ =>
    obtain ⟨rfl, rfl⟩ := List.cons.inj htail
    have h := h [d] rfl
    show opensMarkup (d :: rest) = false
    simp only [opensMarkup, Bool.or_eq_false_iff] at h ⊢
    exact ⟨h.1, by rw [hno, Bool.and_false]⟩
  | c :: d :: e :: cs, _ =>
    obtain ⟨rfl, rfl⟩ := List.cons.inj htail
    have h := h (d :: e :: cs) rfl
    simpa [opensMarkup, startsLetter] using h

theorem Start.of_eq_text_of_append {cs rest : List Char} (h : Start.of (cs ++ rest) = .text) :
    Start.of cs = .text := by
  rw [Start.of_eq_text_iff] at h ⊢
  rintro tail rfl
  have h := h (tail ++ rest) rfl
  match tail with
  | [] => rfl
  | [d] =>
    simp only [List.cons_append, List.nil_append, opensMarkup, Bool.or_eq_false_iff] at h
    simp [opensMarkup, h.1, startsLetter]
  | d :: e :: tail => simpa [opensMarkup, startsLetter] using h

theorem Start.exists_of_ne_text {cs : List Char} (h : Start.of cs ≠ .text) :
    ∃ rest, cs = '<' :: rest := by
  unfold Start.of at h
  split at h
  · rename_i rest
    exact ⟨rest, rfl⟩
  · exact absurd rfl h

/-! ## Text -/

/-- Where a text ends: at the end of the template or in front of other markup. -/
def EndsText (rest : List Char) : Prop := rest = [] ∨ Start.of rest ≠ .text

theorem EndsText.eq_nil_or {rest : List Char} (h : EndsText rest) :
    rest = [] ∨ ∃ tail, rest = '<' :: tail :=
  h.imp_right Start.exists_of_ne_text

theorem EndsText.not_brace {rest tail : List Char} {c : Char} (h : EndsText rest)
    (e : rest = c :: tail) : c = '<' := by
  rcases h.eq_nil_or with rfl | ⟨tail', rfl⟩
  · cases e
  · exact (List.cons.inj e).1.symm

/-- Text that is read as a whole wherever a text ends, so that no interpolation is open at its end;
`inside` says whether one is open at its start. -/
def ClosedFrom (inside : Bool) (body : List Char) : Prop :=
  ∀ rest, EndsText rest → readText inside (body ++ rest) = (body, rest)

theorem readText_inside_cons {c : Char} {cs : List Char}
    (h : ∀ tail, c = '}' → cs = '}' :: tail → False) :
    readText true (c :: cs) = prepend [c] (readText true cs) := by
  conv => lhs; unfold readText
  split
  · rename_i e
    cases e
  · rename_i tail _ e
    exact (h tail (List.cons.inj e).1 (List.cons.inj e).2).elim
  · rename_i e
    obtain ⟨rfl, rfl⟩ := List.cons.inj e
    rfl
  · rename_i e _
    cases e
  · rename_i e _
    cases e

theorem readText_outside_cons {c : Char} {cs : List Char}
    (h : ∀ tail, c = '{' → cs = '{' :: tail → False) (ht : Start.of (c :: cs) = .text) :
    readText false (c :: cs) = prepend [c] (readText false cs) := by
  conv => lhs; unfold readText
  split
  · rename_i e
    cases e
  · rename_i e _
    cases e
  · rename_i e _
    cases e
  · rename_i tail _ e
    exact (h tail (List.cons.inj e).1 (List.cons.inj e).2).elim
  · rename_i e
    obtain ⟨rfl, rfl⟩ := List.cons.inj e
    rw [if_pos ht]

theorem closedFrom_nil : ClosedFrom false [] := by
  intro rest h
  rw [List.nil_append]
  cases rest with
  | nil => rfl
  | cons c tail =>
    obtain rfl := h.not_brace rfl
    have hne : Start.of ('<' :: tail) ≠ .text := h.resolve_left (List.cons_ne_nil _ _)
    rw [readText, if_neg hne]
    exact fun _ h => absurd h (by decide)

theorem EndsText.not_twice {c : Char} {body rest : List Char} (hrest : EndsText rest) (hc : c ≠ '<')
    (h : ∀ tail, body = c :: tail → False) (tail : List Char) (e : body ++ rest = c :: tail) :
    False := by
  cases body with
  | nil => exact hc (hrest.not_brace e)
  | cons d body =>
    obtain ⟨rfl, -⟩ := List.cons.inj e
    exact h body rfl

namespace ClosedFrom

variable {c : Char} {body : List Char}

theorem closing (h : ClosedFrom false body) : ClosedFrom true ('}' :: '}' :: body) := by
  intro rest hrest
  show readText true ('}' :: '}' :: (body ++ rest)) = _
  rw [readText, h rest hrest]
  rfl

theorem inside_cons (hno : ∀ tail, c = '}' → body = '}' :: tail → False)
    (h : ClosedFrom true body) : ClosedFrom true (c :: body) := by
  intro rest hrest
  have hno' : ∀ tail, c = '}' → body ++ rest = '}' :: tail → False := by
    rintro tail rfl e
    exact hrest.not_twice (by decide) (fun t => hno t rfl) tail e
  show readText true (c :: (body ++ rest)) = _
  rw [readText_inside_cons hno', h rest hrest]
  rfl

theorem opening (h : ClosedFrom true body) : ClosedFrom false ('{' :: '{' :: body) := by
  intro rest hrest
  show readText false ('{' :: '{' :: (body ++ rest)) = _
  rw [readText, h rest hrest]
  rfl

theorem outside_cons (hno : ∀ tail, c = '{' → body = '{' :: tail → False)
    (hstart : Start.of (c :: body) = .text) (h : ClosedFrom false body) :
    ClosedFrom false (c :: body) := by
  intro rest hrest
  have hno' : ∀ tail, c = '{' → body ++ rest = '{' :: tail → False := by
    rintro tail rfl e
    exact hrest.not_twice (by decide) (fun t => hno t rfl) tail e
  have hstart' : Start.of (c :: (body ++ rest)) = .text :=
    Start.of_append_eq_text (List.cons_ne_nil c body) hrest.eq_nil_or hstart
  show readText false (c :: (body ++ rest)) = _
  rw [readText_outside_cons hno' hstart', h rest hrest]
  rfl

end ClosedFrom

/-- The first of two equal characters next to each other is not followed by the second where the text
that is read ends in between. -/
theorem not_twice_readText {inside : Bool} {c d : Char} {cs : List Char}
    (h : ∀ tail, c = d → cs = d :: tail → False) (tail : List Char) (hc : c = d)
    (e : (readText inside cs).1 = d :: tail) : False := by
  refine h (tail ++ (readText inside cs).2) hc ?_
  conv => lhs; rw [← readText_append inside cs, e]
  rfl

/-- **Text up to markup** is closed: it is read as it stands wherever a text ends. -/
theorem closed_of_readText {inside : Bool} {cs body rest : List Char}
    (h : readText inside cs = (body, rest)) (hne : rest ≠ []) :
    EndsText rest ∧ ClosedFrom inside body := by
  fun_induction readText inside cs generalizing body rest with
  | case1 inside => exact absurd (Prod.mk.inj h).2.symm hne
  | case2 tail ih =>
    obtain ⟨rfl, rfl⟩ := Prod.mk.inj h
    obtain ⟨hr, hc⟩ := ih rfl hne
    exact ⟨hr, hc.closing⟩
  | case3 c tail hno ih =>
    obtain ⟨rfl, rfl⟩ := Prod.mk.inj h
    obtain ⟨hr, hc⟩ := ih rfl hne
    exact ⟨hr, hc.inside_cons (not_twice_readText hno)⟩
  | case4 tail ih =>
    obtain ⟨rfl, rfl⟩ := Prod.mk.inj h
    obtain ⟨hr, hc⟩ := ih rfl hne
    exact ⟨hr, hc.opening⟩
  | case5 c tail hno ht ih =>
    obtain ⟨rfl, rfl⟩ := Prod.mk.inj h
    obtain ⟨hr, hc⟩ := ih rfl hne
    refine ⟨hr, hc.outside_cons (not_twice_readText hno) ?_⟩
    rw [← readText_append false tail, ← List.cons_append] at ht
    exact Start.of_eq_text_of_append ht
  | case6 c tail hno ht =>
    obtain ⟨rfl, rfl⟩ := Prod.mk.inj h
    exact ⟨.inr ht, closedFrom_nil⟩

end Islands.Markup
