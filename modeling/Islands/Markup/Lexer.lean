import Islands.Text.Search
import Islands.Markup.Error
import Islands.Markup.Token

/-!
# Reading tokens

A reader takes the text from some place on and gives what stands there and the text that remains;
its errors count offsets from that place. No reader loses a character: the written form of what
was read, followed by what remains, is the text it was given.

* `Start.of`: what kind of markup a text begins with.
* `readText`, `readOpenTag`, `readCloseTag`, `readToken`: the readers, each with a lemma
  `eq_of_…` of the form above.
* `tokenize`: the tokens of a text, up to its end or to the first fault.
-/

namespace Islands.Markup

/-! ## What markup begins with -/

/-- Whether a text begins with an ASCII letter. -/
def startsLetter : List Char → Bool
  | c :: _ => c.isAlpha
  | [] => false

/-- What a text begins with, and what follows the characters that show it. -/
inductive Start
  | comment (rest : List Char)
  | declaration (mark : Char) (rest : List Char)
  | closeTag (rest : List Char)
  | openTag (rest : List Char)
  | text
deriving DecidableEq, Repr

/-- What stands after a `<`. -/
def Start.afterAngle : List Char → Start
  | '!' :: '-' :: '-' :: rest => comment rest
  | '!' :: rest => declaration '!' rest
  | '?' :: rest => declaration '?' rest
  | '/' :: rest => if startsLetter rest then closeTag rest else text
  | rest => if startsLetter rest then openTag rest else text

/-- What a text begins with. -/
def Start.of : List Char → Start
  | '<' :: rest => afterAngle rest
  | _ => text

/-- The characters that show how a text begins. -/
def Start.shown : Start → List Char
  | comment _ => ['<', '!', '-', '-']
  | declaration mark _ => ['<', mark]
  | closeTag _ => ['<', '/']
  | openTag _ => ['<']
  | text => []

/-- What follows the characters that show how `cs` begins. -/
def Start.rest (cs : List Char) : Start → List Char
  | comment rest | declaration _ rest | closeTag rest | openTag rest => rest
  | text => cs

theorem Start.eq_shown_append_rest (cs : List Char) :
    cs = (Start.of cs).shown ++ (Start.of cs).rest cs := by
  unfold Start.of
  split
  · rename_i rest
    unfold Start.afterAngle
    split
    · rfl
    · rfl
    · rfl
    · split <;> rfl
    · split <;> rfl
  · rfl

/-! ## Text -/

/-- Text up to the next tag, comment or declaration. An interpolation is passed over as a whole,
so that a `<` inside one is text; `inside` says whether one is open. -/
def readText : Bool → List Char → List Char × List Char
  | _, [] => ([], [])
  | true, '}' :: '}' :: rest => prepend ['}', '}'] (readText false rest)
  | true, c :: rest => prepend [c] (readText true rest)
  | false, '{' :: '{' :: rest => prepend ['{', '{'] (readText true rest)
  | false, c :: rest =>
    if Start.of (c :: rest) = .text then prepend [c] (readText false rest) else ([], c :: rest)

theorem readText_append (inside : Bool) (cs : List Char) :
    (readText inside cs).1 ++ (readText inside cs).2 = cs := by
  fun_induction readText inside cs <;> simp_all

theorem readText_ne_nil {cs : List Char} (h : Start.of cs = .text) (hne : cs ≠ []) :
    (readText false cs).1 ≠ [] := by
  unfold readText
  split <;> simp_all

/-! ## Attributes -/

/-- Why the inside of an opening tag cannot be read; the offset is that of the quotation mark. -/
inductive TagFault
  | unterminated
  | unterminatedValue (owner : List Char) (start : Nat)
deriving DecidableEq, Repr

/-- The same fault, found after `n` more bytes. -/
def TagFault.shift (n : Nat) : TagFault → TagFault
  | unterminated => unterminated
  | unterminatedValue owner start => unterminatedValue owner (n + start)

/-- The blanks in front of an attribute or of the end of a tag, and the slashes among them that do
not end the tag. -/
def readGap : List Char → List Char × List Char
  | '/' :: '>' :: rest => ([], '/' :: '>' :: rest)
  | c :: rest => if isBlank c || c == '/' then prepend [c] (readGap rest) else ([], c :: rest)
  | [] => ([], [])

/-- The rest of an attribute's name after its first character. -/
def readNameTail : List Char → List Char × List Char
  | '/' :: '>' :: rest => ([], '/' :: '>' :: rest)
  | c :: rest =>
    if isBlank c || c == '>' || c == '=' then ([], c :: rest) else prepend [c] (readNameTail rest)
  | [] => ([], [])

/-- A value: quoted if a quotation mark comes first, else up to a blank or the end of the tag.
No result means that the closing quotation mark is missing. -/
def readValue : List Char → Option (WrittenValue × List Char)
  | '"' :: rest => (splitOnFirst ['"'] rest).map fun p => (.quoted '"' p.1, p.2)
  | '\'' :: rest => (splitOnFirst ['\''] rest).map fun p => (.quoted '\'' p.1, p.2)
  | cs => some (.bare (cs.takeWhile fun c => !(isBlank c || c == '>')),
      cs.dropWhile fun c => !(isBlank c || c == '>'))

/-- What is assigned to the attribute called `owner`, if an `=` follows, blanks aside. -/
def readAssignment (owner cs : List Char) :
    Except TagFault (Option Assignment × List Char) :=
  let before := cs.takeWhile isBlank
  match cs.dropWhile isBlank with
  | '=' :: rest =>
    let after := rest.takeWhile isBlank
    match readValue (rest.dropWhile isBlank) with
    | some (value, rest) => .ok (some ⟨before, after, value⟩, rest)
    | none => .error (.unterminatedValue owner (byteLength before + 1 + byteLength after))
  | _ => .ok (none, cs)

/-- An attribute that starts with the character `c`. -/
def readAttribute (lead : List Char) (c : Char) (cs : List Char) :
    Except TagFault (WrittenAttribute × List Char) :=
  let name := c :: (readNameTail cs).1
  match readAssignment name (readNameTail cs).2 with
  | .ok (assignment, rest) => .ok (⟨lead, name, assignment⟩, rest)
  | .error fault => .error (fault.shift (byteLength lead + byteLength name))

theorem readGap_append (cs : List Char) : (readGap cs).1 ++ (readGap cs).2 = cs := by
  fun_induction readGap cs <;> simp_all

theorem readNameTail_append (cs : List Char) :
    (readNameTail cs).1 ++ (readNameTail cs).2 = cs := by
  fun_induction readNameTail cs <;> simp_all

theorem eq_of_readValue {cs rest : List Char} {value : WrittenValue}
    (h : readValue cs = some (value, rest)) : cs = value.written ++ rest := by
  unfold readValue at h
  split at h
  · obtain ⟨⟨a, b⟩, hs, e⟩ := Option.map_eq_some_iff.1 h
    obtain ⟨rfl, rfl⟩ := Prod.mk.inj e
    simp [WrittenValue.written, eq_of_splitOnFirst hs]
  · obtain ⟨⟨a, b⟩, hs, e⟩ := Option.map_eq_some_iff.1 h
    obtain ⟨rfl, rfl⟩ := Prod.mk.inj e
    simp [WrittenValue.written, eq_of_splitOnFirst hs]
  · obtain ⟨rfl, rfl⟩ := Prod.mk.inj (Option.some.inj h)
    simp [WrittenValue.written]

theorem eq_of_readAssignment {owner cs rest : List Char} {assignment : Option Assignment}
    (h : readAssignment owner cs = .ok (assignment, rest)) :
    cs = (assignment.map Assignment.written).getD [] ++ rest := by
  unfold readAssignment at h
  simp only at h
  split at h
  · rename_i tail e
    split at h
    · rename_i value tail' hv
      obtain ⟨rfl, rfl⟩ := Prod.mk.inj (Except.ok.inj h)
      have h₁ := List.takeWhile_append_dropWhile (p := isBlank) (l := cs)
      have h₂ := List.takeWhile_append_dropWhile (p := isBlank) (l := tail)
      rw [e] at h₁
      rw [eq_of_readValue hv] at h₂
      conv => lhs; rw [← h₁, ← h₂]
      simp [Assignment.written]
    · cases h
  · obtain ⟨rfl, rfl⟩ := Prod.mk.inj (Except.ok.inj h)
    simp

theorem eq_of_readAttribute {lead cs rest : List Char} {c : Char} {a : WrittenAttribute}
    (h : readAttribute lead c cs = .ok (a, rest)) :
    a.lead = lead ∧ c :: cs = a.core ++ rest := by
  unfold readAttribute at h
  simp only at h
  split at h
  · rename_i assignment tail e
    obtain ⟨rfl, rfl⟩ := Prod.mk.inj (Except.ok.inj h)
    refine ⟨rfl, ?_⟩
    conv => lhs; rw [← readNameTail_append cs, eq_of_readAssignment e]
    simp [WrittenAttribute.core]
  · cases h

/-! ## Tags -/

/-- The inside of an opening tag after its name, to the end of the tag. -/
structure TagBody where
  attributes : List WrittenAttribute
  trail : List Char
  selfClosing : Bool
deriving DecidableEq, Repr

/-- The characters of the inside of a tag, its end included. -/
def TagBody.written (b : TagBody) : List Char :=
  b.attributes.flatMap WrittenAttribute.written ++ (b.trail ++ tagEnd b.selfClosing)

theorem length_lt_of_readAttribute {lead cs rest : List Char} {c : Char} {a : WrittenAttribute}
    (h : readAttribute lead c cs = .ok (a, rest)) : rest.length < (c :: cs).length := by
  unfold readAttribute at h
  simp only at h
  split at h
  · rename_i assignment tail e
    obtain ⟨_, rfl⟩ := Prod.mk.inj (Except.ok.inj h)
    have h₁ := congrArg List.length (readNameTail_append cs)
    have h₂ := congrArg List.length (eq_of_readAssignment e)
    simp only [List.length_append, List.length_cons] at h₁ h₂ ⊢
    omega
  · cases h

/-- Reads the attributes of a tag and its end. -/
def readTagBody (cs : List Char) : Except TagFault (TagBody × List Char) :=
  match _e : readGap cs with
  | (_, []) => .error .unterminated
  | (gap, '>' :: rest) => .ok (⟨[], gap, false⟩, rest)
  | (gap, '/' :: '>' :: rest) => .ok (⟨[], gap, true⟩, rest)
  | (gap, c :: rest) =>
    match _h : readAttribute gap c rest with
    | .error fault => .error fault
    | .ok (a, rest') =>
      match readTagBody rest' with
      | .error fault => .error (fault.shift (byteLength a.written))
      | .ok (b, rest'') => .ok (⟨a :: b.attributes, b.trail, b.selfClosing⟩, rest'')
termination_by cs.length
decreasing_by
  have h₁ := congrArg List.length (readGap_append cs)
  have h₂ := length_lt_of_readAttribute _h
  rw [_e] at h₁
  simp only [List.length_append] at h₁
  omega

theorem eq_of_readTagBody {cs rest : List Char} {b : TagBody}
    (h : readTagBody cs = .ok (b, rest)) : cs = b.written ++ rest := by
  fun_induction readTagBody cs generalizing b rest with
  | case1 => cases h
  | case2 cs gap tail e =>
    obtain ⟨rfl, rfl⟩ := Prod.mk.inj (Except.ok.inj h)
    have := readGap_append cs
    rw [e] at this
    simp [TagBody.written, tagEnd, ← this]
  | case3 cs gap tail e =>
    obtain ⟨rfl, rfl⟩ := Prod.mk.inj (Except.ok.inj h)
    have := readGap_append cs
    rw [e] at this
    simp [TagBody.written, tagEnd, ← this]
  | case4 => cases h
  | case5 => cases h
  | case6 cs gap c tail _ _ e a tail' ha b' tail'' hb ih =>
    obtain ⟨rfl, rfl⟩ := Prod.mk.inj (Except.ok.inj h)
    have hg := readGap_append cs
    obtain ⟨hl, hc⟩ := eq_of_readAttribute ha
    rw [e] at hg
    simp only at hg
    rw [hc, ih hb] at hg
    simp [TagBody.written, WrittenAttribute.written, hl, ← hg]

/-- Reads an opening tag from behind its `<`; the tag starts one byte before the text. -/
def readOpenTag (cs : List Char) : Except ParseError (OpenTag × List Char) :=
  let name := cs.takeWhile isNameChar
  match readTagBody (cs.dropWhile isNameChar) with
  | .ok (b, rest) => .ok (⟨name, b.attributes, b.trail, b.selfClosing⟩, rest)
  | .error .unterminated => .error (.unterminatedTag (String.ofList name) 0)
  | .error (.unterminatedValue owner start) =>
    .error (.unterminatedValue (String.ofList owner) (1 + byteLength name + start))

/-- Reads a closing tag from behind its `</`; the tag starts two bytes before the text. -/
def readCloseTag (cs : List Char) : Except ParseError (CloseTag × List Char) :=
  let name := cs.takeWhile isNameChar
  let after := cs.dropWhile isNameChar
  let gap := after.takeWhile isBlank
  match after.dropWhile isBlank with
  | '>' :: rest => .ok (⟨name, gap⟩, rest)
  | _ => .error (.malformedClosingTag (String.ofList name)
      ⟨0, 2 + byteLength name + byteLength gap⟩)

theorem eq_of_readOpenTag {cs rest : List Char} {tag : OpenTag}
    (h : readOpenTag cs = .ok (tag, rest)) : '<' :: cs = tag.written ++ rest := by
  unfold readOpenTag at h
  simp only at h
  split at h
  · rename_i b tail e
    obtain ⟨rfl, rfl⟩ := Prod.mk.inj (Except.ok.inj h)
    have := List.takeWhile_append_dropWhile (p := isNameChar) (l := cs)
    rw [eq_of_readTagBody e] at this
    conv => lhs; rw [← this]
    simp [OpenTag.written, TagBody.written]
  · cases h
  · cases h

theorem eq_of_readCloseTag {cs rest : List Char} {tag : CloseTag}
    (h : readCloseTag cs = .ok (tag, rest)) : '<' :: '/' :: cs = tag.written ++ rest := by
  unfold readCloseTag at h
  simp only at h
  split at h
  · rename_i tail e
    obtain ⟨rfl, rfl⟩ := Prod.mk.inj (Except.ok.inj h)
    have h₁ := List.takeWhile_append_dropWhile (p := isNameChar) (l := cs)
    have h₂ := List.takeWhile_append_dropWhile (p := isBlank) (l := cs.dropWhile isNameChar)
    rw [e] at h₂
    rw [← h₂] at h₁
    conv => lhs; rw [← h₁]
    simp [CloseTag.written]
  · cases h

/-! ## Raw content -/

/-- Whether a text begins with a closing tag of the given name. -/
def startsCloseTag (name : List Char) : List Char → Bool
  | '<' :: '/' :: rest => sameLetters (rest.takeWhile isNameChar) name
  | _ => false

/-- The raw content before the closing tag of the given name, and the text from behind its `</`. -/
def readRawContent (name : List Char) : List Char → Option (List Char × List Char)
  | [] => none
  | c :: cs =>
    if startsCloseTag name (c :: cs) then some ([], cs.drop 1)
    else (readRawContent name cs).map (prepend [c])

theorem eq_of_readRawContent {name cs body rest : List Char}
    (h : readRawContent name cs = some (body, rest)) : cs = body ++ '<' :: '/' :: rest := by
  induction cs generalizing body with
  | nil => simp [readRawContent] at h
  | cons c cs ih =>
    unfold readRawContent at h
    split at h
    · rename_i hc
      unfold startsCloseTag at hc
      split at hc
      · rename_i e
        obtain ⟨rfl, rfl⟩ := Prod.mk.inj (Option.some.inj h)
        simp_all
      · cases hc
    · obtain ⟨⟨a, b⟩, h', e⟩ := Option.map_eq_some_iff.1 h
      obtain ⟨rfl, rfl⟩ := Prod.mk.inj e
      simp [ih h']

/-- Completes the token that starts with `tag`: an element with raw content is read as a whole. -/
def readContent (tag : OpenTag) (cs : List Char) : Except ParseError (Token × List Char) :=
  if tag.selfClosing || !isRawName tag.name then .ok (.openTag tag, cs)
  else
    let width := byteLength tag.written
    match readRawContent tag.name cs with
    | none => .error (.unclosedElement (String.ofList tag.name) ⟨0, width⟩)
    | some (body, rest) =>
      match readCloseTag rest with
      | .ok (close, rest) => .ok (.raw tag body close, rest)
      | .error e => .error (e.shift (width + byteLength body))

/-! ## Tokens -/

/-- Reads a comment from behind its `<!--`. -/
def readComment (cs : List Char) : Except ParseError (Token × List Char) :=
  match splitOnFirst ['-', '-', '>'] cs with
  | some (body, rest) =>
    .ok (.comment ('<' :: '!' :: '-' :: '-' :: (body ++ ['-', '-', '>'])), rest)
  | none => .error (.unterminatedComment 0)

/-- Reads a declaration from behind its first two characters. -/
def readDeclaration (mark : Char) (cs : List Char) : Except ParseError (Token × List Char) :=
  match splitOnFirst ['>'] cs with
  | some (body, rest) => .ok (.comment ('<' :: mark :: (body ++ ['>'])), rest)
  | none => .error (.unterminatedDeclaration 0)

/-- Reads the token that a text begins with. -/
def readToken (cs : List Char) : Except ParseError (Token × List Char) :=
  match Start.of cs with
  | .comment rest => readComment rest
  | .declaration mark rest => readDeclaration mark rest
  | .closeTag rest => (readCloseTag rest).map fun p => (.closeTag p.1, p.2)
  | .openTag rest => (readOpenTag rest).bind fun p => readContent p.1 p.2
  | .text => .ok (.text (readText false cs).1, (readText false cs).2)

theorem eq_of_readContent {tag : OpenTag} {cs rest : List Char} {t : Token}
    (h : readContent tag cs = .ok (t, rest)) : tag.written ++ cs = t.written ++ rest := by
  unfold readContent at h
  split at h
  · obtain ⟨rfl, rfl⟩ := Prod.mk.inj (Except.ok.inj h)
    rfl
  · simp only at h
    split at h
    · cases h
    · rename_i body tail e
      split at h
      · rename_i close tail' e'
        obtain ⟨rfl, rfl⟩ := Prod.mk.inj (Except.ok.inj h)
        rw [eq_of_readRawContent e, eq_of_readCloseTag e']
        simp [Token.written]
      · cases h

theorem written_ne_nil_of_readContent {tag : OpenTag} {cs rest : List Char} {t : Token}
    (h : readContent tag cs = .ok (t, rest)) : t.written ≠ [] := by
  unfold readContent at h
  split at h
  · obtain ⟨rfl, rfl⟩ := Prod.mk.inj (Except.ok.inj h)
    simp [Token.written, OpenTag.written]
  · simp only at h
    split at h
    · cases h
    · split at h
      · obtain ⟨rfl, rfl⟩ := Prod.mk.inj (Except.ok.inj h)
        simp [Token.written, OpenTag.written]
      · cases h

/-- A token and what remains are the text that was read. -/
theorem eq_of_readToken {cs rest : List Char} {t : Token}
    (h : readToken cs = .ok (t, rest)) : cs = t.written ++ rest := by
  have hs := Start.eq_shown_append_rest cs
  unfold readToken at h
  split at h
  · rename_i tail e
    rw [e] at hs
    unfold readComment at h
    split at h
    · rename_i body tail' e'
      obtain ⟨rfl, rfl⟩ := Prod.mk.inj (Except.ok.inj h)
      rw [hs]
      simp [Start.shown, Start.rest, Token.written, eq_of_splitOnFirst e']
    · cases h
  · rename_i mark tail e
    rw [e] at hs
    unfold readDeclaration at h
    split at h
    · rename_i body tail' e'
      obtain ⟨rfl, rfl⟩ := Prod.mk.inj (Except.ok.inj h)
      rw [hs]
      simp [Start.shown, Start.rest, Token.written, eq_of_splitOnFirst e']
    · cases h
  · rename_i tail e
    rw [e] at hs
    cases hc : readCloseTag tail with
    | error _ => simp [hc, Except.map] at h
    | ok p =>
      rw [hc] at h
      obtain ⟨rfl, rfl⟩ := Prod.mk.inj (Except.ok.inj h)
      rw [hs]
      exact eq_of_readCloseTag hc
  · rename_i tail e
    rw [e] at hs
    cases ho : readOpenTag tail with
    | error _ => simp [ho, Except.bind] at h
    | ok p =>
      obtain ⟨tag, tail'⟩ := p
      rw [ho] at h
      have h' : readContent tag tail' = .ok (t, rest) := h
      rw [hs, ← eq_of_readContent h']
      exact eq_of_readOpenTag ho
  · obtain ⟨rfl, rfl⟩ := Prod.mk.inj (Except.ok.inj h)
    exact (readText_append false cs).symm

/-- Every token has characters. -/
theorem written_ne_nil_of_readToken {cs rest : List Char} {t : Token} (hne : cs ≠ [])
    (h : readToken cs = .ok (t, rest)) : t.written ≠ [] := by
  unfold readToken at h
  split at h
  · unfold readComment at h
    split at h
    · obtain ⟨rfl, rfl⟩ := Prod.mk.inj (Except.ok.inj h)
      simp [Token.written]
    · cases h
  · unfold readDeclaration at h
    split at h
    · obtain ⟨rfl, rfl⟩ := Prod.mk.inj (Except.ok.inj h)
      simp [Token.written]
    · cases h
  · rename_i tail _
    cases hc : readCloseTag tail with
    | error _ => simp [hc, Except.map] at h
    | ok p =>
      rw [hc] at h
      obtain ⟨rfl, rfl⟩ := Prod.mk.inj (Except.ok.inj h)
      simp [Token.written, CloseTag.written]
  · rename_i tail _
    cases ho : readOpenTag tail with
    | error _ => simp [ho, Except.bind] at h
    | ok p =>
      have h' : readContent p.1 p.2 = .ok (t, rest) := by rw [ho] at h; exact h
      exact written_ne_nil_of_readContent h'
  · rename_i e
    obtain ⟨rfl, rfl⟩ := Prod.mk.inj (Except.ok.inj h)
    exact readText_ne_nil e hne

/-! ## Whole texts -/

theorem length_lt_of_readToken {cs rest : List Char} {t : Token} (hne : cs ≠ [])
    (h : readToken cs = .ok (t, rest)) : rest.length < cs.length := by
  have h₁ := congrArg List.length (eq_of_readToken h)
  have h₂ := List.length_pos_iff.2 (written_ne_nil_of_readToken hne h)
  rw [List.length_append] at h₁
  omega

/-- The tokens of a text, and the fault that stopped the reading, if one did. The offsets of the
fault count from the end of the last token. -/
def tokenize (cs : List Char) : List Token × Option ParseError :=
  match cs with
  | [] => ([], none)
  | c :: cs =>
    match _h : readToken (c :: cs) with
    | .error e => ([], some e)
    | .ok (t, rest) => (t :: (tokenize rest).1, (tokenize rest).2)
termination_by cs.length
decreasing_by all_goals exact length_lt_of_readToken (List.cons_ne_nil c cs) _h

/-- A text that is read without a fault is its tokens, put together again. -/
theorem written_tokenize {cs : List Char} (h : (tokenize cs).2 = none) :
    (tokenize cs).1.flatMap Token.written = cs := by
  fun_induction tokenize cs with
  | case1 => rfl
  | case2 c cs e he => cases h
  | case3 c cs t rest ht ih =>
    simp only [List.flatMap_cons]
    rw [ih h, ← eq_of_readToken ht]

end Islands.Markup
