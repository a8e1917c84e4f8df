import Islands.Markup.Parser

/-!
# The parts of a template

A template that can be read is a list of parts (`Part`): texts, comments, and elements with the
tags they are written with. Parts keep every character, so they stand between the tokens and the
nodes: `tokensOf` lists their tokens, `writtenOf` their characters, and `nodesAt` gives the nodes
that they are when they are written from an offset on.

* `foldlM_read_tokensOf`: the tokens of parts that are paired (`PairedAll`) are assembled into
  their nodes, whatever was read before.
* `exists_parts_of_foldlM`: whatever is assembled from tokens is the image of parts, some of whose
  elements may still be open.
-/

namespace Islands.Markup

/-- A part of a template: a token that is a node by itself, or an element between its tags. -/
inductive Part
  | text (body : List Char)
  | comment (body : List Char)
  /-- An element that is its opening tag and nothing more. -/
  | single (tag : OpenTag)
  /-- An element whose content is not markup. -/
  | raw (tag : OpenTag) (body : List Char) (close : CloseTag)
  | element (tag : OpenTag) (children : List Part) (close : CloseTag)
deriving Repr

/-! ## Tokens -/

mutual

/-- The tokens of a part. -/
def Part.tokens : Part → List Token
  | .text body => [.text body]
  | .comment body => [.comment body]
  | .single tag => [.openTag tag]
  | .raw tag body close => [.raw tag body close]
  | .element tag children close => .openTag tag :: (tokensOf children ++ [.closeTag close])

/-- The tokens of a list of parts. -/
def tokensOf : List Part → List Token
  | [] => []
  | p :: ps => p.tokens ++ tokensOf ps

end

/-- The characters of some tokens. -/
def writtenTokens (ts : List Token) : List Char := ts.flatMap Token.written

/-- The characters of a part. -/
def Part.written (p : Part) : List Char := writtenTokens p.tokens

/-- The characters of a list of parts. -/
def writtenOf (ps : List Part) : List Char := writtenTokens (tokensOf ps)

theorem OpenTag.written_ne_nil (t : OpenTag) : t.written ≠ [] := by simp [written]

theorem CloseTag.written_ne_nil (t : CloseTag) : t.written ≠ [] := by simp [written]

@[simp] theorem writtenTokens_nil : writtenTokens [] = [] := rfl

@[simp] theorem writtenTokens_cons (t : Token) (ts : List Token) :
    writtenTokens (t :: ts) = t.written ++ writtenTokens ts := rfl

@[simp] theorem writtenTokens_append (ts us : List Token) :
    writtenTokens (ts ++ us) = writtenTokens ts ++ writtenTokens us := List.flatMap_append

@[simp] theorem tokensOf_nil : tokensOf [] = [] := rfl

@[simp] theorem tokensOf_cons (p : Part) (ps : List Part) :
    tokensOf (p :: ps) = p.tokens ++ tokensOf ps := rfl

@[simp] theorem tokensOf_append (ps qs : List Part) :
    tokensOf (ps ++ qs) = tokensOf ps ++ tokensOf qs := by
  induction ps with
  | nil => rfl
  | cons p ps ih => rw [List.cons_append, tokensOf_cons, ih, tokensOf_cons, List.append_assoc]

@[simp] theorem writtenOf_nil : writtenOf [] = [] := rfl

@[simp] theorem writtenOf_cons (p : Part) (ps : List Part) :
    writtenOf (p :: ps) = p.written ++ writtenOf ps := by
  simp [writtenOf, Part.written]

@[simp] theorem writtenOf_append (ps qs : List Part) :
    writtenOf (ps ++ qs) = writtenOf ps ++ writtenOf qs := by
  simp [writtenOf]

namespace Part

@[simp] theorem written_text (body : List Char) : (text body).written = body := by
  simp [written, tokens, Token.written]

@[simp] theorem written_comment (body : List Char) : (comment body).written = body := by
  simp [written, tokens, Token.written]

@[simp] theorem written_single (tag : OpenTag) : (single tag).written = tag.written := by
  simp [written, tokens, Token.written]

@[simp] theorem written_raw (tag : OpenTag) (body : List Char) (close : CloseTag) :
    (raw tag body close).written = tag.written ++ (body ++ close.written) := by
  simp [written, tokens, Token.written]

@[simp] theorem written_element (tag : OpenTag) (children : List Part) (close : CloseTag) :
    (element tag children close).written =
      tag.written ++ (writtenOf children ++ close.written) := by
  simp [written, writtenOf, tokens, Token.written]

end Part

/-! ## Nodes -/

mutual

/-- The node that a part is when it is written from `offset` on. -/
def Part.nodeAt (offset : Nat) : Part → Node
  | .text body => .text (spanAt offset body)
  | .comment body => .comment (spanAt offset body)
  | .single tag => .element (tag.shellAt offset none) []
  | .raw tag body close =>
    let inside := offset + byteLength tag.written
    .element (tag.shellAt offset (some (spanAt (inside + byteLength body) close.written)))
      (Assembly.rawContent inside body)
  | .element tag children close =>
    let inside := offset + byteLength tag.written
    .element
      (tag.shellAt offset
        (some (spanAt (inside + byteLength (writtenOf children)) close.written)))
      (nodesAt inside children)

/-- The nodes that parts are when they are written from `offset` on. -/
def nodesAt (offset : Nat) : List Part → List Node
  | [] => []
  | p :: ps => p.nodeAt offset :: nodesAt (offset + byteLength p.written) ps

end

@[simp] theorem nodesAt_nil (offset : Nat) : nodesAt offset [] = [] := rfl

@[simp] theorem nodesAt_cons (offset : Nat) (p : Part) (ps : List Part) :
    nodesAt offset (p :: ps) = p.nodeAt offset :: nodesAt (offset + byteLength p.written) ps := rfl

theorem nodesAt_append (offset : Nat) (ps qs : List Part) :
    nodesAt offset (ps ++ qs) =
      nodesAt offset ps ++ nodesAt (offset + byteLength (writtenOf ps)) qs := by
  induction ps generalizing offset with
  | nil => simp
  | cons p ps ih => simp [ih, Nat.add_assoc]

/-! ## Pairing -/

theorem sameLetters_comm (a b : List Char) : sameLetters a b = sameLetters b a := by
  rw [sameLetters, sameLetters, Bool.beq_comm]

/-- The content of a token with an opening tag is what the tag's name asks for. -/
def Token.Apt : Token → Prop
  | .openTag tag => tag.selfClosing = true ∨ isRawName tag.name = false
  | .raw tag _ close =>
    tag.selfClosing = false ∧ isRawName tag.name = true ∧ sameLetters close.name tag.name = true
  | _ => True

/-- Whether an element with this tag has content that is markup, and a closing tag. -/
structure OpenTag.Encloses (tag : OpenTag) : Prop where
  not_selfClosing : tag.selfClosing = false
  not_void : isVoidName tag.name = false
  not_raw : isRawName tag.name = false

mutual

/-- The tags of a part belong together, at every depth. -/
def Part.Paired : Part → Prop
  | .text _ => True
  | .comment _ => True
  | .single tag => tag.selfClosing = true ∨ isVoidName tag.name = true
  | .raw tag _ close =>
    tag.selfClosing = false ∧ isRawName tag.name = true ∧ sameLetters close.name tag.name = true
  | .element tag children close =>
    tag.Encloses ∧ sameLetters tag.name close.name = true ∧ PairedAll children

/-- The tags of some parts belong together, at every depth. -/
def PairedAll : List Part → Prop
  | [] => True
  | p :: ps => p.Paired ∧ PairedAll ps

end

theorem pairedAll_append {ps qs : List Part} :
    PairedAll (ps ++ qs) ↔ PairedAll ps ∧ PairedAll qs := by
  induction ps with
  | nil => simp [PairedAll]
  | cons p ps ih => simp [PairedAll, ih, and_assoc]

/-! ## From parts to nodes -/

namespace Assembly

/-- What has been assembled after some more parts at the current level. -/
def extend (a : Assembly) (ps : List Part) : Assembly :=
  ⟨a.offset + byteLength (writtenOf ps), (nodesAt a.offset ps).reverse ++ a.level, a.enclosing⟩

@[simp] theorem extend_nil (a : Assembly) : a.extend [] = a := by simp [extend]

theorem extend_append (a : Assembly) (ps qs : List Part) :
    a.extend (ps ++ qs) = (a.extend ps).extend qs := by
  simp [extend, nodesAt_append, Nat.add_assoc]

end Assembly

mutual

/-- The tokens of a part add its node to the current level. -/
theorem foldlM_read_tokens (a : Assembly) :
    ∀ p : Part, p.Paired → p.tokens.foldlM Assembly.read a = .ok (a.extend [p])
  | .text body, _ => by
    simp [Part.tokens, Assembly.read, Assembly.extend, Assembly.add, Token.written, Part.nodeAt,
      spanAt, pure, Except.pure, bind, Except.bind]
  | .comment body, _ => by
    simp [Part.tokens, Assembly.read, Assembly.extend, Assembly.add, Token.written, Part.nodeAt,
      spanAt, pure, Except.pure, bind, Except.bind]
  | .single tag, h => by
    have h : (tag.selfClosing || isVoidName tag.name) = true := by simpa [Part.Paired] using h
    simp [Part.tokens, Assembly.read, Assembly.extend, Assembly.add, Token.written, Part.nodeAt,
      spanAt, h, pure, Except.pure, bind, Except.bind]
  | .raw tag body close, _ => by
    simp [Part.tokens, Assembly.read, Assembly.extend, Assembly.add, Token.written, Part.nodeAt,
      spanAt, pure, Except.pure, bind, Except.bind]
  | .element tag children close, h => by
    obtain ⟨ho, hs, hc⟩ := h
    -- the opening tag starts a level, which the children fill and the closing tag ends
    let inner : Assembly :=
      ⟨a.offset + byteLength tag.written, [], ⟨tag.shellAt a.offset none, a.level⟩ :: a.enclosing⟩
    have hopen : a.read (.openTag tag) = .ok inner := by
      simp [Assembly.read, ho.not_selfClosing, ho.not_void, spanAt, Token.written, inner]
    have hclose : (inner.extend children).read (.closeTag close) =
        .ok (a.extend [.element tag children close]) := by
      have hname : (String.ofList tag.name).toList = tag.name := String.toList_ofList
      simp [Assembly.read, Assembly.close, Assembly.extend, inner, OpenTag.shellAt, hname, hs,
        Part.nodeAt, spanAt, Token.written, Nat.add_assoc]
    simp only [Part.tokens, List.foldlM_cons, List.foldlM_append, List.foldlM_nil, hopen]
    show ((tokensOf children).foldlM Assembly.read inner >>= _) = _
    rw [foldlM_read_tokensOf inner children hc]
    show (Assembly.read (inner.extend children) (.closeTag close) >>= _) = _
    rw [hclose]
    rfl

/-- **The tokens of paired parts are assembled into their nodes**, whatever was read before. -/
theorem foldlM_read_tokensOf (a : Assembly) :
    ∀ ps : List Part, PairedAll ps → (tokensOf ps).foldlM Assembly.read a = .ok (a.extend ps)
  | [], _ => by rw [Assembly.extend_nil]; rfl
  | p :: ps, h => by
    rw [tokensOf_cons, List.foldlM_append, foldlM_read_tokens a p h.1]
    show (tokensOf ps).foldlM Assembly.read (a.extend [p]) = _
    rw [foldlM_read_tokensOf _ ps h.2, ← Assembly.extend_append]
    rfl

end

theorem parse_of_tokenize {cs : List Char} {ps : List Part}
    (ht : tokenize cs = (tokensOf ps, none)) (hp : PairedAll ps) :
    parse cs = .ok (nodesAt 0 ps) := by
  simp only [parse, ht, assemble, foldlM_read_tokensOf Assembly.start ps hp]
  simp [Assembly.extend, Assembly.start, Assembly.finish]

/-! ## From nodes to parts -/

/-- An element whose closing tag has not been read, and the parts before it at its level. -/
structure OpenPart where
  tag : OpenTag
  before : List Part

/-- The tokens up to the current level, given the open elements, the innermost one first. -/
def openTokens : List OpenPart → List Token
  | [] => []
  | o :: outer => openTokens outer ++ (tokensOf o.before ++ [.openTag o.tag])

/-- The offset at which the current level starts. -/
def levelStart (os : List OpenPart) : Nat := byteLength (writtenTokens (openTokens os))

/-- The open elements as they are assembled. -/
def openElements : List OpenPart → List OpenElement
  | [] => []
  | o :: outer =>
    ⟨o.tag.shellAt (levelStart outer + byteLength (writtenOf o.before)) none,
      (nodesAt (levelStart outer) o.before).reverse⟩ :: openElements outer

/-- What has been assembled from open elements and the parts of the current level. -/
def Assembly.ofParts (os : List OpenPart) (level : List Part) : Assembly :=
  Assembly.extend ⟨levelStart os, [], openElements os⟩ level

/-- The tags read so far belong together. -/
def OpenPaired (os : List OpenPart) (level : List Part) : Prop :=
  PairedAll level ∧ ∀ o ∈ os, o.tag.Encloses ∧ PairedAll o.before

/-- A token that is a part by itself is added to the current level. -/
theorem read_ofParts_single {os : List OpenPart} {level : List Part} {p : Part} {t : Token}
    (ht : p.tokens = [t]) (hp : p.Paired) :
    (Assembly.ofParts os level).read t = .ok (Assembly.ofParts os (level ++ [p])) := by
  have h := foldlM_read_tokens (Assembly.ofParts os level) p hp
  rw [ht] at h
  rw [Assembly.ofParts, Assembly.ofParts, Assembly.extend_append, ← Assembly.ofParts, ← h]
  simp only [List.foldlM_cons, List.foldlM_nil]
  cases (Assembly.ofParts os level).read t <;> rfl

/-- **One token**: what has been assembled stays the image of parts, whose tokens are those read. -/
theorem exists_parts_of_read {os : List OpenPart} {level : List Part} {t : Token} {a : Assembly}
    (hapt : t.Apt) (hpair : OpenPaired os level)
    (h : (Assembly.ofParts os level).read t = .ok a) :
    ∃ os' level', a = Assembly.ofParts os' level' ∧ OpenPaired os' level' ∧
      openTokens os' ++ tokensOf level' = openTokens os ++ tokensOf level ++ [t] := by
  -- a token that is a part by itself
  have hsingle : ∀ p : Part, p.tokens = [t] → p.Paired →
      ∃ os' level', a = Assembly.ofParts os' level' ∧ OpenPaired os' level' ∧
        openTokens os' ++ tokensOf level' = openTokens os ++ tokensOf level ++ [t] := by
    intro p ht hp
    rw [read_ofParts_single ht hp] at h
    refine ⟨os, level ++ [p], (Except.ok.inj h).symm, ⟨?_, hpair.2⟩, ?_⟩
    · exact pairedAll_append.2 ⟨hpair.1, hp, trivial⟩
    · simp [ht]
  cases t with
  | text body => exact hsingle (.text body) rfl trivial
  | comment body => exact hsingle (.comment body) rfl trivial
  | raw tag body close => exact hsingle (.raw tag body close) rfl hapt
  | openTag tag =>
    by_cases hs : (tag.selfClosing || isVoidName tag.name) = true
    · exact hsingle (.single tag) rfl (by simpa [Part.Paired] using hs)
    · -- the tag opens a level
      have hs' : tag.selfClosing = false ∧ isVoidName tag.name = false := by simpa using hs
      have hraw : isRawName tag.name = false := by
        rcases hapt with h' | h'
        · rw [hs'.1] at h'; cases h'
        · exact h'
      refine ⟨⟨tag, level⟩ :: os, [], ?_, ⟨trivial, ?_⟩, ?_⟩
      · simp only [Assembly.read, hs, Bool.false_eq_true, if_false, Except.ok.injEq] at h
        rw [← h]
        simp [Assembly.ofParts, Assembly.extend, openElements, levelStart, openTokens, writtenOf,
          spanAt, Token.written, Nat.add_assoc]
      · intro o ho
        rcases List.mem_cons.1 ho with rfl | ho
        · exact ⟨⟨hs'.1, hs'.2, hraw⟩, hpair.1⟩
        · exact hpair.2 o ho
      · simp [openTokens]
  | closeTag close =>
    rw [Assembly.read] at h
    cases os with
    | nil => simp [Assembly.close, Assembly.ofParts, Assembly.extend, openElements] at h
    | cons o outer =>
      simp only [Assembly.close, Assembly.ofParts, Assembly.extend, openElements] at h
      split at h
      · rename_i hname
        have hname : sameLetters o.tag.name close.name = true := by
          simpa [OpenTag.shellAt] using hname
        have ho := hpair.2 o (List.mem_cons_self ..)
        refine ⟨outer, o.before ++ [.element o.tag level close], ?_, ⟨?_, ?_⟩, ?_⟩
        · rw [← Except.ok.inj h]
          simp [Assembly.ofParts, Assembly.extend, nodesAt_append, Part.nodeAt, OpenTag.shellAt,
            levelStart, openTokens, writtenOf, Token.written, spanAt, Part.written, Part.tokens,
            Nat.add_assoc]
        · exact pairedAll_append.2 ⟨ho.2, ⟨ho.1, hname, hpair.1⟩, trivial⟩
        · exact fun o' ho' => hpair.2 o' (List.mem_cons_of_mem _ ho')
        · simp [openTokens, Part.tokens]
      · cases h

/-- **All tokens**: what is assembled from apt tokens is the image of parts. -/
theorem exists_parts_of_foldlM {ts : List Token} (hapt : ∀ t ∈ ts, t.Apt) {os : List OpenPart}
    {level : List Part} {a : Assembly} (hpair : OpenPaired os level)
    (h : ts.foldlM Assembly.read (Assembly.ofParts os level) = .ok a) :
    ∃ os' level', a = Assembly.ofParts os' level' ∧ OpenPaired os' level' ∧
      openTokens os' ++ tokensOf level' = openTokens os ++ tokensOf level ++ ts := by
  induction ts generalizing os level with
  | nil => exact ⟨os, level, (Except.ok.inj h).symm, hpair, by simp⟩
  | cons t ts ih =>
    rw [List.foldlM_cons] at h
    cases hread : (Assembly.ofParts os level).read t with
    | error e => rw [hread] at h; cases h
    | ok b =>
      rw [hread] at h
      obtain ⟨os₁, level₁, rfl, hpair₁, htok₁⟩ :=
        exists_parts_of_read (hapt t (List.mem_cons_self ..)) hpair hread
      obtain ⟨os₂, level₂, ha, hpair₂, htok₂⟩ :=
        ih (fun t' ht' => hapt t' (List.mem_cons_of_mem _ ht')) hpair₁ h
      exact ⟨os₂, level₂, ha, hpair₂, by rw [htok₂, htok₁]; simp⟩

end Islands.Markup
