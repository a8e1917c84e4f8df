import Islands.Text.Blank
import Islands.Text.Search

/-!
# Regions of a component file

A component file is read from front to back as regions: comments, blocks, and single characters
that begin neither. The content of a block is passed over without being parsed.

* `readTag`: a tag up to the `>` that is not inside a quoted value.
* `readTemplate`: the content of a template block, which may hold templates itself, and its
  closing tag.
* `readRegion`, `regions`: the regions of a file, up to its end or to a block that has none;
  `eq_of_readRegion` says that no character is lost.
-/

namespace Islands.ComponentFile

/-! ## Tags and comments -/

/-- The blocks that are looked for. -/
inductive BlockName
  | template
  | script
  | style
deriving DecidableEq, Repr

/-- The name as it is written in a tag. -/
def BlockName.letters : BlockName → List Char
  | template => "template".toList
  | script => "script".toList
  | style => "style".toList

/-- Whether a text, taken from behind `<` or `</`, begins with exactly this name. -/
def startsName (name : BlockName) (cs : List Char) : Bool :=
  match dropLetters? name.letters cs with
  | some (c :: _) => isBlank c || c == '>' || c == '/'
  | _ => false

/-- The block whose opening tag a text begins with, taken from behind `<`. -/
def blockName? (cs : List Char) : Option BlockName :=
  [BlockName.template, .script, .style].find? (startsName · cs)

/-- A tag and the text after it. The tag ends at the first `>` outside quotation marks; `mark` is
the quotation mark that is open. -/
def readTag (mark : Option Char) : List Char → Option (List Char × List Char)
  | [] => none
  | c :: cs =>
    match mark with
    | some q => (readTag (if c == q then none else some q) cs).map (prepend [c])
    | none =>
      if c == '>' then some (['>'], cs)
      else (readTag (if c == '"' || c == '\'' then some c else none) cs).map (prepend [c])

/-- Whether a tag closes itself. -/
def isSelfClosing (tag : List Char) : Bool := ['/', '>'].isSuffixOf tag

/-- What a comment consists of, from behind its `<`, and the text after it. The end may overlap
the beginning; a comment without an end is the whole text. -/
def readComment? (cs : List Char) : Option (List Char × List Char) :=
  if (dropWord? ['!', '-', '-'] cs).isSome then
    match splitOnFirst ['-', '-', '>'] cs with
    | some (body, rest) => some (body ++ ['-', '-', '>'], rest)
    | none => some (cs, [])
  else none

/-- A text up to and with the first `>`, and the text after it. -/
def readThroughAngle (cs : List Char) : Option (List Char × List Char) :=
  (splitOnFirst ['>'] cs).map fun p => (p.1 ++ ['>'], p.2)

theorem eq_of_readTag {mark : Option Char} {cs tag rest : List Char}
    (h : readTag mark cs = some (tag, rest)) : cs = tag ++ rest := by
  induction cs generalizing mark tag with
  | nil => simp [readTag] at h
  | cons c cs ih =>
    unfold readTag at h
    split at h
    · obtain ⟨⟨a, b⟩, h', e⟩ := Option.map_eq_some_iff.1 h
      obtain ⟨rfl, rfl⟩ := Prod.mk.inj e
      simp [ih h']
    · split at h
      · rename_i hc
        obtain ⟨rfl, rfl⟩ := Prod.mk.inj (Option.some.inj h)
        simp [eq_of_beq hc]
      · obtain ⟨⟨a, b⟩, h', e⟩ := Option.map_eq_some_iff.1 h
        obtain ⟨rfl, rfl⟩ := Prod.mk.inj e
        simp [ih h']

theorem eq_of_readComment? {cs body rest : List Char}
    (h : readComment? cs = some (body, rest)) : cs = body ++ rest := by
  unfold readComment? at h
  split at h
  · split at h
    · rename_i e
      obtain ⟨rfl, rfl⟩ := Prod.mk.inj (Option.some.inj h)
      simp [eq_of_splitOnFirst e]
    · obtain ⟨rfl, rfl⟩ := Prod.mk.inj (Option.some.inj h)
      simp
  · cases h

theorem eq_of_readThroughAngle {cs body rest : List Char}
    (h : readThroughAngle cs = some (body, rest)) : cs = body ++ rest := by
  obtain ⟨⟨a, b⟩, h', e⟩ := Option.map_eq_some_iff.1 h
  obtain ⟨rfl, rfl⟩ := Prod.mk.inj e
  simp [eq_of_splitOnFirst h']

/-! ## Inside a template block -/

/-- A piece of the content of a template block. -/
inductive Piece
  /-- A character or comment, or a template that closes itself. -/
  | plain (text : List Char)
  /-- The opening tag of a template inside the block. -/
  | opened (tag : List Char)
  /-- The closing tag of a template. -/
  | closed (tag : List Char)
deriving DecidableEq, Repr

/-- The characters of a piece. -/
def Piece.text : Piece → List Char
  | plain text | opened text | closed text => text

/-- The piece that starts with `<` and goes on with a text; none if a tag in it has no end. -/
def readPieceAfterAngle (cs : List Char) : Option (Piece × List Char) :=
  match readComment? cs with
  | some (body, rest) => some (.plain ('<' :: body), rest)
  | none =>
    match cs with
    | '/' :: cs' =>
      if startsName .template cs' then
        (readThroughAngle cs).map fun p => (.closed ('<' :: p.1), p.2)
      else some (.plain ['<'], cs)
    | cs =>
      if startsName .template cs then
        (readTag none cs).map fun p =>
          (if isSelfClosing ('<' :: p.1) then .plain ('<' :: p.1) else .opened ('<' :: p.1), p.2)
      else some (.plain ['<'], cs)

theorem exists_of_readPieceAfterAngle {cs rest : List Char} {p : Piece}
    (h : readPieceAfterAngle cs = some (p, rest)) :
    ∃ body, p.text = '<' :: body ∧ cs = body ++ rest := by
  unfold readPieceAfterAngle at h
  split at h
  · rename_i e
    obtain ⟨rfl, rfl⟩ := Prod.mk.inj (Option.some.inj h)
    exact ⟨_, rfl, eq_of_readComment? e⟩
  · split at h
    · split at h
      · obtain ⟨⟨a, b⟩, h', e⟩ := Option.map_eq_some_iff.1 h
        obtain ⟨rfl, rfl⟩ := Prod.mk.inj e
        exact ⟨_, rfl, eq_of_readThroughAngle h'⟩
      · obtain ⟨rfl, rfl⟩ := Prod.mk.inj (Option.some.inj h)
        exact ⟨[], rfl, rfl⟩
    · split at h
      · obtain ⟨⟨a, b⟩, h', e⟩ := Option.map_eq_some_iff.1 h
        obtain ⟨rfl, rfl⟩ := Prod.mk.inj e
        refine ⟨a, ?_, eq_of_readTag h'⟩
        split <;> rfl
      · obtain ⟨rfl, rfl⟩ := Prod.mk.inj (Option.some.inj h)
        exact ⟨[], rfl, rfl⟩

theorem length_le_of_readPieceAfterAngle {cs rest : List Char} {p : Piece}
    (h : readPieceAfterAngle cs = some (p, rest)) : rest.length ≤ cs.length := by
  obtain ⟨body, _, rfl⟩ := exists_of_readPieceAfterAngle h
  simp

/-- The content of a template block, its closing tag and the text after it. `inner` is the number
of templates inside the block that are open. -/
def readTemplate (inner : Nat) (cs : List Char) : Option (List Char × List Char × List Char) :=
  match cs with
  | [] => none
  | '<' :: cs =>
    match h : readPieceAfterAngle cs with
    | none => none
    | some (p, rest) =>
      have := length_le_of_readPieceAfterAngle h
      match p with
      | .plain text => (readTemplate inner rest).map (prepend text)
      | .opened tag => (readTemplate (inner + 1) rest).map (prepend tag)
      | .closed tag =>
        match inner with
        | 0 => some ([], tag, rest)
        | inner + 1 => (readTemplate inner rest).map (prepend tag)
  | c :: cs => (readTemplate inner cs).map (prepend [c])
termination_by cs.length

theorem eq_of_readTemplate {inner : Nat} {cs content close rest : List Char}
    (h : readTemplate inner cs = some (content, close, rest)) :
    cs = content ++ (close ++ rest) := by
  fun_induction readTemplate inner cs generalizing content with
  | case1 => cases h
  | case2 => cases h
  | case3 inner cs tail text e _ _ ih =>
    obtain ⟨⟨a, b⟩, h', e'⟩ := Option.map_eq_some_iff.1 h
    obtain ⟨rfl, rfl⟩ := Prod.mk.inj e'
    obtain ⟨body, ht, rfl⟩ := exists_of_readPieceAfterAngle e
    have ht' : text = '<' :: body := ht
    simp [ht', ih h']
  | case4 inner cs tail tag e _ _ ih =>
    obtain ⟨⟨a, b⟩, h', e'⟩ := Option.map_eq_some_iff.1 h
    obtain ⟨rfl, rfl⟩ := Prod.mk.inj e'
    obtain ⟨body, ht, rfl⟩ := exists_of_readPieceAfterAngle e
    have ht' : tag = '<' :: body := ht
    simp [ht', ih h']
  | case5 cs tail tag e _ =>
    obtain ⟨rfl, rfl, rfl⟩ : [] = content ∧ tag = close ∧ tail = rest := by simpa using h
    obtain ⟨body, ht, rfl⟩ := exists_of_readPieceAfterAngle e
    have ht' : tag = '<' :: body := ht
    simp [ht']
  | case6 cs tail tag e inner _ _ ih =>
    obtain ⟨⟨a, b⟩, h', e'⟩ := Option.map_eq_some_iff.1 h
    obtain ⟨rfl, rfl⟩ := Prod.mk.inj e'
    obtain ⟨body, ht, rfl⟩ := exists_of_readPieceAfterAngle e
    have ht' : tag = '<' :: body := ht
    simp [ht', ih h']
  | case7 inner c cs _ ih =>
    obtain ⟨⟨a, b⟩, h', e'⟩ := Option.map_eq_some_iff.1 h
    obtain ⟨rfl, rfl⟩ := Prod.mk.inj e'
    simp [ih h']

/-! ## Regions -/

/-- A region of a component file. -/
inductive Region
  /-- A character that begins neither a comment nor a block. -/
  | plain (c : Char)
  | comment (text : List Char)
  /-- A block that is a single tag. -/
  | selfClosed (name : BlockName) (tag : List Char)
  | template (tag content close : List Char)
  /-- A script or style block; `body` runs through its closing tag, or to the end of the file. -/
  | embedded (name : BlockName) (tag body : List Char)
deriving DecidableEq, Repr

/-- The characters of a region. -/
def Region.text : Region → List Char
  | plain c => [c]
  | comment text => text
  | selfClosed _ tag => tag
  | template tag content close => tag ++ (content ++ close)
  | embedded _ tag body => tag ++ body

/-- What follows the opening tag of a script or style block, through its closing tag, and the text
after it. -/
def readEmbedded (name : BlockName) (cs : List Char) : List Char × List Char :=
  match splitBeforeLetters ('<' :: '/' :: name.letters) cs with
  | none => (cs, [])
  | some (body, rest) =>
    match readThroughAngle rest with
    | none => (cs, [])
    | some p => prepend body p

/-- What follows the opening tag `tag` of a block; none if a template is not closed. -/
def readBlock (name : BlockName) (tag cs : List Char) : Option (Region × List Char) :=
  match name with
  | .template => (readTemplate 0 cs).map fun p => (.template tag p.1 p.2.1, p.2.2)
  | name => some (.embedded name tag (readEmbedded name cs).1, (readEmbedded name cs).2)

/-- The region that starts with `<` and goes on with a text; none if a block in it has no end. -/
def readRegionAfterAngle (cs : List Char) : Option (Region × List Char) :=
  match readComment? cs with
  | some (body, rest) => some (.comment ('<' :: body), rest)
  | none =>
    match blockName? cs with
    | none => some (.plain '<', cs)
    | some name =>
      match readTag none cs with
      | none => none
      | some (tag, rest) =>
        if isSelfClosing ('<' :: tag) then some (.selfClosed name ('<' :: tag), rest)
        else readBlock name ('<' :: tag) rest

/-- The region that a text begins with. -/
def readRegion : List Char → Option (Region × List Char)
  | [] => none
  | '<' :: cs => readRegionAfterAngle cs
  | c :: cs => some (.plain c, cs)

theorem readEmbedded_append (name : BlockName) (cs : List Char) :
    (readEmbedded name cs).1 ++ (readEmbedded name cs).2 = cs := by
  unfold readEmbedded
  split
  · simp
  · rename_i body rest e
    split
    · simp
    · rename_i p e'
      have h₁ := eq_of_splitBeforeLetters e
      have h₂ := eq_of_readThroughAngle (show readThroughAngle rest = some (p.1, p.2) from e')
      rw [h₁, h₂]
      simp

theorem eq_of_readBlock {name : BlockName} {tag cs rest : List Char} {r : Region}
    (h : readBlock name tag cs = some (r, rest)) : tag ++ cs = r.text ++ rest := by
  unfold readBlock at h
  split at h
  · obtain ⟨⟨a, b, c⟩, h', e⟩ := Option.map_eq_some_iff.1 h
    obtain ⟨rfl, rfl⟩ := Prod.mk.inj e
    simp [Region.text, eq_of_readTemplate h']
  · rename_i name _
    obtain ⟨rfl, rfl⟩ := Prod.mk.inj (Option.some.inj h)
    simp [Region.text, readEmbedded_append]

/-- A region and what remains are the text that was read, and the region is not empty. -/
theorem eq_of_readRegion {cs rest : List Char} {r : Region}
    (h : readRegion cs = some (r, rest)) : cs = r.text ++ rest ∧ rest.length < cs.length := by
  have key : cs = r.text ++ rest ∧ r.text ≠ [] := by
    unfold readRegion at h
    split at h
    · cases h
    · unfold readRegionAfterAngle at h
      split at h
      · rename_i e
        obtain ⟨rfl, rfl⟩ := Prod.mk.inj (Option.some.inj h)
        simp [Region.text, eq_of_readComment? e]
      · split at h
        · obtain ⟨rfl, rfl⟩ := Prod.mk.inj (Option.some.inj h)
          simp [Region.text]
        · split at h
          · cases h
          · rename_i e
            split at h
            · obtain ⟨rfl, rfl⟩ := Prod.mk.inj (Option.some.inj h)
              simp [Region.text, eq_of_readTag e]
            · have hb := eq_of_readBlock h
              refine ⟨by rw [← hb, eq_of_readTag e]; simp, ?_⟩
              unfold readBlock at h
              split at h
              · obtain ⟨_, _, e'⟩ := Option.map_eq_some_iff.1 h
                obtain ⟨rfl, _⟩ := Prod.mk.inj e'
                simp [Region.text]
              · obtain ⟨rfl, _⟩ := Prod.mk.inj (Option.some.inj h)
                simp [Region.text]
    · obtain ⟨rfl, rfl⟩ := Prod.mk.inj (Option.some.inj h)
      simp [Region.text]
  refine ⟨key.1, ?_⟩
  have h₁ := congrArg List.length key.1
  have h₂ := List.length_pos_iff.2 key.2
  rw [List.length_append] at h₁
  omega

/-- The regions of a file, up to its end or to a block that has none. -/
def regions (cs : List Char) : List Region :=
  match h : readRegion cs with
  | none => []
  | some (r, rest) =>
    have := (eq_of_readRegion h).2
    r :: regions rest
termination_by cs.length

end Islands.ComponentFile
