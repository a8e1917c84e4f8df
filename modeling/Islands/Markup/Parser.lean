import Islands.Markup.Lexer
import Islands.Markup.Tree

/-!
# From tokens to nodes

The tokens of a template are assembled one after the other. The state of the assembly is the
offset reached, the nodes read so far at the current level, and the elements that are still open.

* `Assembly.read`: the effect of one token.
* `parse`: the nodes of a template. The first fault in reading order is the one reported.
-/

namespace Islands.Markup

/-! ## Places in a tag -/

/-- The attributes of a tag, the first of them written from `offset` on. -/
def locateAttributes (offset : Nat) : List WrittenAttribute → List Attribute
  | [] => []
  | a :: rest =>
    let start := offset + byteLength a.lead
    let stop := start + byteLength a.core
    ⟨String.ofList a.name, a.assignment.map (·.value.decoded), ⟨start, stop⟩⟩ ::
      locateAttributes stop rest

/-- The attributes of a tag that is written from `offset` on. -/
def OpenTag.attributesAt (offset : Nat) (t : OpenTag) : List Attribute :=
  locateAttributes (offset + 1 + byteLength t.name) t.attributes

/-- The place of a token that is written from `offset` on. -/
def spanAt (offset : Nat) (written : List Char) : Span := ⟨offset, offset + byteLength written⟩

/-- An element without children whose opening tag is written from `offset` on. -/
def OpenTag.shellAt (offset : Nat) (t : OpenTag) (closeTag : Option Span) : Shell :=
  ⟨String.ofList t.name, t.attributesAt offset, spanAt offset t.written, closeTag⟩

/-! ## Assembly -/

/-- An element whose closing tag has not been read, and the nodes before it at its level, the last
one first. -/
structure OpenElement where
  shell : Shell
  before : List Node
deriving DecidableEq, Repr

/-- What has been assembled: the nodes of the current level, the last one first, and the open
elements, the innermost one first. -/
structure Assembly where
  offset : Nat
  level : List Node
  enclosing : List OpenElement
deriving DecidableEq, Repr

namespace Assembly

/-- Nothing has been read. -/
def start : Assembly := ⟨0, [], []⟩

/-- Adds a complete node that ends at `stop`. -/
def add (a : Assembly) (stop : Nat) (n : Node) : Assembly := ⟨stop, n :: a.level, a.enclosing⟩

/-- Ends the innermost open element with a closing tag. -/
def close (a : Assembly) (tag : CloseTag) (place : Span) : Except ParseError Assembly :=
  match a.enclosing with
  | [] => .error (.unexpectedClosingTag (String.ofList tag.name) place)
  | e :: outer =>
    if sameLetters e.shell.name.toList tag.name then
      let shell := { e.shell with closeTag := some place }
      .ok ⟨place.stop, .element shell a.level.reverse :: e.before, outer⟩
    else
      .error (.mismatchedClosingTag (String.ofList tag.name) place e.shell.name e.shell.openTag)

/-- The nodes of an element with raw content: one text, unless it is empty. -/
def rawContent (offset : Nat) (body : List Char) : List Node :=
  if body.isEmpty then [] else [.text (spanAt offset body)]

/-- The effect of a token. -/
def read (a : Assembly) (t : Token) : Except ParseError Assembly :=
  let place := spanAt a.offset t.written
  match t with
  | .text _ => .ok (a.add place.stop (.text place))
  | .comment _ => .ok (a.add place.stop (.comment place))
  | .openTag tag =>
    let shell := tag.shellAt a.offset none
    if tag.selfClosing || isVoidName tag.name then .ok (a.add place.stop (.element shell []))
    else .ok ⟨place.stop, [], ⟨shell, a.level⟩ :: a.enclosing⟩
  | .closeTag tag => a.close tag place
  | .raw tag body close =>
    let inside := a.offset + byteLength tag.written
    let closing := spanAt (inside + byteLength body) close.written
    .ok (a.add place.stop (.element (tag.shellAt a.offset (some closing)) (rawContent inside body)))

/-- The nodes, once the text has ended. -/
def finish (a : Assembly) : Except ParseError (List Node) :=
  match a.enclosing with
  | [] => .ok a.level.reverse
  | e :: _ => .error (.unclosedElement e.shell.name e.shell.openTag)

end Assembly

/-- The nodes of a text that was read as `tokens`, up to `fault` if there is one. -/
def assemble (tokens : List Token) (fault : Option ParseError) : Except ParseError (List Node) :=
  match tokens.foldlM Assembly.read Assembly.start with
  | .error e => .error e
  | .ok a =>
    match fault with
    | some e => .error (e.shift a.offset)
    | none => a.finish

/-- The nodes of a template. -/
def parse (template : List Char) : Except ParseError (List Node) :=
  let (tokens, fault) := tokenize template
  assemble tokens fault

end Islands.Markup
