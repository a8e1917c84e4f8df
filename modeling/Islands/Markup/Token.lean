import Islands.Text.Blank
import Islands.Markup.Reference

/-!
# Tokens of markup

A token keeps all that was written: its parts, put together again by `Token.written`, are the
characters it was read from. Places are no part of a token; they follow from the lengths of the
tokens before it.

* `WrittenAttribute`, `OpenTag`, `CloseTag`: the parts of tags.
* `Token`: text, comment, tag, or an element whose content is not markup.
* `isVoidName`, `isRawName`: the elements without content and those with raw content.
-/

namespace Islands.Markup

/-! ## Names -/

/-- Whether a character may stand in the name of a tag. -/
def isNameChar (c : Char) : Bool := !(isBlank c || c == '>' || c == '/')

/-- The elements that have no content and no closing tag. -/
def voidNames : List String :=
  ["area", "base", "br", "col", "embed", "hr", "img", "input", "link", "meta", "param", "source",
    "track", "wbr"]

/-- Whether an element of this name, in any case, has no content and no closing tag. -/
def isVoidName (name : List Char) : Bool :=
  voidNames.contains (String.ofList (name.map Char.toLower))

/-- Whether the content of an element of this name, in any case, is not markup. -/
def isRawName (name : List Char) : Bool :=
  ["script", "style"].contains (String.ofList (name.map Char.toLower))

/-! ## Attributes -/

/-- The value of an attribute as written: between two equal quotation marks, or without. -/
inductive WrittenValue
  | quoted (mark : Char) (body : List Char)
  | bare (body : List Char)
deriving DecidableEq, Repr

namespace WrittenValue

/-- The value with its quotation marks. -/
def written : WrittenValue → List Char
  | quoted mark body => mark :: (body ++ [mark])
  | bare body => body

/-- The value without its quotation marks. -/
def body : WrittenValue → List Char
  | quoted _ body => body
  | bare body => body

/-- What the value means: its character references are decoded. -/
def decoded (v : WrittenValue) : String := String.ofList (decodeReferences v.body)

end WrittenValue

/-- The part of an attribute after its name: `=`, with the blanks around it, and the value. -/
structure Assignment where
  before : List Char
  after : List Char
  value : WrittenValue
deriving DecidableEq, Repr

/-- The assignment with its `=`. -/
def Assignment.written (a : Assignment) : List Char :=
  a.before ++ '=' :: (a.after ++ a.value.written)

/-- An attribute as written; `lead` are the blanks and stray slashes in front of it. -/
structure WrittenAttribute where
  lead : List Char
  name : List Char
  assignment : Option Assignment
deriving DecidableEq, Repr

namespace WrittenAttribute

/-- The attribute without what stands in front of it. -/
def core (a : WrittenAttribute) : List Char :=
  a.name ++ (a.assignment.map Assignment.written).getD []

/-- The attribute with what stands in front of it. -/
def written (a : WrittenAttribute) : List Char := a.lead ++ a.core

end WrittenAttribute

/-! ## Tags -/

/-- An opening tag; `trail` are the blanks and stray slashes before its end. -/
structure OpenTag where
  name : List Char
  attributes : List WrittenAttribute
  trail : List Char
  selfClosing : Bool
deriving DecidableEq, Repr

/-- The end of an opening tag. -/
def tagEnd (selfClosing : Bool) : List Char := if selfClosing then ['/', '>'] else ['>']

/-- The tag, `<` through `>`. -/
def OpenTag.written (t : OpenTag) : List Char :=
  '<' :: (t.name ++ (t.attributes.flatMap WrittenAttribute.written ++
    (t.trail ++ tagEnd t.selfClosing)))

/-- A closing tag; `gap` are the blanks after its name. -/
structure CloseTag where
  name : List Char
  gap : List Char
deriving DecidableEq, Repr

/-- The tag, `</` through `>`. -/
def CloseTag.written (t : CloseTag) : List Char := '<' :: '/' :: (t.name ++ (t.gap ++ ['>']))

/-! ## Tokens -/

/-- A piece of markup. -/
inductive Token
  /-- Text, with the interpolations in it. -/
  | text (body : List Char)
  /-- A comment, or a declaration such as a document type. -/
  | comment (body : List Char)
  | openTag (tag : OpenTag)
  | closeTag (tag : CloseTag)
  /-- A whole element whose content is not markup. -/
  | raw (tag : OpenTag) (body : List Char) (close : CloseTag)
deriving DecidableEq, Repr

/-- The characters of a token. -/
def Token.written : Token → List Char
  | text body => body
  | comment body => body
  | openTag tag => tag.written
  | closeTag tag => tag.written
  | raw tag body close => tag.written ++ (body ++ close.written)

end Islands.Markup
